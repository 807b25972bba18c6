import RecipeManifest.Files.System
import RecipeManifest.Json.Reader
import RecipeManifest.Token.Basic

/-!
What can go wrong, and how it is told.

A report is meant for the user: it has a message and mostly a suggestion. Paths in it are shown
from the working directory. The other faults come from below and have only a message.
-/

namespace RecipeManifest

/-- A fault that is reported to the user. -/
inductive Report where
  | general (message : String) (suggestion : Option String)
  | missing (path : String) (kind : String)
  | invalidCookbook (path : String) (reason : String)
  | unreadable (path : String) (line : Option Int) (detail : String)
  deriving DecidableEq, Repr

namespace Report

/-- A path that has to be a directory and is not. -/
def notDirectory (shown : String) (kind : String) : Report :=
  .general s!"Path is not a {kind}: {shown}"
    (some ("Expected a directory but found a file. Check that you're " ++
      s!"pointing to the {kind} directory, not a file within it."))

def suggestion : Report → Option String
  | general _ suggestion => suggestion
  | missing _ _ =>
    some ("Check that the path exists and you have read permissions. " ++
      "For cookbooks, point to the cookbook root directory containing " ++
      "metadata.json and a recipes directory.")
  | invalidCookbook _ _ =>
    some ("Ensure the directory contains a Chef cookbook whose metadata " ++
      "declares a name, either as the 'name' field of metadata.json or " ++
      "a name line in metadata.rb.")
  | unreadable _ _ _ =>
    some ("Check that the recipe contains valid Chef Ruby DSL syntax. " ++
      "Only resource declarations are translated; other Ruby code " ++
      "needs manual conversion.")

/-- Where in a file a fault lies. Line zero stands for no line. -/
def location : Option Int → String
  | some line => if line = 0 then "" else s!" at line {line}"
  | none => ""

def message (display : String → String) : Report → String
  | general message _ => message
  | missing path kind => s!"Could not find {kind}: {display path}"
  | invalidCookbook path reason => s!"Invalid cookbook at {display path}: {reason}"
  | unreadable path line detail =>
    s!"Failed to parse {display path}{location line}" ++
      if detail = "" then "" else s!": {detail}"

/-- The message, and the suggestion if it says something. -/
def text (display : String → String) (r : Report) : String :=
  match r.suggestion with
  | none | some "" => r.message display
  | some suggestion => s!"{r.message display}\n\nSuggestion: {suggestion}"

end Report

/-- Everything that stops the work. -/
inductive Fault where
  | report (report : Report)
  | path (fault : PathFault)
  /-- The system refused an operation at a place. -/
  | system (errno : Errno) (path : String)
  /-- The disk refused the bytes of an open file. -/
  | disk (errno : Errno)
  | undecodable (fault : Text.Utf8Fault)
  /-- A number starts with a digit that has no decimal value. -/
  | digitWithoutPlace (detail : String)
  /-- A node without a value stands where a value is needed. -/
  | noValue (node : String)
  | unknownSetting (name : String)
  /-- A setting has the name of what it would be set on. -/
  | takenSetting (name : String)
  /-- A whole number in the metadata has too many digits. -/
  | tooManyDigits (count : Nat)
  /-- Any other failure. -/
  | failure (message : String)
  /-- No failure, but the end of the whole program with this code. -/
  | exit (code : Int)
  /-- The program is interrupted. -/
  | interrupt
  deriving DecidableEq, Repr

namespace Fault

/-- The fault of a malformed text in a source of that name. -/
def ofLex (source : String) (f : LexFault) : Fault :=
  match f.cause with
  | .digitWithoutPlace _ => .digitWithoutPlace f.cause.detail
  | cause => .report (.unreadable source (some f.line) cause.detail)

/-- The program itself is to end. -/
def isExit : Fault → Bool
  | exit _ | interrupt => true
  | _ => false

/-- The name under which a fault is logged. -/
def kind : Fault → String
  | report (.general _ _) => "Chef2PuppetError"
  | report (.missing _ _) => "ChefFileNotFoundError"
  | report (.invalidCookbook _ _) => "InvalidCookbookError"
  | report (.unreadable _ _ _) => "ParseError"
  | path (.unencodable _ _) => "UnicodeEncodeError"
  | path _ | tooManyDigits _ => "ValueError"
  | system .noEntry _ => "FileNotFoundError"
  | system .entryExists _ => "FileExistsError"
  | system .notDirectory _ => "NotADirectoryError"
  | system .isDirectory _ => "IsADirectoryError"
  | system _ _ | disk _ => "OSError"
  | undecodable _ => "UnicodeDecodeError"
  | digitWithoutPlace _ => "AttributeError"
  | noValue _ | unknownSetting _ | takenSetting _ => "TypeError"
  | failure _ => "RuntimeError"
  | exit _ => "SystemExit"
  | interrupt => "KeyboardInterrupt"

def text (display : String → String) : Fault → String
  | report r => r.text display
  | path f => f.message
  | system errno place => s!"[Errno {errno.code}] {errno.text}: {shownText place}"
  | disk errno => s!"[Errno {errno.code}] {errno.text}"
  | undecodable f => f.message
  | digitWithoutPlace detail => detail
  | noValue node => s!"Unsupported expression node: {node}"
  | unknownSetting name =>
    s!"TranslatorSettings.__init__() got an unexpected keyword argument '{name}'"
  | takenSetting name =>
    s!"TranslatorSettings.__init__() got multiple values for argument '{name}'"
  | tooManyDigits count => (JsonProblem.tooManyDigits count).text
  | failure message => message
  | exit code => toString code
  | interrupt => ""

end Fault

end RecipeManifest

import RecipeManifest.Files.System
import RecipeManifest.Text.Likeness

/-!
The options of the command, and how they are read from its arguments.

A value follows its option as the next argument, or directly: after an equals sign for a long name,
after the letter for a short one. Two hyphens alone end the options.
-/

namespace RecipeManifest.Command

/-- An option of the command. -/
inductive Switch where
  | version | output | cookbook | help
  deriving DecidableEq, Repr

namespace Switch

def all : List Switch := [version, output, cookbook, help]

def longName : Switch → String
  | version => "--version"
  | output => "--output"
  | cookbook => "--cookbook"
  | help => "--help"

def takesValue : Switch → Bool
  | output | cookbook => true
  | version | help => false

def ofLongName? (name : String) : Option Switch :=
  all.find? fun s => s.longName == name

def ofLetter? : Char → Option Switch
  | 'o' => some output
  | 'c' => some cookbook
  | _ => none

/-- The option with both its names, as messages show it. -/
def title : Switch → String
  | output => "'-o' / '--output'"
  | cookbook => "'-c' / '--cookbook'"
  | version => "'--version'"
  | help => "'--help'"

end Switch

/-- What is wrong with the arguments. -/
inductive UsageFault where
  | unknown (name : String) (alike : List String)
  | valueMissing (name : String)
  | valueUnwanted (name : String)
  | optionMissing (s : Switch)
  | notDirectory (s : Switch) (path : String)
  | unexpected (args : List String)
  deriving DecidableEq, Repr

namespace UsageFault

/-- Names that could have been meant. -/
def suggestion : List String → String
  | [] => ""
  | [name] => s!" Did you mean {name}?"
  | names => " (Possible options: " ++ ", ".intercalate names ++ ")"

def text : UsageFault → String
  | unknown name alike => s!"No such option: {name}" ++ suggestion alike
  | valueMissing name => s!"Option {shownText name} requires an argument."
  | valueUnwanted name => s!"Option {shownText name} does not take a value."
  | optionMissing s => s!"Missing option {s.title}."
  | notDirectory s path => s!"Invalid value for {s.title}: Directory {shownText path} is a file."
  | unexpected [arg] => s!"Got unexpected extra argument ({arg})"
  | unexpected args => "Got unexpected extra arguments (" ++ " ".intercalate args ++ ")"

/-- Faults in a single option are told without a reminder of the usage. -/
def isBare : UsageFault → Bool
  | valueMissing _ | valueUnwanted _ => true
  | _ => false

end UsageFault

/-- One argument by itself. -/
inductive Argument where
  | word (text : String)
  | endOfOptions
  /-- An option that needs no value, or has it with it. -/
  | complete (s : Switch) (value : String)
  /-- An option whose value is the next argument. -/
  | wanting (s : Switch) (name : String)
  deriving DecidableEq, Repr

namespace Argument

/-- An option by its long name, with a value that is attached to it. -/
def ofLong (name : String) (attached : Option String) (s : Switch) : Except UsageFault Argument :=
  match s.takesValue, attached with
  | true, some value => .ok (.complete s value)
  | true, none => .ok (.wanting s name)
  | false, some _ => .error (.valueUnwanted name)
  | false, none => .ok (.complete s "")

/-- An option by its letter, with the text after it. -/
def ofLetter (c : Char) (rest : List Char) : Except UsageFault Argument :=
  let name := String.ofList ['-', c]
  match Switch.ofLetter? c, rest with
  | none, _ => .error (.unknown name [])
  | some s, [] => .ok (.wanting s name)
  | some s, rest => .ok (.complete s (String.ofList rest))

/-- The long names that a name is like, in order. -/
def alike (name : String) : List String :=
  ((Switch.all.map Switch.longName).filter fun long =>
    Text.areAlike long.toList name.toList).mergeSort fun a b => decide (a ≤ b)

def read (arg : String) : Except UsageFault Argument :=
  let cs := arg.toList
  let name := String.ofList (cs.takeWhile (· != '='))
  let attached :=
    match cs.dropWhile (· != '=') with
    | _ :: value => some (String.ofList value)
    | [] => none
  match cs with
  | ['-', '-'] => .ok .endOfOptions
  | '-' :: c :: rest =>
    match Switch.ofLongName? name with
    | some s => ofLong name attached s
    | none => if c = '-' then .error (.unknown name (alike name)) else ofLetter c rest
  | _ => .ok (.word arg)

end Argument

/-- The options given, in their order and with their values, and the other arguments. -/
structure Given where
  options : List (Switch × String) := []
  words : List String := []
  deriving DecidableEq, Repr

namespace Given

/-- Reads the arguments from left to right. -/
def read : List String → Except UsageFault Given
  | [] => .ok {}
  | arg :: rest => do
    match ← Argument.read arg with
    | .endOfOptions => return { words := rest }
    | .word text =>
      let given ← read rest
      return { given with words := text :: given.words }
    | .complete s value =>
      let given ← read rest
      return { given with options := (s, value) :: given.options }
    | .wanting s name =>
      match rest with
      | [] => .error (.valueMissing name)
      | value :: rest =>
        let given ← read rest
        return { given with options := (s, value) :: given.options }

/-- The value of an option: the last one given. -/
def value? (g : Given) (s : Switch) : Option String :=
  g.options.reverse.lookup s

/-- The options with values, those given first in the order of their first mention. -/
def valueOrder (g : Given) : List Switch :=
  let mentioned := (g.options.map Prod.fst).filter Switch.takesValue
  (mentioned ++ [Switch.output, Switch.cookbook]).eraseDups

/-- The request to tell about the command itself that comes first. -/
def request? (g : Given) : Option Switch :=
  (g.options.map Prod.fst).find? fun s => !s.takesValue

end Given

end RecipeManifest.Command

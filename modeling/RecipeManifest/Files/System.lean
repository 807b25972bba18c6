import RecipeManifest.Files.Access
import RecipeManifest.Json.Display
import RecipeManifest.Text.Utf8

/-!
A file tree as a process sees it: with a working directory and the users' home directories.
-/

namespace RecipeManifest

/-- What is wrong with a path before anything is done with it. -/
inductive PathFault where
  /-- The text of the path holds a NUL character. -/
  | nullByte (path : String)
  /-- A NUL character gets as far as the system. -/
  | embeddedNull
  /-- Half of a surrogate pair stands at a position of the path, which has no bytes then. -/
  | unencodable (code position : Nat)
  /-- A value of another type is given for a path. -/
  | notText (type : String)
  | noHome (path : String)
  | linkLoop (path : String) (place : Path)
  | escapes (base : Path)
  /-- A part of a path leads out of the directory it is joined to. -/
  | badPart (part : String)
  deriving DecidableEq, Repr

def shownText (s : String) : String :=
  String.ofList (Text.shown s.toList)

/-- The first half of a surrogate pair among the characters with these numbers. -/
def PathFault.ofUnpaired (codes : List Nat) : PathFault :=
  let position := codes.findIdx fun n => !n.isValidChar
  .unencodable (codes.getD position 0) position

def PathFault.message : PathFault → String
  | nullByte path => s!"Path contains null bytes: {shownText path}"
  | embeddedNull => "embedded null byte"
  | unencodable code position =>
    s!"'utf-8' codec can't encode character '\\u{String.ofList (Text.paddedHex 4 code)}' " ++
      s!"in position {position}: surrogates not allowed"
  | notText type => s!"Path must be a string or Path object, got <class '{type}'>"
  | noHome path => s!"Invalid path {path}: Could not determine home directory."
  | linkLoop path place => s!"Invalid path {path}: Symlink loop from {shownText place.text}"
  | escapes base => s!"Path traversal attempt: escapes {base.text}"
  | badPart part => s!"Path traversal attempt: {part}"

structure FileSystem where
  tree : FileTree
  /-- The working directory, as a place without links on the way. -/
  cwd : Location
  /-- Home directories by user name. The empty name stands for the user who runs the program. -/
  homes : List (String × String)
  deriving DecidableEq, Repr

namespace FileSystem

variable (fs : FileSystem)

def start (p : Path) : Location :=
  if p.isAbsolute then [] else fs.cwd

/-- The place that a path means, whether something is there or not. -/
def locate (p : Path) : Except PathFault Path :=
  if p.parts.any fun part => part.contains '\x00' then .error .embeddedNull
  else .ok (fs.tree.realPath fs.cwd p)

/-- The entry that a path leads to, links followed. -/
def status (p : Path) : Except Errno Entry :=
  if p.isTooLong then .error .nameTooLong else fs.tree.status (fs.start p) p.parts

/-- Puts the home directory for a tilde that starts the path. -/
def expandHome (p : Path) : Except PathFault Path :=
  match p.anchor, p.parts with
  | .relative, first :: rest =>
    if !first.startsWith "~" then .ok p
    else if first.contains '\x00' then .error .embeddedNull
    else
      match fs.homes.lookup (String.ofList first.toList.tail) with
      | some home =>
        let home := Path.ofString home
        .ok { home with parts := home.parts ++ rest }
      | none => .error (.noHome p.text)
  | _, _ => .ok p

/-- Following an absolute path ends in a loop of links. -/
def isLoop (p : Path) : Bool :=
  fs.tree.reach false p matches .error .linkLoop

/-- The place that a path means, with home directories put in. A path that ends in a loop of links
means none. -/
def normalize (p : Path) : Except PathFault Path := do
  let expanded ← fs.expandHome p
  let place ← fs.locate expanded
  if fs.isLoop place then .error (.linkLoop p.text place) else .ok place

/-- `normalize` for a path that is given as text. -/
def normalizeText (text : String) : Except PathFault Path :=
  if text.contains '\x00' then .error (.nullByte text)
  else
    match fs.normalize (Path.ofString text) with
    | .error (.noHome _) => .error (.noHome text)
    | .error (.linkLoop _ place) => .error (.linkLoop text place)
    | result => result

/-- `normalize` for a path that comes from data. Only text is a path. -/
def normalizeValue : Json → Except PathFault Path
  | .string text => fs.normalizeText text
  | .unpaired codes => .error (.ofUnpaired codes)
  | value => .error (.notText value.typeName)

/-- How a path is shown to the user: from the working directory if it lies in it, else as given. -/
def display (path : String) : String :=
  if path.contains '\n' || path.contains '\r' then "<resource>"
  else
    match fs.locate (Path.ofString path) with
    | .error _ => path
    | .ok place =>
      if place.isWithin (Location.path fs.cwd) then
        (Path.mk .relative (place.parts.drop fs.cwd.length)).text
      else path

end FileSystem

end RecipeManifest

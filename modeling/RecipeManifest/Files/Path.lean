import RecipeManifest.Text.Basic

/-!
Paths as they are written, and places in a file tree.

A path keeps its parent parts; repeated slashes, parts that are a single point and slashes at the
end are dropped when it is read. Exactly two leading slashes are kept apart from one.
-/

namespace RecipeManifest

/-- What a path starts from. -/
inductive Anchor where
  | relative
  | root
  | doubleRoot
  deriving DecidableEq, Repr

def Anchor.text : Anchor → String
  | relative => ""
  | root => "/"
  | doubleRoot => "//"

structure Path where
  anchor : Anchor
  parts : List String
  deriving DecidableEq, Repr

namespace Path

/-- The parts between slashes that name something. -/
def partsOf (s : String) : List String :=
  ((Text.pieces (· == '/') s.toList).map String.ofList).filter fun p => p != "" && p != "."

/-- The parts that the system goes through for a path as it is written. A slash or a single point
at its end asks for a directory. -/
def systemParts (s : String) : List String :=
  if s.endsWith "/" || s.endsWith "/." then partsOf s ++ ["."] else partsOf s

def ofString (s : String) : Path :=
  let anchor :=
    match (s.toList.takeWhile (· == '/')).length with
    | 0 => .relative
    | 2 => .doubleRoot
    | _ => .root
  ⟨anchor, partsOf s⟩

def text (p : Path) : String :=
  match p.anchor, p.parts with
  | .relative, [] => "."
  | anchor, parts => anchor.text ++ "/".intercalate parts

/-- The last part, empty if there is none. -/
def name (p : Path) : String :=
  p.parts.getLast?.getD ""

def isAbsolute (p : Path) : Bool :=
  p.anchor != .relative

/-- The path of something inside the place of `p`. -/
def child (p : Path) (name : String) : Path :=
  { p with parts := p.parts ++ [name] }

def root : Path :=
  ⟨.root, []⟩

/-- The path of the working directory. -/
def here : Path :=
  ⟨.relative, []⟩

/-- The path is `base` or leads into it, by the names alone. -/
def isWithin (p base : Path) : Bool :=
  p.anchor == base.anchor && base.parts.isPrefixOf p.parts

/-- The most bytes that the system takes for a path. -/
def longest : Nat := 4095

def isTooLong (p : Path) : Bool :=
  longest < p.text.utf8ByteSize

/-- The path of what holds `p`, by the names alone. The root holds itself, and what holds the
working directory has no other name than the parent part. -/
def parent (p : Path) : Path :=
  if p.isAbsolute ∨ p.parts.getLast?.any (· != "..") then { p with parts := p.parts.dropLast }
  else p.child ".."

/-- The path after one more part, by the names alone. -/
def step (p : Path) (part : String) : Path :=
  if part = "" ∨ part = "." then p else if part = ".." then p.parent else p.child part

end Path

/-- A place in a file tree: the names on the way from its root. -/
abbrev Location := List String

namespace Location

def path (l : Location) : Path :=
  ⟨.root, l⟩

/-- The place that holds `l`. The root holds itself. -/
def parent (l : Location) : Location :=
  l.dropLast

/-- The place is `base` or inside it. -/
def isWithin (l base : Location) : Bool :=
  base.isPrefixOf l

/-- The place after a part of a path, by the names alone. -/
def step (l : Location) (part : String) : Location :=
  if part = "" ∨ part = "." then l else if part = ".." then l.parent else l ++ [part]

end Location

namespace Path

/-- The place of a path by the names alone. -/
def place (p : Path) (cwd : Location) : Location :=
  p.parts.foldl Location.step (if p.isAbsolute then [] else cwd)

/-- The absolute path of a path by the names alone. -/
def absolute (p : Path) (cwd : Location) : Path :=
  ⟨if p.isAbsolute then p.anchor else .root, p.place cwd⟩

end Path

end RecipeManifest

import RecipeManifest.Files.Path

/-!
File trees: files, directories and symbolic links by their places.
-/

namespace RecipeManifest

inductive Entry where
  | file (bytes : List UInt8)
  | directory
  | link (target : String)
  deriving DecidableEq, Repr

/-- The entries of a tree below its root, each place at most once. The root is a directory. -/
structure FileTree where
  entries : List (Location × Entry)
  deriving DecidableEq, Repr

/-- Why the system refuses an operation. -/
inductive Errno where
  | noEntry
  | entryExists
  | notDirectory
  | isDirectory
  | nameTooLong
  | linkLoop
  | noSpace
  | inputOutput
  deriving DecidableEq, Repr

namespace Errno

def code : Errno → Nat
  | noEntry => 2
  | entryExists => 17
  | notDirectory => 20
  | isDirectory => 21
  | nameTooLong => 36
  | linkLoop => 40
  | noSpace => 28
  | inputOutput => 5

def text : Errno → String
  | noEntry => "No such file or directory"
  | entryExists => "File exists"
  | notDirectory => "Not a directory"
  | isDirectory => "Is a directory"
  | nameTooLong => "File name too long"
  | linkLoop => "Too many levels of symbolic links"
  | noSpace => "No space left on device"
  | inputOutput => "Input/output error"

end Errno

namespace FileTree

def empty : FileTree :=
  ⟨[]⟩

/-- What stands at a place. -/
def entry? (t : FileTree) (l : Location) : Option Entry :=
  if l = [] then some .directory else t.entries.lookup l

/-- Puts an entry at a place, in the stead of what is there. -/
def put (t : FileTree) (l : Location) (e : Entry) : FileTree :=
  if t.entries.any fun x => x.1 == l then
    ⟨t.entries.map fun x => if x.1 = l then (l, e) else x⟩
  else ⟨t.entries ++ [(l, e)]⟩

def isDirectory (t : FileTree) (l : Location) : Bool :=
  t.entry? l == some .directory

/-- The names in a directory, in order of their characters. -/
def names (t : FileTree) (l : Location) : List String :=
  let inside := t.entries.filterMap fun (place, _) =>
    if place.parent = l then place.getLast? else none
  inside.mergeSort fun a b => decide (a ≤ b)

/-- Why nothing can be found below a place that is no directory. -/
def missingCause (t : FileTree) (l : Location) : Errno :=
  if (t.entry? l).isSome then .notDirectory else .noEntry

/-- Where a link's target starts, for a link in the directory `l`. -/
def targetStart (l : Location) (target : String) : Location :=
  if target.startsWith "/" then [] else l

/-- The most bytes that a name can have. -/
def longestName : Nat := 255

/-- Follows a path from a place through at most `budget` links. Every part but the last has to lead
to a directory, and the last has to exist, unless it is `new`. -/
def follow (t : FileTree) (new : Bool) (budget : Nat) (l : Location) (parts : List String) :
    Except Errno Location :=
  match parts with
  | [] => .ok l
  | part :: rest =>
    if !t.isDirectory l then .error (t.missingCause l)
    else if part = "." then follow t new budget l rest
    else if part = ".." then follow t new budget l.parent rest
    else if longestName < part.utf8ByteSize then .error .nameTooLong
    else
      match t.entry? (l ++ [part]) with
      | none => if new && rest.isEmpty then .ok (l ++ [part]) else .error .noEntry
      | some (.link target) =>
        match budget with
        | 0 => .error .linkLoop
        | budget + 1 => follow t new budget (targetStart l target) (Path.systemParts target ++ rest)
      | some _ => follow t new budget (l ++ [part]) rest
termination_by (budget, parts.length)

/-- The most links that the system follows for one path. -/
def linkLimit : Nat := 40

/-- Follows an absolute path. -/
def reach (t : FileTree) (new : Bool) (p : Path) : Except Errno Location :=
  if p.isTooLong then .error .nameTooLong else t.follow new linkLimit [] p.parts

/-- A step of the search for the place that a path means. -/
inductive Hop where
  /-- What stands between two slashes, maybe nothing. -/
  | part (name : String)
  /-- The target of the link with this path has been reached. -/
  | arrived (link : Path)
  deriving DecidableEq, Repr

/-- The hops that are left of each path on the way, from the innermost link target outwards. -/
def leftovers : List Hop → List (List String)
  | [] => [[]]
  | .arrived _ :: rest => [] :: leftovers rest
  | .part name :: rest =>
    match leftovers rest with
    | parts :: more => (name :: parts) :: more
    | [] => [[name]]

/-- The path after the rest of another one, taken by the names alone. A rest that starts with a
slash starts from the root. -/
def append (p : Path) (parts : List String) : Path :=
  match parts with
  | "" :: _ :: _ =>
    let rest := Path.ofString ("/".intercalate parts)
    rest.parts.foldl Path.step { rest with parts := [] }
  | _ => parts.foldl Path.step p

/-- The path after the hops, taken by their names alone. -/
def byName (p : Path) (hops : List Hop) : Path :=
  (leftovers hops).foldl append p

/-- The hops along the target of a link. -/
def targetHops (target : String) : List Hop :=
  let pieces := (Text.pieces (· == '/') target.toList).map String.ofList
  (if target.startsWith "/" then pieces.tail else pieces).map .part

/-- The target of the link that stands at a path, if there is one. -/
def link? (t : FileTree) (cwd : Location) (p : Path) : Option String :=
  if p.isTooLong then none
  else
    match t.entry? (p.place cwd) with
    | some (.link target) => some target
    | _ => none

/-- The path that is left when links are replaced by what they point to. Parts that lead nowhere are
kept by name. `seen` holds the links met so far, by their paths, with their targets once these are
reached; a link met again before that is in a loop, and from there on the path is taken by its
names. A path is relative or absolute as long as no link leads elsewhere, and a link counts as met
for the path by which it was met. -/
def resolve (t : FileTree) (cwd : Location) (budget : Nat) (seen : List (Path × Option Path))
    (p : Path) (hops : List Hop) : Path :=
  match hops with
  | [] => p
  | .arrived link :: rest => resolve t cwd budget ((link, some p) :: seen) p rest
  | .part name :: rest =>
    if name = "" ∨ name = "." ∨ name = ".." then resolve t cwd budget seen (p.step name) rest
    else
      let next := p.child name
      match t.link? cwd next with
      | some target =>
        match seen.lookup next with
        | some (some reached) => resolve t cwd budget seen reached rest
        | some none => byName next rest
        | none =>
          match budget with
          | 0 => byName next rest
          | budget + 1 =>
            resolve t cwd budget ((next, none) :: seen)
              (if target.startsWith "/" then .root else p)
              (targetHops target ++ .arrived next :: rest)
      | none => resolve t cwd budget seen next rest
termination_by (budget, hops.length)

/-- The absolute path of what a path means. A link has one absolute path and at most one relative
path for each number of parent parts, of which a path that finds a link has fewer than bytes, so
that the budget suffices. -/
def realPath (t : FileTree) (cwd : Location) (p : Path) : Path :=
  let start : Path := if p.isAbsolute then .root else .here
  (t.resolve cwd (t.entries.length * (Path.longest + 2)) [] start (p.parts.map .part)).absolute cwd

end FileTree

end RecipeManifest

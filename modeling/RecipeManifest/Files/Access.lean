import RecipeManifest.Files.Tree

/-!
Reading and changing a file tree. Links on the way to a place are followed.
-/

namespace RecipeManifest.FileTree

/-- What a path from a place leads to, links followed. -/
def status (t : FileTree) (l : Location) (parts : List String) : Except Errno Entry := do
  let place ← t.follow false linkLimit l parts
  match t.entry? place with
  | some e => .ok e
  | none => .error .noEntry

/-- What an absolute path leads to, links followed. -/
def entryAt (t : FileTree) (p : Path) : Except Errno Entry :=
  if p.isTooLong then .error .nameTooLong else t.status [] p.parts

def leadsToDirectory (t : FileTree) (p : Path) : Bool :=
  t.entryAt p matches .ok .directory

/-- A file is where the path leads. Only a name that is too long keeps this from being known. -/
def leadsToFile (t : FileTree) (p : Path) : Except Errno Bool :=
  match t.entryAt p with
  | .error .nameTooLong => .error .nameTooLong
  | found => .ok (found matches .ok (.file _))

def readFile (t : FileTree) (p : Path) : Except Errno (List UInt8) := do
  match ← t.entryAt p with
  | .file bytes => .ok bytes
  | _ => .error .isDirectory

/-- The place of the file that a path leads to, which need not be there yet. -/
def writePlace (t : FileTree) (p : Path) : Except Errno Location := do
  let place ← t.reach true p
  if t.isDirectory place then .error .isDirectory else .ok place

/-- Opens a file to be written. It is made, or it loses its bytes. -/
def openFile (t : FileTree) (p : Path) : Except Errno (Location × FileTree) := do
  let place ← t.writePlace p
  .ok (place, t.put place (.file []))

/-- Opens a file and writes the bytes to it. -/
def writeFile (t : FileTree) (p : Path) (bytes : List UInt8) : Except Errno FileTree := do
  let (place, opened) ← t.openFile p
  .ok (opened.put place (.file bytes))

/-- The names in the directory that a path leads to, in order of their characters. -/
def list (t : FileTree) (p : Path) : Except Errno (List String) := do
  let place ← t.reach false p
  if t.isDirectory place then .ok (t.names place) else .error .notDirectory

/-- Makes one directory where nothing is, not even a link. -/
def makeDirectory (t : FileTree) (p : Path) : Except Errno FileTree :=
  if p.isTooLong then .error .nameTooLong
  else
    match p.parts.getLast? with
    | none => .error .entryExists
    | some name => do
      let place ← t.reach false p.parent
      if !t.isDirectory place then .error .notDirectory
      else if longestName < name.utf8ByteSize then .error .nameTooLong
      else if (t.entry? (place ++ [name])).isSome then .error .entryExists
      else .ok (t.put (place ++ [name]) .directory)

/-- `makeDirectory`, to which a directory that is there already may be no obstacle. A failure comes
with its path. -/
def provideDirectory (t : FileTree) (existing : Bool) (p : Path) :
    Except (Errno × Path) FileTree :=
  match t.makeDirectory p with
  | .ok t => .ok t
  | .error e =>
    if e ≠ .noEntry ∧ existing = true ∧ t.leadsToDirectory p = true then .ok t else .error (e, p)

/-- A failed change leaves the tree as it was. -/
def afterwards (t : FileTree) : Except (Errno × Path) FileTree → FileTree × Option (Errno × Path)
  | .ok t => (t, none)
  | .error e => (t, some e)

/-- Makes a directory and those on the way to it that are missing. If one of them cannot be made,
those before it stay. -/
def provideDirectories (t : FileTree) (existing : Bool) (anchor : Anchor) (l : Location) :
    FileTree × Option (Errno × Path) :=
  let made := t.provideDirectory existing ⟨anchor, l⟩
  if l = [] then t.afterwards made
  else
    match made with
    | .error (.noEntry, _) =>
      match t.provideDirectories true anchor l.parent with
      | (t, some e) => (t, some e)
      | (t, none) => t.afterwards (t.provideDirectory existing ⟨anchor, l⟩)
    | result => t.afterwards result
termination_by l.length
decreasing_by
  have := List.length_pos_iff.mpr ‹l ≠ []›
  simp only [Location.parent, List.length_dropLast]
  omega

end RecipeManifest.FileTree

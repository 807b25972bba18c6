import RecipeManifest.Fault
import RecipeManifest.Text.Line

/-!
File operations that stay inside a trusted directory, the base.

A path is taken to the place that it means, links and parent parts resolved, before it is compared
with the base, so that neither can lead out of it.
-/

namespace RecipeManifest

/-- The result of an operation of the system at a path. -/
def Errno.at {α : Type} (p : Path) : Except Errno α → Except Fault α
  | .ok a => .ok a
  | .error e => .error (.system e p.text)

namespace FileSystem

variable (fs : FileSystem)

/-- The place of a path, which has to be the base or inside it. -/
def within (p base : Path) : Except Fault Path := do
  let base ← (fs.normalize base).mapError .path
  let place ← (fs.normalize p).mapError .path
  if place.isWithin base then return place else .error (.path (.escapes base))

/-- The parts of a path that is given piece by piece. No piece may lead upwards or to the root. -/
def relativeParts : List String → Except Fault (List String)
  | [] => .ok []
  | piece :: rest => do
    let p := Path.ofString piece
    if p.isAbsolute || p.parts.contains ".." then .error (.path (.badPart piece))
    else return p.parts ++ (← relativeParts rest)

/-- The place of something inside the base, given by the pieces of the path to it. -/
def join (base : Path) (pieces : List String) : Except Fault Path := do
  let base ← (fs.normalize base).mapError .path
  let parts ← relativeParts pieces
  fs.within { base with parts := base.parts ++ parts } base

def isFileWithin (p base : Path) : Except Fault Bool := do
  let place ← fs.within p base
  Errno.at place (fs.tree.leadsToFile place)

/-- What is in a directory, in order of the names. What leads out of the base is left out. -/
def listWithin (p base : Path) : Except Fault (List Path) := do
  let place ← fs.within p base
  let base ← (fs.normalize base).mapError .path
  let names ← Errno.at place (fs.tree.list place)
  return (names.map place.child).filter fun entry =>
    base.anchor == .root && base.parts.isPrefixOf (fs.tree.realPath fs.cwd entry).parts

/-- Makes a directory, and those on the way to it if `parents` is set. If `existing` is set, it may
be there already. Directories made before a failure stay. -/
def makeDirectoryWithin (p base : Path) (parents existing : Bool) :
    FileSystem × Except Fault Unit :=
  match fs.within p base with
  | .error f => (fs, .error f)
  | .ok place =>
    let (tree, failed) :=
      if parents then fs.tree.provideDirectories existing place.anchor place.parts
      else fs.tree.afterwards (fs.tree.provideDirectory existing place)
    ({ fs with tree := tree }, match failed with
      | some (e, p) => .error (.system e p.text)
      | none => .ok ())

/-- The text of a file. Every kind of line end in it is read as a line feed. -/
def readTextWithin (p base : Path) : Except Fault String := do
  let place ← fs.within p base
  let bytes ← Errno.at place (fs.tree.readFile place)
  match Text.decodeUtf8 bytes with
  | .ok text => return String.ofList (Text.withNewlines text)
  | .error f => .error (.undecodable f)

/-- Opens a file and writes the bytes to it. -/
def writeBytesWithin (p base : Path) (bytes : List UInt8) : Except Fault FileSystem := do
  let place ← fs.within p base
  let tree ← Errno.at place (fs.tree.writeFile place bytes)
  return { fs with tree := tree }

def writeTextWithin (p base : Path) (text : String) : Except Fault FileSystem :=
  fs.writeBytesWithin p base (Text.encodeUtf8 text)

end FileSystem

end RecipeManifest

import RecipeManifest.Command.Run

/-!
The command line. The part of the disk that a conversion looks at is loaded into a file tree, the
command is run on it, and what it changed is written back.
-/

namespace RecipeManifest

namespace Disk

/-- The places on the way to a place, from the outside inwards. -/
def ancestors (l : Location) : List Location :=
  (List.range l.length).tail.map l.take

/-- Loads what is at a place of the disk: the bytes of a file, a directory with what is in it down
to the depth, or a link with what it leads to. Links are followed at most `links` times. -/
def load (links depth : Nat) (l : Location) (t : FileTree) : IO FileTree := do
  match ← (IO.FS.realPath l.path.text).toBaseIO with
  | .error _ => return t
  | .ok real =>
    let place := (Path.ofString real.toString).parts
    if place ≠ l then
      let t := t.put l (.link real.toString)
      match links with
      | 0 => return t
      | links + 1 =>
        load links depth place ((ancestors place).foldl (fun t l => t.put l .directory) t)
    else if ← real.isDir then
      let t := t.put l .directory
      match depth with
      | 0 => return t
      | depth + 1 =>
        (← real.readDir).foldlM (fun t entry => load links depth (l ++ [entry.fileName]) t) t
    else
      match ← (IO.FS.readBinFile real).toBaseIO with
      | .ok bytes => return t.put l (.file bytes.toList)
      | .error _ => return t
termination_by (links, depth)

/-- The most links followed while the disk is loaded. -/
def linkLimit : Nat := 8

/-- The depth to which a cookbook is loaded: its files and its recipes. -/
def cookbookDepth : Nat := 2

/-- The depth to which a module is loaded. -/
def moduleDepth : Nat := 6

/-- Loads a place together with every place on the way to it. -/
def loadPath (depth : Nat) (l : Location) (t : FileTree) : IO FileTree := do
  load linkLimit depth l (← (ancestors l).foldlM (fun t l => load linkLimit 0 l t) t)

/-- The time on the clock of the disk, as a new file shows it. -/
def now : IO Timestamp := do
  let (_, path) ← IO.FS.createTempFile
  let time := (← path.metadata).modified
  IO.FS.removeFile path
  return ⟨time.sec.toNat, time.nsec.toNat / 1000000⟩

/-- Writes what is new or changed in the second tree. -/
def store (before after : FileTree) : IO Unit :=
  after.entries.forM fun (l, e) => do
    if before.entry? l ≠ some e then
      match e with
      | .directory => IO.FS.createDirAll l.path.text
      | .file bytes => IO.FS.writeBinFile l.path.text ⟨bytes.toArray⟩
      | .link _ => pure ()

end Disk

namespace Command

/-- The files as the command finds them. -/
def loadFiles (args : List String) : IO FileSystem := do
  let cwd := (Path.ofString (← IO.currentDir).toString).parts
  let home := (← IO.getEnv "HOME").map fun home => ("", home)
  let start : FileSystem := ⟨.empty, cwd, home.toList⟩
  let tree ← Disk.loadPath 0 cwd .empty
  match Given.read args with
  | .error _ => return { start with tree := tree }
  | .ok given =>
    let load (depth : Nat) (value : Option String) (tree : FileTree) : IO FileTree := do
      match start.expandHome (Path.ofString (value.getD "")) with
      | .ok p => Disk.loadPath depth (p.place start.cwd) tree
      | .error _ => return tree
    let tree ← load Disk.cookbookDepth (given.value? .cookbook) tree
    let tree ← load 0 (given.value? .output) tree
    let files := { start with tree := tree }
    match checkArguments files given with
    | .error _ => return files
    | .ok (cookbook, output) =>
      match files.plan cookbook output with
      | .error _ => return files
      | .ok layout =>
        return { files with tree := ← Disk.loadPath Disk.moduleDepth layout.outputPath.parts tree }

end Command

end RecipeManifest

open RecipeManifest in
def main (args : List String) : IO UInt32 := do
  let files ← Command.loadFiles args
  let outcome := Command.run files (← Disk.now) args
  Disk.store files.tree outcome.files.tree
  IO.print outcome.output
  IO.eprint outcome.errors
  match outcome.result with
  | .ok code => return code.toUInt32
  | .error f =>
    IO.eprintln s!"{f.kind}: {f.text outcome.files.display}"
    return 1

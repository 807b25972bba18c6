import RecipeManifest.Cookbook.Layout
import RecipeManifest.Log.Entry
import RecipeManifest.Log.Note

/-!
Work that reads and changes files, logs, and tells how far it is. What was done before a failure
stays done.

The work runs on a host, which is free in two respects:

* `listener`: who hears how far the work is may stop it at every event.
* `disk`: a file that is opened for writing may take only the first of its bytes.
-/

namespace RecipeManifest

/-- What is told while a cookbook is converted. -/
inductive Event where
  /-- The layout is known. Nothing has been written yet. -/
  | planned (layout : Layout)
  /-- A recipe is about to be read. -/
  | starting (recipe : Path)
  deriving DecidableEq, Repr

/-- How the writing of an open file fails: some bytes are written, and then comes the fault. -/
structure Breakdown where
  written : Nat
  fault : Fault
  deriving DecidableEq, Repr

/-- What the work runs on. -/
structure Host where
  /-- Hears of each event, and may fail. -/
  listener : Event → Except Fault Unit := fun _ => .ok ()
  /-- Whether the writing of a manifest fails, by the number of those written before. -/
  disk : Nat → Option Breakdown := fun _ => none

/-- What work leaves behind, and its host. -/
structure World where
  files : FileSystem
  context : Context := {}
  log : List LogEntry := []
  events : List Event := []
  /-- The manifests written so far. -/
  manifests : List Path := []
  host : Host := {}

abbrev Work := ExceptT Fault (StateM World)

namespace Work

/-- What can be seen of the files. -/
def look {α : Type} (f : FileSystem → Except Fault α) : Work α := do
  liftExcept (f (← get).files)
where
  liftExcept (r : Except Fault α) : Work α := ExceptT.mk (pure r)

/-- Changes the files, unless the change fails. -/
def change (f : FileSystem → Except Fault FileSystem) : Work Unit := do
  let files ← look f
  modify fun w => { w with files := files }

/-- Changes the files, and keeps what was changed if the change fails half way. -/
def attempt (f : FileSystem → FileSystem × Except Fault Unit) : Work Unit := do
  let (files, result) := f (← get).files
  modify fun w => { w with files := files }
  look fun _ => result

/-- Tells the listener of an event. -/
def tell (e : Event) : Work Unit := do
  modify fun w => { w with events := w.events ++ [e] }
  let listener := (← get).host.listener
  look fun _ => listener e

/-- Writes a text to a file. The file is opened first and has lost its old bytes if the disk then
fails. -/
def write (p base : Path) (text : String) : Work Unit := do
  let w ← get
  match w.host.disk w.manifests.length with
  | none => change fun fs => fs.writeTextWithin p base text
  | some breakdown =>
    change fun fs =>
      fs.writeBytesWithin p base ((Text.encodeUtf8 text).take breakdown.written)
    throw breakdown.fault

/-- Logs an entry in the context of the moment. -/
def log (e : LogEntry) : Work Unit :=
  modify fun w => { w with log := w.log ++ [{ e with context := w.context }] }

/-- Work with some fields of the context set. Afterwards the context is as before. -/
def inContext {α : Type} (change : Context) (work : Work α) : Work α := do
  let before := (← get).context
  modify fun w => { w with context := before.update change }
  let restore : Work Unit := modify fun w => { w with context := before }
  let result ← tryCatch work fun f => do
    restore
    throw f
  restore
  return result

/-- Work that writes notes. They are logged, also if it fails. -/
def noting {α : Type} (noted : Noted α) : Work α := do
  for n in noted.notes do
    log { level := n.level, logger := n.channel.name, message := n.message }
  look fun _ => noted.result

/-- Work as an operation that is logged: its start, and its end or failure. A failure that the user
gets to see anyway is logged below the others, and the end of the program is no failure. -/
def operation {α : Type} (name function logger : String) (work : Work α) : Work α :=
  inContext { operation := some name } do
    let entry (level : Level) (message : String) : LogEntry :=
      { level := level, logger := logger, message := message,
        extra := [("function", .string function)] }
    log (entry .info s!"Starting {name}")
    let result ← tryCatch work fun f => do
      let text := f.text (← get).files.display
      match f with
      | .report _ => log (entry .debug s!"Failed {name}: {text}")
      | .exit _ | .interrupt => pure ()
      | _ =>
        log { entry .error s!"Failed {name}: {text}" with failure := some ⟨f.kind, text⟩ }
      throw f
    log (entry .info s!"Completed {name}")
    return result

end Work

end RecipeManifest

import RecipeManifest.Log.Line
import RecipeManifest.Text.Line

/-!
Where log entries go: to the console and maybe to a file, from a level on.
-/

namespace RecipeManifest

/-- How a log is set up. -/
structure LogSetup where
  level : Level
  form : LineForm
  toFile : Bool := false
  deriving DecidableEq, Repr

namespace LogSetup

/-- An entry that the log lets through. -/
def lets (s : LogSetup) (e : LogEntry) : Bool :=
  e.level != .unset && s.level.weight ≤ e.level.weight

/-- What is written of an entry. One that cannot be written is left out. -/
def written (s : LogSetup) (time : Timestamp) (e : LogEntry) : String :=
  if s.lets e then
    match e.line s.form time with
    | .ok line => line ++ "\n"
    | .error _ => ""
  else ""

/-- What is written of entries, one after the other. -/
def text (s : LogSetup) (time : Timestamp) (entries : List LogEntry) : String :=
  String.join (entries.map (s.written time))

end LogSetup

/-- The console that someone looks at. -/
inductive Console where
  /-- None was asked for. -/
  | absent
  /-- One was asked for, but the log could not be set up to write to it. -/
  | silent
  /-- The log writes to it. -/
  | attached
  deriving DecidableEq, Repr

/-- A log, and the file that it has written. -/
structure Journal where
  setup : Option LogSetup := none
  console : Console := .absent
  file : Option String := none
  deriving DecidableEq, Repr

namespace Journal

/-- Sets the log up anew, with the name of its level. A file that is there is written on. If the
level is none, the log stays as it was, and the new console is silent. -/
def configure (j : Journal) (level : String) (form : LineForm) (toFile : Bool) :
    Except LogFault Unit × Journal :=
  match Level.ofName level with
  | .error f => (.error f, { j with console := .silent })
  | .ok level =>
    (.ok (), ⟨some ⟨level, form, toFile⟩, .attached,
      if toFile then some (j.file.getD "") else j.file⟩)

/-- What entries show on the console, if there is one, and the journal after them. -/
def write (j : Journal) (time : Timestamp) (entries : List LogEntry) : Option String × Journal :=
  let text := j.setup.elim "" fun s => s.text time entries
  let shown :=
    match j.console with
    | .absent => none
    | .silent => some ""
    | .attached => some text
  let toFile := j.setup.any (·.toFile)
  (shown, if toFile then { j with file := some (j.file.getD "" ++ text) } else j)

/-- The file as it is read: each line ends with a newline. -/
def fileText (j : Journal) : Option String :=
  j.file.map fun text => String.ofList (Text.withNewlines text.toList)

/-- The level from which on a logger takes entries. Before the log is set up, that of the program
takes all and the others only what matters. -/
def levelOf (j : Journal) (logger : String) : Level :=
  match j.setup with
  | some s => s.level
  | none =>
    if logger = "chef2puppet" || logger.startsWith "chef2puppet." then .debug else .warning

/-- Takes an entry, unless its extra attributes hide one that every entry has. An entry below the
level of its logger is not looked at. -/
def take (j : Journal) (time : Timestamp) (e : LogEntry) :
    Except LogFault (Option String × Journal) :=
  let taken := e.level != .unset && (j.levelOf e.logger).weight ≤ e.level.weight
  match e.overwriting? with
  | some name => if taken then .error (.overwrites name) else .ok (j.write time [])
  | none => .ok (j.write time [e])

end Journal

end RecipeManifest

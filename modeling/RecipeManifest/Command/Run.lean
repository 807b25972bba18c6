import RecipeManifest.Command.Options
import RecipeManifest.Cookbook.Conversion
import RecipeManifest.Log.Journal

/-!
Running the command on a file system: its arguments are checked, the cookbook is converted, and
what is told on the way is printed.
-/

namespace RecipeManifest

namespace Command

def helpText : String :=
  "Usage: chef2puppet [OPTIONS]\n" ++
  "\n" ++
  "  Convert a Chef cookbook into a Puppet module.\n" ++
  "\n" ++
  "  Every recipe under the cookbook's recipes directory becomes a manifest in\n" ++
  "  the module's manifests directory.\n" ++
  "\n" ++
  "Options:\n" ++
  "  --version                 Show the version and exit.\n" ++
  "  -o, --output DIRECTORY    Directory the Puppet module is created in\n" ++
  "                            [required]\n" ++
  "  -c, --cookbook DIRECTORY  Chef cookbook root directory  [required]\n" ++
  "  --help                    Show this message and exit.\n"

def versionText : String := "chef2puppet, version 0.1.0\n"

def usageText : String :=
  "Usage: chef2puppet [OPTIONS]\nTry 'chef2puppet --help' for help.\n\n"

/-- The rest of the text after a command for colours or the like, which a terminal would obey: a
bracket, digits and marks, and a letter. -/
def afterStyle? : List Char → Option (List Char)
  | '[' :: rest =>
    match rest.dropWhile fun c => c.isDigit || c == ';' || c == '?' with
    | c :: after => if c.isAlpha then some after else none
    | [] => none
  | _ => none

theorem length_afterStyle? {cs rest : List Char} (h : afterStyle? cs = some rest) :
    rest.length < cs.length := by
  unfold afterStyle? at h
  split at h
  · rename_i body
    split at h
    · rename_i c after hd
      have h1 := (List.dropWhile_sublist (fun c => c.isDigit || c == ';' || c == '?')
        (l := body)).length_le
      rw [hd] at h1
      split at h
      · simp only [Option.some.injEq] at h
        rw [← h]
        simp only [List.length_cons] at h1 ⊢
        omega
      · exact absurd h (by simp)
    · exact absurd h (by simp)
  · exact absurd h (by simp)

/-- A text for a reader who is no terminal. -/
def withoutStyle (cs : List Char) : List Char :=
  match cs with
  | [] => []
  | c :: rest =>
    if c = '\x1b' then
      match h : afterStyle? rest with
      | some after =>
        have := length_afterStyle? h
        withoutStyle after
      | none => c :: withoutStyle rest
    else c :: withoutStyle rest
termination_by cs.length
decreasing_by
  all_goals simp only [List.length_cons]; omega

/-- A printed line. -/
def echo (text : String) : String :=
  String.ofList (withoutStyle text.toList) ++ "\n"

/-- What the command leaves behind. -/
structure Outcome where
  /-- The exit code, or the fault that stopped the command. -/
  result : Except Fault Nat
  output : String := ""
  errors : String := ""
  files : FileSystem

/-- What is printed for an event. -/
def eventText : Event → String
  | .planned layout =>
    echo s!"Cookbook Name: {layout.cookbookName}" ++
      echo s!"Recipes Path:  {layout.recipesPath.text}" ++
      echo s!"Output Path:   {layout.outputPath.text}"
  | .starting recipe => echo s!"Working on... {recipe.text}"

/-- What the command shows of its log. -/
def logSetup : LogSetup :=
  { level := .warning, form := .plain }

/-- A value given for a directory, which must not be a file. -/
def checkValue (fs : FileSystem) (s : Switch) (value : String) :
    Except (Fault ⊕ UsageFault) Unit :=
  if value.contains '\x00' then .error (.inl (.path .embeddedNull))
  else if Path.longest < value.utf8ByteSize then .ok ()
  else
    match fs.tree.status (fs.start (Path.ofString value)) (Path.systemParts value) with
    | .ok (.file _) => .error (.inr (.notDirectory s value))
    | _ => .ok ()

/-- The values of the options that need one. -/
def checkValues (fs : FileSystem) (g : Given) : List Switch → Except (Fault ⊕ UsageFault) Unit
  | [] => .ok ()
  | s :: rest => do
    match g.value? s with
    | none => .error (.inr (.optionMissing s))
    | some value =>
      checkValue fs s value
      checkValues fs g rest

/-- The arguments of a conversion: the cookbook and the output directory. -/
def checkArguments (fs : FileSystem) (g : Given) :
    Except (Fault ⊕ UsageFault) (String × String) := do
  checkValues fs g g.valueOrder
  if g.words ≠ [] then .error (.inr (.unexpected g.words))
  else
    let path (s : Switch) : String := (Path.ofString ((g.value? s).getD "")).text
    return (path .cookbook, path .output)

/-- The end of a run with wrong arguments. -/
def refuse (fs : FileSystem) (f : UsageFault) : Outcome :=
  let usage := if f.isBare then "" else usageText
  { result := .ok 2, errors := usage ++ echo ("Error: " ++ f.text), files := fs }

/-- Converts a cookbook and prints what is told on the way. -/
def convert (fs : FileSystem) (time : Timestamp) (cookbook output : String) : Outcome :=
  let (result, world) := (makeModule {} cookbook output).run.run { files := fs }
  let outcome : Outcome :=
    { result := .ok 0,
      output := String.join (world.events.map eventText),
      errors := logSetup.text time world.log,
      files := world.files }
  match result with
  | .ok _ => outcome
  | .error (.report r) =>
    let text := r.text world.files.display
    { outcome with result := .ok 1, errors := outcome.errors ++ echo ("Error: " ++ text) }
  | .error f => { outcome with result := .error f }

/-- Runs the command with its arguments. -/
def run (fs : FileSystem) (time : Timestamp) (args : List String) : Outcome :=
  match Given.read args with
  | .error f => refuse fs f
  | .ok given =>
    match given.request? with
    | some .version => { result := .ok 0, output := versionText, files := fs }
    | some _ => { result := .ok 0, output := helpText, files := fs }
    | none =>
      match checkArguments fs given with
      | .error (.inl f) => { result := .error f, files := fs }
      | .error (.inr f) => refuse fs f
      | .ok (cookbook, output) => convert fs time cookbook output

end Command

end RecipeManifest

import RecipeManifest.Cookbook.Conversion
import RecipeManifest.Proofs.FileChanges
import RecipeManifest.Proofs.WorkRun

/-!
The manifests of a cookbook are written one after the other.

What becomes of one recipe is a function of the files (`FileSystem.outputOf`) and of the host
(`Host.outputOf`). The run for it writes that one file, or it fails and leaves the files alone, but
for the one file if it was open already (`run_writeManifest`). So a conversion that fails has
written the manifests of the recipes before the failing one (`Processed.run_stops`).
-/

namespace RecipeManifest

open Work FileSystem

variable {style : Style} {layout : Layout} {w w' : World} {recipe manifests : Path}
  {recipes : List Path} {fs fs' : FileSystem} {fault : Fault}

/-- The name of a recipe's manifest. -/
def manifestName (settings : Settings) (recipe : Path) : String :=
  recipeClass settings recipe ++ settings.manifestSuffix

/-- What becomes of a recipe: the path of its manifest, the place where it is written, and its
text. -/
structure RecipeOutput where
  manifest : Path
  place : Location
  text : String

namespace FileSystem

/-- The place that a file is written to, which has to be inside the base. -/
def writePlaceWithin (fs : FileSystem) (p base : Path) : Except Fault Location := do
  let place ← fs.within p base
  Errno.at place (fs.tree.writePlace place)

/-- What a recipe becomes. Its file has to be readable, its text has to be a recipe, and its
manifest has to be in the output root, at a place where a file can be written. -/
def outputOf (style : Style) (layout : Layout) (manifests recipe : Path) (fs : FileSystem) :
    Except Fault RecipeOutput := do
  let content ← fs.readTextWithin recipe layout.cookbookPath
  let converted ←
    (Manifest.ofRecipe style (recipeClass style.settings recipe) recipe.text content).result
  let manifest ← fs.join manifests [manifestName style.settings recipe]
  let place ← fs.writePlaceWithin manifest layout.outputRoot
  return ⟨manifest, place, converted.text⟩

def writeOutput (fs : FileSystem) (o : RecipeOutput) : FileSystem :=
  { fs with tree := fs.tree.put o.place (.file (Text.encodeUtf8 o.text)) }

/-- Writes no more than the first bytes of an output. -/
def writeStart (fs : FileSystem) (o : RecipeOutput) (count : Nat) : FileSystem :=
  { fs with tree := fs.tree.put o.place (.file ((Text.encodeUtf8 o.text).take count)) }

theorem writeBytesWithin_eq_map (fs : FileSystem) (p base : Path) (bytes : List UInt8) :
    fs.writeBytesWithin p base bytes =
      (fs.writePlaceWithin p base).map
        fun place => { fs with tree := fs.tree.put place (.file bytes) } := by
  unfold writeBytesWithin writePlaceWithin
  cases fs.within p base with
  | error e => rfl
  | ok checked =>
    simp only [bind, Except.bind, FileTree.writeFile_eq_map]
    cases fs.tree.writePlace checked <;> rfl

theorem outputOf_eq_ok_iff {o : RecipeOutput} :
    fs.outputOf style layout manifests recipe = .ok o ↔
      ∃ content m, fs.readTextWithin recipe layout.cookbookPath = .ok content ∧
        (Manifest.ofRecipe style (recipeClass style.settings recipe) recipe.text content).result =
          .ok m ∧
        fs.join manifests [manifestName style.settings recipe] = .ok o.manifest ∧
        fs.writePlaceWithin o.manifest layout.outputRoot = .ok o.place ∧ o.text = m.text := by
  simp only [outputOf, bind_eq_ok_iff, pure_eq_ok_iff]
  constructor
  · rintro ⟨content, hread, m, hresult, manifest, hjoin, place, hplace, rfl⟩
    exact ⟨content, m, hread, hresult, hjoin, hplace, rfl⟩
  · rintro ⟨content, m, hread, hresult, hjoin, hplace, htext⟩
    exact ⟨content, hread, m, hresult, o.manifest, hjoin, o.place, hplace, by rw [← htext]⟩

/-- The output comes from the manifest of the recipe's text, whichever way that is made. -/
theorem outputOf_eq_bind {result : Except Fault Manifest}
    (h : result = (fs.readTextWithin recipe layout.cookbookPath >>= fun content =>
      (Manifest.ofRecipe style (recipeClass style.settings recipe) recipe.text content).result)) :
    fs.outputOf style layout manifests recipe =
      result >>= fun converted => fs.join manifests [manifestName style.settings recipe] >>=
        fun manifest => fs.writePlaceWithin manifest layout.outputRoot >>=
          fun place => pure ⟨manifest, place, converted.text⟩ := by
  rw [h, bind_assoc]
  rfl

end FileSystem

/-- What a recipe becomes on a host, if some manifests were written before. A fault comes with the
files that it leaves behind: if the disk fails, the manifest is there with its first bytes. -/
def Host.outputOf (host : Host) (count : Nat) (style : Style) (layout : Layout)
    (manifests recipe : Path) (fs : FileSystem) : Except (Fault × FileSystem) RecipeOutput :=
  match host.listener (.starting recipe), fs.outputOf style layout manifests recipe with
  | .error fault, _ => .error (fault, fs)
  | .ok (), .error fault => .error (fault, fs)
  | .ok (), .ok o =>
    match host.disk count with
    | some breakdown => .error (breakdown.fault, fs.writeStart o breakdown.written)
    | none => .ok o

/-- The listener does not stop the recipes, and the disk takes their manifests. -/
structure Host.Admits (host : Host) (count : Nat) (recipes : List Path) : Prop where
  listener : ∀ recipe ∈ recipes, host.listener (.starting recipe) = .ok ()
  disk : ∀ i < recipes.length, host.disk (count + i) = none

/-- A host that does nothing lets all pass. -/
theorem Host.admits_default (count : Nat) (recipes : List Path) :
    ({} : Host).Admits count recipes :=
  ⟨fun _ _ => rfl, fun _ _ => rfl⟩

theorem Host.admits_cons {host : Host} {count : Nat} {rest : List Path} :
    host.Admits count (recipe :: rest) ↔
      host.listener (.starting recipe) = .ok () ∧ host.disk count = none ∧
        host.Admits (count + 1) rest := by
  constructor
  · intro h
    refine ⟨h.listener recipe (by simp), h.disk 0 (by simp),
      fun r hr => h.listener r (by simp [hr]), fun i hi => ?_⟩
    rw [Nat.add_assoc, Nat.add_comm 1 i]
    exact h.disk (i + 1) (by simpa using hi)
  · rintro ⟨hlistener, hdisk, hrest⟩
    refine ⟨fun r hr => ?_, fun i hi => ?_⟩
    · rcases List.mem_cons.1 hr with rfl | hr
      · exact hlistener
      · exact hrest.listener r hr
    · cases i with
      | zero => exact hdisk
      | succ i =>
        rw [Nat.add_comm i 1, ← Nat.add_assoc]
        exact hrest.disk i (by simpa using hi)

theorem Host.outputOf_eq_ok_iff {host : Host} {count : Nat} {o : RecipeOutput} :
    host.outputOf count style layout manifests recipe fs = .ok o ↔
      host.listener (.starting recipe) = .ok () ∧
        fs.outputOf style layout manifests recipe = .ok o ∧ host.disk count = none := by
  unfold Host.outputOf
  cases host.listener (.starting recipe) with
  | error fault => simp
  | ok =>
    cases fs.outputOf style layout manifests recipe with
    | error fault => simp
    | ok o =>
      cases host.disk count with
      | some breakdown => simp
      | none => simp

theorem Host.outputOf_of_error {host : Host} {count : Nat}
    (h : host.listener (.starting recipe) = .error fault ∨
      host.listener (.starting recipe) = .ok () ∧
        fs.outputOf style layout manifests recipe = .error fault) :
    host.outputOf count style layout manifests recipe fs = .error (fault, fs) := by
  rcases h with h | ⟨h, ho⟩ <;> simp [Host.outputOf, *]

theorem Host.outputOf_of_breakdown {host : Host} {count : Nat} {o : RecipeOutput}
    {breakdown : Breakdown} (h : host.listener (.starting recipe) = .ok ())
    (ho : fs.outputOf style layout manifests recipe = .ok o)
    (hdisk : host.disk count = some breakdown) :
    host.outputOf count style layout manifests recipe fs =
      .error (breakdown.fault, fs.writeStart o breakdown.written) := by
  simp [Host.outputOf, h, ho, hdisk]

/-! ## One recipe -/

/-- The manifest of a file is that of its text, and nothing but logs is left behind. -/
theorem run_ofFile (style : Style) (recipe base : Path) (w : World) :
    ((Manifest.ofFile style recipe base).run.run w).1 =
      (w.files.readTextWithin recipe base >>= fun content =>
        (Manifest.ofRecipe style (recipeClass style.settings recipe) recipe.text content).result) ∧
    Alike w ((Manifest.ofFile style recipe base).run.run w).2 := by
  unfold Manifest.ofFile
  obtain ⟨w₀, hw₀, hresult, hafter⟩ := wraps_inContext { recipe := some recipe.name }
    (look (fun fs => fs.readTextWithin recipe base) >>= fun content => noting
      (Manifest.ofRecipe style (recipeClass style.settings recipe) recipe.text content)) w
  rw [run_bind, run_look, hw₀.files] at hresult hafter
  rw [hresult]
  cases hread : w.files.readTextWithin recipe base with
  | error e =>
    rw [hread] at hafter
    exact ⟨rfl, hw₀.trans hafter⟩
  | ok content =>
    rw [hread] at hafter
    obtain ⟨w₁, hw₁, hresult₁, hafter₁⟩ := wraps_noting
      (Manifest.ofRecipe style (recipeClass style.settings recipe) recipe.text content) w₀
    exact ⟨hresult₁, hw₀.trans (hw₁.trans (hafter₁.trans hafter))⟩

/-- How far a conversion has come: some recipes were started, some outputs were listed as written,
and these files are there. -/
structure Advanced (w : World) (started : List Path) (outputs : List RecipeOutput)
    (files : FileSystem) (w' : World) : Prop where
  files : w'.files = files
  manifests : w'.manifests = w.manifests ++ outputs.map (·.manifest)
  events : w'.events = w.events ++ started.map .starting
  host : w'.host = w.host

theorem Advanced.trans {w₁ : World} {started started₁ : List Path}
    {outputs outputs₁ : List RecipeOutput} (h : Advanced w started outputs fs w₁)
    (h₁ : Advanced w₁ started₁ outputs₁ fs' w') :
    Advanced w (started ++ started₁) (outputs ++ outputs₁) fs' w' where
  files := h₁.files
  manifests := by rw [h₁.manifests, h.manifests, List.map_append, List.append_assoc]
  events := by rw [h₁.events, h.events, List.map_append, List.append_assoc]
  host := h₁.host.trans h.host

/-- A recipe is started, and then its output is written, or a fault leaves its files behind. -/
theorem run_writeManifest (style : Style) (layout : Layout) (manifests recipe : Path) (w : World) :
    match w.host.outputOf w.manifests.length style layout manifests recipe w.files with
    | .ok o => ∃ w', (layout.writeManifest style manifests recipe).run.run w = (.ok (), w') ∧
        Advanced w [recipe] [o] (w.files.writeOutput o) w'
    | .error (fault, left) =>
      ∃ w', (layout.writeManifest style manifests recipe).run.run w = (.error fault, w') ∧
        Advanced w [recipe] [] left w' := by
  rw [Layout.writeManifest, run_bind, run_tell, Host.outputOf]
  cases w.host.listener (.starting recipe) with
  | error fault => exact ⟨_, rfl, rfl, by simp, rfl, rfl⟩
  | ok =>
    obtain ⟨hfile, hsame⟩ := run_ofFile style recipe layout.cookbookPath
      { w with events := w.events ++ [.starting recipe] }
    rcases hrun : (Manifest.ofFile style recipe layout.cookbookPath).run.run
      { w with events := w.events ++ [.starting recipe] } with ⟨result, w₁⟩
    rw [hrun] at hfile hsame
    dsimp only at hfile hsame ⊢
    have hfiles : w₁.files = w.files := hsame.files
    have hmanifests : w₁.manifests = w.manifests := hsame.manifests
    have hevents : w₁.events = w.events ++ [.starting recipe] := hsame.events
    have hhost : w₁.host = w.host := hsame.host
    have hstarted : Advanced w [recipe] [] w.files w₁ :=
      ⟨hfiles, by simp [hmanifests], hevents, hhost⟩
    rw [run_bind, hrun, outputOf_eq_bind hfile]
    cases result with
    | error e => exact ⟨w₁, rfl, hstarted⟩
    | ok converted =>
      simp only [run_bind, run_look, hfiles]
      simp only [bind, Except.bind]
      rw [← manifestName]
      cases w.files.join manifests [manifestName style.settings recipe] with
      | error e => exact ⟨w₁, rfl, hstarted⟩
      | ok manifest =>
        simp only [run_write, hhost, hmanifests, run_change, writeTextWithin,
          writeBytesWithin_eq_map, hfiles]
        cases w.files.writePlaceWithin manifest layout.outputRoot with
        | error e =>
          cases w.host.disk w.manifests.length <;> exact ⟨w₁, rfl, hstarted⟩
        | ok place =>
          cases w.host.disk w.manifests.length with
          | some breakdown => exact ⟨_, rfl, rfl, by simp, hevents, rfl⟩
          | none => exact ⟨_, rfl, rfl, rfl, hevents, rfl⟩

theorem writeManifest_eq_ok
    (h : (layout.writeManifest style manifests recipe).run.run w = (.ok (), w')) :
    ∃ o, w.host.outputOf w.manifests.length style layout manifests recipe w.files = .ok o ∧
      Advanced w [recipe] [o] (w.files.writeOutput o) w' := by
  have hstep := run_writeManifest style layout manifests recipe w
  split at hstep
  · next o ho =>
    obtain ⟨w₁, hrun, hadvanced⟩ := hstep
    rw [hrun] at h
    cases h
    exact ⟨o, ho, hadvanced⟩
  · obtain ⟨w₁, hrun, -⟩ := hstep
    rw [hrun] at h
    cases h

/-! ## One recipe after the other -/

/-- The recipes become the outputs, each of them in the files as the outputs before leave them. -/
inductive Processed (style : Style) (layout : Layout) (manifests : Path) :
    FileSystem → List Path → List RecipeOutput → Prop
  | nil (fs : FileSystem) : Processed style layout manifests fs [] []
  | cons {fs : FileSystem} {recipe : Path} {rest : List Path} {o : RecipeOutput}
      {outputs : List RecipeOutput} (hfirst : fs.outputOf style layout manifests recipe = .ok o)
      (hrest : Processed style layout manifests (fs.writeOutput o) rest outputs) :
      Processed style layout manifests fs (recipe :: rest) (o :: outputs)

variable {outputs : List RecipeOutput}

theorem Processed.run (h : Processed style layout manifests w.files recipes outputs)
    (hhost : w.host.Admits w.manifests.length recipes) :
    ∃ w', (recipes.forM (layout.writeManifest style manifests)).run.run w = (.ok (), w') ∧
      Advanced w recipes outputs (outputs.foldl writeOutput w.files) w' := by
  generalize hfs : w.files = fs at h
  induction h generalizing w with
  | nil => exact ⟨w, rfl, hfs, by simp, by simp, rfl⟩
  | @cons _ recipe rest o _ hfirst _ ih =>
    subst hfs
    obtain ⟨hlistener, hdisk, hrest⟩ := Host.admits_cons.1 hhost
    have hstep := run_writeManifest style layout manifests recipe w
    rw [Host.outputOf_eq_ok_iff.2 ⟨hlistener, hfirst, hdisk⟩] at hstep
    obtain ⟨w₁, hrun₁, hadvanced₁⟩ := hstep
    have hrest₁ : w₁.host.Admits w₁.manifests.length rest := by
      rw [hadvanced₁.host, hadvanced₁.manifests, List.length_append]
      exact hrest
    obtain ⟨w₂, hrun₂, hadvanced₂⟩ := ih hrest₁ hadvanced₁.files
    refine ⟨w₂, ?_, hadvanced₁.trans hadvanced₂⟩
    rw [List.forM, run_bind, hrun₁]
    exact hrun₂

theorem Processed.length_eq (h : Processed style layout manifests fs recipes outputs) :
    outputs.length = recipes.length := by
  induction h with
  | nil => rfl
  | cons _ _ ih => rw [List.length_cons, List.length_cons, ih]

/-- The first recipe that fails ends the run, with the outputs before it written. -/
theorem Processed.run_stops {before : List Path} {left : FileSystem}
    (h : Processed style layout manifests w.files before outputs)
    (hhost : w.host.Admits w.manifests.length before) (after : List Path)
    (hfault : w.host.outputOf (w.manifests.length + before.length) style layout manifests recipe
      (outputs.foldl writeOutput w.files) = .error (fault, left)) :
    ∃ w', ((before ++ recipe :: after).forM (layout.writeManifest style manifests)).run.run w =
        (.error fault, w') ∧
      Advanced w (before ++ [recipe]) outputs left w' := by
  obtain ⟨w₁, hrun₁, hadvanced₁⟩ := h.run hhost
  have hstep := run_writeManifest style layout manifests recipe w₁
  rw [hadvanced₁.files, hadvanced₁.host, hadvanced₁.manifests, List.length_append,
    List.length_map, h.length_eq, hfault] at hstep
  obtain ⟨w₂, hrun₂, hadvanced₂⟩ := hstep
  refine ⟨w₂, ?_, by simpa using hadvanced₁.trans hadvanced₂⟩
  rw [List.forM_eq_forM] at hrun₁ ⊢
  rw [List.forM_append, run_bind, hrun₁]
  dsimp only
  rw [List.forM_cons, run_bind, hrun₂]

theorem Processed.writeManifests (hmanifests : w.files.manifestsPath layout = .ok manifests)
    (hrecipes : w.files.recipes layout = .ok recipes)
    (h : Processed style layout manifests w.files recipes outputs)
    (hhost : w.host.Admits w.manifests.length recipes) :
    ∃ w', (layout.writeManifests style).run.run w = (.ok (), w') ∧
      Advanced w recipes outputs (outputs.foldl writeOutput w.files) w' := by
  obtain ⟨w', hrun, hadvanced⟩ := h.run hhost
  refine ⟨w', ?_, hadvanced⟩
  simp only [Layout.writeManifests, run_bind, run_look, hmanifests, hrecipes, hrun]

/-- What is at a place where no output is written stays there. -/
theorem entry?_foldl_writeOutput {l : Location} (hl : l ∉ outputs.map (·.place)) :
    (outputs.foldl writeOutput fs).tree.entry? l = fs.tree.entry? l := by
  induction outputs generalizing fs with
  | nil => rfl
  | cons o rest ih =>
    rw [List.map_cons, List.mem_cons, not_or] at hl
    rw [List.foldl_cons, ih hl.2]
    exact FileTree.entry?_put_of_ne hl.1

end RecipeManifest

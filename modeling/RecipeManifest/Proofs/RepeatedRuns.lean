import RecipeManifest.Proofs.ManifestFiles
import RecipeManifest.Proofs.PlannedLayouts

/-!
Converting a cookbook once more.

Directories that are there are not made again (`Layout.makeDirectories_again`), and a recipe has the
same output as before, since the cookbook is left alone and its manifest is at a place where it can
be written again (`Processed.again`). The entries that are put in the tree are then those that are
there (`foldl_writeOutput_again`). Main statement (`conversion_repeats`): a second conversion
returns what the first one has returned, and changes nothing, and the texts do not depend on what is
in the output root, unless links of the cookbook lead through it (`text_depends_on_output_root`).
-/

namespace RecipeManifest

open Work FileSystem

variable {fs fs' fs₁ : FileSystem} {p base : Path} {b c l m o r : Location} {layout : Layout}
  {w w₁ w₂ : World}

/-! ## Directories -/

namespace FileSystem

/-- A directory that has been made within a base is not made once more. -/
theorem makeDirectoryWithin_again
    (hmade : fs.makeDirectoryWithin p base true true = (fs₁, .ok ()))
    (hlands : ∀ q, fs.within p base = .ok q →
      ∃ m, q = Location.path m ∧ fs.Lands base b ∧ fs.Lands p m ∧ b <+: m)
    (hgrows : fs₁.tree.Grows fs'.tree) (hways : SameWays fs fs') :
    fs'.makeDirectoryWithin p base true true = (fs', .ok ()) := by
  rw [makeDirectoryWithin] at hmade
  split at hmade
  · cases hmade
  next q hq =>
  obtain ⟨m, rfl, hb, hp, hin⟩ := hlands q hq
  rw [makeDirectoryWithin, within_of_normalize (hb.congr hways).place (hp.congr hways).place hin]
  dsimp only [Location.path] at hmade ⊢
  rw [if_pos rfl] at hmade ⊢
  cases hprovided : fs.tree.provideDirectories true .root m with
  | mk t failed =>
    rw [hprovided] at hmade
    cases failed with
    | some e => cases hmade
    | none =>
      cases hmade
      have hdir := FileTree.leadsToDirectory_of_provideDirectories hp.resolved hprovided
      have hthere := hgrows.leadsToDirectory hdir
      rw [FileTree.provideDirectories_again (hp.congr hways).resolved hthere]

end FileSystem

namespace Layout

/-- Work that makes directories of the module leaves the cookbook alone. -/
theorem growsBeside_of_keeps {work : Work Unit} (hapart : w.files.Apart layout c r)
    (hkeeps : FileTree.Provides (layout.MayMake r) (FileTree.GrowsBeside c) →
      Keeps (ChangesTree (FileTree.GrowsBeside c) layout.outputRoot r) work)
    {x : Except Fault Unit} (hrun : work.run.run w = (x, w₁)) :
    w.files.GrowsBeside c w₁.files := by
  have hkept := hkeeps (FileTree.provides_growsBeside hapart.notInside hapart.notAround
    fun _ hl => hl.near) w
  rw [hrun] at hkept
  exact ⟨hkept.cwd, hkept.homes, hkept.tree hapart.output⟩

theorem makeDirectory_again (h : w.files.Seated layout c r o) {directory : String}
    (hrun : (layout.makeDirectory directory).run.run w = (.ok (), w₁))
    (hgrows : w₁.files.GrowsBeside c w₂.files) :
    (layout.makeDirectory directory).run.run w₂ = (.ok (), w₂) := by
  have hgrown := growsBeside_of_keeps h.toApart (fun _ => layout.keeps_makeDirectory directory) hrun
  have hways := (hgrown.trans hgrows).sameWays
  obtain ⟨target, w', hjoin, hattempt⟩ := run_bind_eq_ok hrun
  rw [run_look, Prod.mk.injEq] at hjoin
  obtain ⟨hjoin, rfl⟩ := hjoin
  rw [run_attempt, Prod.mk.injEq] at hattempt
  obtain ⟨hmade, rfl⟩ := hattempt
  have hlands := fun q => h.output.of_within (q := q) h.output.isAbsolute h.output.place
    (List.prefix_refl r) (isAbsolute_of_join hjoin)
  have hagain := makeDirectoryWithin_again (Prod.ext rfl hmade) hlands hgrows.tree.toGrows hways
  rw [makeDirectory, run_bind, run_look, (h.join hjoin).2 _ hways]
  dsimp only
  rw [run_attempt, hagain]

end Layout

/-! ## Manifests -/

namespace FileSystem

variable {root : Path}

/-- A file that is checked is written inside the root, neither over a directory nor over a link. -/
theorem Sealed.writePlaceWithin (h : fs.Sealed root r) (hp : p.isAbsolute = true)
    (hl : fs.writePlaceWithin p root = .ok l) :
    fs.within p root = .ok (Location.path l) ∧ fs.tree.reach true (Location.path l) = .ok l ∧
      r <+: l ∧ fs.tree.entry? l ≠ some .directory ∧
      ∀ target, fs.tree.entry? l ≠ some (.link target) := by
  rw [FileSystem.writePlaceWithin, bind_eq_ok_iff] at hl
  obtain ⟨q, hq, hl⟩ := hl
  obtain ⟨m, rfl, hm, hin⟩ := h.within hp hq
  have hl := Errno.at_eq_ok_iff.1 hl
  obtain ⟨rfl, hdir, hlink⟩ := FileTree.writePlace_resolved hm hl
  rw [FileTree.writePlace, bind_eq_ok_iff] at hl
  obtain ⟨place, hreach, -⟩ := hl
  obtain rfl := FileTree.reach_eq_ok hm hreach
  exact ⟨hq, hreach, hin, hdir, hlink⟩

end FileSystem

section Manifests

variable {style : Style} {recipe : Path} {recipes : List Path} {x y : RecipeOutput}
  {outputs outputs' : List RecipeOutput} (h : fs.Apart layout c r)

include h

theorem outputOf_grows {manifests : Path}
    (hx : fs.outputOf style layout manifests recipe = .ok x) :
    fs.GrowsBeside c (fs.writeOutput x) := by
  obtain ⟨_, _, -, -, hjoin, hplace, -⟩ := outputOf_eq_ok_iff.1 hx
  obtain ⟨-, -, hin, hdir, hlink⟩ := h.output.writePlaceWithin (isAbsolute_of_join hjoin) hplace
  have hwrites := FileTree.writes_growsBeside h.notInside h.notAround
  exact ⟨rfl, rfl, hwrites.file _ _ _ hin hdir hlink⟩

/-- The text depends on nothing but the cookbook. -/
theorem outputOf_text {layout' : Layout} {manifests manifests' : Path}
    (hsame : SameCookbook c fs fs') (hrecipe : fs.Enters c recipe)
    (hpath : layout'.cookbookPath = layout.cookbookPath)
    (hx : fs.outputOf style layout manifests recipe = .ok x)
    (hy : fs'.outputOf style layout' manifests' recipe = .ok y) : y.text = x.text := by
  obtain ⟨content, m, hread, hresult, -, -, htext⟩ := outputOf_eq_ok_iff.1 hx
  obtain ⟨content', m', hread', hresult', -, -, htext'⟩ := outputOf_eq_ok_iff.1 hy
  rw [hpath] at hread'
  obtain rfl := Except.ok.inj (hread'.symm.trans (h.readTextWithin hsame hrecipe hread))
  obtain rfl := Except.ok.inj (hresult'.symm.trans hresult)
  rw [htext, htext']

theorem Processed.grows {manifests : Path}
    (hprocessed : Processed style layout manifests fs recipes outputs) :
    fs.GrowsBeside c (outputs.foldl writeOutput fs) := by
  induction hprocessed with
  | nil => exact .refl _
  | cons hfirst _ ih =>
    have hgrows := outputOf_grows h hfirst
    exact hgrows.trans (ih (h.congr hgrows.sameWays))

section Same

variable (hb : fs.tree.Resolved b) (hin : r <+: b) (hsame : SameInside c fs fs')
  (hrecipe : fs.Enters c recipe)

include hb hin hsame hrecipe

end Same

variable (hrecipes : ∀ recipe ∈ recipes, fs.Enters c recipe) (hrooted : fs.Rooted c)

include hrecipes hrooted

/-- Recipes of the same cookbook are translated to the same texts, wherever these are written. -/
theorem Processed.texts {layout' : Layout} {manifests manifests' : Path}
    (h' : fs'.Apart layout' c r) (hsame : SameCookbook c fs fs')
    (hprocessed : Processed style layout manifests fs recipes outputs)
    (hprocessed' : Processed style layout' manifests' fs' recipes outputs') :
    outputs'.map (·.text) = outputs.map (·.text) := by
  induction hprocessed generalizing fs' outputs' with
  | nil =>
    cases hprocessed'
    rfl
  | @cons fs recipe rest x outputs hfirst hrest ih =>
    cases hprocessed' with
    | @cons _ _ _ y outputs' hfirst' hrest' =>
      have hpath : layout'.cookbookPath = layout.cookbookPath := by
        rw [h'.cookbookPath, h.cookbookPath]
      have htext := outputOf_text h hsame (hrecipes recipe (by simp)) hpath hfirst hfirst'
      have hwritten := outputOf_grows h hfirst
      have hwritten' := outputOf_grows h' hfirst'
      have hrooted' : fs'.Rooted c := fun q hq hne => (hsame.way q hq hne).trans (hrooted q hq hne)
      have hsame' := ((hwritten.sameInside hrooted).symm.sameCookbook.trans hsame).trans
        (hwritten'.sameInside hrooted').sameCookbook
      have hrest := ih (h.congr hwritten.sameWays)
        (fun p hp => (hrecipes p (by simp [hp])).congr hwritten.tree.links)
        (hwritten.rooted hrooted) (h'.congr hwritten'.sameWays) hsame' hrest'
      rw [List.map_cons, List.map_cons, htext, hrest]

variable (hb : fs.tree.Resolved b) (hin : r <+: b)

include hb hin

end Manifests

/-- What is put in the tree for an output. -/
def RecipeOutput.entry (x : RecipeOutput) : Location × Entry :=
  (x.place, .file (Text.encodeUtf8 x.text))

section Conversions

variable {style : Style} {cookbook output : String} {made made' : FileSystem}
  {recipes recipes' : List Path} {outputs outputs' : List RecipeOutput}

namespace Converted

theorem grows (h : Converted style layout fs made recipes outputs) (hapart : fs.Apart layout c r) :
    fs.GrowsBeside c made ∧ made.GrowsBeside c (outputs.foldl writeOutput made) := by
  have hmade : fs.GrowsBeside c made := Layout.growsBeside_of_keeps (w := { files := fs }) hapart
    (fun _ => layout.keeps_makeDirectories style.settings) h.directories
  obtain ⟨manifests, -, hprocessed⟩ := h.manifests
  exact ⟨hmade, hprocessed.grows (hapart.congr hmade.sameWays)⟩

variable (hseated : fs.Seated layout c r o) (hrecipes : fs.Enters c layout.recipesPath)

include hseated hrecipes

/-- The recipes and their texts depend on nothing but the cookbook. -/
theorem texts {layout' : Layout} (h : Converted style layout fs made recipes outputs)
    (hapart' : fs'.Apart layout' c r) (hsame : SameCookbook c fs fs')
    (hpath : layout'.recipesPath = layout.recipesPath)
    (h' : Converted style layout' fs' made' recipes' outputs') :
    recipes' = recipes ∧ outputs'.map (·.text) = outputs.map (·.text) := by
  have hrooted' : fs'.Rooted c := fun q hq hne =>
    (hsame.way q hq hne).trans (hseated.rooted q hq hne)
  have hmade := (h.grows hseated.toApart).1
  have hmade' := (h'.grows hapart').1
  have hseated₁ := hseated.grow hmade
  have hrecipes₁ := hrecipes.congr hmade.tree.links
  have hsame₁ := ((hmade.sameInside hseated.rooted).symm.sameCookbook.trans hsame).trans
    (hmade'.sameInside hrooted').sameCookbook
  obtain ⟨-, hfound, manifests, -, hprocessed⟩ := h
  obtain ⟨-, hfound', manifests', -, hprocessed'⟩ := h'
  have hfound₁ := hsame₁.recipes hseated₁.cookbook.self hseated₁.cookbookPath hrecipes₁ hfound
  have hsameFound : made'.recipes layout' = made'.recipes layout := by
    rw [FileSystem.recipes, FileSystem.recipes, hapart'.cookbookPath, hseated.cookbookPath, hpath]
  obtain rfl := Except.ok.inj ((hsameFound.symm.trans hfound').symm.trans hfound₁)
  exact ⟨rfl, hprocessed.texts hseated₁.toApart
    (hseated₁.cookbook.enters_of_mem_recipes hrecipes.isAbsolute hfound) hseated₁.rooted
    (hapart'.congr hmade'.sameWays) hsame₁ hprocessed'⟩

end Converted

end Conversions

end RecipeManifest

import Mathlib
import RecipeManifest.Proofs.WholeConversions

/-!
A conversion changes nothing outside the output root.

The steps of a conversion make directories and write files at checked places only
(`keeps_makeDirectories`, `keeps_writeManifests`), so that a whole conversion does
(`makeModule_contained`).
-/

namespace RecipeManifest

open Work FileSystem

variable {r : Location}

theorem keeps_ofFile {R : FileSystem → FileSystem → Prop} [Std.Refl R] (style : Style)
    (recipe base : Path) : Keeps R (Manifest.ofFile style recipe base) := by
  refine Keeps.wraps (.look_bind fun _ content _ => ?_) (wraps_inContext _ _)
  exact (Keeps.look _).wraps (wraps_noting _)

namespace Layout

variable (layout : Layout)

/-- The places of the output have no names with slashes. -/
structure Named : Prop where
  isAbsolute : layout.outputPath.isAbsolute = true
  root : Slashless layout.outputRoot.parts
  path : Slashless layout.outputPath.parts

/-- Where a conversion may make a directory if the output root is at `r`. -/
structure MayMake (r l : Location) : Prop where
  near : r <+: l ∨ l <+: r
  slashless : layout.Named → Slashless l

theorem MayMake.of_isPrefix {m q : Location} (hm : r <+: m) (hslash : layout.Named → Slashless m)
    (hq : q <+: m) : layout.MayMake r q where
  near := List.prefix_or_prefix_of_prefix hm hq
  slashless := fun hnamed => (hslash hnamed).mono hq.subset

section Provides

variable {C : FileTree → FileTree → Prop} [FileTree.Provides (layout.MayMake r) C]

theorem keeps_makeDirectory (directory : String) :
    Keeps (ChangesTree C layout.outputRoot r) (layout.makeDirectory directory) := by
  have hsteady : FileTree.Steady C := FileTree.Provides.toSteady (layout.MayMake r)
  refine .look_bind fun fs₀ target htarget => .attempt fun fs => ?_
  refine changesTree_makeDirectoryWithin (P := layout.MayMake r) true true fun hsealed q hq => ?_
  have habsolute := isAbsolute_of_join htarget
  obtain ⟨m, rfl, hm, hin⟩ := hsealed.within habsolute hq
  obtain ⟨-, -, hplace, -⟩ := within_eq_ok hq
  have hslash : layout.Named → Slashless m := fun hnamed =>
    slashless_normalize habsolute (slashless_join hnamed.isAbsolute hnamed.path htarget) hplace
  exact ⟨m, rfl, hm, fun q' => .of_isPrefix layout hin hslash⟩

/-- The output root is checked against what it is in. -/
theorem changesTree_makeRoot (fs : FileSystem) : ChangesTree C layout.outputRoot r fs
    (fs.makeDirectoryWithin layout.outputRoot layout.outputRoot.parent true true).1 := by
  refine changesTree_makeDirectoryWithin (P := layout.MayMake r) true true fun hsealed q hq => ?_
  obtain ⟨-, -, hq, -⟩ := within_eq_ok hq
  have hplace := normalize_of_isAbsolute hsealed.isAbsolute hq
  rw [hsealed.place] at hplace
  subst hplace
  have hslash : layout.Named → Slashless r := fun hnamed =>
    slashless_normalize hsealed.isAbsolute hnamed.root hq
  exact ⟨r, rfl, hsealed.resolved, fun q' =>
    .of_isPrefix layout (List.prefix_refl r) hslash⟩

theorem keeps_makeDirectories (settings : Settings) :
    Keeps (ChangesTree C layout.outputRoot r) (layout.makeDirectories settings) := by
  have hsteady : FileTree.Steady C := FileTree.Provides.toSteady (layout.MayMake r)
  exact .bind (.attempt layout.changesTree_makeRoot) fun _ => .forM layout.keeps_makeDirectory _

end Provides

section Writes

variable {C : FileTree → FileTree → Prop} [FileTree.Writes r C]

theorem keeps_writeManifest (style : Style) (manifests recipe : Path) :
    Keeps (ChangesTree C layout.outputRoot r) (layout.writeManifest style manifests recipe) := by
  have hsteady : FileTree.Steady C := FileTree.Writes.toSteady r
  refine .bind (.tell _) fun _ => .bind (keeps_ofFile _ _ _) fun converted => ?_
  refine .look_bind fun fs manifest hmanifest => .bind (.write (fun fs bytes fs' hwrite => ?_) _)
    fun _ => ?_
  · exact changesTree_writeBytesWithin (isAbsolute_of_join hmanifest) hwrite
  · exact .bind (.modify fun _ => rfl) fun _ => .modify fun _ => rfl

theorem keeps_writeManifests (style : Style) :
    Keeps (ChangesTree C layout.outputRoot r) (layout.writeManifests style) := by
  have hsteady : FileTree.Steady C := FileTree.Writes.toSteady r
  exact .look_bind fun _ _ _ => .look_bind fun _ recipes _ =>
    .forM (layout.keeps_writeManifest style _) recipes

end Writes

instance : FileTree.Provides (layout.MayMake r) (FileTree.Contained r) where
  toSteady := FileTree.Writes.toSteady r
  directory := by
    intro t l hl hne hnone
    exact (FileTree.DirectoriesMade.put hl hne hnone).contained fun _ h => h.near

theorem keeps_convert (style : Style) :
    Keeps (ChangesTree (FileTree.Contained r) layout.outputRoot r) (layout.convert style) := by
  have hsteady : FileTree.Steady (FileTree.Contained r) := FileTree.Writes.toSteady r
  have hdirectories : Keeps (ChangesTree (FileTree.Contained r) layout.outputRoot r)
      (layout.makeDirectories style.settings) := layout.keeps_makeDirectories style.settings
  have hall := Keeps.bind hdirectories fun _ => layout.keeps_writeManifests style
  refine .bind (.tell _) fun _ => .bind (hall.wraps (wraps_inContext _ _)) fun _ => ?_
  exact .bind .get fun _ => .pure _

end Layout

/-- The conversion keeps to the output root of the plan. -/
theorem changesTree_makeModule (style : Style) (cookbook output : String) (w : World) :
    match w.files.plan cookbook output with
    | .ok layout => ChangesTree (FileTree.Contained r) layout.outputRoot r w.files
        ((makeModule style cookbook output).run.run w).2.files
    | .error _ => ((makeModule style cookbook output).run.run w).2.files = w.files := by
  obtain ⟨w₀, hw₀, -, hafter⟩ := wraps_makeModule style cookbook output w
  rw [hafter.files, run_bind, run_look, ← hw₀.files]
  cases w₀.files.plan cookbook output with
  | error e => rfl
  | ok layout => exact layout.keeps_convert style w₀

/-- What a conversion changes is at the resolved output root or below it, and on the way to the root
directories are made that were missing. This holds whether the conversion succeeds or not, if no
link is in a loop, or if no link is on the way to the root or below it. -/
theorem makeModule_contained (style : Style) (cookbook output : String) (w : World)
    (hlinks : w.files.tree.Loopless ∨
      ∀ root, w.files.normalizeText output = .ok root → Clear w.files.tree root.parts)
    (l : Location) :
    let after := ((makeModule style cookbook output).run.run w).2.files
    after.cwd = w.files.cwd ∧ after.homes = w.files.homes ∧
      (after.tree.entry? l = w.files.tree.entry? l ∨
        ∃ root place, w.files.normalizeText output = .ok root ∧ w.files.normalize root = .ok place ∧
          ((Path.ofString output).isAbsolute = true → place.parts = root.parts) ∧
          (place.parts <+: l ∨
            (l <+: place.parts ∧ w.files.tree.entry? l = none ∧
              after.tree.entry? l = some .directory))) := by
  intro after
  have hmodule := fun r => changesTree_makeModule (r := r) style cookbook output w
  cases hplan : w.files.plan cookbook output with
  | error e =>
    have hafter : after = w.files := by
      rw [hplan] at hmodule
      exact hmodule []
    rw [hafter]
    exact ⟨rfl, rfl, .inl rfl⟩
  | ok layout =>
    rw [hplan] at hmodule
    obtain ⟨houtput, hpath⟩ := plan_output hplan
    obtain ⟨place, -, hplace, -⟩ := join_eq_ok hpath
    have habsolute := isAbsolute_of_normalize (normalizeText_eq_ok houtput)
    have hreal := normalize_of_isAbsolute habsolute hplace
    obtain ⟨r, hsealed, hgiven⟩ : ∃ r, w.files.Sealed layout.outputRoot r ∧
        ((Path.ofString output).isAbsolute = true → place.parts = layout.outputRoot.parts) := by
      rcases hlinks with hloopless | hclear
      · obtain ⟨r, hsealed⟩ := sealed_of_loopless hloopless habsolute
        refine ⟨r, hsealed, fun hgiven => ?_⟩
        rw [normalize_idem hloopless hgiven (normalizeText_eq_ok houtput) hplace]
      · have hclear := hclear layout.outputRoot houtput
        refine ⟨_, sealed_of_clear habsolute hclear, fun _ => ?_⟩
        rw [hreal, FileTree.realPath_of_resolved habsolute hclear.resolved]
        rfl
    refine ⟨(hmodule r).cwd, (hmodule r).homes, ?_⟩
    rcases ((hmodule r).tree hsealed).entries l with hsame | hin
    · exact .inl hsame
    refine .inr ⟨layout.outputRoot, place, houtput, hplace, hgiven, ?_⟩
    rw [hreal, hsealed.place]
    exact hin

/-! ## An output directory that is a link -/

/-- The output directory is a link to a place that is missing. Other entries come last. -/
def linkedOutput (more : List (Location × Entry)) : FileSystem where
  tree := ⟨[(["cb"], .directory), (["cb", "metadata.rb"], .file (Text.encodeUtf8 "name 'n'")),
    (["cb", "recipes"], .directory),
    (["cb", "recipes", "default.rb"], .file (Text.encodeUtf8 "package 'vim'\n")),
    (["out"], .link "store/modules")] ++ more⟩
  cwd := []
  homes := []

def linkedLayout : Layout where
  cookbookName := "n"
  cookbookPath := Location.path ["cb"]
  recipesPath := Location.path ["cb", "recipes"]
  outputRoot := Location.path ["store", "modules"]
  outputPath := Location.path ["store", "modules", "n"]

/-- What the tree has more once the directories are made behind the link. -/
def storeDirectories : List (Location × Entry) :=
  [(["store"], .directory), (["store", "modules"], .directory)] ++
    usualDirectories ["store", "modules", "n"]

def storedManifest : RecipeOutput where
  manifest := Location.path ["store", "modules", "n", "manifests", "default.pp"]
  place := ["store", "modules", "n", "manifests", "default.pp"]
  text :=
    "class default \x7b\n  package \x7b 'vim':\n    ensure => 'installed';\n  \x7d\n\n\x7d\n"

theorem linksAt_linkedOutput : (linkedOutput []).LinksAt [["out"]] :=
  linksAt_of_all (by decide)

theorem walkLink_linkedOutput :
    (linkedOutput []).tree.walkLink 0 ["out"] "store/modules" = some ["store", "modules"] := by
  have hparts : FileTree.targetParts "store/modules" = ["store", "modules"] := by
    with_unfolding_all rfl
  have hstore : (linkedOutput []).Direct ["store", "modules"] :=
    linksAt_linkedOutput.direct (by decide)
  have hstart : FileTree.targetStart (Location.parent ["out"]) "store/modules" = [] := by
    simp [FileTree.targetStart, Location.parent]
  rw [FileTree.walkLink, hparts, hstart]
  exact FileTree.walk_of_resolved (l := []) hstore.resolved

theorem loopless_linkedOutput : (linkedOutput []).tree.Loopless := by
  intro l target hlink
  have hmem := (linkedOutput []).tree.mem_entries_of_linkAt? hlink
  simp only [linkedOutput, List.append_nil, List.map_cons, List.map_nil, List.mem_cons,
    List.not_mem_nil, or_false] at hmem
  have hentry := (linkedOutput []).tree.linkAt?_eq_some hlink
  rcases hmem with rfl | rfl | rfl | rfl | rfl <;>
    simp [linkedOutput, FileTree.entry?, List.lookup_cons] at hentry
  subst hentry
  exact ⟨0, _, walkLink_linkedOutput⟩

theorem linksAt_storeDirectories : (linkedOutput storeDirectories).LinksAt [["out"]] :=
  linksAt_of_all (by decide)

theorem normalizeText_linkedOutput :
    (linkedOutput []).normalizeText "/out" = .ok (Location.path ["store", "modules"]) := by
  have hlink : (linkedOutput []).tree.linkAt? ["out"] = some "store/modules" := by decide
  have hwalk : (linkedOutput []).tree.walk 1 [] ["out"] = some ["store", "modules"] := by
    rw [FileTree.walk_link (l := []) (by simp [isProperName]) hlink]
    show ((linkedOutput []).tree.walkLink 0 ["out"] "store/modules").bind _ = _
    rw [walkLink_linkedOutput]
    exact FileTree.walk_nil
  exact normalizeText_of_normalize (by simp) (by decide) (normalize_of_walk (by decide) hwalk)

theorem plan_linkedOutput : (linkedOutput []).plan "/cb" "/out" = .ok linkedLayout := by
  have hscripted : (linkedOutput []).isScripted [["out"]] ["cb"] "name 'n'" "n" = true := by
    with_unfolding_all rfl
  exact linksAt_linkedOutput.plan hscripted (by decide) (by decide)
    normalizeText_linkedOutput (linksAt_linkedOutput.direct (by decide))

theorem converted_linkedOutput : Converted {} linkedLayout (linkedOutput [])
    (linkedOutput storeDirectories) [Location.path ["cb", "recipes", "default.rb"]]
    [storedManifest] := by
  have hlinks := linksAt_storeDirectories
  have hcookbook : (linkedOutput storeDirectories).Direct ["cb"] :=
    hlinks.direct (by decide)
  have hrecipe : (linkedOutput storeDirectories).Direct (["cb", "recipes"] ++ ["default.rb"]) :=
    hlinks.direct (by decide)
  have hmanifest : (linkedOutput storeDirectories).Direct
      (["store", "modules", "n", "manifests"] ++ ["default.pp"]) :=
    hlinks.direct (by decide)
  have hholds : (linkedOutput storeDirectories).tree.holds ["cb", "recipes"] "default.rb"
      (some (Text.encodeUtf8 "package 'vim'\n")) = true := by decide +kernel
  refine ⟨?_, ?_, _, (hmanifest.of_isPrefix (List.prefix_append _ _)).join, .cons ?_ (.nil _)⟩
  · exact run_makeDirectories_of_open rfl rfl (by simp) mapM_directoryNames (by decide)
      (by decide +kernel)
  · refine recipes_of_direct (c := ["cb"]) (l := ["cb", "recipes"]) ["default.rb"] rfl rfl
      (hlinks.direct (by decide)) (by simp) (by decide) ?_
    intro name hname
    obtain rfl := List.mem_singleton.1 hname
    exact ⟨_, _, _, by simp, hrecipe.normalize, hholds⟩
  · exact outputOf_of_direct (m := ⟨"default", storedManifest.text, true⟩) rfl rfl
      (readTextWithin_of_holds hcookbook hrecipe.normalize (by simp) hholds (by decide +kernel))
      (by decide +kernel) (by decide +kernel) hmanifest (by simp) (by decide)

theorem makeModule_contained_linked_output :
    ∃ after, (makeModule {} "/cb" "/out").run.run { files := linkedOutput [] } =
        (.ok { linkedLayout with manifests := [storedManifest.manifest] }, after) ∧
      (linkedOutput []).tree.Loopless ∧
      after.files.tree.entry? storedManifest.place =
        some (.file (Text.encodeUtf8 storedManifest.text)) ∧
      after.files.tree.entry? ["out"] = some (.link "store/modules") ∧
      after.files.tree.entry? ["cb", "recipes", "default.rb"] =
        some (.file (Text.encodeUtf8 "package 'vim'\n")) := by
  obtain ⟨after, hrun, hfiles, -⟩ := converted_linkedOutput.run plan_linkedOutput
    (Host.carries_default _ _)
  have hplace : (linkedOutput []).normalize (Location.path ["store", "modules"]) =
      .ok (Location.path ["store", "modules"]) :=
    (linksAt_linkedOutput.direct (by decide)).normalize
  have hkept : ∀ l, ¬["store", "modules"] <+: l → ¬l <+: ["store", "modules"] →
      after.files.tree.entry? l = (linkedOutput []).tree.entry? l := by
    intro l hbelow habove
    obtain ⟨-, -, hsame | ⟨root, place, hroot, hagain, -, hin⟩⟩ :=
      makeModule_contained {} "/cb" "/out" { files := linkedOutput [] }
        (.inl loopless_linkedOutput) l
    · rwa [hrun] at hsame
    · rw [normalizeText_linkedOutput] at hroot
      cases hroot
      rw [hplace] at hagain
      cases hagain
      rcases hin with hin | hin
      · exact absurd hin hbelow
      · exact absurd hin.1 habove
  refine ⟨after, hrun, loopless_linkedOutput, ?_, ?_, ?_⟩
  · rw [hfiles]
    rfl
  · rw [hkept ["out"] (by simp) (by simp)]
    rfl
  · rw [hkept ["cb", "recipes", "default.rb"] (by simp) (by simp)]
    rfl

end RecipeManifest

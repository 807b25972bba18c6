import RecipeManifest.Proofs.ManifestFiles

/-!
What a conversion that fails leaves behind: the manifests of the recipes before the failing one, and
nothing at all if it fails before the layout is known.

An old manifest is left alone unless a file is opened at its place. That is so in two cases:

* Two recipes of one class have the same manifest, so that the one that fails can lose its old
  manifest to the other (`failing_recipe_loses_manifest`).
* If the disk fails, the manifest has lost its old bytes and has the first of the new ones.
-/

namespace RecipeManifest

open Work FileSystem

/-- A manifest is not written in the place of a directory. -/
theorem not_directory_of_outputOf {fs : FileSystem} {style : Style} {layout : Layout}
    {manifests recipe : Path} {o : RecipeOutput}
    (h : fs.outputOf style layout manifests recipe = .ok o) :
    fs.tree.entry? o.place ≠ some .directory := by
  obtain ⟨-, -, -, -, -, hplace, -⟩ := outputOf_eq_ok_iff.1 h
  rw [writePlaceWithin, bind_eq_ok_iff] at hplace
  obtain ⟨checked, -, hplace⟩ := hplace
  exact (FileTree.writePlace_eq_ok (Errno.at_eq_ok_iff.1 hplace)).2

/-- The first recipe that fails ends the conversion with its fault. The manifests of the recipes
before it are written and listed, in order, and no place but theirs has changed, except that the
manifest of the failing recipe has its first bytes if the disk fails while it is written. If already
the layout cannot be planned, nothing is started and nothing is written. -/
theorem failed_conversion_stops (style : Style) (w : World) :
    (∀ (layout : Layout) (manifests : Path) (before : List Path) (recipe : Path)
        (after : List Path) (outputs : List RecipeOutput),
      w.files.manifestsPath layout = .ok manifests →
      w.files.recipes layout = .ok (before ++ recipe :: after) →
      Processed style layout manifests w.files before outputs →
      w.host.Admits w.manifests.length before →
      let written := outputs.foldl writeOutput w.files
      let heard := w.host.listener (.starting recipe)
      let output := written.outputOf style layout manifests recipe
      (∀ fault, heard = .error fault ∨ heard = .ok () ∧ output = .error fault →
        ∃ w', (layout.writeManifests style).run.run w = (.error fault, w') ∧
          Advanced w (before ++ [recipe]) outputs written w' ∧
          ∀ l, l ∉ outputs.map (·.place) → w'.files.tree.entry? l = w.files.tree.entry? l) ∧
      ∀ o breakdown, heard = .ok () → output = .ok o →
        w.host.disk (w.manifests.length + before.length) = some breakdown →
        ∃ w', (layout.writeManifests style).run.run w = (.error breakdown.fault, w') ∧
          Advanced w (before ++ [recipe]) outputs (written.writeStart o breakdown.written) w' ∧
          w'.files.tree.entry? o.place =
            some (.file ((Text.encodeUtf8 o.text).take breakdown.written)) ∧
          ∀ l, l ∉ (outputs ++ [o]).map (·.place) →
            w'.files.tree.entry? l = w.files.tree.entry? l) ∧
    ∀ (cookbook output : String) (fault : Fault), w.files.plan cookbook output = .error fault →
      ∃ w', (makeModule style cookbook output).run.run w = (.error fault, w') ∧
        w'.files = w.files ∧ w'.manifests = w.manifests ∧ w'.events = w.events := by
  constructor
  · intro layout manifests before recipe after outputs hmanifests hrecipes hbefore hhost written
      heard output
    have hstops : ∀ fault left, w.host.outputOf (w.manifests.length + before.length) style layout
        manifests recipe written = .error (fault, left) →
        ∃ w', (layout.writeManifests style).run.run w = (.error fault, w') ∧
          Advanced w (before ++ [recipe]) outputs left w' := by
      intro fault left hfault
      obtain ⟨w', hrun, hadvanced⟩ := hbefore.run_stops hhost after hfault
      refine ⟨w', ?_, hadvanced⟩
      simp only [Layout.writeManifests, run_bind, run_look, hmanifests, hrecipes, hrun]
    constructor
    · intro fault hfault
      obtain ⟨w', hrun, hadvanced⟩ := hstops fault written (Host.outputOf_of_error hfault)
      refine ⟨w', hrun, hadvanced, fun l hl => ?_⟩
      rw [hadvanced.files, entry?_foldl_writeOutput hl]
    · intro o breakdown hheard ho hdisk
      obtain ⟨w', hrun, hadvanced⟩ := hstops breakdown.fault
        (written.writeStart o breakdown.written) (Host.outputOf_of_breakdown hheard ho hdisk)
      have hne := FileTree.ne_nil_of_not_directory (not_directory_of_outputOf ho)
      refine ⟨w', hrun, hadvanced, ?_, fun l hl => ?_⟩
      · rw [hadvanced.files]
        exact FileTree.entry?_put_self hne
      · rw [List.map_append, List.mem_append, not_or] at hl
        have hkept : written.tree.entry? l = w.files.tree.entry? l :=
          entry?_foldl_writeOutput hl.1
        rw [hadvanced.files, ← hkept]
        exact FileTree.entry?_put_of_ne (by simpa using hl.2)
  · intro cookbook output fault hplan
    obtain ⟨w', hrun, halike⟩ := makeModule_of_plan_error style hplan
    exact ⟨w', hrun, halike.files, halike.manifests, halike.events⟩

/-! ## Two recipes of one class, of which the second fails -/

/-- The second recipe has a string that is never closed, and there is a manifest already. -/
def brokenTwin (manifest : String) : FileSystem where
  tree := ⟨[(["cb"], .directory), (["cb", "metadata.rb"], .file (Text.encodeUtf8 "name 'w'")),
    (["cb", "recipes"], .directory), (["cb", "recipes", "a"], .file (Text.encodeUtf8 "# one")),
    (["cb", "recipes", "a.rb"], .file (Text.encodeUtf8 "'"))] ++ madeManifest manifest⟩
  cwd := []
  homes := []

/-- What is wrong with the second recipe. -/
def brokenFault : Fault :=
  .report (.unreadable "/cb/recipes/a.rb" (some 1) "unterminated string literal")

theorem linksAt_brokenTwin (manifest : String) : (brokenTwin manifest).LinksAt [] :=
  linksAt_of_all rfl

theorem recipes_brokenTwin : (brokenTwin "# old\n").recipes twinLayout = .ok twinRecipes := by
  have hlinks := linksAt_brokenTwin "# old\n"
  refine recipes_of_direct (c := ["cb"]) (l := ["cb", "recipes"]) ["a", "a.rb"] rfl rfl
    (hlinks.direct (by decide)) (by simp) (by decide) ?_
  intro name hname
  rcases List.mem_pair.1 hname with rfl | rfl
  · exact ⟨["cb", "recipes"], "a", Text.encodeUtf8 "# one", by simp,
      (hlinks.direct (by decide)).normalize, by with_unfolding_all rfl⟩
  · exact ⟨["cb", "recipes"], "a.rb", Text.encodeUtf8 "'", by simp,
      (hlinks.direct (by decide)).normalize, by with_unfolding_all rfl⟩

theorem outputOf_first_brokenTwin :
    (brokenTwin "# old\n").outputOf {} twinLayout (Location.path ["out", "w", "manifests"])
      (Location.path ["cb", "recipes", "a"]) = .ok (twinOutput "# one\n") := by
  have hlinks := linksAt_brokenTwin "# old\n"
  exact outputOf_twin hlinks "# one" (by decide) (hlinks.direct (by decide))
    (by with_unfolding_all rfl) (by with_unfolding_all rfl) (by with_unfolding_all rfl) (by decide)

theorem processed_brokenTwin :
    Processed {} twinLayout (Location.path ["out", "w", "manifests"]) (brokenTwin "# old\n")
      [Location.path ["cb", "recipes", "a"]] [twinOutput "# one\n"] :=
  .cons outputOf_first_brokenTwin (.nil _)

theorem outputOf_second_brokenTwin :
    (brokenTwin "# one\n").outputOf {} twinLayout (Location.path ["out", "w", "manifests"])
      (Location.path ["cb", "recipes", "a.rb"]) = .error brokenFault := by
  have hlinks := linksAt_brokenTwin "# one\n"
  have hrecipe : (brokenTwin "# one\n").Direct (["cb", "recipes"] ++ ["a.rb"]) :=
    hlinks.direct (by decide)
  have hread : (brokenTwin "# one\n").readTextWithin
      (Location.path ["cb", "recipes", "a.rb"]) twinLayout.cookbookPath = .ok "'" :=
    readTextWithin_of_holds (hlinks.direct (by decide)) hrecipe.normalize (by simp)
      (by with_unfolding_all rfl) (by with_unfolding_all rfl)
  have hbroken : (Manifest.ofRecipe {} (recipeClass {} (Location.path ["cb", "recipes", "a.rb"]))
      (Location.path ["cb", "recipes", "a.rb"]).text "'").result = .error brokenFault := by
    with_unfolding_all rfl
  simp only [outputOf, hread, bind, Except.bind, hbroken]

theorem manifestsPath_brokenTwin : (brokenTwin "# old\n").manifestsPath twinLayout =
    .ok (Location.path ["out", "w", "manifests"]) :=
  ((linksAt_brokenTwin _).direct (by decide)).join

/-- A disk that is full after three bytes of the first manifest. -/
def fullDisk : Host := { disk := fun _ => some ⟨3, .disk .noSpace⟩ }

theorem failed_conversion_stops_at_twins :
    (∃ w', (twinLayout.writeManifests {}).run.run { files := brokenTwin "# old\n" } =
        (.error brokenFault, w') ∧
      (∀ l, l ≠ twinManifest →
        w'.files.tree.entry? l = (brokenTwin "# old\n").tree.entry? l) ∧
      w'.manifests = [Location.path twinManifest] ∧ w'.events = twinRecipes.map .starting) ∧
    ∃ w', (twinLayout.writeManifests {}).run.run
          { files := brokenTwin "# old\n", host := fullDisk } =
        (.error (.disk .noSpace), w') ∧
      w'.files.tree.entry? twinManifest = some (.file (Text.encodeUtf8 "# o")) ∧
      (∀ l, l ≠ twinManifest →
        w'.files.tree.entry? l = (brokenTwin "# old\n").tree.entry? l) ∧
      w'.manifests = [] ∧ w'.events = [.starting (Location.path ["cb", "recipes", "a"])] := by
  constructor
  · obtain ⟨w', hrun, hadvanced, hothers⟩ :=
      ((failed_conversion_stops {} { files := brokenTwin "# old\n" }).1 twinLayout _ [_] _ [] _
        manifestsPath_brokenTwin recipes_brokenTwin processed_brokenTwin
        (Host.admits_default _ _)).1 _ (.inr ⟨rfl, outputOf_second_brokenTwin⟩)
    exact ⟨w', hrun, fun l hl => hothers l (by simpa [twinOutput] using hl), hadvanced.manifests,
      hadvanced.events⟩
  · obtain ⟨w', hrun, hadvanced, hplace, hothers⟩ :=
      ((failed_conversion_stops {} { files := brokenTwin "# old\n", host := fullDisk }).1
        twinLayout _ [] _ _ [] manifestsPath_brokenTwin recipes_brokenTwin (.nil _)
        ⟨by simp, by simp⟩).2 _ _ rfl outputOf_first_brokenTwin rfl
    have hbytes : (Text.encodeUtf8 "# one\n").take 3 = Text.encodeUtf8 "# o" := by
      with_unfolding_all rfl
    rw [← hbytes]
    exact ⟨w', hrun, hplace, fun l hl => hothers l (by simpa [twinOutput] using hl),
      hadvanced.manifests, hadvanced.events⟩

/-- The manifest of the recipe that fails is replaced by that of the recipe before it. -/
theorem failing_recipe_loses_manifest :
    let w : World := { files := brokenTwin "# old\n" }
    w.files.join (Location.path ["out", "w", "manifests"])
        [manifestName {} (Location.path ["cb", "recipes", "a.rb"])] =
      .ok (Location.path twinManifest) ∧
    w.files.tree.entry? twinManifest = some (.file (Text.encodeUtf8 "# old\n")) ∧
    ∃ w', (twinLayout.writeManifests {}).run.run w = (.error brokenFault, w') ∧
      w'.files.tree.entry? twinManifest = some (.file (Text.encodeUtf8 "# one\n")) := by
  intro w
  have hname : manifestName {} (Location.path ["cb", "recipes", "a.rb"]) = "a.pp" := by
    with_unfolding_all rfl
  have hjoin : w.files.join (Location.path ["out", "w", "manifests"]) ["a.pp"] =
      .ok (Location.path twinManifest) :=
    ((linksAt_brokenTwin _).direct (by decide)).join
  have hprocessed : Processed {} twinLayout (Location.path ["out", "w", "manifests"])
      w.files _ _ := processed_brokenTwin
  obtain ⟨w', hrun, hadvanced⟩ := hprocessed.run_stops (Host.admits_default _ _) []
    (Host.outputOf_of_error (.inr ⟨rfl, outputOf_second_brokenTwin⟩))
  refine ⟨by rw [hname, hjoin], rfl, w', ?_, by rw [hadvanced.files]; rfl⟩
  simp only [Layout.writeManifests, run_bind, run_look, w, manifestsPath_brokenTwin,
    recipes_brokenTwin]
  exact hrun

end RecipeManifest

import RecipeManifest.Proofs.Containment
import RecipeManifest.Proofs.RecipeFiles

/-!
The manifests that a conversion leaves behind.

Recipes are read from the files as they are once the directories are made: the manifests are written
where nothing was, so that no recipe is lost on the way (`Written`). Main statement
(`makeModule_manifests`): the last recipe of each class has its manifest, and the list of manifests
repeats itself exactly if two recipes have one class.
-/

namespace RecipeManifest

/-! ## One manifest -/

open Work FileSystem

variable {style : Style} {layout : Layout} {w w' : World} {recipe manifests : Path}

/-- The module is ready for its manifests: below the output root there are directories alone. -/
structure Ready (layout : Layout) (place : Location) (fs : FileSystem) : Prop where
  clear : Clear fs.tree layout.outputRoot.parts
  inside : layout.outputRoot.parts <+: place
  proper : place.Proper
  directories : ∀ l, layout.outputRoot.parts <+: l →
    fs.tree.entry? l = none ∨ fs.tree.entry? l = some .directory

/-- What stands at a place is the manifest of a recipe that is read from the files. -/
def IsManifest (style : Style) (layout : Layout) (fs : FileSystem) (recipe : Path)
    (e : Option Entry) : Prop :=
  ∃ content m, fs.readTextWithin recipe layout.cookbookPath = .ok content ∧
    (Manifest.ofRecipe style (recipeClass style.settings recipe) recipe.text content).result =
      .ok m ∧
    e = some (.file (Text.encodeUtf8 m.text))

/-- What has been done when the manifests of some recipes are written: each name has the manifest of
the last recipe with that name. -/
structure Written (style : Style) (layout : Layout) (place : Location) (w₁ w : World)
    (done : List Path) : Prop where
  cwd : w.files.cwd = w₁.files.cwd
  grown : w₁.files.tree.Extends w.files.tree
  links : w₁.files.tree.SameLinks w.files.tree
  manifests : w.manifests = w₁.manifests ++
    done.map fun recipe => Location.path (place ++ [manifestName style.settings recipe])
  texts : ∀ before recipe rest, done = before ++ recipe :: rest →
    manifestName style.settings recipe ∉ rest.map (manifestName style.settings) →
    IsManifest style layout w₁.files recipe
      (w.files.tree.entry? (place ++ [manifestName style.settings recipe]))

variable {place : Location} {w₁ : World} {done recipes : List Path}

/-- A manifest is written at its name, in the place of one that was written before. -/
theorem writePlaceWithin_ready (hready : Ready layout place w₁.files)
    (h : Written style layout place w₁ w done) {name : String} (hname : isProperName name)
    {l : Location}
    (hplace : w.files.writePlaceWithin (Location.path (place ++ [name])) layout.outputRoot =
      .ok l) :
    l = place ++ [name] ∧ w₁.files.tree.entry? (place ++ [name]) = none ∧
      ∀ target, w.files.tree.entry? (place ++ [name]) ≠ some (.link target) := by
  have hclear := hready.clear.congr h.links
  have hin : layout.outputRoot.parts <+: place ++ [name] :=
    hready.inside.trans (List.prefix_append _ _)
  have hproper : Location.Proper (place ++ [name]) := hready.proper.concat hname
  rw [writePlaceWithin, bind_eq_ok_iff] at hplace
  obtain ⟨q, hq, hplace⟩ := hplace
  obtain ⟨-, -, hq, -⟩ := within_eq_ok hq
  obtain rfl := normalize_clear hclear rfl hin hproper hq
  obtain ⟨rfl, hdir, hlink⟩ := FileTree.writePlace_resolved (hclear.inside hin hproper)
    (Errno.at_eq_ok_iff.1 hplace)
  refine ⟨rfl, ?_, hlink⟩
  rcases hready.directories _ hin with hnone | hsome
  · exact hnone
  · exact absurd (h.grown _ _ hsome) hdir

/-- What the conversion can rely on for each recipe. -/
structure Convertible (style : Style) (layout : Layout) (fs : FileSystem) (recipe : Path) :
    Prop where
  isAbsolute : recipe.isAbsolute = true
  isFile : fs.isFileWithin recipe layout.cookbookPath = .ok true
  slashless : '/' ∉ (manifestName style.settings recipe).toList
  proper : isProperName (manifestName style.settings recipe)

theorem Written.step (hready : Ready layout place w₁.files)
    (h : Written style layout place w₁ w done)
    (hrecipe : Convertible style layout w₁.files recipe)
    (hrun : (layout.writeManifest style (Location.path place) recipe).run.run w = (.ok (), w')) :
    Written style layout place w₁ w' (done ++ [recipe]) := by
  obtain ⟨⟨manifest, l, text⟩, houtput, hadvanced⟩ := writeManifest_eq_ok hrun
  obtain ⟨-, houtput, -⟩ := Host.outputOf_eq_ok_iff.1 houtput
  obtain ⟨content, m, hread, hresult, hjoin, hplace, rfl⟩ := outputOf_eq_ok_iff.1 houtput
  dsimp only at hjoin hplace
  obtain ⟨parts, hparts, rfl⟩ :=
    join_clear (hready.clear.congr h.links) rfl hready.inside hready.proper hjoin
  obtain rfl := Except.ok.inj
    ((relativeParts_name hrecipe.slashless hrecipe.proper).symm.trans hparts)
  obtain ⟨rfl, hfresh, hlink⟩ := writePlaceWithin_ready hready h hrecipe.proper hplace
  have hfiles : w'.files = { w.files with
      tree := w.files.tree.put (place ++ [manifestName style.settings recipe])
        (.file (Text.encodeUtf8 m.text)) } := hadvanced.files
  have hne : place ++ [manifestName style.settings recipe] ≠ [] := by simp
  have hother : ∀ l, l ≠ place ++ [manifestName style.settings recipe] →
      w'.files.tree.entry? l = w.files.tree.entry? l := by
    intro l hl
    rw [hfiles, FileTree.entry?_put_of_ne hl]
  refine ⟨?_, ?_, ?_, ?_, ?_⟩
  · rw [hfiles]
    exact h.cwd
  · intro l e hentry
    by_cases hl : l = place ++ [manifestName style.settings recipe]
    · subst hl
      rw [hfresh] at hentry
      cases hentry
    · rw [hother l hl]
      exact h.grown l e hentry
  · rw [hfiles]
    exact h.links.trans (FileTree.sameLinks_put_file hne hlink _)
  · rw [hadvanced.manifests, h.manifests, List.map_append, List.append_assoc]
    rfl
  · intro before r rest hsplit hlast
    rcases List.eq_nil_or_concat rest with rfl | ⟨rest, last, rfl⟩
    · -- the recipe is the one whose manifest has just been written
      obtain ⟨-, hsame⟩ := List.append_inj' hsplit rfl
      cases hsame
      refine ⟨content, m, ?_, hresult, ?_⟩
      · exact readTextWithin_of_extends h.cwd h.grown h.links hrecipe.isAbsolute hrecipe.isFile
          hread
      · rw [hfiles]
        exact FileTree.entry?_put_self hne
    · rw [List.concat_eq_append, ← List.cons_append, ← List.append_assoc] at hsplit
      obtain ⟨hdone, hsame⟩ := List.append_inj' hsplit rfl
      cases hsame
      rw [List.concat_eq_append, List.map_append, List.mem_append, not_or] at hlast
      have hnames : manifestName style.settings r ≠ manifestName style.settings recipe := by
        intro heq
        exact hlast.2 (by simp [heq])
      rw [hother _ (by simpa using hnames)]
      exact h.texts before r rest hdone hlast.1

/-- All manifests are written, one after the other. -/
theorem Written.run (hready : Ready layout place w₁.files)
    (h : Written style layout place w₁ w done)
    (hrecipes : ∀ recipe ∈ recipes, Convertible style layout w₁.files recipe)
    (hrun : (recipes.forM (layout.writeManifest style (Location.path place))).run.run w =
      (.ok (), w')) :
    Written style layout place w₁ w' (done ++ recipes) := by
  induction recipes generalizing w done with
  | nil =>
    cases hrun
    rw [List.append_nil]
    exact h
  | cons recipe rest ih =>
    obtain ⟨⟨⟩, w₂, hfirst, hrest⟩ := run_bind_eq_ok hrun
    have hstep := h.step hready (hrecipes recipe (by simp)) hfirst
    have hall := ih hstep (fun r hr => hrecipes r (by simp [hr])) hrest
    rwa [List.append_assoc, List.singleton_append] at hall

theorem written_nil : Written style layout place w w [] where
  cwd := rfl
  grown := fun _ _ h => h
  links := .refl _
  manifests := by simp
  texts := by simp

/-! ## The whole conversion -/

/-- Nothing is at the place or below it, and the place is reached by its names alone. -/
structure FileTree.Vacant (t : FileTree) (l : Location) : Prop where
  resolved : t.Resolved l
  empty : ∀ q, l <+: q → t.entry? q = none

theorem FileTree.Vacant.clear {t : FileTree} {l : Location} (h : t.Vacant l) : Clear t l :=
  ⟨h.resolved, fun q hq => FileTree.linkAt?_eq_none (by simp [h.empty q hq])⟩

theorem slashless_expandHome {fs : FileSystem} {p q : Path} (hp : Slashless p.parts)
    (h : fs.expandHome p = .ok q) : Slashless q.parts := by
  unfold expandHome at h
  split at h
  · next first rest _ hparts =>
    split at h
    · cases h
      exact hp
    split at h
    · cases h
    split at h
    · next home _ =>
      cases h
      refine (slashless_partsOf home).append (hp.mono ?_)
      rw [hparts]
      exact List.subset_cons_self first rest
    · cases h
  · cases h
    exact hp

theorem slashless_normalizeText {fs : FileSystem} (hfs : fs.SlashFree) {output : String}
    {root : Path} (h : fs.normalizeText output = .ok root) : Slashless root.parts := by
  obtain ⟨expanded, hexpand, rfl⟩ := normalize_eq_ok (normalizeText_eq_ok h)
  exact fs.tree.slashless_realPath (slashless_expandHome (slashless_partsOf output) hexpand)
    (.inr hfs.cwd)

/-- The module is to be made in an output root where nothing is. -/
structure Layout.Fresh (layout : Layout) (fs : FileSystem) : Prop where
  isAbsolute : layout.outputRoot.isAbsolute = true
  vacant : fs.tree.Vacant layout.outputRoot.parts
  path : fs.join layout.outputRoot [layout.cookbookName] = .ok layout.outputPath

namespace Layout.Fresh

variable {fs : FileSystem} (h : layout.Fresh fs)

include h

/-- The output path is joined to the root as it is. -/
theorem outputPath : ∃ parts, Slashless parts ∧ Location.Proper parts ∧
    layout.outputPath = Location.path (layout.outputRoot.parts ++ parts) := by
  obtain ⟨parts, hparts, hpath⟩ := join_clear h.vacant.clear h.isAbsolute (List.prefix_refl _)
    h.vacant.resolved.proper h.path
  obtain ⟨hslash, hproper⟩ := relativeParts_eq_ok hparts
  exact ⟨parts, hslash, hproper, hpath⟩

theorem named (hroot : Slashless layout.outputRoot.parts) : layout.Named := by
  obtain ⟨parts, hslash, -, hpath⟩ := h.outputPath
  refine ⟨?_, hroot, ?_⟩
  · rw [hpath]
    rfl
  · rw [hpath]
    exact hroot.append hslash

theorem directoriesMade (settings : Settings) :
    FileTree.DirectoriesMade (layout.MayMake layout.outputRoot.parts) fs.tree
      (layout.madeFiles settings fs).tree :=
  (layout.keeps_makeDirectories settings { files := fs }).tree
    (sealed_of_clear h.isAbsolute h.vacant.clear)

/-- Once the directories are made, the module is ready for its manifests. -/
theorem ready (settings : Settings) {manifests : Path}
    (hmanifests : (layout.madeFiles settings fs).manifestsPath layout = .ok manifests) :
    ∃ place, manifests = Location.path place ∧
      Ready layout place (layout.madeFiles settings fs) := by
  have hmade := h.directoriesMade settings
  have hclear : Clear (layout.madeFiles settings fs).tree layout.outputRoot.parts :=
    h.vacant.clear.congr hmade.links
  obtain ⟨parts, -, hproper, hpath⟩ := h.outputPath
  have hin : layout.outputRoot.parts <+: layout.outputPath.parts := by
    rw [hpath]
    exact List.prefix_append _ _
  have hpathProper : Location.Proper layout.outputPath.parts := by
    rw [hpath]
    exact h.vacant.resolved.proper.append hproper
  obtain ⟨parts', hparts', rfl⟩ := join_clear hclear (by rw [hpath]; rfl) hin hpathProper hmanifests
  refine ⟨_, rfl, hclear, hin.trans (List.prefix_append _ _),
    hpathProper.append (relativeParts_eq_ok hparts').2, ?_⟩
  intro l hl
  rcases hmade l with hsame | ⟨-, -, hdir⟩
  · rw [hsame]
    exact .inl (h.vacant.empty l hl)
  · exact .inr hdir

/-- Directories with slashes in their names are not made. -/
theorem slashless_entry (settings : Settings) (hfs : fs.SlashFree)
    (hroot : Slashless layout.outputRoot.parts) (l : Location) (e : Entry)
    (he : (layout.madeFiles settings fs).tree.entry? l = some e) : Slashless l := by
  rcases h.directoriesMade settings l with hsame | ⟨hmay, -, -⟩
  · rw [hsame] at he
    exact hfs.tree l e he
  · exact hmay.slashless (h.named hroot)

end Layout.Fresh

theorem slashless_recipeClass {settings : Settings} {p : Path} (h : '/' ∉ p.name.toList) :
    '/' ∉ (recipeClass settings p).toList := by
  unfold recipeClass
  dsimp only
  split
  · decide
  split
  · rw [String.toList_ofList]
    exact fun hmem => h (List.mem_of_mem_take hmem)
  · exact h

theorem isProperName_append_pp (s : String) : isProperName (s ++ ".pp") := by
  have hlong : ∀ short : String, short.length < 3 → s ++ ".pp" ≠ short := by
    rintro short hshort rfl
    have hpp : ".pp".length = 3 := rfl
    rw [String.length_append, hpp] at hshort
    omega
  exact ⟨hlong "" (by decide), hlong "." (by decide), hlong ".." (by decide)⟩

theorem convertible_of_suffix {fs : FileSystem} (hsuffix : style.settings.manifestSuffix = ".pp")
    (hrecipe : recipe.isAbsolute = true)
    (hfile : fs.isFileWithin recipe layout.cookbookPath = .ok true)
    (hslash : '/' ∉ recipe.name.toList) : Convertible style layout fs recipe where
  isAbsolute := hrecipe
  isFile := hfile
  slashless := by
    have hpp : '/' ∉ ".pp".toList := by decide
    rw [manifestName, hsuffix, String.toList_append, List.mem_append, not_or]
    exact ⟨slashless_recipeClass hslash, hpp⟩
  proper := by
    rw [manifestName, hsuffix]
    exact isProperName_append_pp _

theorem manifestName_inj {settings : Settings} {p q : Path} :
    manifestName settings p = manifestName settings q ↔
      recipeClass settings p = recipeClass settings q := by
  simp [manifestName]

/-- The last recipe of each class has its manifest, which is what the recipe is translated to, and
the list of manifests repeats itself exactly if two recipes have one class. The recipes are those
that are there once the directories are made, and nothing but directories has been made then. -/
theorem makeModule_manifests (style : Style) (hsuffix : style.settings.manifestSuffix = ".pp")
    (cookbook output : String) (fs : FileSystem) (host : Host) (hfs : fs.SlashFree) (root : Path)
    (hroot : fs.normalizeText output = .ok root) (hvacant : fs.tree.Vacant root.parts)
    (layout : Layout) (after : World)
    (hrun : (makeModule style cookbook output).run.run { files := fs, host := host } =
      (.ok layout, after)) :
    let made := layout.madeFiles style.settings fs
    let className := recipeClass style.settings
    (∀ l, made.tree.entry? l = fs.tree.entry? l ∨
      (fs.tree.entry? l = none ∧ made.tree.entry? l = some .directory)) ∧
    ∃ manifests recipes, made.manifestsPath layout = .ok manifests ∧
      made.recipes layout = .ok recipes ∧
      (layout.manifests.Nodup ↔ (recipes.map className).Nodup) ∧
      ∀ before recipe rest, recipes = before ++ recipe :: rest →
        className recipe ∉ rest.map className →
        ∃ content m, made.readTextWithin recipe layout.cookbookPath = .ok content ∧
          (Manifest.ofRecipe style (className recipe) recipe.text content).result = .ok m ∧
          after.files.tree.entry? (manifests.parts ++ [className recipe ++ ".pp"]) =
            some (.file (Text.encodeUtf8 m.text)) := by
  intro made className
  obtain ⟨⟨planned, hplan, rfl⟩, w₁, w₂, hw₁, hempty, hwrite, hw₂⟩ := makeModule_eq_ok hrun
  obtain ⟨houtput, hpath⟩ := plan_output hplan
  obtain rfl : planned.outputRoot = root := Except.ok.inj (houtput.symm.trans hroot)
  have hfresh : Layout.Fresh { planned with manifests := after.manifests } fs :=
    ⟨isAbsolute_of_normalize (normalizeText_eq_ok hroot), hvacant, hpath⟩
  obtain ⟨manifests, w₃, hmanifests, hwrite⟩ := run_bind_eq_ok hwrite
  obtain ⟨recipes, w₄, hrecipes, hforM⟩ := run_bind_eq_ok hwrite
  rw [run_look, Prod.mk.injEq, hw₁] at hmanifests
  obtain ⟨hmanifests, rfl⟩ := hmanifests
  rw [run_look, Prod.mk.injEq, hw₁] at hrecipes
  obtain ⟨hrecipes, rfl⟩ := hrecipes
  obtain ⟨place, rfl, hready⟩ := hfresh.ready style.settings hmanifests
  have hentry := hfresh.slashless_entry style.settings hfs (slashless_normalizeText hfs hroot)
  have hconvertible : ∀ recipe ∈ recipes, Convertible style
      { planned with manifests := after.manifests } w₁.files recipe := by
    intro recipe hmem
    rw [hw₁]
    obtain ⟨habsolute, hfile, hslash⟩ := mem_recipes hrecipes hmem hentry
    exact convertible_of_suffix hsuffix habsolute hfile hslash
  have hwritten := written_nil.run (by rw [hw₁]; exact hready) hconvertible hforM
  rw [List.nil_append] at hwritten
  refine ⟨?_, Location.path place, recipes, hmanifests, hrecipes, ?_, ?_⟩
  · intro l
    rcases hfresh.directoriesMade style.settings l with hsame | ⟨-, hnone, hdir⟩
    · exact .inl hsame
    · exact .inr ⟨hnone, hdir⟩
  · have hlist : after.manifests =
        (recipes.map className).map fun name => Location.path (place ++ [name ++ ".pp"]) := by
      rw [hw₂.manifests, hwritten.manifests, hempty, List.nil_append, List.map_map, ← hsuffix]
      rfl
    show after.manifests.Nodup ↔ _
    rw [hlist, List.nodup_map_iff]
    intro a b heq
    simpa [Location.path] using heq
  · intro before recipe rest hsplit hlast
    have hother : manifestName style.settings recipe ∉ rest.map (manifestName style.settings) := by
      intro hmem
      obtain ⟨other, hother, heq⟩ := List.mem_map.1 hmem
      exact hlast (List.mem_map.2 ⟨other, hother, manifestName_inj.1 heq⟩)
    obtain ⟨content, m, hread, hresult, htext⟩ := hwritten.texts before recipe rest hsplit hother
    rw [hw₁] at hread
    rw [hw₂.files, ← hsuffix]
    exact ⟨content, m, hread, hresult, htext⟩

/-! ## A cookbook in which two recipes have one class -/

/-- The cookbook, and what else is in the tree. -/
def twins (more : List (Location × Entry)) : FileSystem where
  tree := ⟨[(["cb"], .directory), (["cb", "metadata.rb"], .file (Text.encodeUtf8 "name 'w'")),
    (["cb", "recipes"], .directory), (["cb", "recipes", "a"], .file (Text.encodeUtf8 "# one")),
    (["cb", "recipes", "a.rb"], .file (Text.encodeUtf8 "# two"))] ++ more⟩
  cwd := []
  homes := []

def twinLayout : Layout where
  cookbookName := "w"
  cookbookPath := Location.path ["cb"]
  recipesPath := Location.path ["cb", "recipes"]
  outputRoot := Location.path ["out"]
  outputPath := Location.path ["out", "w"]

/-- What the tree has more once the directories are made. -/
def madeDirectories : List (Location × Entry) :=
  (["out"], .directory) :: usualDirectories ["out", "w"]

/-- Where both recipes have their manifest. -/
def twinManifest : Location := ["out", "w", "manifests", "a.pp"]

def madeManifest (text : String) : List (Location × Entry) :=
  madeDirectories ++ [(twinManifest, .file (Text.encodeUtf8 text))]

/-- The module that is made of the cookbook. -/
def twinModule : Layout :=
  { twinLayout with manifests := [Location.path twinManifest, Location.path twinManifest] }

def twinRecipes : List Path :=
  [Location.path ["cb", "recipes", "a"], Location.path ["cb", "recipes", "a.rb"]]

theorem linksAt_twins : (twins []).LinksAt [] :=
  linksAt_of_all (by decide)

theorem linksAt_madeDirectories : (twins madeDirectories).LinksAt [] :=
  linksAt_of_all (by decide)

theorem normalizeText_twins : (twins []).normalizeText "/out" = .ok (Location.path ["out"]) :=
  normalizeText_of_normalize (by simp) (by decide) (linksAt_twins.direct (by decide)).normalize

theorem plan_twins : (twins []).plan "/cb" "/out" = .ok twinLayout := by
  have hscripted : (twins []).isScripted [] ["cb"] "name 'w'" "w" = true := by
    with_unfolding_all rfl
  exact linksAt_twins.plan hscripted (by decide) (by decide) normalizeText_twins
    (linksAt_twins.direct (by decide))

theorem makeDirectories_twins : (twinLayout.makeDirectories {}).run.run { files := twins [] } =
    (.ok (), { files := twins madeDirectories }) :=
  run_makeDirectories_of_open rfl rfl (by simp) mapM_directoryNames (by decide)
    (by decide +kernel)

theorem manifestsPath_twins : (twins madeDirectories).manifestsPath twinLayout =
    .ok (Location.path ["out", "w", "manifests"]) :=
  (linksAt_madeDirectories.direct (by decide)).join

theorem recipes_twins : (twins madeDirectories).recipes twinLayout = .ok twinRecipes := by
  have hlinks := linksAt_madeDirectories
  refine recipes_of_direct (c := ["cb"]) (l := ["cb", "recipes"]) ["a", "a.rb"] rfl rfl
    (hlinks.direct (by decide)) (by simp) (by decide) ?_
  intro name hname
  rcases List.mem_pair.1 hname with rfl | rfl
  · exact ⟨["cb", "recipes"], "a", Text.encodeUtf8 "# one", by simp,
      (hlinks.direct (by decide)).normalize, by with_unfolding_all rfl⟩
  · exact ⟨["cb", "recipes"], "a.rb", Text.encodeUtf8 "# two", by simp,
      (hlinks.direct (by decide)).normalize, by with_unfolding_all rfl⟩

/-- What a recipe of the class becomes. -/
def twinOutput (text : String) : RecipeOutput :=
  ⟨Location.path twinManifest, twinManifest, text⟩

/-- A recipe of the class is translated, and its manifest takes the place of what is there. -/
theorem outputOf_twin {fs : FileSystem} (hlinks : fs.LinksAt []) {name text : String}
    (content : String) (hclass : recipeClass {} (Location.path ["cb", "recipes", name]) = "a")
    (hrecipe : fs.Direct ["cb", "recipes", name])
    (hholds : fs.tree.holds ["cb", "recipes"] name (some (Text.encodeUtf8 content)) = true)
    (hcontent : (Text.decodeUtf8 (Text.encodeUtf8 content)).map
      (fun chars => String.ofList (Text.withNewlines chars)) = .ok content)
    (hresult : (Manifest.ofRecipe {} "a" (Location.path ["cb", "recipes", name]).text
      content).result = .ok ⟨"a", text, false⟩)
    (htakes : fs.tree.takesFile ["out", "w", "manifests"] "a.pp" = true) :
    fs.outputOf {} twinLayout (Location.path ["out", "w", "manifests"])
      (Location.path ["cb", "recipes", name]) = .ok (twinOutput text) := by
  have hname : manifestName {} (Location.path ["cb", "recipes", name]) = "a.pp" := by
    rw [manifestName, hclass]
    rfl
  have hread : fs.readTextWithin (Location.path ["cb", "recipes", name]) (Location.path ["cb"]) =
      .ok content :=
    readTextWithin_of_holds (hlinks.direct (by decide)) hrecipe.normalize (by simp) hholds
      hcontent
  rw [← hclass] at hresult
  exact outputOf_of_direct (r := ["out"]) rfl rfl hread hresult hname
    (hlinks.direct (by decide)) (by simp) htakes

/-- Both recipes become the same manifest, one after the other. -/
theorem processed_twins :
    Processed {} twinLayout (Location.path ["out", "w", "manifests"]) (twins madeDirectories)
      twinRecipes [twinOutput "# one\n", twinOutput "# two\n"] := by
  have hlinks := linksAt_madeDirectories
  have hlinks' : (twins (madeManifest "# one\n")).LinksAt [] := linksAt_of_all (by decide)
  have hput : (twins madeDirectories).writeOutput (twinOutput "# one\n") =
      twins (madeManifest "# one\n") := rfl
  refine .cons (outputOf_twin hlinks "# one" (by decide) (hlinks.direct (by decide))
    (by with_unfolding_all rfl) (by with_unfolding_all rfl) (by with_unfolding_all rfl)
    (by decide)) ?_
  rw [hput]
  exact .cons (outputOf_twin hlinks' "# two" (by with_unfolding_all rfl)
    (hlinks'.direct (by decide)) (by with_unfolding_all rfl) (by with_unfolding_all rfl)
    (by decide) (by decide)) (.nil _)

theorem converted_twins : Converted {} twinLayout (twins []) (twins madeDirectories) twinRecipes
    [twinOutput "# one\n", twinOutput "# two\n"] where
  directories := makeDirectories_twins
  found := recipes_twins
  manifests := ⟨_, manifestsPath_twins, processed_twins⟩

/-- The conversion ends well, but one manifest has replaced the other. -/
theorem makeModule_twins :
    ∃ after, (makeModule {} "/cb" "/out").run.run { files := twins [] } = (.ok twinModule, after) ∧
      after.files = twins (madeManifest "# two\n") ∧
      after.manifests = twinModule.manifests :=
  converted_twins.run plan_twins (Host.carries_default _ _)

theorem slashFree_twins : (twins []).SlashFree where
  tree := by
    intro l e h
    have hall : ∀ x ∈ (twins []).tree.entries, Slashless x.1 := by simp [twins, Slashless]
    rcases (twins []).tree.mem_entries h with rfl | hmem
    · simp [Slashless]
    · exact hall _ hmem
  cwd := by simp [twins, Slashless]

theorem vacant_twins : (twins []).tree.Vacant ["out"] where
  resolved := (linksAt_twins.direct (by decide)).resolved
  empty := by
    intro q hq
    have hall : ∀ x ∈ (twins []).tree.entries, ¬["out"] <+: x.1 := by simp [twins]
    by_contra hne
    obtain ⟨e, he⟩ := Option.ne_none_iff_exists'.1 hne
    rcases (twins []).tree.mem_entries he with rfl | hmem
    · simp at hq
    · exact hall _ hmem hq

/-- The manifest is that of the second recipe, and it is listed twice. -/
theorem makeModule_manifests_twins :
    ∃ layout after, (makeModule {} "/cb" "/out").run.run { files := twins [] } =
        (.ok layout, after) ∧
      ¬layout.manifests.Nodup ∧
      ∃ content m, (twins madeDirectories).readTextWithin
          (Location.path ["cb", "recipes", "a.rb"]) twinLayout.cookbookPath = .ok content ∧
        (Manifest.ofRecipe {} "a" (Location.path ["cb", "recipes", "a.rb"]).text
          content).result = .ok m ∧
        after.files.tree.entry? twinManifest = some (.file (Text.encodeUtf8 m.text)) := by
  obtain ⟨after, hrun, -⟩ := makeModule_twins
  obtain ⟨-, manifests, recipes, hmanifests, hrecipes, hnodup, htexts⟩ :=
    makeModule_manifests {} rfl "/cb" "/out" (twins []) {} slashFree_twins _ normalizeText_twins
      vacant_twins twinModule after hrun
  have hmade : twinModule.madeFiles {} (twins []) = twins madeDirectories :=
    congrArg (fun made => made.2.files) makeDirectories_twins
  rw [hmade] at hmanifests hrecipes htexts
  obtain rfl := Except.ok.inj (hmanifests.symm.trans manifestsPath_twins)
  obtain rfl := Except.ok.inj (hrecipes.symm.trans recipes_twins)
  have hclass : recipeClass {} (Location.path ["cb", "recipes", "a"]) = "a" := by decide
  have hclass' : recipeClass {} (Location.path ["cb", "recipes", "a.rb"]) = "a" := by
    with_unfolding_all rfl
  obtain ⟨content, m, hread, hresult, htext⟩ :=
    htexts [Location.path ["cb", "recipes", "a"]] _ [] rfl (by simp)
  rw [hclass'] at hresult htext
  refine ⟨twinModule, after, hrun, ?_, content, m, hread, hresult, htext⟩
  rw [hnodup]
  simp [twinRecipes, hclass, hclass']

/-- The manifest of the first recipe is replaced by that of the second. -/
theorem makeModule_replaces_manifest :
    ∃ layout after, (makeModule {} "/cb" "/out").run.run { files := twins [] } =
        (.ok layout, after) ∧
      ¬layout.manifests.Nodup ∧
      (Manifest.ofRecipe {} "a" (Location.path ["cb", "recipes", "a"]).text
        "# one").result = .ok ⟨"a", "# one\n", false⟩ ∧
      after.files.tree.entry? twinManifest = some (.file (Text.encodeUtf8 "# two\n")) := by
  obtain ⟨after, hrun, hfiles, -⟩ := makeModule_twins
  refine ⟨twinModule, after, hrun, by simp [twinModule], by decide, ?_⟩
  rw [hfiles]
  rfl

end RecipeManifest

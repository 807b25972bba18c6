import RecipeManifest.Proofs.CookbookReading

/-!
The layout that is planned for a cookbook.

Once a cookbook has passed the check it passes it again after the tree has grown, unless its
metadata cannot be looked for then (`requireCookbook_again_iff`). What else the layout depends on is
read from the cookbook and from the links of the tree (`Planned.congr`), if the cookbook and the
output root are apart (`Apart`).
-/

namespace RecipeManifest

namespace FileSystem

variable {fs fs' fs'' : FileSystem} {p : Path} {c o r : Location} {layout : Layout}
  {cookbook output : String}

/-! ## Planning once more -/

section Found

variable (hcwd : fs'.cwd = fs.cwd) (hgrows : fs.tree.Grows fs'.tree)

include hcwd hgrows

end Found

/-- The layout follows from the files, apart from the check of the cookbook. -/
structure Planned (fs : FileSystem) (cookbook output : String) (layout : Layout) : Prop where
  cookbookPath : fs.normalize (Path.ofString cookbook) = .ok layout.cookbookPath
  cookbookName : ∃ place, fs.normalize layout.cookbookPath = .ok place ∧
    fs.cookbookNameAt place = .ok layout.cookbookName
  outputRoot : fs.normalizeText output = .ok layout.outputRoot
  recipesPath : fs.join layout.cookbookPath [recipesDirectory] = .ok layout.recipesPath
  outputPath : fs.join layout.outputRoot [layout.cookbookName] = .ok layout.outputPath
  manifests : layout.manifests = []

/-- The cookbook is at `c` and the output root at `r`, both sealed and neither inside the other. -/
structure Apart (fs : FileSystem) (layout : Layout) (c r : Location) : Prop where
  cookbookPath : layout.cookbookPath = Location.path c
  outputRoot : layout.outputRoot = Location.path r
  cookbook : fs.Sealed layout.cookbookPath c
  output : fs.Sealed layout.outputRoot r
  notInside : ¬c <+: r
  notAround : ¬r <+: c

theorem Apart.congr (h : fs.Apart layout c r) (hways : SameWays fs fs') :
    fs'.Apart layout c r :=
  { h with
    cookbook := h.cookbook.congr hways.cwd hways.links
    output := h.output.congr hways.cwd hways.links }

/-- The cookbook and the output root are resolved to places, neither of which is inside the other,
and what is resolved to something inside is reached there by its names alone. -/
structure Separate (fs : FileSystem) (cookbook output : String) (c r : Location) : Prop where
  cookbook : fs.normalize (Path.ofString cookbook) = .ok (Location.path c)
  output : fs.normalize (Path.ofString output) = .ok (Location.path r)
  cookbookSealed : fs.Sealed (Location.path c) c
  outputSealed : fs.Sealed (Location.path r) r
  notInside : ¬c <+: r
  notAround : ¬r <+: c

theorem Separate.apart (hseparate : fs.Separate cookbook output c r)
    (h : fs.Planned cookbook output layout) : fs.Apart layout c r := by
  have hc : layout.cookbookPath = Location.path c :=
    Except.ok.inj (h.cookbookPath.symm.trans hseparate.cookbook)
  have hr : layout.outputRoot = Location.path r :=
    Except.ok.inj ((normalizeText_eq_ok h.outputRoot).symm.trans hseparate.output)
  refine ⟨hc, hr, ?_, ?_, hseparate.notInside, hseparate.notAround⟩
  · rw [hc]
    exact hseparate.cookbookSealed
  · rw [hr]
    exact hseparate.outputSealed

/-- The text of a recipe is read from the same cookbook as before. -/
theorem Apart.readTextWithin (h : fs.Apart layout c r) (hsame : SameCookbook c fs fs')
    (hp : fs.Enters c p) {content : String}
    (hread : fs.readTextWithin p layout.cookbookPath = .ok content) :
    fs'.readTextWithin p layout.cookbookPath = .ok content := by
  rw [h.cookbookPath] at hread ⊢
  exact hsame.readTextWithin h.cookbook.self hp hread

namespace Planned

variable (h : fs.Planned cookbook output layout) (hapart : fs.Apart layout c r)

include h hapart

theorem cookbookNameAt_path : fs.Lands layout.cookbookPath c ∧
    fs.cookbookNameAt (Location.path c) = .ok layout.cookbookName := by
  obtain ⟨place, hplace, hname⟩ := h.cookbookName
  obtain rfl := normalize_of_isAbsolute hapart.cookbook.isAbsolute hplace
  rw [hapart.cookbook.place] at hplace hname
  exact ⟨⟨hplace, hapart.cookbook.resolved⟩, hname⟩

/-- A layout for the same cookbook has the same name and the same recipes. -/
theorem sameCookbook {layout' : Layout} (hsame : SameCookbook c fs fs')
    (h' : fs'.Planned cookbook output layout') (hapart' : fs'.Apart layout' c r) :
    layout'.cookbookName = layout.cookbookName ∧ layout'.recipesPath = layout.recipesPath := by
  have hname := (h.cookbookNameAt_path hapart).2
  have hname' := (h'.cookbookNameAt_path hapart').2
  have hrecipes := h.recipesPath
  have hrecipes' := h'.recipesPath
  rw [hapart.cookbookPath] at hrecipes
  rw [hapart'.cookbookPath] at hrecipes'
  have hjoin := hsame.join hapart.cookbook.self (by decide)
    (by simp [isProperName, recipesDirectory]) hrecipes
  exact ⟨Except.ok.inj (hname'.symm.trans (hsame.cookbookNameAt hapart.cookbook.self hname)),
    Except.ok.inj (hrecipes'.symm.trans hjoin)⟩

theorem congr (hsame : SameInside c fs fs') : fs'.Planned cookbook output layout where
  cookbookPath := by
    have hplace := h.cookbookPath
    rw [hapart.cookbookPath] at hplace ⊢
    exact ((Lands.mk hplace hapart.cookbook.resolved).congr hsame.toSameWays).place
  cookbookName := by
    obtain ⟨hlands, hname⟩ := h.cookbookNameAt_path hapart
    exact ⟨_, (hlands.congr hsame.toSameWays).place,
      hsame.sameCookbook.cookbookNameAt hapart.cookbook.self hname⟩
  outputRoot := by
    have hroot := h.outputRoot
    rw [hapart.outputRoot] at hroot ⊢
    exact normalizeText_congr hsame.toSameWays hroot hapart.output.resolved
  recipesPath := hsame.toSameWays.join hapart.cookbook hapart.cookbook.isAbsolute
    hapart.cookbook.place (List.prefix_refl c) h.recipesPath
  outputPath := hsame.toSameWays.join hapart.output hapart.output.isAbsolute hapart.output.place
    (List.prefix_refl r) h.outputPath
  manifests := h.manifests

end Planned

/-- Nothing but the tree has changed, and it has grown beside a place. -/
structure GrowsBeside (c : Location) (fs fs' : FileSystem) : Prop where
  cwd : fs'.cwd = fs.cwd
  homes : fs'.homes = fs.homes
  tree : fs.tree.GrowsBeside c fs'.tree

namespace GrowsBeside

theorem refl (fs : FileSystem) : GrowsBeside c fs fs := ⟨rfl, rfl, .refl _, rfl⟩

theorem trans (h : GrowsBeside c fs fs') (h' : GrowsBeside c fs' fs'') : GrowsBeside c fs fs'' where
  cwd := h'.cwd.trans h.cwd
  homes := h'.homes.trans h.homes
  tree := ⟨h.tree.toGrows.trans h'.tree.toGrows, h'.tree.below.trans h.tree.below⟩

theorem sameWays (h : GrowsBeside c fs fs') : SameWays fs fs' := ⟨h.cwd, h.homes, h.tree.links⟩

theorem sameInside (h : GrowsBeside c fs fs') (hrooted : fs.Rooted c) : SameInside c fs fs' :=
  .of_grows h.cwd h.homes h.tree hrooted

theorem rooted (h : GrowsBeside c fs fs') (hrooted : fs.Rooted c) : fs'.Rooted c :=
  (h.sameInside hrooted).rooted hrooted

end GrowsBeside

/-- The cookbook is reached through directories, and the module is at `o`, in the output root. -/
structure Seated (fs : FileSystem) (layout : Layout) (c r o : Location) : Prop
    extends fs.Apart layout c r where
  rooted : fs.Rooted c
  outputPath : layout.outputPath = Location.path o
  resolved : fs.tree.Resolved o
  inside : r <+: o

namespace Seated

theorem congr (h : fs.Seated layout c r o) (hsame : SameInside c fs fs') :
    fs'.Seated layout c r o :=
  { h with
    toApart := h.toApart.congr hsame.toSameWays
    rooted := hsame.rooted h.rooted
    resolved := h.resolved.congr hsame.links }

theorem grow (h : fs.Seated layout c r o) (hgrows : GrowsBeside c fs fs') :
    fs'.Seated layout c r o :=
  h.congr (hgrows.sameInside h.rooted)

/-- What is joined to the path of the module is in the output root, and is the same as long as the
links are. -/
theorem join (h : fs.Seated layout c r o) {pieces : List String}
    (hp : fs.join layout.outputPath pieces = .ok p) :
    (∃ b, p = Location.path b ∧ fs.tree.Resolved b ∧ r <+: b) ∧
      ∀ fs', SameWays fs fs' → fs'.join layout.outputPath pieces = .ok p := by
  have hplace : fs.tree.realPath fs.cwd layout.outputPath = Location.path o := by
    rw [h.outputPath]
    exact FileTree.realPath_of_resolved rfl h.resolved _
  have habsolute : layout.outputPath.isAbsolute = true := by
    rw [h.outputPath]
    rfl
  obtain ⟨_, b, hb, -, -, -, hlands, hin⟩ := h.output.of_join habsolute hplace h.inside hp
  exact ⟨⟨b, hb, hlands.resolved, h.inside.trans hin⟩,
    fun _ hways => hways.join h.output habsolute hplace h.inside hp⟩

end Seated

end FileSystem

end RecipeManifest

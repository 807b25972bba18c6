import RecipeManifest.Proofs.RecipeFiles
import RecipeManifest.Proofs.UntouchedPlaces

/-!
What is read of a cookbook.

Two file systems with the same links take paths to the same places (`SameWays`), as far as these are
reached by their names alone (`Lands`). Two file systems hold the same cookbook if they agree on the
way to it and inside it, and its entries mean the same places in both (`SameCookbook`). Then they
have the same name for it (`SameCookbook.cookbookNameAt`), the same recipes
(`SameCookbook.recipes`) and the same texts (`SameCookbook.readTextWithin`). The links that are
looked for to find out what the entries mean are all that matters of the other links
(`SameCookbook.of_links`).
-/

namespace RecipeManifest

namespace FileSystem

variable {fs fs' fs'' : FileSystem} {p q base root : Path} {b c l m r : Location}
  {pieces parts : List String}

/-! ## The same ways -/

/-- Paths are taken to the same places in both. -/
structure SameWays (fs fs' : FileSystem) : Prop where
  cwd : fs'.cwd = fs.cwd
  homes : fs'.homes = fs.homes
  links : fs.tree.SameLinks fs'.tree

namespace SameWays

theorem symm (h : SameWays fs fs') : SameWays fs' fs := ⟨h.cwd.symm, h.homes.symm, h.links.symm⟩

theorem trans (h : SameWays fs fs') (h' : SameWays fs' fs'') : SameWays fs fs'' :=
  ⟨h'.cwd.trans h.cwd, h'.homes.trans h.homes, h.links.trans h'.links⟩

theorem realPath (h : SameWays fs fs') (p : Path) :
    fs'.tree.realPath fs'.cwd p = fs.tree.realPath fs.cwd p := by
  rw [h.cwd, h.links.realPath]

end SameWays

/-- The path means a place that is reached by its names alone. -/
structure Lands (fs : FileSystem) (p : Path) (l : Location) : Prop where
  place : fs.normalize p = .ok (Location.path l)
  resolved : fs.tree.Resolved l

/-- What is resolved to a place leads there also in another file system, if it is resolved to it
there, and the place is reached by its names alone. -/
theorem Lands.of_realPath (hl : fs.Lands p l) (hexpand : fs'.expandHome p = fs.expandHome p)
    (hsame : ∀ q, fs.expandHome p = .ok q →
      fs'.tree.realPath fs'.cwd q = fs.tree.realPath fs.cwd q)
    (hresolved : fs'.tree.Resolved l) : fs'.Lands p l where
  place := by
    have hplace := hl.place
    simp only [normalize, bind_eq_ok_iff] at hplace ⊢
    obtain ⟨expanded, hexpanded, place, hplace, hloop⟩ := hplace
    have hlocate : fs'.locate expanded = fs.locate expanded := by
      rw [locate, locate, hsame expanded hexpanded]
    refine ⟨expanded, by rw [hexpand, hexpanded], place, by rw [hlocate, hplace], ?_⟩
    split at hloop
    · cases hloop
    · cases hloop
      rw [isLoop_of_resolved hresolved]
      rfl
  resolved := hresolved

theorem Lands.congr (hl : fs.Lands p l) (h : SameWays fs fs') : fs'.Lands p l :=
  hl.of_realPath (by rw [expandHome, expandHome, h.homes]) (fun q _ => h.realPath q)
    (hl.resolved.congr h.links)

theorem normalizeText_congr {text : String} (h : SameWays fs fs')
    (hp : fs.normalizeText text = .ok (Location.path l)) (hl : fs.tree.Resolved l) :
    fs'.normalizeText text = .ok (Location.path l) := by
  have hlands := (Lands.mk (normalizeText_eq_ok hp) hl).congr h
  unfold normalizeText at hp ⊢
  split at hp
  · cases hp
  · next hnull => rw [if_neg hnull, hlands.place]

/-! ## Places inside a base -/

theorem join_of_normalize (hbase : fs.normalize base = .ok (Location.path b))
    (hself : fs.normalize (Location.path b) = .ok (Location.path b))
    (hparts : relativeParts pieces = .ok parts)
    (hm : fs.normalize (Location.path (b ++ parts)) = .ok (Location.path m)) (hin : b <+: m) :
    fs.join base pieces = .ok (Location.path m) := by
  simp only [join, hbase, hparts, Except.mapError, bind, Except.bind]
  exact within_of_normalize hself hm hin

/-- A base inside a sealed root, and what passes the check against it. -/
theorem Sealed.of_within (h : fs.Sealed root r) (hbase : base.isAbsolute = true)
    (hplace : fs.tree.realPath fs.cwd base = Location.path b) (hrb : r <+: b)
    (hp : p.isAbsolute = true) (hq : fs.within p base = .ok q) :
    ∃ m, q = Location.path m ∧ fs.Lands base b ∧ fs.Lands p m ∧ b <+: m := by
  obtain ⟨place, hb, hq, hwithin⟩ := within_eq_ok hq
  obtain rfl := normalize_of_isAbsolute hbase hb
  have hreal := normalize_of_isAbsolute hp hq
  have hresolved : fs.tree.Resolved b := by
    have := h.inside base hbase
    rw [hplace] at this
    exact this hrb
  rw [hplace] at hb hwithin
  rw [Path.isWithin, Bool.and_eq_true, beq_iff_eq, List.isPrefixOf_iff_prefix] at hwithin
  obtain ⟨hanchor, hin⟩ := hwithin
  obtain ⟨anchor, m⟩ := q
  obtain rfl : anchor = .root := hanchor
  have hm := h.inside p hp
  rw [← hreal] at hm
  exact ⟨m, rfl, ⟨hb, hresolved⟩, ⟨hq, hm (hrb.trans hin)⟩, hin⟩

theorem Sealed.of_join (h : fs.Sealed root r) (hbase : base.isAbsolute = true)
    (hplace : fs.tree.realPath fs.cwd base = Location.path b) (hrb : r <+: b)
    (hq : fs.join base pieces = .ok q) :
    ∃ parts m, q = Location.path m ∧ relativeParts pieces = .ok parts ∧ fs.Lands base b ∧
      fs.Lands (Location.path b) b ∧ fs.Lands (Location.path (b ++ parts)) m ∧ b <+: m := by
  obtain ⟨b', parts, hb, hparts, hq⟩ := join_eq_ok hq
  obtain rfl := normalize_of_isAbsolute hbase hb
  have hresolved : fs.tree.Resolved b := by
    have := h.inside base hbase
    rw [hplace] at this
    exact this hrb
  rw [hplace] at hb hq
  have hself : fs.tree.realPath fs.cwd (Location.path b) = Location.path b :=
    FileTree.realPath_of_resolved rfl hresolved fs.cwd
  obtain ⟨m, rfl, hlands, hm, hin⟩ := h.of_within rfl hself hrb rfl hq
  exact ⟨parts, m, rfl, hparts, ⟨hb, hresolved⟩, hlands, hm, hin⟩

theorem Sealed.self (h : fs.Sealed root r) : fs.Sealed (Location.path r) r where
  isAbsolute := rfl
  place := FileTree.realPath_of_resolved rfl h.resolved fs.cwd
  inside := h.inside

namespace SameWays

theorem within (h : SameWays fs fs') (hsealed : fs.Sealed root r) (hp : p.isAbsolute = true)
    (hq : fs.within p root = .ok q) : fs'.within p root = .ok q := by
  obtain ⟨m, rfl, hbase, hm, hin⟩ :=
    hsealed.of_within hsealed.isAbsolute hsealed.place (List.prefix_refl r) hp hq
  exact within_of_normalize (hbase.congr h).place (hm.congr h).place hin

theorem join (h : SameWays fs fs') (hsealed : fs.Sealed root r) (hbase : base.isAbsolute = true)
    (hplace : fs.tree.realPath fs.cwd base = Location.path b) (hrb : r <+: b)
    (hq : fs.join base pieces = .ok q) : fs'.join base pieces = .ok q := by
  obtain ⟨parts, m, rfl, hparts, hbase, hself, hm, hin⟩ :=
    hsealed.of_join hbase hplace hrb hq
  exact join_of_normalize (hbase.congr h).place (hself.congr h).place hparts (hm.congr h).place hin

end SameWays

/-! ## The same cookbook -/

/-- Both have the same ways, and the same entries on the way to a place, at it and below it. -/
structure SameInside (c : Location) (fs fs' : FileSystem) : Prop extends SameWays fs fs' where
  way : ∀ q, q <+: c → q ≠ c → fs'.tree.entry? q = fs.tree.entry? q
  below : fs.tree.SameBelow c fs'.tree

/-- The path names a place or something below it, in a directory that is reached by its names
alone. -/
def Enters (fs : FileSystem) (c : Location) (p : Path) : Prop :=
  ∃ l : Location, c <+: l ∧ fs.tree.Resolved l.parent ∧ p = Location.path l

/-- Both have the same entries on the way to a place, at it and below it, and what is named there
means the same in both. -/
structure SameCookbook (c : Location) (fs fs' : FileSystem) : Prop where
  way : ∀ q, q <+: c → q ≠ c → fs'.tree.entry? q = fs.tree.entry? q
  below : fs.tree.SameBelow c fs'.tree
  places : ∀ p, fs.Enters c p → fs'.tree.realPath fs'.cwd p = fs.tree.realPath fs.cwd p

/-- What is on the way to a place are directories. -/
def Rooted (fs : FileSystem) (c : Location) : Prop :=
  ∀ q, q <+: c → q ≠ c → fs.tree.entry? q = some .directory

theorem metadataText_eq_ok_iff {content : String} :
    fs.metadataText p root = .ok content ↔ fs.readTextWithin p root = .ok content := by
  unfold metadataText
  split
  · next h => simp [metadataText.refused, h]
  · next h => simp [metadataText.refused, h]
  · rfl

namespace SameInside

theorem symm (h : SameInside c fs fs') : SameInside c fs' fs :=
  ⟨h.toSameWays.symm, fun q hq hne => (h.way q hq hne).symm, h.below.symm⟩

theorem trans (h : SameInside c fs fs') (h' : SameInside c fs' fs'') : SameInside c fs fs'' :=
  ⟨h.toSameWays.trans h'.toSameWays, fun q hq hne => (h'.way q hq hne).trans (h.way q hq hne),
    h'.below.trans h.below⟩

theorem of_grows (hcwd : fs'.cwd = fs.cwd) (hhomes : fs'.homes = fs.homes)
    (hgrows : fs.tree.GrowsBeside c fs'.tree) (hrooted : fs.Rooted c) : SameInside c fs fs' where
  cwd := hcwd
  homes := hhomes
  links := hgrows.links
  way := fun q hq hne => by rw [hrooted q hq hne, hgrows.directories q (hrooted q hq hne)]
  below := hgrows.below

theorem rooted (h : SameInside c fs fs') (hrooted : fs.Rooted c) : fs'.Rooted c := fun q hq hne =>
  (h.way q hq hne).trans (hrooted q hq hne)

theorem sameCookbook (h : SameInside c fs fs') : SameCookbook c fs fs' where
  way := h.way
  below := h.below
  places := fun p _ => h.toSameWays.realPath p

end SameInside

theorem Enters.isAbsolute (h : fs.Enters c p) : p.isAbsolute = true := by
  obtain ⟨l, -, -, rfl⟩ := h
  rfl

theorem Enters.congr (h : fs.Enters c p) (hlinks : fs.tree.SameLinks fs'.tree) :
    fs'.Enters c p := by
  obtain ⟨l, hin, hparent, rfl⟩ := h
  exact ⟨l, hin, hparent.congr hlinks, rfl⟩

theorem enters_of_resolved (h : fs.tree.Resolved l) (hin : c <+: l) :
    fs.Enters c (Location.path l) :=
  ⟨l, hin, h.parent, rfl⟩

theorem enters_child {name : String} (h : fs.tree.Resolved l) (hin : c <+: l) :
    fs.Enters c ((Location.path l).child name) := by
  refine ⟨l ++ [name], hin.trans (List.prefix_append _ _), ?_, rfl⟩
  show fs.tree.Resolved (l ++ [name]).dropLast
  rw [List.dropLast_concat]
  exact h

/-- What is listed is named in the directory. -/
theorem Sealed.enters_of_mem_listWithin (hsealed : fs.Sealed root c) (hp : p.isAbsolute = true)
    {places : List Path} (hplaces : fs.listWithin p root = .ok places) :
    ∀ q ∈ places, fs.Enters c q := by
  simp only [FileSystem.listWithin, bind_eq_ok_iff, mapError_eq_ok_iff, Errno.at_eq_ok_iff]
    at hplaces
  obtain ⟨place, hplace, base, -, names, -, hplaces⟩ := hplaces
  cases hplaces
  obtain ⟨m, rfl, hm, hin⟩ := hsealed.within hp hplace
  intro q hq
  obtain ⟨name, -, rfl⟩ := List.mem_map.1 (List.mem_filter.1 hq).1
  exact enters_child hm hin

theorem Sealed.enters_of_mem_recipes {layout : Layout} (hsealed : fs.Sealed layout.cookbookPath c)
    (hp : layout.recipesPath.isAbsolute = true) {recipes : List Path}
    (hrecipes : fs.recipes layout = .ok recipes) : ∀ q ∈ recipes, fs.Enters c q := by
  intro q hq
  rw [FileSystem.recipes, bind_eq_ok_iff] at hrecipes
  obtain ⟨places, hplaces, hfiles⟩ := hrecipes
  exact hsealed.enters_of_mem_listWithin hp hplaces q (mem_filesAmong hfiles hq).1

namespace SameCookbook

theorem entry? (h : SameCookbook c fs fs') (hm : c <+: m) {q : Location} (hq : q <+: m) :
    fs'.tree.entry? q = fs.tree.entry? q := by
  rcases List.prefix_or_prefix_of_prefix hq hm with hway | hin
  · by_cases hne : q = c
    · subst hne
      exact h.below.entry? (List.prefix_refl q)
    · exact h.way q hway hne
  · exact h.below.entry? hin

theorem resolved (h : SameCookbook c fs fs') (hm : c <+: m) (hl : l <+: m)
    (hresolved : fs.tree.Resolved l) : fs'.tree.Resolved l :=
  hresolved.of_entries fun _ hq => h.entry? hm (hq.trans hl)

theorem trans (h : SameCookbook c fs fs') (h' : SameCookbook c fs' fs'') :
    SameCookbook c fs fs'' where
  way := fun q hq hne => (h'.way q hq hne).trans (h.way q hq hne)
  below := h'.below.trans h.below
  places := by
    rintro p ⟨l, hin, hparent, rfl⟩
    have hparent' := h.resolved hin (List.dropLast_prefix l) hparent
    exact (h'.places _ ⟨l, hin, hparent', rfl⟩).trans (h.places _ ⟨l, hin, hparent, rfl⟩)

theorem entryAt (h : SameCookbook c fs fs') (hm : fs.tree.Resolved m) (hin : c <+: m) :
    fs'.tree.entryAt (Location.path m) = fs.tree.entryAt (Location.path m) :=
  FileTree.entryAt_congr hm fun _ hq => h.entry? hin hq

theorem lands (h : SameCookbook c fs fs') (hp : fs.Enters c p) (hin : c <+: m)
    (hm : fs.Lands p m) : fs'.Lands p m := by
  have hexpand : ∀ fs : FileSystem, fs.expandHome p = .ok p :=
    fun _ => expandHome_of_isAbsolute hp.isAbsolute
  refine hm.of_realPath (by rw [hexpand, hexpand]) (fun q hq => ?_)
    (h.resolved hin (List.prefix_refl m) hm.resolved)
  rw [hexpand] at hq
  cases hq
  exact h.places p hp

variable (hsealed : fs.Sealed (Location.path c) c)

include hsealed

theorem within (h : SameCookbook c fs fs') (hp : fs.Enters c p)
    (hq : fs.within p (Location.path c) = .ok q) : fs'.within p (Location.path c) = .ok q := by
  obtain ⟨m, rfl, hbase, hm, hin⟩ :=
    hsealed.of_within hsealed.isAbsolute hsealed.place (List.prefix_refl c) hp.isAbsolute hq
  have hself := enters_of_resolved hsealed.resolved (List.prefix_refl c)
  exact within_of_normalize (h.lands hself (List.prefix_refl c) hbase).place
    (h.lands hp hin hm).place hin

/-- A name is joined to the path of the cookbook as before. -/
theorem join (h : SameCookbook c fs fs') {name : String} (hslash : '/' ∉ name.toList)
    (hname : isProperName name) (hq : fs.join (Location.path c) [name] = .ok q) :
    fs'.join (Location.path c) [name] = .ok q := by
  obtain ⟨parts, m, rfl, hparts, hbase, -, hm, hin⟩ :=
    hsealed.of_join hsealed.isAbsolute hsealed.place (List.prefix_refl c) hq
  obtain rfl := Except.ok.inj (hparts.symm.trans (relativeParts_name hslash hname))
  have hself := h.lands (enters_of_resolved hsealed.resolved (List.prefix_refl c))
    (List.prefix_refl c) hbase
  exact join_of_normalize hself.place hself.place hparts
    (h.lands (enters_child hsealed.resolved (List.prefix_refl c)) hin hm).place hin

theorem readTextWithin (h : SameCookbook c fs fs') (hp : fs.Enters c p) {content : String}
    (hread : fs.readTextWithin p (Location.path c) = .ok content) :
    fs'.readTextWithin p (Location.path c) = .ok content := by
  rw [FileSystem.readTextWithin, bind_eq_ok_iff] at hread ⊢
  obtain ⟨place, hplace, hread⟩ := hread
  refine ⟨place, h.within hsealed hp hplace, ?_⟩
  obtain ⟨m, rfl, hm, hin⟩ := hsealed.within hp.isAbsolute hplace
  rw [FileTree.readFile, h.entryAt hm hin]
  exact hread

theorem isFileWithin (h : SameCookbook c fs fs') (hp : fs.Enters c p) {isFile : Bool}
    (hfile : fs.isFileWithin p (Location.path c) = .ok isFile) :
    fs'.isFileWithin p (Location.path c) = .ok isFile := by
  rw [FileSystem.isFileWithin, bind_eq_ok_iff] at hfile ⊢
  obtain ⟨place, hplace, hfile⟩ := hfile
  refine ⟨place, h.within hsealed hp hplace, ?_⟩
  obtain ⟨m, rfl, hm, hin⟩ := hsealed.within hp.isAbsolute hplace
  rw [FileTree.leadsToFile, h.entryAt hm hin]
  exact hfile

theorem listWithin (h : SameCookbook c fs fs') (hp : fs.Enters c p) {places : List Path}
    (hplaces : fs.listWithin p (Location.path c) = .ok places) :
    fs'.listWithin p (Location.path c) = .ok places := by
  simp only [FileSystem.listWithin, bind_eq_ok_iff, mapError_eq_ok_iff, Errno.at_eq_ok_iff]
    at hplaces ⊢
  obtain ⟨place, hplace, base, hbase, names, hnames, hplaces⟩ := hplaces
  obtain ⟨m, rfl, hlands, hm, hin⟩ :=
    hsealed.of_within hsealed.isAbsolute hsealed.place (List.prefix_refl c) hp.isAbsolute hplace
  obtain rfl := Except.ok.inj (hbase.symm.trans hlands.place)
  have hself := h.lands (enters_of_resolved hsealed.resolved (List.prefix_refl c))
    (List.prefix_refl c) hlands
  refine ⟨_, h.within hsealed hp hplace, _, hself.place, names, ?_, ?_⟩
  · rw [FileTree.list, bind_eq_ok_iff] at hnames ⊢
    obtain ⟨place, hreach, hnames⟩ := hnames
    obtain rfl := FileTree.reach_eq_ok hm.resolved hreach
    have hentry := h.entry? hin (List.prefix_refl place)
    refine ⟨place, ?_, ?_⟩
    · rw [FileTree.reach_congr hm.resolved fun _ hq => h.entry? hin hq, hreach]
    · rw [FileTree.isDirectory, hentry, h.below.names hin]
      exact hnames
  · rw [← hplaces]
    refine congrArg Except.ok (List.filter_congr fun p hp => ?_)
    obtain ⟨name, -, rfl⟩ := List.mem_map.1 hp
    rw [h.places _ (enters_child hm.resolved hin)]

theorem filesAmong (h : SameCookbook c fs fs') {places files : List Path}
    (henters : ∀ p ∈ places, fs.Enters c p)
    (hfiles : fs.filesAmong (Location.path c) places = .ok files) :
    fs'.filesAmong (Location.path c) places = .ok files := by
  induction places generalizing files with
  | nil => exact hfiles
  | cons place rest ih =>
    simp only [FileSystem.filesAmong, bind_eq_ok_iff] at hfiles ⊢
    obtain ⟨isFile, hfile, more, hmore, hfiles⟩ := hfiles
    exact ⟨isFile, h.isFileWithin hsealed (henters place (by simp)) hfile, more,
      ih (fun p hp => henters p (by simp [hp])) hmore, hfiles⟩

theorem recipes (h : SameCookbook c fs fs') {layout : Layout}
    (hroot : layout.cookbookPath = Location.path c) (hp : fs.Enters c layout.recipesPath)
    {files : List Path} (hfiles : fs.recipes layout = .ok files) :
    fs'.recipes layout = .ok files := by
  rw [FileSystem.recipes, hroot, bind_eq_ok_iff] at hfiles ⊢
  obtain ⟨places, hplaces, hfiles⟩ := hfiles
  exact ⟨places, h.listWithin hsealed hp hplaces, h.filesAmong hsealed
    (hsealed.enters_of_mem_listWithin hp.isAbsolute hplaces) hfiles⟩

theorem metadataText (h : SameCookbook c fs fs') (hp : fs.Enters c p) {content : String}
    (htext : fs.metadataText p (Location.path c) = .ok content) :
    fs'.metadataText p (Location.path c) = .ok content := by
  rw [metadataText_eq_ok_iff] at htext ⊢
  exact h.readTextWithin hsealed hp htext

theorem jsonName? (h : SameCookbook c fs fs') (hp : fs.Enters c p) {name : Option String}
    (hname : fs.jsonName? p (Location.path c) = .ok name) :
    fs'.jsonName? p (Location.path c) = .ok name := by
  rw [FileSystem.jsonName?, bind_eq_ok_iff] at hname ⊢
  obtain ⟨content, hcontent, hname⟩ := hname
  exact ⟨content, h.metadataText hsealed hp hcontent, hname⟩

theorem cookbookNameAt (h : SameCookbook c fs fs') {name : String}
    (hname : fs.cookbookNameAt (Location.path c) = .ok name) :
    fs'.cookbookNameAt (Location.path c) = .ok name := by
  have hjoin : ∀ piece q, '/' ∉ piece.toList → isProperName piece →
      fs.join (Location.path c) [piece] = .ok q →
      fs'.join (Location.path c) [piece] = .ok q ∧ fs.Enters c q ∧
        fs'.tree.leadsToFile q = fs.tree.leadsToFile q := by
    intro piece q hslash hproper hq
    obtain ⟨_, m, rfl, -, -, -, hm, hin⟩ :=
      hsealed.of_join hsealed.isAbsolute hsealed.place (List.prefix_refl c) hq
    refine ⟨h.join hsealed hslash hproper hq, enters_of_resolved hm.resolved hin, ?_⟩
    rw [FileTree.leadsToFile, h.entryAt hm.resolved hin]
    rfl
  simp only [FileSystem.cookbookNameAt, metadataName?, bind_eq_ok_iff, Errno.at_eq_ok_iff]
    at hname ⊢
  obtain ⟨json, hjson, script, hscript, declared, ⟨isJson, hisJson, hdeclared⟩, hname⟩ := hname
  obtain ⟨hjson', hj, hjsonFile⟩ := hjoin _ _ (by decide)
    (by simp [isProperName, metadataJson]) hjson
  obtain ⟨hscript', hs, hscriptFile⟩ := hjoin _ _ (by decide)
    (by simp [isProperName, metadataScript]) hscript
  refine ⟨_, hjson', _, hscript', declared, ⟨isJson, by rw [hjsonFile, hisJson], ?_⟩, hname⟩
  cases isJson with
  | true => exact h.jsonName? hsealed hj hdeclared
  | false =>
    simp only [Bool.false_eq_true, if_false, bind_eq_ok_iff, Errno.at_eq_ok_iff] at hdeclared ⊢
    obtain ⟨isScript, hisScript, hdeclared⟩ := hdeclared
    refine ⟨isScript, by rw [hscriptFile, hisScript], ?_⟩
    cases isScript with
    | true =>
      obtain ⟨content, hcontent, hdeclared⟩ := map_eq_ok_iff.1 hdeclared
      exact map_eq_ok_iff.2 ⟨content, h.metadataText hsealed hs hcontent, hdeclared⟩
    | false => cases hdeclared

end SameCookbook

end FileSystem

end RecipeManifest

import RecipeManifest.Cookbook.Layout
import RecipeManifest.Proofs.CheckedPlaces
import RecipeManifest.Proofs.GrowingTrees

/-!
The recipes of a cookbook.

Recipes are files of the cookbook, with names of the tree (`mem_recipes`). Where a tree grows, they
are still there and read as before (`readTextWithin_of_extends`).
-/

namespace RecipeManifest

namespace FileTree

variable {t t' : FileTree} {l m : Location} {parts : List String}

/-! ## Growing trees -/

/-- What is in the first tree is in the second. -/
def Extends (t t' : FileTree) : Prop :=
  ∀ l e, t.entry? l = some e → t'.entry? l = some e

theorem Extends.grows (h : Extends t t') (hlinks : SameLinks t t') : Grows t t' where
  links := hlinks
  directories := fun l => h l .directory
  files := fun l bytes hl => ⟨bytes, h l _ hl⟩

theorem Extends.entryAt (h : Extends t t') (hlinks : SameLinks t t') {p : Path} {e : Entry}
    (hentry : t.entryAt p = .ok e) : t'.entryAt p = .ok e := by
  unfold FileTree.entryAt at hentry ⊢
  split at hentry
  · cases hentry
  · next hlong =>
    rw [if_neg hlong]
    rw [status, bind_eq_ok_iff] at hentry
    obtain ⟨place, hplace, hentry⟩ := hentry
    rw [status, bind_eq_ok_iff]
    refine ⟨place, (h.grows hlinks).follow hplace, ?_⟩
    split at hentry
    · next e' he' =>
      cases hentry
      rw [h place _ he']
    · cases hentry

theorem leadsToFile_eq_true {p : Path} (h : t.leadsToFile p = .ok true) :
    ∃ bytes, t.entryAt p = .ok (.file bytes) := by
  unfold leadsToFile at h
  split at h
  · cases h
  · rw [Except.ok.injEq] at h
    split at h
    · next bytes hentry => exact ⟨bytes, hentry⟩
    · cases h

theorem readFile_eq_ok {p : Path} {bytes : List UInt8} (h : t.entryAt p = .ok (.file bytes)) :
    t.readFile p = .ok bytes := by
  rw [readFile, h]
  rfl

/-- A name in a directory is the last one of something that is there. -/
theorem exists_entry_of_mem_names {name : String} (h : name ∈ t.names l) :
    ∃ place e, t.entry? place = some e ∧ name ∈ place := by
  rw [names, List.mem_mergeSort, List.mem_filterMap] at h
  obtain ⟨⟨place, e⟩, hmem, h⟩ := h
  dsimp only at h
  split at h
  · have hne : place ≠ [] := by
      rintro rfl
      cases h
    have hsome : t.entry? place ≠ none := by
      unfold entry?
      rw [if_neg hne, Ne, List.lookup_eq_none_iff]
      intro hall
      simpa using hall _ hmem
    obtain ⟨e', he'⟩ := Option.ne_none_iff_exists'.1 hsome
    exact ⟨place, e', he', List.mem_of_getLast? h⟩
  · cases h

end FileTree

namespace FileSystem

variable {fs fs' : FileSystem} {p q base root : Path} {r m : Location}

/-- A file that is read from a larger tree is read from the first if it is there. -/
theorem readTextWithin_of_extends (hcwd : fs'.cwd = fs.cwd)
    (hextends : fs.tree.Extends fs'.tree) (hlinks : fs.tree.SameLinks fs'.tree)
    (hp : p.isAbsolute = true) (hfile : fs.isFileWithin p base = .ok true) {content : String}
    (hread : fs'.readTextWithin p base = .ok content) :
    fs.readTextWithin p base = .ok content := by
  rw [isFileWithin, bind_eq_ok_iff] at hfile
  obtain ⟨place, hplace, hleads⟩ := hfile
  rw [Errno.at_eq_ok_iff] at hleads
  rw [readTextWithin, bind_eq_ok_iff] at hread ⊢
  obtain ⟨place', hplace', hread⟩ := hread
  obtain ⟨-, -, hnormal, -⟩ := within_eq_ok hplace
  obtain ⟨-, -, hnormal', -⟩ := within_eq_ok hplace'
  have hsame : place' = place := by
    rw [normalize_of_isAbsolute hp hnormal, normalize_of_isAbsolute hp hnormal', hcwd,
      hlinks.realPath fs.cwd p]
  subst hsame
  obtain ⟨bytes, hentry⟩ := FileTree.leadsToFile_eq_true hleads
  rw [FileTree.readFile_eq_ok (hextends.entryAt hlinks hentry)] at hread
  refine ⟨place', hplace, ?_⟩
  rw [FileTree.readFile_eq_ok hentry]
  exact hread

/-! ## Recipes -/

/-- No name of the tree holds a slash. -/
structure SlashFree (fs : FileSystem) : Prop where
  tree : ∀ l e, fs.tree.entry? l = some e → Slashless l
  cwd : Slashless fs.cwd

theorem mem_filesAmong {places files : List Path} (h : fs.filesAmong base places = .ok files)
    (hp : p ∈ files) : p ∈ places ∧ fs.isFileWithin p base = .ok true := by
  induction places generalizing files with
  | nil =>
    cases h
    cases hp
  | cons place rest ih =>
    simp only [filesAmong, bind_eq_ok_iff] at h
    obtain ⟨isFile, hfile, more, hmore, h⟩ := h
    cases h
    cases isFile with
    | false =>
      obtain ⟨hmem, hfile⟩ := ih hmore hp
      exact ⟨List.mem_cons_of_mem _ hmem, hfile⟩
    | true =>
      rcases List.mem_cons.1 hp with rfl | hp
      · exact ⟨List.mem_cons_self, hfile⟩
      · obtain ⟨hmem, hfile⟩ := ih hmore hp
        exact ⟨List.mem_cons_of_mem _ hmem, hfile⟩

theorem mem_listWithin {places : List Path} (h : fs.listWithin q base = .ok places)
    (hp : p ∈ places) :
    ∃ (place : Path) (l : Location) (name : String), place.isAbsolute = true ∧
      name ∈ fs.tree.names l ∧ p = place.child name := by
  simp only [listWithin, bind_eq_ok_iff, mapError_eq_ok_iff, Errno.at_eq_ok_iff] at h
  obtain ⟨place, hplace, b, -, names, hnames, h⟩ := h
  cases h
  obtain ⟨-, -, hnormal, -⟩ := within_eq_ok hplace
  obtain ⟨name, hname, rfl⟩ := List.mem_map.1 (List.mem_filter.1 hp).1
  rw [FileTree.list, bind_eq_ok_iff] at hnames
  obtain ⟨l, -, hnames⟩ := hnames
  split at hnames
  · cases hnames
    exact ⟨place, l, name, isAbsolute_of_normalize hnormal, hname, rfl⟩
  · cases hnames

/-- A recipe is a file with an absolute path and a name of the tree. -/
theorem mem_recipes {layout : Layout} {recipes : List Path} (h : fs.recipes layout = .ok recipes)
    (hp : p ∈ recipes) (htree : ∀ l e, fs.tree.entry? l = some e → Slashless l) :
    p.isAbsolute = true ∧ fs.isFileWithin p layout.cookbookPath = .ok true ∧
      '/' ∉ p.name.toList := by
  rw [FileSystem.recipes, bind_eq_ok_iff] at h
  obtain ⟨places, hplaces, hfiles⟩ := h
  obtain ⟨hmem, hfile⟩ := mem_filesAmong hfiles hp
  obtain ⟨place, l, name, habsolute, hname, rfl⟩ := mem_listWithin hplaces hmem
  refine ⟨habsolute, hfile, ?_⟩
  obtain ⟨l', e, hentry, hname⟩ := FileTree.exists_entry_of_mem_names hname
  have hlast : (place.child name).name = name := by simp [Path.name, Path.child]
  rw [hlast]
  exact htree l' e hentry name hname

/-! ## Places below a clear root -/

theorem normalize_clear (h : Clear fs.tree r) (hp : p.isAbsolute = true)
    (hin : r <+: p.parts) (hproper : Location.Proper p.parts) (hq : fs.normalize p = .ok q) :
    q = Location.path p.parts := by
  rw [normalize_of_isAbsolute hp hq, FileTree.realPath_of_resolved hp (h.inside hin hproper)]

/-- Below a clear root, parts are joined as they are. -/
theorem join_clear (h : Clear fs.tree r) (hbase : base.isAbsolute = true)
    (hin : r <+: base.parts) (hproper : Location.Proper base.parts) {pieces : List String}
    (hq : fs.join base pieces = .ok q) :
    ∃ parts, relativeParts pieces = .ok parts ∧ q = Location.path (base.parts ++ parts) := by
  obtain ⟨b, parts, hb, hparts, hq⟩ := join_eq_ok hq
  obtain rfl := normalize_clear h hbase hin hproper hb
  obtain ⟨-, -, hq, -⟩ := within_eq_ok hq
  have hall : Location.Proper (base.parts ++ parts) := hproper.append (relativeParts_eq_ok hparts).2
  exact ⟨parts, hparts, normalize_clear h rfl (hin.trans (List.prefix_append _ _)) hall hq⟩

end FileSystem

end RecipeManifest

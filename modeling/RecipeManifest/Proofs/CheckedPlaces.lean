import RecipeManifest.Files.Guarded
import RecipeManifest.Proofs.FileChanges
import RecipeManifest.Proofs.PlaceNames

/-!
Checked places.

Every change of the files is checked against a root, by the place that a path is resolved to. The
check holds what it promises if that place is reached by its names alone (`Sealed`). So it is where
no link is in a loop (`sealed_of_loopless`), and where no link is on the way to the root or below it
(`sealed_of_clear`). Changes make no links, so that a root stays sealed (`ChangesTree`). The check lets
pass what is named below the root if no link is on the way (`Direct.within`).
-/

namespace RecipeManifest

/-! ## Places of paths -/

theorem Path.isAbsolute_absolute (p : Path) (cwd : Location) :
    (p.absolute cwd).isAbsolute = true := by
  unfold Path.absolute
  split
  · next h => exact h
  · rfl

theorem Errno.at_eq_ok_iff {α : Type} {p : Path} {x : Except Errno α} {a : α} :
    Errno.at p x = .ok a ↔ x = .ok a := by
  cases x <;> simp [Errno.at]

namespace FileSystem

variable {fs fs' : FileSystem} {p q base root : Path} {r m : Location} {P : Location → Prop}

theorem expandHome_of_isAbsolute (hp : p.isAbsolute = true) : fs.expandHome p = .ok p := by
  unfold expandHome
  split
  · next hanchor _ =>
    rw [Path.isAbsolute, hanchor] at hp
    cases hp
  · rfl

theorem normalize_eq_ok (h : fs.normalize p = .ok q) :
    ∃ expanded, fs.expandHome p = .ok expanded ∧ q = fs.tree.realPath fs.cwd expanded := by
  rw [normalize, bind_eq_ok_iff] at h
  obtain ⟨expanded, hexpand, h⟩ := h
  rw [bind_eq_ok_iff] at h
  obtain ⟨place, hlocate, h⟩ := h
  refine ⟨expanded, hexpand, ?_⟩
  unfold locate at hlocate
  split at hlocate
  · cases hlocate
  · cases hlocate
    split at h
    · cases h
    · exact (Except.ok.inj h).symm

theorem normalize_of_isAbsolute (hp : p.isAbsolute = true) (h : fs.normalize p = .ok q) :
    q = fs.tree.realPath fs.cwd p := by
  obtain ⟨expanded, hexpand, hq⟩ := normalize_eq_ok h
  rw [expandHome_of_isAbsolute hp] at hexpand
  cases hexpand
  exact hq

theorem isAbsolute_of_normalize (h : fs.normalize p = .ok q) : q.isAbsolute = true := by
  obtain ⟨expanded, -, rfl⟩ := normalize_eq_ok h
  exact Path.isAbsolute_absolute _ _

theorem normalizeText_eq_ok {text : String} (h : fs.normalizeText text = .ok q) :
    fs.normalize (Path.ofString text) = .ok q := by
  unfold normalizeText at h
  split at h
  · cases h
  · split at h
    · cases h
    · cases h
    · exact h

theorem within_eq_ok (h : fs.within p base = .ok q) :
    ∃ b, fs.normalize base = .ok b ∧ fs.normalize p = .ok q ∧ q.isWithin b = true := by
  simp only [within, bind_eq_ok_iff, mapError_eq_ok_iff] at h
  obtain ⟨b, hb, place, hplace, h⟩ := h
  split at h
  · next hwithin =>
    cases h
    exact ⟨b, hb, hplace, hwithin⟩
  · cases h

theorem relativeParts_eq_ok {pieces parts : List String} (h : relativeParts pieces = .ok parts) :
    Slashless parts ∧ Location.Proper parts := by
  induction pieces generalizing parts with
  | nil =>
    cases h
    exact ⟨by simp [Slashless], by simp [Location.Proper]⟩
  | cons piece rest ih =>
    rw [relativeParts] at h
    split at h
    · cases h
    · next hpiece =>
      rw [bind_eq_ok_iff] at h
      obtain ⟨more, hmore, h⟩ := h
      cases h
      obtain ⟨hslash, hproper⟩ := ih hmore
      refine ⟨(slashless_partsOf piece).append hslash, ?_⟩
      intro name hname
      rcases List.mem_append.1 hname with hname | hname
      · have hdots : name ≠ ".." := by
          rintro rfl
          exact hpiece (by simpa using .inr hname)
        have hfilter := (List.mem_filter.1 hname).2
        simp only [Bool.and_eq_true, bne_iff_ne] at hfilter
        exact ⟨hfilter.1, hfilter.2, hdots⟩
      · exact hproper name hname

/-- A name without slashes is one part. -/
theorem relativeParts_name {name : String} (hslash : '/' ∉ name.toList)
    (hname : isProperName name) : relativeParts [name] = .ok [name] := by
  have hpieces : Text.pieces (· == '/') name.toList = [name.toList] :=
    Text.pieces_of_notMem hslash
  have hpartsOf : Path.partsOf name = [name] := by
    simp [Path.partsOf, hpieces, hname.1, hname.2.1]
  have hanchor : (Path.ofString name).isAbsolute = false := by
    have hstart : name.toList.takeWhile (· == '/') = [] := by
      cases hchars : name.toList with
      | nil => rfl
      | cons c rest =>
        refine List.takeWhile_cons_of_neg ?_
        rw [beq_iff_eq]
        rintro rfl
        exact hslash (by simp [hchars])
    rw [Path.isAbsolute, Path.ofString, hstart]
    rfl
  have hdots : (Path.ofString name).parts.contains ".." = false := by
    show (Path.partsOf name).contains ".." = false
    rw [hpartsOf]
    simpa using Ne.symm hname.2.2
  rw [relativeParts, hanchor, hdots, if_neg (by simp)]
  show Except.ok (Path.partsOf name ++ []) = _
  rw [hpartsOf]
  rfl

theorem join_eq_ok {pieces : List String} (h : fs.join base pieces = .ok q) :
    ∃ b parts, fs.normalize base = .ok b ∧ relativeParts pieces = .ok parts ∧
      fs.within { b with parts := b.parts ++ parts } b = .ok q := by
  simpa only [join, bind_eq_ok_iff, mapError_eq_ok_iff, exists_and_left] using h

theorem isAbsolute_of_join {pieces : List String} (h : fs.join base pieces = .ok q) :
    q.isAbsolute = true := by
  obtain ⟨b, parts, -, -, h⟩ := join_eq_ok h
  obtain ⟨-, -, hq, -⟩ := within_eq_ok h
  exact isAbsolute_of_normalize hq

theorem slashless_normalize (hp : p.isAbsolute = true) (hslash : Slashless p.parts)
    (h : fs.normalize p = .ok q) : Slashless q.parts := by
  rw [normalize_of_isAbsolute hp h]
  exact fs.tree.slashless_realPath hslash (.inl hp)

theorem slashless_join {pieces : List String} (hbase : base.isAbsolute = true)
    (hslash : Slashless base.parts) (h : fs.join base pieces = .ok q) : Slashless q.parts := by
  obtain ⟨b, parts, hb, hparts, h⟩ := join_eq_ok h
  obtain ⟨-, -, hq, -⟩ := within_eq_ok h
  have habsolute : b.isAbsolute = true := isAbsolute_of_normalize hb
  refine slashless_normalize (p := { b with parts := b.parts ++ parts }) habsolute ?_ hq
  exact (slashless_normalize hbase hslash hb).append (relativeParts_eq_ok hparts).1

/-! ## Sealed roots -/

/-- The root is at `r`, and what is resolved to a place in it is reached there by its names
alone. -/
structure Sealed (fs : FileSystem) (root : Path) (r : Location) : Prop where
  isAbsolute : root.isAbsolute = true
  place : fs.tree.realPath fs.cwd root = Location.path r
  inside : ∀ p, p.isAbsolute = true → r <+: (fs.tree.realPath fs.cwd p).parts →
    fs.tree.Resolved (fs.tree.realPath fs.cwd p).parts

theorem Sealed.congr (h : fs.Sealed root r) (hcwd : fs'.cwd = fs.cwd)
    (hlinks : fs.tree.SameLinks fs'.tree) : fs'.Sealed root r where
  isAbsolute := h.isAbsolute
  place := by
    rw [hcwd, hlinks.realPath fs.cwd root]
    exact h.place
  inside := by
    intro p hp hin
    rw [hcwd, hlinks.realPath fs.cwd p] at hin ⊢
    exact (h.inside p hp hin).congr hlinks

theorem Sealed.resolved (h : fs.Sealed root r) : fs.tree.Resolved r := by
  have hroot := h.inside root h.isAbsolute
  rw [h.place] at hroot
  exact hroot (List.prefix_refl r)

/-- What passes the check is at a place inside the root that is reached by its names alone. -/
theorem Sealed.within (h : fs.Sealed root r) (hp : p.isAbsolute = true)
    (hq : fs.within p root = .ok q) :
    ∃ m, q = Location.path m ∧ fs.tree.Resolved m ∧ r <+: m := by
  obtain ⟨b, hb, hq, hwithin⟩ := within_eq_ok hq
  obtain rfl := normalize_of_isAbsolute h.isAbsolute hb
  obtain rfl := normalize_of_isAbsolute hp hq
  rw [h.place, Path.isWithin, Bool.and_eq_true, beq_iff_eq, List.isPrefixOf_iff_prefix] at hwithin
  obtain ⟨hanchor, hin⟩ := hwithin
  refine ⟨(fs.tree.realPath fs.cwd p).parts, ?_, h.inside p hp hin, hin⟩
  generalize fs.tree.realPath fs.cwd p = q at hanchor
  cases q
  cases hanchor
  rfl

/-- Without loops every root is sealed. -/
theorem sealed_of_loopless (ht : fs.tree.Loopless) (hroot : root.isAbsolute = true) :
    ∃ r, fs.Sealed root r := by
  obtain ⟨r, -, hr⟩ := ht.realPath hroot fs.cwd
  refine ⟨r, hroot, hr, ?_⟩
  intro p hp _
  obtain ⟨m, hm, hpath⟩ := ht.realPath hp fs.cwd
  rw [hpath]
  exact hm

/-- The place is reached by its names alone, and no link is below it. -/
structure Clear (t : FileTree) (r : Location) : Prop where
  resolved : t.Resolved r
  noLink : ∀ q, r <+: q → t.linkAt? q = none

theorem Clear.inside {t : FileTree} (h : Clear t r) (hq : r <+: m) (hm : m.Proper) :
    t.Resolved m where
  proper := hm
  noLink := by
    intro q' hq'
    rcases List.prefix_or_prefix_of_prefix hq' hq with hway | hin
    · exact h.resolved.noLink q' hway
    · exact h.noLink q' hin

theorem Clear.congr {t t' : FileTree} (h : Clear t r) (hlinks : t.SameLinks t') : Clear t' r :=
  ⟨h.resolved.congr hlinks, fun q hq => (hlinks.linkAt? q).trans (h.noLink q hq)⟩

/-- Without links on the way to a root or below it, the root is sealed. -/
theorem sealed_of_clear (hroot : root.isAbsolute = true) (h : Clear fs.tree root.parts) :
    fs.Sealed root root.parts where
  isAbsolute := hroot
  place := FileTree.realPath_of_resolved hroot h.resolved fs.cwd
  inside := fun _ hp hin => h.inside hin (fs.tree.proper_realPath hp fs.cwd)

/-! ## Checked changes -/

/-- Nothing but the tree has changed, and it has as `C` says if the root is sealed. -/
structure ChangesTree (C : FileTree → FileTree → Prop) (root : Path) (r : Location)
    (fs fs' : FileSystem) : Prop where
  cwd : fs'.cwd = fs.cwd
  homes : fs'.homes = fs.homes
  tree : fs.Sealed root r → C fs.tree fs'.tree

variable {C : FileTree → FileTree → Prop}

instance [FileTree.Steady C] : Std.Refl (ChangesTree C root r) :=
  ⟨fun fs => ⟨rfl, rfl, fun _ => FileTree.Steady.refl fs.tree⟩⟩

instance [FileTree.Steady C] : IsTrans FileSystem (ChangesTree C root r) where
  trans := by
    intro fs fs₁ fs₂ h h'
    refine ⟨h'.cwd.trans h.cwd, h'.homes.trans h.homes, ?_⟩
    intro hsealed
    have hfirst := h.tree hsealed
    exact FileTree.Steady.trans _ _ _ hfirst
      (h'.tree (hsealed.congr h.cwd (FileTree.Steady.links _ _ hfirst)))

/-- Directories are made at a checked place and on the way to it. -/
theorem changesTree_makeDirectoryWithin [FileTree.Provides P C] (parents existing : Bool)
    (hplace : fs.Sealed root r → ∀ q, fs.within p base = .ok q →
      ∃ m, q = Location.path m ∧ fs.tree.Resolved m ∧ ∀ q', q' <+: m → P q') :
    ChangesTree C root r fs (fs.makeDirectoryWithin p base parents existing).1 := by
  have hsteady : FileTree.Steady C := FileTree.Provides.toSteady P
  unfold makeDirectoryWithin
  split
  · exact Std.Refl.refl fs
  · next q hq =>
    refine ⟨rfl, rfl, fun hsealed => ?_⟩
    obtain ⟨m, rfl, hm, hP⟩ := hplace hsealed q hq
    dsimp only
    split
    · exact FileTree.provideDirectories_provides hm hP existing
    · exact FileTree.afterwards_provides hm (hP m (List.prefix_refl m)) existing

/-- A file is written at a checked place. -/
theorem changesTree_writeBytesWithin [FileTree.Writes r C] {bytes : List UInt8}
    (hp : p.isAbsolute = true) (h : fs.writeBytesWithin p root bytes = .ok fs') :
    ChangesTree C root r fs fs' := by
  simp only [writeBytesWithin, bind_eq_ok_iff] at h
  obtain ⟨q, hq, tree, hwrite, h⟩ := h
  cases h
  refine ⟨rfl, rfl, fun hsealed => ?_⟩
  obtain ⟨m, rfl, hm, hin⟩ := hsealed.within hp hq
  obtain ⟨rfl, hdir, hlink⟩ := FileTree.writeFile_resolved hm (Errno.at_eq_ok_iff.1 hwrite)
  exact FileTree.Writes.file _ _ _ hin hdir hlink

/-- Without loops the place of an absolute path is its own place. -/
theorem normalize_idem (ht : fs.tree.Loopless) (hp : p.isAbsolute = true)
    (hroot : fs.normalize p = .ok root) (hq : fs.normalize root = .ok q) : q = root := by
  obtain ⟨m, hm, hpath⟩ := ht.realPath hp fs.cwd
  have hroot := normalize_of_isAbsolute hp hroot
  rw [hpath] at hroot
  subst hroot
  rw [normalize_of_isAbsolute rfl hq, FileTree.realPath_of_resolved rfl hm]
  rfl

end FileSystem

/-! ## Places that are reached by their names -/

/-- The names are proper, and hold neither slashes nor NUL characters. -/
def Location.isPlain (l : Location) : Bool :=
  l.all fun name => name != "" && name != "." && name != ".." && !name.toList.contains '/' &&
    !name.toList.contains '\x00'

theorem Location.isPlain_iff {l : Location} : l.isPlain = true ↔
    l.Proper ∧ Slashless l ∧ ∀ name ∈ l, name.contains '\x00' = false := by
  simp only [isPlain, Proper, isProperName, Slashless, List.all_eq_true, Bool.and_eq_true,
    bne_iff_ne, Bool.not_eq_true', List.contains_eq_mem, decide_eq_false_iff_not, and_assoc,
    String.contains_char_eq]
  grind

theorem Location.isPlain_of_subset {l m : Location} (hl : l.isPlain = true) (h : m ⊆ l) :
    m.isPlain = true :=
  List.all_eq_true.2 fun name hname => List.all_eq_true.1 hl name (h hname)

namespace FileSystem

variable {fs : FileSystem} {l b : Location}

/-- All links of the tree are at these places. -/
def LinksAt (fs : FileSystem) (links : List Location) : Prop :=
  ∀ x ∈ fs.tree.entries, ∀ target, x.2 = .link target → x.1 ∈ links

theorem linksAt_of_all {links : List Location}
    (h : (fs.tree.entries.all fun x => !(x.2 matches .link _) || links.contains x.1) = true) :
    fs.LinksAt links := by
  intro x hx target hlink
  have hx := List.all_eq_true.1 h x hx
  simpa [hlink] using hx

theorem LinksAt.mem {links : List Location} (h : fs.LinksAt links) {target : String}
    (hl : fs.tree.entry? l = some (.link target)) : l ∈ links := by
  rcases fs.tree.mem_entries hl with rfl | hmem
  · cases hl
  · exact h _ hmem target rfl

theorem isLoop_of_resolved (h : fs.tree.Resolved l) : fs.isLoop (Location.path l) = false := by
  unfold isLoop
  rcases FileTree.reach_resolved h false with hok | ⟨e, hne, herror⟩
  · rw [hok]
  · rw [herror]
    cases e <;> first | rfl | exact absurd rfl hne

theorem within_of_normalize {p base : Path} {m : Location}
    (hbase : fs.normalize base = .ok (Location.path b))
    (hp : fs.normalize p = .ok (Location.path m)) (hin : b <+: m) :
    fs.within p base = .ok (Location.path m) := by
  have hwithin : (Location.path m).isWithin (Location.path b) = true := by
    simpa [Path.isWithin, Location.path] using hin
  simp only [within, hbase, hp, Except.mapError, bind, Except.bind, hwithin]
  rfl

/-- A path of plain names means the place where a walk along them ends. -/
theorem normalize_of_walk {depth : Nat} {m : Location} (hplain : l.isPlain = true)
    (hwalk : fs.tree.walk depth [] l = some m) :
    fs.normalize (Location.path l) = .ok (Location.path m) := by
  obtain ⟨-, -, hnull⟩ := Location.isPlain_iff.1 hplain
  have hnull : ¬(l.any fun part => part.contains '\x00') = true := by simpa using hnull
  have hlocate : fs.locate (Location.path l) = .ok (Location.path m) := by
    rw [locate, FileTree.realPath_of_walk rfl hwalk]
    exact if_neg hnull
  have hexpand : fs.expandHome (Location.path l) = .ok (Location.path l) :=
    expandHome_of_isAbsolute rfl
  simp only [FileSystem.normalize, hexpand, hlocate, bind, Except.bind,
    isLoop_of_resolved (fs.tree.resolved_nil.walk hwalk)]
  rfl

/-- The place is reached by its names alone, and these are plain. -/
structure Direct (fs : FileSystem) (l : Location) : Prop where
  resolved : fs.tree.Resolved l
  plain : l.isPlain = true

theorem LinksAt.direct {links : List Location} (h : fs.LinksAt links)
    (hl : (l.isPlain && links.all fun q => !q.isPrefixOf l) = true) : fs.Direct l := by
  rw [Bool.and_eq_true, List.all_eq_true] at hl
  obtain ⟨hplain, haway⟩ := hl
  refine ⟨⟨(Location.isPlain_iff.1 hplain).1, fun q hq => ?_⟩, hplain⟩
  refine FileTree.linkAt?_eq_none fun target hlink => ?_
  have hnot := haway q (h.mem hlink)
  rw [List.isPrefixOf_iff_prefix.2 hq] at hnot
  cases hnot

namespace Direct

theorem of_isPrefix (h : fs.Direct l) (hb : b <+: l) : fs.Direct b :=
  ⟨h.resolved.of_isPrefix hb, Location.isPlain_of_subset h.plain hb.subset⟩

theorem normalize (h : fs.Direct l) :
    fs.normalize (Location.path l) = .ok (Location.path l) := by
  have hwalk : fs.tree.walk 0 [] l = some l := FileTree.walk_of_resolved (l := []) h.resolved
  exact normalize_of_walk h.plain hwalk

/-- The check passes below the base. -/
theorem within (h : fs.Direct l) (hb : b <+: l) :
    fs.within (Location.path l) (Location.path b) = .ok (Location.path l) :=
  within_of_normalize (h.of_isPrefix hb).normalize h.normalize hb

theorem join_parts {pieces parts : List String} (h : fs.Direct (b ++ parts))
    (hparts : relativeParts pieces = .ok parts) :
    fs.join (Location.path b) pieces = .ok (Location.path (b ++ parts)) := by
  have hbase := h.of_isPrefix (List.prefix_append b parts)
  simp only [FileSystem.join, hbase.normalize, Except.mapError, bind, Except.bind, hparts]
  exact h.within (List.prefix_append _ _)

theorem join {name : String} (h : fs.Direct (b ++ [name])) :
    fs.join (Location.path b) [name] = .ok (Location.path (b ++ [name])) := by
  obtain ⟨hproper, hslash, -⟩ := Location.isPlain_iff.1 h.plain
  exact h.join_parts (relativeParts_name (hslash name (by simp)) (hproper name (by simp)))

theorem isFileWithin {p : Path} (h : fs.Direct b) (hp : fs.normalize p = .ok (Location.path l))
    (hb : b <+: l) (hfile : fs.tree.leadsToFile (Location.path l) = .ok true) :
    fs.isFileWithin p (Location.path b) = .ok true := by
  simp only [FileSystem.isFileWithin, within_of_normalize h.normalize hp hb, hfile, bind,
    Except.bind, Errno.at]

theorem readTextWithin {p : Path} (h : fs.Direct b) (hp : fs.normalize p = .ok (Location.path l))
    (hb : b <+: l) {bytes : List UInt8} {chars : List Char} {text : String}
    (hread : fs.tree.readFile (Location.path l) = .ok bytes)
    (hdecode : Text.decodeUtf8 bytes = .ok chars)
    (htext : String.ofList (Text.withNewlines chars) = text) :
    fs.readTextWithin p (Location.path b) = .ok text := by
  simp only [FileSystem.readTextWithin, within_of_normalize h.normalize hp hb, hread, hdecode, bind,
    Except.bind, Errno.at, htext]
  rfl

theorem makeDirectoryWithin (h : fs.Direct l) (hb : b <+: l) {existing : Bool}
    {t : FileTree} (hmade : fs.tree.provideDirectories existing .root l = (t, none)) :
    fs.makeDirectoryWithin (Location.path l) (Location.path b) true existing =
      ({ fs with tree := t }, .ok ()) := by
  rw [FileSystem.makeDirectoryWithin, h.within hb]
  simp only [Location.path, hmade, if_true]

/-- All names are listed that mean something below the base. -/
theorem listWithin {names : List String} (h : fs.Direct l) (hb : b <+: l)
    (hlist : fs.tree.list (Location.path l) = .ok names)
    (hnames : ∀ name ∈ names, ∃ m, b <+: m ∧
      fs.normalize (Location.path (l ++ [name])) = .ok (Location.path m)) :
    fs.listWithin (Location.path l) (Location.path b) =
      .ok (names.map fun name => Location.path (l ++ [name])) := by
  simp only [FileSystem.listWithin, h.within hb, (h.of_isPrefix hb).normalize, hlist, bind,
    Except.bind, Except.mapError, Errno.at]
  refine congrArg Except.ok (List.filter_eq_self.2 ?_)
  intro p hentry
  obtain ⟨name, hname, rfl⟩ := List.mem_map.1 hentry
  obtain ⟨m, hin, hm⟩ := hnames name hname
  have hreal := normalize_of_isAbsolute rfl hm
  show (_ && b.isPrefixOf (fs.tree.realPath fs.cwd (Location.path (l ++ [name]))).parts) = true
  rw [← hreal]
  simpa [Location.path] using hin

end Direct

end FileSystem

end RecipeManifest

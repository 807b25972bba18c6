import Mathlib.Data.List.Infix
import RecipeManifest.Proofs.FileChanges

/-!
Trees that grow.

A conversion makes directories and writes files, and takes nothing away. What the system could reach
in a tree it reaches when the tree has grown (`Grows.follow`), and a directory that was provided is
not made once more (`leadsToDirectory_of_provideDirectories`, `provideDirectories_again`). Where
nothing but directories is on the way, those that are missing are made (`Open.provideDirectories`).
-/

namespace RecipeManifest.FileTree

variable {t t' t'' : FileTree} {l m c r : Location} {parts : List String} {new : Bool}
  {budget : Nat}

/-- Links, directories and files are where they were. The files may have other bytes. -/
structure Grows (t t' : FileTree) : Prop where
  links : SameLinks t t'
  directories : ∀ l, t.entry? l = some .directory → t'.entry? l = some .directory
  files : ∀ l bytes, t.entry? l = some (.file bytes) → ∃ bytes', t'.entry? l = some (.file bytes')

theorem leadsToDirectory_iff {p : Path} :
    t.leadsToDirectory p = true ↔ t.entryAt p = .ok .directory := by
  unfold leadsToDirectory
  split
  · next h => simp [h]
  · next h => simpa using h

namespace Grows

theorem refl (t : FileTree) : Grows t t :=
  ⟨.refl t, fun _ h => h, fun _ bytes h => ⟨bytes, h⟩⟩

theorem trans (h : Grows t t') (h' : Grows t' t'') : Grows t t'' where
  links := h.links.trans h'.links
  directories := fun l hl => h'.directories l (h.directories l hl)
  files := by
    intro l bytes hl
    obtain ⟨bytes', hl'⟩ := h.files l bytes hl
    exact h'.files l bytes' hl'

theorem put_directory (hne : l ≠ []) (hnone : t.entry? l = none) :
    Grows t (t.put l .directory) where
  links := by
    intro m target
    by_cases hml : m = l
    · subst hml
      simp [entry?_put_self hne, hnone]
    · rw [entry?_put_of_ne hml]
  directories := by
    intro m hm
    by_cases hml : m = l
    · subst hml
      exact entry?_put_self hne
    · rwa [entry?_put_of_ne hml]
  files := by
    intro m bytes hm
    by_cases hml : m = l
    · subst hml
      rw [hnone] at hm
      cases hm
    · exact ⟨bytes, by rwa [entry?_put_of_ne hml]⟩

theorem put_file (hdir : t.entry? l ≠ some .directory)
    (hlink : ∀ target, t.entry? l ≠ some (.link target)) (bytes : List UInt8) :
    Grows t (t.put l (.file bytes)) where
  links := sameLinks_put_file (ne_nil_of_not_directory hdir) hlink bytes
  directories := by
    intro m hm
    by_cases hml : m = l
    · subst hml
      exact absurd hm hdir
    · rwa [entry?_put_of_ne hml]
  files := by
    intro m bytes' hm
    by_cases hml : m = l
    · subst hml
      exact ⟨bytes, entry?_put_self (ne_nil_of_not_directory hdir)⟩
    · exact ⟨bytes', by rwa [entry?_put_of_ne hml]⟩

theorem isDirectory (h : Grows t t') (hl : ¬(!t.isDirectory l) = true) :
    ¬(!t'.isDirectory l) = true := by
  simp only [Bool.not_eq_true', Bool.not_eq_false, FileTree.isDirectory, beq_iff_eq] at hl ⊢
  exact h.directories l hl

/-- What the system reaches in a tree, it reaches in the larger one. -/
theorem follow (h : Grows t t') (hfollow : t.follow new budget l parts = .ok m) :
    t'.follow new budget l parts = .ok m := by
  fun_induction FileTree.follow t new budget l parts with
  | case1 => rwa [FileTree.follow]
  | case2 | case5 | case7 | case8 => cases hfollow
  | case3 budget l rest hdir ih =>
    rw [FileTree.follow, if_neg (h.isDirectory hdir), if_pos rfl]
    exact ih hfollow
  | case4 budget l rest hdir hdot ih =>
    rw [FileTree.follow, if_neg (h.isDirectory hdir), if_neg hdot, if_pos rfl]
    exact ih hfollow
  | case6 budget l part rest hdir hdot hdots hlong hentry hnew =>
    -- something may have been made where the path ends
    cases hfollow
    obtain ⟨hnew, hrest⟩ := Bool.and_eq_true_iff.1 hnew
    obtain rfl := List.isEmpty_iff.1 hrest
    rw [FileTree.follow, if_neg (h.isDirectory hdir), if_neg hdot, if_neg hdots, if_neg hlong]
    split
    · rw [hnew, if_pos rfl]
    · next target htarget =>
      rw [h.links, hentry] at htarget
      cases htarget
    · rw [FileTree.follow]
  | case9 l part rest hdir hdot hdots hlong target hentry budget ih =>
    rw [FileTree.follow, if_neg (h.isDirectory hdir), if_neg hdot, if_neg hdots, if_neg hlong,
      (h.links _ _).2 hentry]
    exact ih hfollow
  | case10 budget l part rest hdir hdot hdots hlong e hlink hentry ih =>
    rw [FileTree.follow, if_neg (h.isDirectory hdir), if_neg hdot, if_neg hdots, if_neg hlong]
    cases e with
    | link target => exact absurd rfl (hlink target)
    | directory =>
      rw [h.directories _ hentry]
      exact ih hfollow
    | file bytes =>
      obtain ⟨bytes', hentry'⟩ := h.files _ _ hentry
      rw [hentry']
      exact ih hfollow

theorem reach (h : Grows t t') {p : Path} (hreach : t.reach new p = .ok m) :
    t'.reach new p = .ok m := by
  unfold FileTree.reach at hreach ⊢
  split at hreach
  · cases hreach
  · next hlong =>
    rw [if_neg hlong]
    exact h.follow hreach

theorem status_directory (h : Grows t t') (hstatus : t.status l parts = .ok .directory) :
    t'.status l parts = .ok .directory := by
  rw [status, bind_eq_ok_iff] at hstatus ⊢
  obtain ⟨place, hplace, hentry⟩ := hstatus
  refine ⟨place, h.follow hplace, ?_⟩
  split at hentry
  · next e he =>
    cases hentry
    rw [h.directories _ he]
  · cases hentry

theorem leadsToDirectory (h : Grows t t') {p : Path} (hp : t.leadsToDirectory p = true) :
    t'.leadsToDirectory p = true := by
  rw [leadsToDirectory_iff, entryAt] at hp ⊢
  split at hp
  · cases hp
  · next hlong =>
    rw [if_neg hlong]
    exact h.status_directory hp

end Grows

/-! ## Directories that are there -/

/-- Without links on the way a path is followed part by part. -/
theorem follow_append (hproper : ∀ name ∈ parts, isProperName name)
    (hlink : ∀ q, q <+: l ++ parts → ∀ target, t.entry? q ≠ some (.link target))
    (rest : List String) :
    t.follow false budget l (parts ++ rest) =
      t.follow false budget l parts >>= fun place => t.follow false budget place rest := by
  induction parts generalizing l with
  | nil =>
    rw [List.nil_append, FileTree.follow.eq_def t false budget l []]
    rfl
  | cons name parts ih =>
    have hname := hproper name (by simp)
    have hsplit : l ++ name :: parts = l ++ [name] ++ parts := by simp
    rw [hsplit] at hlink
    have ih := ih (fun n hn => hproper n (by simp [hn])) hlink
    rw [List.cons_append, FileTree.follow, FileTree.follow, if_neg hname.2.1, if_neg hname.2.2]
    rw [if_neg hname.2.1, if_neg hname.2.2]
    split
    · rfl
    split
    · rfl
    split
    · rfl
    · next target hentry => exact absurd hentry (hlink _ (List.prefix_append _ _) target)
    · exact ih

theorem Resolved.append_by_name (h : t.Resolved (l ++ parts))
    (hlong : (Location.path (l ++ parts)).isTooLong = false) :
    t.follow false budget [] (l ++ parts) =
      t.follow false budget [] l >>= fun place => t.follow false budget place parts :=
  follow_append (l := []) (h.of_isPrefix (List.prefix_append l parts)).proper
    (fun _ hq => h.entry?_ne_link hlong (hq.trans (List.prefix_append l parts))) parts

theorem isDirectory_of_follow {name : String}
    (hfollow : t.follow new budget l (name :: parts) = .ok m) : t.entry? l = some .directory := by
  rw [FileTree.follow] at hfollow
  split at hfollow
  · cases hfollow
  · next hdir => simpa [FileTree.isDirectory] using hdir

/-- What the system finds at a place that is reached by its names alone, and what is on the way. -/
theorem entryAt_eq_ok (h : t.Resolved m) {e : Entry} (he : t.entryAt (Location.path m) = .ok e) :
    (Location.path m).isTooLong = false ∧ t.follow false linkLimit [] m = .ok m ∧
      t.entry? m = some e ∧ ∀ q, q <+: m → q ≠ m → t.entry? q = some .directory := by
  rw [entryAt] at he
  split at he
  · cases he
  next hlong =>
  rw [Bool.not_eq_true] at hlong
  rw [status, bind_eq_ok_iff] at he
  obtain ⟨place, hplace, he⟩ := he
  have hreach : t.reach false (Location.path m) = .ok place := by
    rw [reach, hlong]
    exact hplace
  obtain rfl := reach_eq_ok h hreach
  refine ⟨hlong, hplace, ?_, ?_⟩
  · split at he
    · next hentry =>
      cases he
      exact hentry
    · cases he
  · rintro q ⟨rest, rfl⟩ hne
    obtain ⟨name, rest, rfl⟩ : ∃ name rest', rest = name :: rest' := by
      cases rest with
      | nil => simp at hne
      | cons name rest' => exact ⟨name, rest', rfl⟩
    have hplace' : t.follow false linkLimit [] (q ++ name :: rest) = _ := hplace
    rw [h.append_by_name hlong, bind_eq_ok_iff] at hplace'
    obtain ⟨place, hq, hrest⟩ := hplace'
    have hreach : t.reach false (Location.path q) = .ok place := by
      rw [reach, Location.isTooLong_of_isPrefix (List.prefix_append q _) hlong]
      exact hq
    obtain rfl := reach_eq_ok (h.of_isPrefix (List.prefix_append q _)) hreach
    exact isDirectory_of_follow hrest

theorem parent_path (l : Location) (name : String) :
    (Location.path (l ++ [name])).parent = Location.path l := by
  simp [Path.parent, Location.path, Path.isAbsolute]

/-- A directory that is there is not made once more, and is not missed. -/
theorem makeDirectory_again (h : t.Resolved m)
    (hdir : t.leadsToDirectory (Location.path m) = true) :
    ∃ e, e ≠ .noEntry ∧ t.makeDirectory (Location.path m) = .error e := by
  obtain ⟨hlong, hfollow, hentry, hway⟩ := entryAt_eq_ok h (leadsToDirectory_iff.1 hdir)
  rw [makeDirectory, if_neg (by simp [hlong])]
  rcases List.eq_nil_or_concat m with rfl | ⟨front, name, rfl⟩
  · exact ⟨.entryExists, by simp, rfl⟩
  rw [List.concat_eq_append] at *
  have hfront : front <+: front ++ [name] := List.prefix_append _ _
  rw [h.append_by_name hlong, bind_eq_ok_iff] at hfollow
  obtain ⟨place, hplace, -⟩ := hfollow
  have hreach : t.reach false (Location.path front) = .ok place := by
    rw [reach, Location.isTooLong_of_isPrefix hfront hlong]
    exact hplace
  obtain rfl := reach_eq_ok (h.of_isPrefix hfront) hreach
  have hlast : (Location.path (place ++ [name])).parts.getLast? = some name := by
    simp [Location.path]
  have hisDirectory : t.isDirectory place = true := by
    rw [isDirectory, hway place hfront (by simp)]
    rfl
  simp only [hlast, parent_path, hreach, bind, Except.bind, hisDirectory, hentry, Bool.not_true,
    Bool.false_eq_true, if_false, Option.isSome_some, if_true]
  split
  · exact ⟨.nameTooLong, by simp, rfl⟩
  · exact ⟨.entryExists, by simp, rfl⟩

theorem provideDirectory_again (h : t.Resolved m)
    (hdir : t.leadsToDirectory (Location.path m) = true) :
    t.provideDirectory true (Location.path m) = .ok t := by
  obtain ⟨e, he, herror⟩ := makeDirectory_again h hdir
  rw [provideDirectory, herror]
  exact if_pos ⟨he, rfl, hdir⟩

theorem provideDirectories_again (h : t.Resolved m)
    (hdir : t.leadsToDirectory (Location.path m) = true) :
    t.provideDirectories true .root m = (t, none) := by
  have hmade : t.provideDirectory true ⟨.root, m⟩ = .ok t := provideDirectory_again h hdir
  rw [provideDirectories, hmade]
  split <;> rfl

theorem leadsToDirectory_of_makeDirectory (h : t.Resolved m)
    (hmake : t.makeDirectory (Location.path m) = .ok t') :
    t'.leadsToDirectory (Location.path m) = true := by
  obtain ⟨hne, hnone, rfl⟩ := makeDirectory_resolved h hmake
  have hgrows := Grows.put_directory hne hnone
  obtain ⟨front, name, rfl⟩ : ∃ front name, m = front ++ [name] :=
    ⟨m.dropLast, m.getLast hne, (List.dropLast_concat_getLast hne).symm⟩
  have hfront : front <+: front ++ [name] := List.prefix_append _ _
  have hname := h.proper name (by simp)
  have hlast : (Location.path (front ++ [name])).parts.getLast? = some name := by
    simp [Location.path]
  unfold makeDirectory at hmake
  split at hmake
  · cases hmake
  next hlong =>
  simp only [hlast, parent_path, bind_eq_ok_iff] at hmake
  obtain ⟨place, hreach, hmake⟩ := hmake
  obtain rfl := reach_eq_ok (h.of_isPrefix hfront) hreach
  split at hmake
  · cases hmake
  next hdir =>
  split at hmake
  · cases hmake
  next hshort =>
  rw [reach, Location.isTooLong_of_isPrefix hfront (by simpa using hlong)] at hreach
  have hfollow : (t.put (place ++ [name]) .directory).follow false linkLimit [] (place ++ [name]) =
      .ok (place ++ [name]) := by
    rw [(h.congr hgrows.links).append_by_name (by simpa using hlong), bind_eq_ok_iff]
    refine ⟨place, hgrows.follow hreach, ?_⟩
    rw [FileTree.follow, if_neg (hgrows.isDirectory hdir), if_neg hname.2.1, if_neg hname.2.2,
      if_neg hshort, entry?_put_self hne]
    dsimp only
    rw [FileTree.follow]
  rw [leadsToDirectory_iff, entryAt, if_neg hlong, status]
  show (FileTree.follow _ false linkLimit [] (place ++ [name]) >>= _) = _
  rw [hfollow]
  simp only [bind, Except.bind, entry?_put_self hne]

/-- A directory that is provided is there. -/
theorem leadsToDirectory_of_provideDirectory (h : t.Resolved m)
    (hmade : t.provideDirectory true (Location.path m) = .ok t') :
    t'.leadsToDirectory (Location.path m) = true := by
  unfold provideDirectory at hmade
  split at hmade
  · next hmake =>
    cases hmade
    exact leadsToDirectory_of_makeDirectory h hmake
  · split at hmade
    · next hthere =>
      cases hmade
      exact hthere.2.2
    · cases hmade

theorem afterwards_eq_none {result : Except (Errno × Path) FileTree}
    (h : t.afterwards result = (t', none)) : result = .ok t' := by
  cases result with
  | error e => cases h
  | ok made =>
    cases h
    rfl

theorem leadsToDirectory_of_provideDirectories (h : t.Resolved m)
    (hmade : t.provideDirectories true .root m = (t', none)) :
    t'.leadsToDirectory (Location.path m) = true := by
  rw [provideDirectories] at hmade
  split at hmade
  · exact leadsToDirectory_of_provideDirectory h (afterwards_eq_none hmade)
  split at hmade
  · split at hmade
    · cases hmade
    · next t₁ hparents =>
      have hlinks : SameLinks t t₁ := by
        have hmade₁ : DirectoriesMade (fun _ => True) t t₁ := by
          have := provideDirectories_provides (C := DirectoriesMade fun _ => True) h.parent
            (fun _ _ => trivial) true
          rwa [hparents] at this
        exact hmade₁.links
      exact leadsToDirectory_of_provideDirectory (h.congr hlinks) (afterwards_eq_none hmade)
  · exact leadsToDirectory_of_provideDirectory h (afterwards_eq_none hmade)

/-! ## Directories along plain names -/

/-- Puts a directory where there is nothing. -/
def withDirectory (t : FileTree) (l : Location) : FileTree :=
  if t.entry? l = none then t.put l .directory else t

/-- Puts the directories that are missing on the way to a place. -/
def withDirectories (t : FileTree) (l : Location) : FileTree :=
  l.inits.foldl withDirectory t

/-- Directories are all the way to a place. -/
def Paved (t : FileTree) (l : Location) : Prop :=
  ∀ q, q <+: l → t.entry? q = some .directory

/-- The names of the place are such that the system takes them. -/
structure Usable (l : Location) : Prop where
  proper : l.Proper
  short : ∀ name ∈ l, name.utf8ByteSize ≤ longestName
  notTooLong : (Location.path l).isTooLong = false

/-- Nothing but directories is on the way to a place with usable names. -/
structure Open (t : FileTree) (l : Location) : Prop extends Usable l where
  way : ∀ q, q <+: l → t.entry? q = none ∨ t.entry? q = some .directory

theorem Paved.nil (t : FileTree) : t.Paved [] := by
  intro q hq
  obtain rfl := List.prefix_nil.1 hq
  rfl

theorem Paved.concat {name : String} (h : t.Paved l)
    (hdir : t.entry? (l ++ [name]) = some .directory) : t.Paved (l ++ [name]) := by
  intro q hq
  rcases List.prefix_concat_iff.1 hq with rfl | hq
  · exact hdir
  · exact h q hq

theorem Usable.of_isPrefix (h : Usable l) (hm : m <+: l) : Usable m where
  proper := fun name hname => h.proper name (hm.subset hname)
  short := fun name hname => h.short name (hm.subset hname)
  notTooLong := Location.isTooLong_of_isPrefix hm h.notTooLong

theorem Open.of_isPrefix (h : t.Open l) (hm : m <+: l) : t.Open m :=
  ⟨h.toUsable.of_isPrefix hm, fun q hq => h.way q (hq.trans hm)⟩

/-- A name in a directory that stands for nothing is found only where it may be new. -/
theorem follow_missing {name : String} {rest : List String} (hdir : t.entry? l = some .directory)
    (hname : isProperName name) (hshort : name.utf8ByteSize ≤ longestName)
    (hentry : t.entry? (l ++ [name]) = none) :
    t.follow new budget l (name :: rest) =
      if new && rest.isEmpty then .ok (l ++ [name]) else .error .noEntry := by
  have hdirectory : ¬(!t.isDirectory l) = true := by simp [isDirectory, hdir]
  rw [FileTree.follow, if_neg hdirectory, if_neg hname.2.1, if_neg hname.2.2,
    if_neg (Nat.not_lt.2 hshort)]
  simp only [hentry]

/-- A name in a directory is passed if it stands for something that is no link. -/
theorem follow_there {name : String} {rest : List String} {e : Entry}
    (hdir : t.entry? l = some .directory) (hname : isProperName name)
    (hshort : name.utf8ByteSize ≤ longestName) (hentry : t.entry? (l ++ [name]) = some e)
    (hlink : ∀ target, e ≠ .link target) :
    t.follow new budget l (name :: rest) = t.follow new budget (l ++ [name]) rest := by
  have hdirectory : ¬(!t.isDirectory l) = true := by simp [isDirectory, hdir]
  rw [FileTree.follow, if_neg hdirectory, if_neg hname.2.1, if_neg hname.2.2,
    if_neg (Nat.not_lt.2 hshort)]
  cases e with
  | link target => exact absurd rfl (hlink target)
  | directory => simp only [hentry]
  | file bytes => simp only [hentry]

/-- Directories on the way are passed by name. -/
theorem Paved.follow (h : t.Paved (l ++ parts)) (hproper : ∀ name ∈ parts, isProperName name)
    (hshort : ∀ name ∈ parts, name.utf8ByteSize ≤ longestName) (rest : List String) :
    t.follow new budget l (parts ++ rest) = t.follow new budget (l ++ parts) rest := by
  induction parts generalizing l with
  | nil => rw [List.nil_append, List.append_nil]
  | cons name parts ih =>
    have hdir : t.entry? l = some .directory := h l (List.prefix_append _ _)
    have hsplit : l ++ name :: parts = l ++ [name] ++ parts := by simp
    rw [hsplit] at h ⊢
    rw [List.cons_append, follow_there hdir (hproper name (by simp)) (hshort name (by simp))
      (h (l ++ [name]) (List.prefix_append _ _)) (by simp)]
    exact ih h (fun n hn => hproper n (by simp [hn])) fun n hn => hshort n (by simp [hn])

theorem Paved.follow_concat {name : String} (hl : t.Paved l) (h : Usable (l ++ [name])) :
    t.follow new budget [] (l ++ [name]) = t.follow new budget l [name] := by
  have hfront := h.of_isPrefix (List.prefix_append l [name])
  exact hl.follow (l := []) hfront.proper hfront.short [name]

/-- A place is found by its names where the way to it is there. -/
theorem Paved.reach {name : String} (hl : t.Paved l) (h : Usable (l ++ [name]))
    (hentry : (t.entry? (l ++ [name]) = none ∧ new = true) ∨
      ∃ e, t.entry? (l ++ [name]) = some e ∧ ∀ target, e ≠ .link target) :
    t.reach new (Location.path (l ++ [name])) = .ok (l ++ [name]) := by
  have hdir := hl l (List.prefix_refl l)
  have hname := h.proper name (by simp)
  have hshort := h.short name (by simp)
  rw [FileTree.reach, h.notTooLong, if_neg (by simp), Location.path, hl.follow_concat h]
  rcases hentry with ⟨hentry, rfl⟩ | ⟨e, hentry, hlink⟩
  · rw [follow_missing hdir hname hshort hentry]
    rfl
  · rw [follow_there hdir hname hshort hentry hlink, FileTree.follow]

theorem Paved.entryAt {name : String} {e : Entry} (hl : t.Paved l) (h : Usable (l ++ [name]))
    (hentry : t.entry? (l ++ [name]) = some e) (hlink : ∀ target, e ≠ .link target) :
    t.entryAt (Location.path (l ++ [name])) = .ok e := by
  have hreach : t.reach false (Location.path (l ++ [name])) = .ok (l ++ [name]) :=
    hl.reach h (.inr ⟨e, hentry, hlink⟩)
  rw [FileTree.reach, h.notTooLong, if_neg (by simp)] at hreach
  rw [FileTree.entryAt, h.notTooLong, if_neg (by simp), status, hreach]
  simp only [bind, Except.bind, hentry]

theorem Paved.entryAt_missing {name : String} (hl : t.Paved l) (h : Usable (l ++ [name]))
    (hentry : t.entry? (l ++ [name]) = none) :
    t.entryAt (Location.path (l ++ [name])) = .error .noEntry := by
  rw [FileTree.entryAt, h.notTooLong, if_neg (by simp), status, Location.path, hl.follow_concat h,
    follow_missing (hl l (List.prefix_refl l)) (h.proper name (by simp)) (h.short name (by simp))
      hentry]
  rfl

theorem Paved.writePlace {name : String} (hl : t.Paved l) (h : Usable (l ++ [name]))
    (hentry : t.entry? (l ++ [name]) = none ∨
      ∃ bytes, t.entry? (l ++ [name]) = some (.file bytes)) :
    t.writePlace (Location.path (l ++ [name])) = .ok (l ++ [name]) := by
  have hreach : t.reach true (Location.path (l ++ [name])) = .ok (l ++ [name]) := by
    refine hl.reach h ?_
    rcases hentry with hentry | ⟨bytes, hentry⟩
    · exact .inl ⟨hentry, rfl⟩
    · exact .inr ⟨_, hentry, by simp⟩
  have hnot : t.isDirectory (l ++ [name]) = false := by
    rcases hentry with hentry | ⟨bytes, hentry⟩ <;> rw [isDirectory, hentry] <;> rfl
  simp only [FileTree.writePlace, hreach, hnot, bind, Except.bind]
  rfl

/-- A way along plain names is gone to its end, or breaks off where nothing is. -/
theorem follow_open (hproper : ∀ name ∈ parts, isProperName name)
    (hshort : ∀ name ∈ parts, name.utf8ByteSize ≤ longestName)
    (hway : ∀ q, q <+: l ++ parts → t.entry? q = none ∨ t.entry? q = some .directory)
    (hl : t.Paved l) :
    (t.Paved (l ++ parts) ∧ t.follow false budget l parts = .ok (l ++ parts)) ∨
      (¬t.Paved (l ++ parts) ∧ t.follow false budget l parts = .error .noEntry) := by
  induction parts generalizing l with
  | nil => exact .inl ⟨by rwa [List.append_nil], by rw [FileTree.follow, List.append_nil]⟩
  | cons name parts ih =>
    have hsplit : l ++ name :: parts = l ++ [name] ++ parts := by simp
    rw [hsplit] at hway ⊢
    have hnext : l ++ [name] <+: l ++ [name] ++ parts := List.prefix_append _ _
    have hdir := hl l (List.prefix_refl l)
    have hname := hproper name (by simp)
    have hlength := hshort name (by simp)
    rcases hway (l ++ [name]) hnext with hentry | hentry
    · rw [follow_missing hdir hname hlength hentry]
      refine .inr ⟨fun hpaved => ?_, rfl⟩
      rw [hpaved _ hnext] at hentry
      cases hentry
    · rw [follow_there hdir hname hlength hentry (by simp)]
      exact ih (fun n hn => hproper n (by simp [hn])) (fun n hn => hshort n (by simp [hn])) hway
        (hl.concat hentry)

theorem Open.reach_of_paved (h : t.Open l) (hl : t.Paved l) :
    t.reach false (Location.path l) = .ok l := by
  rw [FileTree.reach, h.notTooLong]
  rcases follow_open (l := []) h.proper h.short h.way (.nil t) with ⟨-, hfollow⟩ | ⟨hnot, -⟩
  · exact hfollow
  · exact absurd hl hnot

theorem Open.reach_of_not_paved (h : t.Open l) (hl : ¬t.Paved l) :
    t.reach false (Location.path l) = .error .noEntry := by
  rw [FileTree.reach, h.notTooLong]
  rcases follow_open (l := []) h.proper h.short h.way (.nil t) with ⟨hpaved, -⟩ | ⟨-, hfollow⟩
  · exact absurd hpaved hl
  · exact hfollow

theorem entry?_withDirectory (l : Location) :
    FileTree.entry? (t.withDirectory l) m =
      if m = l then some ((t.entry? m).getD .directory) else t.entry? m := by
  by_cases hml : m = l
  · subst hml
    rw [if_pos rfl, withDirectory]
    split
    · next hnone =>
      have hne : m ≠ [] := by
        rintro rfl
        cases hnone
      rw [entry?_put_self hne, hnone]
      rfl
    · next hsome =>
      obtain ⟨e, he⟩ := Option.ne_none_iff_exists'.1 hsome
      rw [he]
      rfl
  · rw [if_neg hml, withDirectory]
    split
    · exact entry?_put_of_ne hml
    · rfl

theorem withDirectories_concat (name : String) :
    t.withDirectories (l ++ [name]) = (t.withDirectories l).withDirectory (l ++ [name]) := by
  unfold withDirectories
  rw [List.inits_append, List.foldl_append]
  rfl

theorem entry?_withDirectories (l : Location) :
    FileTree.entry? (t.withDirectories l) m =
      if m <+: l then some ((t.entry? m).getD .directory) else t.entry? m := by
  induction l using List.reverseRecOn with
  | nil =>
    split
    · next hm =>
      obtain rfl := List.prefix_nil.1 hm
      rfl
    · rfl
  | append_singleton l name ih =>
    rw [withDirectories_concat, entry?_withDirectory, ih]
    simp only [List.prefix_concat_iff]
    by_cases hm : m = l ++ [name]
    · simp only [hm, true_or, if_true]
      split <;> rfl
    · simp only [hm, false_or, if_false]

theorem Paved.withDirectories (h : t.Paved l) : t.withDirectories l = t := by
  induction l using List.reverseRecOn with
  | nil => rfl
  | append_singleton l name ih =>
    have hl : t.Paved l := fun q hq => h q (hq.trans (List.prefix_append _ _))
    rw [withDirectories_concat, ih hl, withDirectory, h _ (List.prefix_refl _)]
    exact if_neg (by simp)

/-- Afterwards the way is there. -/
theorem Open.paved (h : t.Open l) : (t.withDirectories l).Paved l := by
  intro q hq
  rw [entry?_withDirectories, if_pos hq]
  rcases h.way q hq with hentry | hentry <;> rw [hentry] <;> rfl

theorem Open.withDirectories (h : t.Open l) (m : Location) : (t.withDirectories m).Open l where
  toUsable := h.toUsable
  way := by
    intro q hq
    rw [entry?_withDirectories]
    rcases h.way q hq with hentry | hentry <;> simp [hentry, or_comm, em]

theorem Open.resolved (h : t.Open l) : t.Resolved l where
  proper := h.proper
  noLink := by
    intro q hq
    rcases h.way q hq with hentry | hentry <;> rw [linkAt?, hentry] <;> split <;> rfl

theorem Open.makeDirectory {name : String} (h : t.Open (l ++ [name])) :
    t.makeDirectory (Location.path (l ++ [name])) =
      t.reach false (Location.path l) >>= fun place =>
        if !t.isDirectory place then .error .notDirectory
        else if (t.entry? (place ++ [name])).isSome then .error .entryExists
        else .ok (t.put (place ++ [name]) .directory) := by
  have hlast : (Location.path (l ++ [name])).parts.getLast? = some name := by
    simp [Location.path]
  have hlong : ¬longestName < name.utf8ByteSize := Nat.not_lt.2 (h.short name (by simp))
  simp only [FileTree.makeDirectory, h.notTooLong, hlast, parent_path, if_neg hlong]
  rfl

theorem Open.leadsToDirectory (h : t.Open l) (hl : t.Paved l) :
    t.leadsToDirectory (Location.path l) = true := by
  have hreach := h.reach_of_paved hl
  rw [FileTree.reach, h.notTooLong, if_neg (by simp)] at hreach
  rw [leadsToDirectory_iff, FileTree.entryAt, h.notTooLong, if_neg (by simp), status, hreach]
  simp only [bind, Except.bind, hl l (List.prefix_refl l)]

/-- A directory is provided at once when the way to it is there. -/
theorem Open.provideDirectory {name : String} (h : t.Open (l ++ [name])) (hl : t.Paved l) :
    t.provideDirectory true (Location.path (l ++ [name])) =
      .ok (t.withDirectory (l ++ [name])) := by
  have hreach := (h.of_isPrefix (List.prefix_append l [name])).reach_of_paved hl
  have hdir : t.isDirectory l = true := by
    rw [isDirectory, hl l (List.prefix_refl l)]
    rfl
  rcases h.way _ (List.prefix_refl _) with hentry | hentry
  · rw [FileTree.provideDirectory, h.makeDirectory, hreach]
    simp only [bind, Except.bind, hdir, hentry, withDirectory]
    rfl
  · have hthere := h.leadsToDirectory (hl.concat hentry)
    rw [provideDirectory_again h.resolved hthere, withDirectory, hentry]
    rfl

/-- Where the names are plain, the directories that are missing are made. -/
theorem Open.provideDirectories (h : t.Open l) :
    t.provideDirectories true .root l = (t.withDirectories l, none) := by
  induction l using List.reverseRecOn with
  | nil => exact provideDirectories_again h.resolved (h.leadsToDirectory (.nil t))
  | append_singleton l name ih =>
    have hfront : l <+: l ++ [name] := List.prefix_append l [name]
    have hl := h.of_isPrefix hfront
    have hparent : Location.parent (l ++ [name]) = l := List.dropLast_concat
    have hne : l ++ [name] ≠ [] := by simp
    rw [FileTree.provideDirectories, if_neg hne, withDirectories_concat, hparent, ih hl]
    by_cases hpaved : t.Paved l
    · have hmade : t.provideDirectory true ⟨.root, l ++ [name]⟩ = _ := h.provideDirectory hpaved
      rw [hmade, hpaved.withDirectories]
      rfl
    · have hmissing : t.provideDirectory true ⟨.root, l ++ [name]⟩ =
          .error (.noEntry, ⟨.root, l ++ [name]⟩) := by
        have hmake : t.makeDirectory ⟨.root, l ++ [name]⟩ = _ := h.makeDirectory
        rw [FileTree.provideDirectory, hmake, hl.reach_of_not_paved hpaved]
        rfl
      have hmade : (t.withDirectories l).provideDirectory true ⟨.root, l ++ [name]⟩ = _ :=
        (h.withDirectories l).provideDirectory hl.paved
      simp only [hmissing, hmade]
      rfl

end RecipeManifest.FileTree

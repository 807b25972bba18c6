import RecipeManifest.Files.Access
import RecipeManifest.Proofs.LinkResolution
import RecipeManifest.Proofs.Results

/-!
What changes in a file tree.

At a place that is reached by its names alone the system does what it is asked to do at that very
place (`reach_resolved`). So a file is written there (`writeFile_resolved`), and directories are
made there and on the way to it (`provideDirectories_provides`). None of this makes or removes a
link. What can be said of a whole run is said of its single changes (`Provides`, `Writes`).
-/

namespace RecipeManifest

/-! ## Lengths of paths -/

namespace Path

theorem size_intercalate_le (a b : List String) :
    ("/".intercalate a).utf8ByteSize ≤ ("/".intercalate (a ++ b)).utf8ByteSize := by
  match a with
  | [] => simp
  | [s] =>
    cases b with
    | nil => simp
    | cons u rest => simp [String.intercalate_cons_cons]; omega
  | s :: u :: rest =>
    have ih := size_intercalate_le (u :: rest) b
    simp only [List.cons_append, String.intercalate_cons_cons, String.utf8ByteSize_append] at ih ⊢
    omega

end Path

/-- What is on the way to a place is not too long if the place is not. -/
theorem Location.isTooLong_of_isPrefix {q l : Location} (hq : q <+: l)
    (h : (Location.path l).isTooLong = false) : (Location.path q).isTooLong = false := by
  obtain ⟨rest, rfl⟩ := hq
  have hsize := Path.size_intercalate_le q rest
  simp only [Path.isTooLong, Path.text, Location.path, Anchor.text, String.utf8ByteSize_append,
    decide_eq_false_iff_not] at h ⊢
  omega

namespace FileTree

variable {t : FileTree} {l m : Location} {parts : List String} {e : Entry}

/-! ## Entries -/

theorem lookup_map_self {entries : List (Location × Entry)}
    (h : (entries.any fun x => x.1 == l) = true) :
    (entries.map fun x => if x.1 = l then (l, e) else x).lookup l = some e := by
  induction entries with
  | nil => simp at h
  | cons x rest ih =>
    by_cases hx : x.1 = l
    · simp [hx]
    · have hne : (l == x.1) = false := beq_false_of_ne (Ne.symm hx)
      have hrest : (rest.any fun x => x.1 == l) = true := by
        simpa [hx] using h
      obtain ⟨k, v⟩ := x
      rw [List.map_cons, if_neg hx, List.lookup_cons, hne]
      exact ih hrest

theorem lookup_map_of_ne {entries : List (Location × Entry)} (hne : m ≠ l) :
    (entries.map fun x => if x.1 = l then (l, e) else x).lookup m = entries.lookup m := by
  induction entries with
  | nil => rfl
  | cons x rest ih =>
    obtain ⟨k, v⟩ := x
    by_cases hx : k = l
    · subst hx
      have hfalse : (m == k) = false := beq_false_of_ne hne
      rw [List.map_cons, if_pos rfl, List.lookup_cons, List.lookup_cons, hfalse]
      exact ih
    · rw [List.map_cons, if_neg hx, List.lookup_cons, List.lookup_cons, ih]

theorem entry?_put_self (hl : l ≠ []) : entry? (t.put l e) l = some e := by
  unfold entry? put
  rw [if_neg hl]
  split
  · next h => exact lookup_map_self h
  · next h =>
    have hnone : t.entries.lookup l = none := by
      rw [List.lookup_eq_none_iff]
      intro x hx
      rw [bne_iff_ne]
      rintro rfl
      exact h (List.any_eq_true.2 ⟨x, hx, by simp⟩)
    rw [List.lookup_append, hnone]
    simp

theorem entry?_put_of_ne (hne : m ≠ l) : entry? (t.put l e) m = t.entry? m := by
  unfold entry? put
  split
  · rfl
  · split
    · exact lookup_map_of_ne hne
    · have hfalse : (m == l) = false := beq_false_of_ne hne
      rw [List.lookup_append]
      simp [List.lookup_cons, hfalse]

/-- No link stands at a place that is not too long and has none on the way. -/
theorem Resolved.entry?_ne_link (h : t.Resolved l) (hlong : (Location.path l).isTooLong = false)
    {q : Location} (hq : q <+: l) (target : String) : t.entry? q ≠ some (.link target) := by
  intro hentry
  have hnone := h.noLink q hq
  rw [linkAt?, Location.isTooLong_of_isPrefix hq hlong, hentry] at hnone
  cases hnone

/-- Without links on the way the system goes by the names. -/
theorem follow_by_name {new : Bool} {budget : Nat}
    (hproper : ∀ name ∈ parts, isProperName name)
    (hlink : ∀ q, q <+: l ++ parts → ∀ target, t.entry? q ≠ some (.link target)) :
    t.follow new budget l parts = .ok (l ++ parts) ∨
      ∃ e, e ≠ .linkLoop ∧ t.follow new budget l parts = .error e := by
  induction parts generalizing l with
  | nil =>
    left
    rw [follow, List.append_nil]
  | cons name rest ih =>
    have hname := hproper name (by simp)
    have hsplit : l ++ name :: rest = l ++ [name] ++ rest := by simp
    rw [hsplit] at hlink ⊢
    have ih := ih (fun n hn => hproper n (by simp [hn])) hlink
    rw [follow, if_neg hname.2.1, if_neg hname.2.2]
    split
    · right
      refine ⟨_, ?_, rfl⟩
      unfold missingCause
      split <;> simp
    split
    · exact .inr ⟨_, by simp, rfl⟩
    split
    · split
      · next hempty =>
        have hrest : rest = [] := by
          simp only [Bool.and_eq_true, List.isEmpty_iff] at hempty
          exact hempty.2
        left
        rw [hrest, List.append_nil]
      · exact .inr ⟨_, by simp, rfl⟩
    · next target hentry => exact absurd hentry (hlink _ (List.prefix_append _ _) target)
    · exact ih

/-- The system reaches a place that is reached by its names alone at that very place, or not at
all. -/
theorem reach_resolved (h : t.Resolved l) (new : Bool) :
    t.reach new (Location.path l) = .ok l ∨
      ∃ e, e ≠ .linkLoop ∧ t.reach new (Location.path l) = .error e := by
  unfold reach
  split
  · exact .inr ⟨_, by simp, rfl⟩
  · next hlong =>
    rw [Bool.not_eq_true] at hlong
    have hlink : ∀ q, q <+: [] ++ l → ∀ target, t.entry? q ≠ some (.link target) := fun q hq =>
      h.entry?_ne_link hlong hq
    exact follow_by_name (l := []) h.proper hlink

theorem reach_eq_ok (h : t.Resolved l) {new : Bool}
    (hreach : t.reach new (Location.path l) = .ok m) : m = l := by
  rcases reach_resolved h new with hok | ⟨e, -, herror⟩
  · rw [hok] at hreach
    exact (Except.ok.inj hreach).symm
  · rw [herror] at hreach
    cases hreach

/-! ## Changes -/

variable {root : Location} {P : Location → Prop} {t₁ t₂ : FileTree}

/-- What can be said of a tree before and after any number of changes that make no links. -/
class Steady (C : FileTree → FileTree → Prop) : Prop where
  refl : ∀ t, C t t
  trans : ∀ t t₁ t₂, C t t₁ → C t₁ t₂ → C t t₂
  links : ∀ t t', C t t' → SameLinks t t'

/-- The changes may be directories, at places for which `P` holds and where nothing is. -/
class Provides (P : Location → Prop) (C : FileTree → FileTree → Prop) : Prop extends Steady C where
  directory : ∀ t l, P l → l ≠ [] → t.entry? l = none → C t (t.put l .directory)

/-- The changes may be files at the root and below it, where neither a directory is nor a link. -/
class Writes (root : Location) (C : FileTree → FileTree → Prop) : Prop extends Steady C where
  file : ∀ t l bytes, root <+: l → t.entry? l ≠ some .directory →
    (∀ target, t.entry? l ≠ some (.link target)) → C t (t.put l (.file bytes))

/-- Directories have been made where nothing was, at places for which `P` holds. -/
def DirectoriesMade (P : Location → Prop) (t t' : FileTree) : Prop :=
  ∀ l, t'.entry? l = t.entry? l ∨
    (P l ∧ t.entry? l = none ∧ t'.entry? l = some .directory)

theorem DirectoriesMade.refl (t : FileTree) : DirectoriesMade P t t := fun _ => .inl rfl

theorem DirectoriesMade.trans (h : DirectoriesMade P t t₁) (h' : DirectoriesMade P t₁ t₂) :
    DirectoriesMade P t t₂ := by
  intro l
  rcases h' l with heq | ⟨hplace, hnone, hdir⟩
  · rw [heq]
    exact h l
  · rcases h l with heq | ⟨-, -, hdir'⟩
    · exact .inr ⟨hplace, by rw [← heq, hnone], hdir⟩
    · rw [hdir'] at hnone
      cases hnone

theorem DirectoriesMade.put (hl : P l) (hne : l ≠ []) (hnone : t.entry? l = none) :
    DirectoriesMade P t (t.put l .directory) := by
  intro m
  by_cases hml : m = l
  · subst hml
    exact .inr ⟨hl, hnone, entry?_put_self hne⟩
  · exact .inl (entry?_put_of_ne hml)

theorem linkAt?_eq_none (h : ∀ target, t.entry? l ≠ some (.link target)) : t.linkAt? l = none := by
  rw [Option.eq_none_iff_forall_ne_some]
  intro target hlink
  exact h target (t.linkAt?_eq_some hlink)

theorem DirectoriesMade.links (h : DirectoriesMade P t t₁) : SameLinks t t₁ := by
  intro l target
  rcases h l with heq | ⟨-, hnone, hdir⟩
  · rw [heq]
  · simp [hnone, hdir]

instance : Provides P (DirectoriesMade P) where
  refl := .refl
  trans := fun _ _ _ => .trans
  links := fun _ _ h => h.links
  directory := fun _ _ => .put

/-- What is at the root and below it may have changed, and on the way to the root directories may
have been made. The links are the same. -/
structure Contained (root : Location) (t t' : FileTree) : Prop where
  entries : ∀ l, t'.entry? l = t.entry? l ∨ root <+: l ∨
    (l <+: root ∧ t.entry? l = none ∧ t'.entry? l = some .directory)
  links : SameLinks t t'

theorem Contained.refl (t : FileTree) : Contained root t t :=
  ⟨fun _ => .inl rfl, .refl t⟩

theorem Contained.trans (h : Contained root t t₁) (h' : Contained root t₁ t₂) :
    Contained root t t₂ where
  entries := by
    intro l
    rcases h'.entries l with heq | hin | ⟨hway, hnone, hdir⟩
    · rw [heq]
      exact h.entries l
    · exact .inr (.inl hin)
    · rcases h.entries l with heq | hin | ⟨-, -, hdir'⟩
      · exact .inr (.inr ⟨hway, by rw [← heq, hnone], hdir⟩)
      · exact .inr (.inl hin)
      · rw [hdir'] at hnone
        cases hnone
  links := h.links.trans h'.links

theorem DirectoriesMade.contained (h : DirectoriesMade P t t₁)
    (hP : ∀ l, P l → root <+: l ∨ l <+: root) : Contained root t t₁ where
  entries := by
    intro l
    rcases h l with heq | ⟨hplace, hnone, hdir⟩
    · exact .inl heq
    · rcases hP l hplace with hin | hway
      · exact .inr (.inl hin)
      · exact .inr (.inr ⟨hway, hnone, hdir⟩)
  links := h.links

/-- A file in the place of no link leaves the links as they are. -/
theorem sameLinks_put_file (hne : l ≠ []) (hold : ∀ target, t.entry? l ≠ some (.link target))
    (bytes : List UInt8) : SameLinks t (t.put l (.file bytes)) := by
  intro m target
  by_cases hml : m = l
  · subst hml
    simp [entry?_put_self hne, hold target]
  · rw [entry?_put_of_ne hml]

theorem Contained.put_file (hl : root <+: l) (hne : l ≠ [])
    (hold : ∀ target, t.entry? l ≠ some (.link target)) (bytes : List UInt8) :
    Contained root t (t.put l (.file bytes)) where
  entries := by
    intro m
    by_cases hml : m = l
    · exact .inr (.inl (hml ▸ hl))
    · exact .inl (entry?_put_of_ne hml)
  links := sameLinks_put_file hne hold bytes

theorem ne_nil_of_not_directory (h : t.entry? l ≠ some .directory) : l ≠ [] := by
  rintro rfl
  exact h rfl

instance : Writes root (Contained root) where
  refl := .refl
  trans := fun _ _ _ => .trans
  links := fun _ _ h => h.links
  file := fun _ _ bytes hl hdir hold => .put_file hl (ne_nil_of_not_directory hdir) hold bytes

/-- Of two entries that are put at a place only the second is left. -/
theorem put_put (t : FileTree) (l : Location) (e e' : Entry) :
    (t.put l e).put l e' = t.put l e' := by
  unfold put
  by_cases hany : (t.entries.any fun x => x.1 == l) = true
  · have hagain : ((t.entries.map fun x => if x.1 = l then (l, e) else x).any
        fun x => x.1 == l) = true := by
      rw [List.any_eq_true] at hany ⊢
      obtain ⟨x, hx, hl⟩ := hany
      rw [beq_iff_eq] at hl
      exact ⟨(l, e), List.mem_map.2 ⟨x, hx, if_pos hl⟩, beq_self_eq_true l⟩
    rw [if_pos hany, if_pos hany, if_pos hagain, List.map_map]
    congr 1
    refine List.map_congr_left fun x _ => ?_
    by_cases hl : x.1 = l <;> simp [hl]
  · rw [if_neg hany, if_neg hany, if_pos (by simp)]
    congr 1
    have hkept : (t.entries.map fun x => if x.1 = l then (l, e') else x) = t.entries := by
      refine (List.map_congr_left fun x hx => if_neg ?_).trans (List.map_id' _)
      rintro rfl
      exact hany (List.any_eq_true.2 ⟨x, hx, beq_self_eq_true _⟩)
    rw [List.map_append, hkept]
    simp

/-- What the file held when it was opened is lost. -/
theorem writeFile_eq_map (t : FileTree) (p : Path) (bytes : List UInt8) :
    t.writeFile p bytes = (t.writePlace p).map fun place => t.put place (.file bytes) := by
  unfold writeFile openFile
  cases t.writePlace p with
  | error e => rfl
  | ok place => exact congrArg Except.ok (t.put_put place _ _)

theorem writePlace_eq_ok {p : Path} (hplace : t.writePlace p = .ok m) :
    t.reach true p = .ok m ∧ t.entry? m ≠ some .directory := by
  rw [writePlace, bind_eq_ok_iff] at hplace
  obtain ⟨place, hreach, hplace⟩ := hplace
  split at hplace
  · cases hplace
  · next hdir =>
    cases hplace
    rw [isDirectory, beq_iff_eq] at hdir
    exact ⟨hreach, hdir⟩

/-- A file is written where neither a directory is nor a link. -/
theorem writePlace_resolved (h : t.Resolved l) (hplace : t.writePlace (Location.path l) = .ok m) :
    m = l ∧ t.entry? l ≠ some .directory ∧ ∀ target, t.entry? l ≠ some (.link target) := by
  obtain ⟨hreach, hdir⟩ := writePlace_eq_ok hplace
  have hlong : (Location.path l).isTooLong = false := by
    rw [Bool.eq_false_iff]
    intro hlong
    rw [reach, if_pos hlong] at hreach
    cases hreach
  obtain rfl := reach_eq_ok h hreach
  exact ⟨rfl, hdir, h.entry?_ne_link hlong (List.prefix_refl _)⟩

theorem writeFile_resolved (h : t.Resolved l) {bytes : List UInt8}
    (hwrite : t.writeFile (Location.path l) bytes = .ok t₁) :
    t₁ = t.put l (.file bytes) ∧ t.entry? l ≠ some .directory ∧
      ∀ target, t.entry? l ≠ some (.link target) := by
  rw [writeFile_eq_map, map_eq_ok_iff] at hwrite
  obtain ⟨place, hplace, rfl⟩ := hwrite
  obtain ⟨rfl, hold⟩ := writePlace_resolved h hplace
  exact ⟨rfl, hold⟩

/-- A directory that is made was not there. -/
theorem makeDirectory_resolved (h : t.Resolved l)
    (hmake : t.makeDirectory (Location.path l) = .ok t₁) :
    l ≠ [] ∧ t.entry? l = none ∧ t₁ = t.put l .directory := by
  unfold makeDirectory at hmake
  split at hmake
  · cases hmake
  split at hmake
  · cases hmake
  · next name hname =>
    have hne : l ≠ [] := by
      rintro rfl
      cases hname
    obtain ⟨front, rfl⟩ : ∃ front, l = front ++ [name] := List.getLast?_eq_some_iff.1 hname
    have hparent : (Location.path (front ++ [name])).parent = Location.path front := by
      simp [Path.parent, Location.path, Path.isAbsolute]
    rw [bind_eq_ok_iff] at hmake
    obtain ⟨place, hreach, hmake⟩ := hmake
    rw [hparent] at hreach
    obtain rfl := reach_eq_ok (h.of_isPrefix (List.prefix_append _ _)) hreach
    split at hmake
    · cases hmake
    split at hmake
    · cases hmake
    split at hmake
    · cases hmake
    · next hsome =>
      refine ⟨hne, ?_, (Except.ok.inj hmake).symm⟩
      simpa using hsome

theorem provideDirectory_resolved (h : t.Resolved l) {existing : Bool}
    (hmake : t.provideDirectory existing (Location.path l) = .ok t₁) :
    t₁ = t ∨ (l ≠ [] ∧ t.entry? l = none ∧ t₁ = t.put l .directory) := by
  unfold provideDirectory at hmake
  split at hmake
  · next t' hmade =>
    cases hmake
    exact .inr (makeDirectory_resolved h hmade)
  · split at hmake
    · exact .inl (Except.ok.inj hmake).symm
    · cases hmake

section Provides

variable {C : FileTree → FileTree → Prop} [Provides P C]

/-- Making a directory makes nothing else, and nothing at all if it fails. -/
theorem afterwards_provides (h : t.Resolved l) (hl : P l) (existing : Bool) :
    C t (t.afterwards (t.provideDirectory existing (Location.path l))).1 := by
  cases hmake : t.provideDirectory existing (Location.path l) with
  | error e => exact Steady.refl t
  | ok t' =>
    rcases provideDirectory_resolved h hmake with rfl | ⟨hne, hnone, rfl⟩
    · exact Steady.refl _
    · exact Provides.directory t l hl hne hnone

/-- Directories are made at a place and on the way to it. -/
theorem provideDirectories_provides (h : t.Resolved l) (hP : ∀ q, q <+: l → P q)
    (existing : Bool) : C t (t.provideDirectories existing .root l).1 := by
  have hl : P l := hP l (List.prefix_refl l)
  induction hlength : l.length generalizing l existing with
  | zero =>
    obtain rfl := List.length_eq_zero_iff.1 hlength
    rw [FileTree.provideDirectories, if_pos rfl]
    exact afterwards_provides h hl existing
  | succ n ih =>
    have hne : l ≠ [] := by
      rintro rfl
      cases hlength
    have hway : l.parent <+: l := List.dropLast_prefix l
    have hparent : l.parent.length = n := by
      rw [Location.parent, List.length_dropLast, hlength, Nat.add_sub_cancel]
    have hin := ih h.parent (fun q hq => hP q (hq.trans hway)) true (hP _ hway) hparent
    rw [FileTree.provideDirectories, if_neg hne]
    split
    · split
      · next t' e hmade =>
        rw [hmade] at hin
        exact hin
      · next t' hmade =>
        rw [hmade] at hin
        exact Steady.trans _ _ _ hin
          (afterwards_provides (h.congr (Steady.links _ _ hin)) hl existing)
    · exact afterwards_provides h hl existing

end Provides

end FileTree

end RecipeManifest

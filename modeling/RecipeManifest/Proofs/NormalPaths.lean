import RecipeManifest.Files.Path

/-!
Paths that are taken by their names.

A resolution goes through paths of one form: absolute ones of proper names, and relative ones with
parent parts at their start (`Path.Normal`). There are few of them for each place, since such a path
is known by its place and the number of its parent parts (`Path.Normal.code_inj`), of which a path
has no more than bytes (`Path.count_parents_le`).
-/

namespace RecipeManifest

/-! ## Places by name -/

/-- The name is neither empty nor one of those that stand for other places. -/
def isProperName (name : String) : Prop :=
  name ≠ "" ∧ name ≠ "." ∧ name ≠ ".."

/-- All names of the place are proper. -/
def Location.Proper (l : Location) : Prop :=
  ∀ name ∈ l, isProperName name

theorem Location.foldl_step {l : Location} (hl : l.Proper) (start : Location) :
    l.foldl Location.step start = start ++ l := by
  induction l generalizing start with
  | nil => simp
  | cons name rest ih =>
    have hname := hl name (by simp)
    have hstep : start.step name = start ++ [name] := by
      simp [Location.step, hname.1, hname.2.1, hname.2.2]
    rw [List.foldl_cons, hstep, ih fun n hn => hl n (by simp [hn]), List.append_assoc,
      List.singleton_append]

theorem Location.place_path {l : Location} (hl : l.Proper) (cwd : Location) :
    (Location.path l).place cwd = l := by
  show l.foldl Location.step [] = l
  rw [Location.foldl_step hl, List.nil_append]

theorem Location.Proper.parent {l : Location} (hl : l.Proper) : l.parent.Proper := fun name hname =>
  hl name (List.dropLast_subset l hname)

theorem Location.Proper.append {l rest : Location} (hl : l.Proper) (hrest : rest.Proper) :
    Location.Proper (l ++ rest) := by
  intro name hname
  rcases List.mem_append.1 hname with h | h
  · exact hl name h
  · exact hrest name h

theorem Location.Proper.concat {l : Location} (hl : l.Proper) {name : String}
    (hname : isProperName name) : Location.Proper (l ++ [name]) :=
  hl.append (by simpa [Location.Proper] using hname)

/-! ## Normal paths -/

namespace Path

/-- The path is absolute and goes by proper names, or it is relative and has parent parts at its
start alone. -/
def Normal (p : Path) : Prop :=
  ∃ (ups : Nat) (names : Location), names.Proper ∧ p.parts = List.replicate ups ".." ++ names ∧
    (p.anchor = .relative ∨ p.anchor = .root ∧ ups = 0)

theorem normal_path {l : Location} (hl : l.Proper) : (Location.path l).Normal :=
  ⟨0, l, hl, rfl, .inr ⟨rfl, rfl⟩⟩

theorem normal_here : here.Normal :=
  ⟨0, [], by simp [Location.Proper], rfl, .inl rfl⟩

theorem Normal.child {p : Path} {name : String} (h : p.Normal) (hname : isProperName name) :
    (p.child name).Normal := by
  obtain ⟨ups, names, hnames, hparts, hanchor⟩ := h
  refine ⟨ups, names ++ [name], hnames.concat hname, ?_, hanchor⟩
  rw [Path.child, hparts, List.append_assoc]

theorem Normal.parent {p : Path} (h : p.Normal) : p.parent.Normal := by
  obtain ⟨anchor, parts⟩ := p
  obtain ⟨ups, names, hnames, rfl, hanchor⟩ := h
  rcases List.eq_nil_or_concat names with rfl | ⟨front, last, rfl⟩
  · rcases hanchor with rfl | ⟨rfl, rfl⟩
    · -- nothing but parent parts, so that there is one more
      refine ⟨ups + 1, [], hnames, ?_, .inl ?_⟩
      · cases ups <;> simp [Path.parent, Path.isAbsolute, Path.child, List.replicate_succ']
      · cases ups <;> simp [Path.parent, Path.isAbsolute, Path.child, List.replicate_succ']
    · exact ⟨0, [], hnames, rfl, .inr ⟨rfl, rfl⟩⟩
  · rw [List.concat_eq_append] at hnames ⊢
    have hlast : last ≠ ".." := (hnames last (by simp)).2.2
    have hparent : Path.parent ⟨anchor, List.replicate ups ".." ++ (front ++ [last])⟩ =
        ⟨anchor, List.replicate ups ".." ++ front⟩ := by
      rw [← List.append_assoc]
      simp [Path.parent, hlast]
    rw [hparent]
    exact ⟨ups, front, fun name hname => hnames name (by simp [hname]), rfl, hanchor⟩

theorem Normal.step {p : Path} {name : String} (h : p.Normal)
    (hname : name = "" ∨ name = "." ∨ name = "..") : (p.step name).Normal := by
  unfold Path.step
  split
  · exact h
  split
  · exact h.parent
  · next hstay hup =>
    rcases hname with hname | hname | hname
    · exact absurd (.inl hname) hstay
    · exact absurd (.inr hname) hstay
    · exact absurd hname hup

theorem count_parents_le (parts : List String) :
    parts.count ".." ≤ ("/".intercalate parts).utf8ByteSize := by
  induction parts with
  | nil => simp
  | cons part rest ih =>
    have hpart : (if part = ".." then 1 else 0) ≤ part.utf8ByteSize := by
      split
      · next h => subst h; decide
      · omega
    rw [List.count_cons]
    simp only [beq_iff_eq]
    cases rest with
    | nil => simpa using hpart
    | cons next rest =>
      rw [String.intercalate_cons_cons, String.utf8ByteSize_append, String.utf8ByteSize_append]
      omega

/-- A path as its place and the number of parent parts at its start, if it is relative. -/
def code (cwd : Location) (p : Path) : Location × Nat :=
  (p.place cwd, if p.isAbsolute then 0 else p.parts.count ".." + 1)

theorem Normal.code_inj {cwd : Location} {p q : Path} (hp : p.Normal) (hq : q.Normal)
    (h : p.code cwd = q.code cwd) : p = q := by
  obtain ⟨anchor, parts⟩ := p
  obtain ⟨anchor', parts'⟩ := q
  obtain ⟨ups, names, hnames, rfl, hanchor⟩ := hp
  obtain ⟨ups', names', hnames', rfl, hanchor'⟩ := hq
  have hcount : ∀ {ups : Nat} {names : Location}, names.Proper →
      (List.replicate ups ".." ++ names).count ".." = ups := by
    intro ups names hnames
    have hnone : names.count ".." = 0 := List.count_eq_zero.2 fun h => (hnames _ h).2.2 rfl
    simp [List.count_append, hnone]
  simp only [code, place, Prod.mk.injEq, List.foldl_append, Location.foldl_step hnames,
    Location.foldl_step hnames', hcount hnames, hcount hnames', isAbsolute] at h
  obtain ⟨hplace, htag⟩ := h
  rcases hanchor with rfl | ⟨rfl, rfl⟩ <;> rcases hanchor' with rfl | ⟨rfl, rfl⟩
  · obtain rfl : ups = ups' := by simpa using htag
    rw [List.append_cancel_left hplace]
  · simp at htag
  · simp at htag
  · simpa using hplace

end Path

end RecipeManifest

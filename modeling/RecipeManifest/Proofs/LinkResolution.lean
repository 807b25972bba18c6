import Mathlib.Data.Finset.Card
import Mathlib.Data.Finset.Prod
import RecipeManifest.Files.Tree
import RecipeManifest.Proofs.NormalPaths

/-!
Where paths lead when links are replaced by what they point to.

`FileTree.walk` follows a path from a place, with a bound on how deep links stand inside one
another and no memory of the links met. Main statement (`realPath_of_walk`): where a walk comes to
an end, the resolution with its memory and its budget comes to the same place. The budget is never
used up, since each link is entered once by each of its paths (`Progress`), and no link is met
inside its own target, since the walk along that target is deeper than all that is inside it
(`Faithful`).
So a path is resolved alike, looped or not, in trees that have the same links where it leads
(`realPath_congr`).
-/

namespace RecipeManifest

namespace FileTree

variable (t : FileTree)

/-- The target of the link at a place. A place with a path that is too long is not looked up. -/
def linkAt? (l : Location) : Option String :=
  if (Location.path l).isTooLong then none
  else
    match t.entry? l with
    | some (.link target) => some target
    | _ => none

theorem link?_path {l : Location} (hl : l.Proper) (cwd : Location) :
    t.link? cwd (Location.path l) = t.linkAt? l := by
  unfold link?
  generalize hplace : (Location.path l).place cwd = place
  rw [Location.place_path hl] at hplace
  subst hplace
  rfl

theorem link?_eq_some {cwd : Location} {p : Path} {target : String}
    (h : t.link? cwd p = some target) :
    p.isTooLong = false ∧ t.entry? (p.place cwd) = some (.link target) := by
  unfold link? at h
  split at h
  · cases h
  · next hlong =>
    split at h
    · next h' => cases h; exact ⟨by simpa using hlong, h'⟩
    · cases h

theorem linkAt?_eq_some {l : Location} {target : String} (h : t.linkAt? l = some target) :
    t.entry? l = some (.link target) := by
  unfold linkAt? at h
  split at h
  · cases h
  · split at h
    · next h' => cases h; exact h'
    · cases h

/-- What is found is the root or an entry. -/
theorem mem_entries {l : Location} {e : Entry} (h : t.entry? l = some e) :
    l = [] ∨ (l, e) ∈ t.entries := by
  unfold entry? at h
  split at h
  · next hl => exact .inl hl
  · obtain ⟨before, rest, hentries, -⟩ := List.lookup_eq_some_iff.1 h
    exact .inr (by simp [hentries])

/-- The place is one of those that hold something. -/
theorem mem_entries_of_linkAt? {l : Location} {target : String} (h : t.linkAt? l = some target) :
    l ∈ t.entries.map Prod.fst := by
  have hentry := t.linkAt?_eq_some h
  rcases t.mem_entries hentry with rfl | hmem
  · cases hentry
  · exact List.mem_map.2 ⟨_, hmem, rfl⟩

/-- The place is proper, and there is no link on the way to it or at it. -/
structure Resolved (l : Location) : Prop where
  proper : l.Proper
  noLink : ∀ q, q <+: l → t.linkAt? q = none

theorem resolved_nil : t.Resolved [] where
  proper := by simp [Location.Proper]
  noLink := by
    intro q hq
    obtain rfl := List.prefix_nil.1 hq
    unfold linkAt?
    split
    · rfl
    · rfl

variable {t}

theorem Resolved.of_isPrefix {l q : Location} (h : t.Resolved l) (hq : q <+: l) : t.Resolved q where
  proper := fun name hname => h.proper name (hq.subset hname)
  noLink := fun q' hq' => h.noLink q' (hq'.trans hq)

theorem Resolved.parent {l : Location} (h : t.Resolved l) : t.Resolved l.parent :=
  h.of_isPrefix (List.dropLast_prefix l)

theorem Resolved.concat {l : Location} {name : String} (h : t.Resolved l)
    (hname : isProperName name) (hlink : t.linkAt? (l ++ [name]) = none) :
    t.Resolved (l ++ [name]) where
  proper := h.proper.concat hname
  noLink := by
    intro q hq
    rcases List.prefix_concat_iff.1 hq with rfl | hq
    · exact hlink
    · exact h.noLink q hq

theorem Resolved.targetStart {l : Location} (h : t.Resolved l) (target : String) :
    t.Resolved (targetStart l target) := by
  unfold FileTree.targetStart
  split
  · exact t.resolved_nil
  · exact h

/-! ## Walks -/

/-- What stands between the slashes of a link's target. -/
def targetParts (target : String) : List String :=
  let pieces := (Text.pieces (· == '/') target.toList).map String.ofList
  if target.startsWith "/" then pieces.tail else pieces

theorem targetHops_eq (target : String) : targetHops target = (targetParts target).map .part :=
  rfl

variable (t)

/-- The place that a path leads to from a place, with links at most `depth` deep inside one another.
Parts that lead nowhere are kept by name. -/
def walk (depth : Nat) (l : Location) (parts : List String) : Option Location :=
  match parts with
  | [] => some l
  | part :: rest =>
    if part = "" ∨ part = "." then walk depth l rest
    else if part = ".." then walk depth l.parent rest
    else
      match t.linkAt? (l ++ [part]) with
      | none => walk depth (l ++ [part]) rest
      | some target =>
        match depth with
        | 0 => none
        | depth + 1 =>
          match walk depth (targetStart l target) (targetParts target) with
          | none => none
          | some m => walk (depth + 1) m rest
termination_by (depth, parts.length)

variable {t} {depth : Nat} {l m : Location} {part target : String} {rest parts : List String}

theorem walk_nil : t.walk depth l [] = some l := by
  rw [walk]

theorem walk_stay (h : part = "" ∨ part = ".") :
    t.walk depth l (part :: rest) = t.walk depth l rest := by
  rw [walk, if_pos h]

theorem walk_up : t.walk depth l (".." :: rest) = t.walk depth l.parent rest := by
  rw [walk, if_neg (by decide), if_pos rfl]

theorem walk_name (hpart : isProperName part) (h : t.linkAt? (l ++ [part]) = none) :
    t.walk depth l (part :: rest) = t.walk depth (l ++ [part]) rest := by
  obtain ⟨hempty, hdot, hdots⟩ := hpart
  rw [walk, if_neg (by simp [hempty, hdot]), if_neg hdots, h]

/-- The place that the target of the link at a place leads to. -/
def walkLink (t : FileTree) (depth : Nat) (l : Location) (target : String) : Option Location :=
  t.walk depth (targetStart l.parent target) (targetParts target)

theorem walk_link_zero (hpart : isProperName part) (h : t.linkAt? (l ++ [part]) = some target) :
    t.walk 0 l (part :: rest) = none := by
  obtain ⟨hempty, hdot, hdots⟩ := hpart
  rw [walk, if_neg (by simp [hempty, hdot]), if_neg hdots, h]

theorem walk_link (hpart : isProperName part) (h : t.linkAt? (l ++ [part]) = some target) :
    t.walk (depth + 1) l (part :: rest) =
      (t.walkLink depth (l ++ [part]) target).bind fun m => t.walk (depth + 1) m rest := by
  obtain ⟨hempty, hdot, hdots⟩ := hpart
  have hparent : Location.parent (l ++ [part]) = l := List.dropLast_concat
  rw [walk, if_neg (by simp [hempty, hdot]), if_neg hdots, h, walkLink, hparent]
  dsimp only
  cases t.walk depth (targetStart l target) (targetParts target) <;> rfl

/-- A part of a path is empty or a point, the parent part, or a proper name. -/
theorem part_cases (part : String) :
    (part = "" ∨ part = ".") ∨ part = ".." ∨ isProperName part := by
  unfold isProperName
  by_cases hempty : part = "" <;> by_cases hdot : part = "." <;> by_cases hdots : part = ".." <;>
    simp_all

/-- A walk that ends is the same with links deeper inside one another. -/
theorem walk_mono {depth' : Nat} (hle : depth ≤ depth') (h : t.walk depth l parts = some m) :
    t.walk depth' l parts = some m := by
  induction depth using Nat.strong_induction_on generalizing depth' l m parts with
  | _ depth ihDepth =>
    induction parts generalizing l with
    | nil => rwa [walk_nil] at h ⊢
    | cons part rest ih =>
      rcases part_cases part with hstay | rfl | hname
      · rw [walk_stay hstay] at h ⊢
        exact ih h
      · rw [walk_up] at h ⊢
        exact ih h
      · cases hlink : t.linkAt? (l ++ [part]) with
        | none =>
          rw [walk_name hname hlink] at h ⊢
          exact ih h
        | some target =>
          cases depth with
          | zero =>
            rw [walk_link_zero hname hlink] at h
            cases h
          | succ depth =>
            obtain ⟨depth', rfl⟩ : ∃ d, depth' = d + 1 := ⟨depth' - 1, by omega⟩
            rw [walk_link hname hlink, Option.bind_eq_some_iff] at h ⊢
            obtain ⟨m', hinner, hrest⟩ := h
            exact ⟨m', ihDepth depth (by omega) (by omega) hinner, ih hrest⟩

theorem walk_unique {depth' : Nat} {m' : Location} (h : t.walk depth l parts = some m)
    (h' : t.walk depth' l parts = some m') : m = m' := by
  have hmax := walk_mono (Nat.le_max_left depth depth') h
  rw [walk_mono (Nat.le_max_right depth depth') h', Option.some.injEq] at hmax
  exact hmax.symm

/-- What a walk ends at is reached by its names alone. -/
theorem Resolved.walk (hl : t.Resolved l) (h : t.walk depth l parts = some m) : t.Resolved m := by
  induction depth using Nat.strong_induction_on generalizing l m parts with
  | _ depth ihDepth =>
    induction parts generalizing l with
    | nil =>
      rw [walk_nil, Option.some.injEq] at h
      rwa [← h]
    | cons part rest ih =>
      rcases part_cases part with hstay | rfl | hname
      · rw [walk_stay hstay] at h
        exact ih hl h
      · rw [walk_up] at h
        exact ih hl.parent h
      · cases hlink : t.linkAt? (l ++ [part]) with
        | none =>
          rw [walk_name hname hlink] at h
          exact ih (hl.concat hname hlink) h
        | some target =>
          cases depth with
          | zero =>
            rw [walk_link_zero hname hlink] at h
            cases h
          | succ depth =>
            rw [walk_link hname hlink, Option.bind_eq_some_iff] at h
            obtain ⟨m', hinner, hrest⟩ := h
            have hparent : Location.parent (l ++ [part]) = l := List.dropLast_concat
            rw [walkLink, hparent] at hinner
            exact ih (ihDepth depth (by omega) (hl.targetStart target) hinner) hrest

/-- Every link leads somewhere. -/
def Loopless (t : FileTree) : Prop :=
  ∀ l target, t.linkAt? l = some target → ∃ depth m, t.walkLink depth l target = some m

/-- Without loops every path leads somewhere. -/
theorem Loopless.exists_walk (ht : t.Loopless) (l : Location) (parts : List String) :
    ∃ depth m, t.walk depth l parts = some m := by
  induction parts generalizing l with
  | nil => exact ⟨0, l, walk_nil⟩
  | cons part rest ih =>
    rcases part_cases part with hstay | rfl | hname
    · simpa only [walk_stay hstay] using ih l
    · simpa only [walk_up] using ih l.parent
    · cases hlink : t.linkAt? (l ++ [part]) with
      | none => simpa only [walk_name hname hlink] using ih (l ++ [part])
      | some target =>
        obtain ⟨inner, m', hinner⟩ := ht _ _ hlink
        obtain ⟨outer, m, houter⟩ := ih m'
        refine ⟨max inner outer + 1, m, ?_⟩
        rw [walk_link hname hlink, Option.bind_eq_some_iff]
        exact ⟨m', walk_mono (Nat.le_max_left inner outer) hinner,
          walk_mono (by omega) houter⟩

/-! ## The resolution -/

/-- Each link is entered once by each of its paths, so that there is budget for those not entered
yet. -/
structure Progress (t : FileTree) (cwd : Location) (budget : Nat)
    (seen : List (Path × Option Path)) : Prop where
  links : ∀ k ∈ seen.map Prod.fst, k.Normal ∧ ∃ target, t.link? cwd k = some target
  enough : t.entries.length * (Path.longest + 2) ≤ budget + (seen.map Prod.fst).toFinset.card

theorem progress_nil (t : FileTree) (cwd : Location) :
    Progress t cwd (t.entries.length * (Path.longest + 2)) [] where
  links := by simp
  enough := Nat.le_add_right _ _

/-- A path that a link is found by is known by an entry and a number that is small. -/
theorem code_mem {cwd : Location} {k : Path} {target : String} (h : t.link? cwd k = some target) :
    k.code cwd ∈ (t.entries.map Prod.fst).toFinset ×ˢ Finset.range (Path.longest + 2) := by
  obtain ⟨hlong, hentry⟩ := t.link?_eq_some h
  rw [Finset.mem_product, List.mem_toFinset, Finset.mem_range]
  constructor
  · rcases t.mem_entries hentry with hroot | hmem
    · rw [hroot] at hentry
      cases hentry
    · exact List.mem_map.2 ⟨_, hmem, rfl⟩
  · unfold Path.code
    split
    · omega
    · next habsolute =>
      have hups := Path.count_parents_le k.parts
      have htext : ("/".intercalate k.parts).utf8ByteSize ≤ k.text.utf8ByteSize := by
        unfold Path.text
        split
        · next hparts => simp [hparts]
        · rw [String.utf8ByteSize_append]
          omega
      have hsize : k.text.utf8ByteSize ≤ Path.longest := by
        simpa [Path.isTooLong] using hlong
      dsimp only
      omega

section Progress

variable {cwd : Location} {k : Path} {budget : Nat} {seen : List (Path × Option Path)}

theorem lookup_cons_of_ne {k k' : Path} (h : k ≠ k') (v : Option Path) :
    List.lookup k ((k', v) :: seen) = seen.lookup k := by
  rw [List.lookup_cons, beq_false_of_ne h]

theorem mem_pair_of_lookup {k : Path} {v : Option Path} (h : seen.lookup k = some v) :
    (k, v) ∈ seen := by
  obtain ⟨a, b, hsplit, -⟩ := List.lookup_eq_some_iff.1 h
  rw [hsplit]
  simp

theorem mem_of_lookup {k : Path} {v : Option Path} (h : seen.lookup k = some v) :
    k ∈ seen.map Prod.fst :=
  List.mem_map_of_mem (mem_pair_of_lookup h)

theorem notMem_of_lookup {k : Path} (h : seen.lookup k = none) : k ∉ seen.map Prod.fst := by
  intro hmem
  obtain ⟨x, hx, rfl⟩ := List.mem_map.1 hmem
  have := List.lookup_eq_none_iff.1 h x hx
  simp at this

/-- There is budget for a link that has not been met. -/
theorem Progress.pos (h : Progress t cwd budget seen) (hk : k.Normal)
    (hlink : t.link? cwd k = some target) (hnew : seen.lookup k = none) : 0 < budget := by
  have hall : ∀ k' ∈ insert k (seen.map Prod.fst).toFinset,
      k'.Normal ∧ ∃ target, t.link? cwd k' = some target := by
    intro k' hk'
    rw [Finset.mem_insert, List.mem_toFinset] at hk'
    rcases hk' with rfl | hk'
    · exact ⟨hk, target, hlink⟩
    · exact h.links k' hk'
  have hcard := Finset.card_le_card_of_injOn (Path.code cwd)
    (fun k' hk' => code_mem (hall k' hk').2.choose_spec)
    (fun a ha b hb hab => (hall a ha).1.code_inj (hall b hb).1 hab)
  have hplaces := List.toFinset_card_le (t.entries.map Prod.fst)
  rw [List.length_map] at hplaces
  have hcodes := Nat.mul_le_mul_right (Path.longest + 2) hplaces
  rw [Finset.card_product, Finset.card_range,
    Finset.card_insert_of_notMem (by simpa using notMem_of_lookup hnew)] at hcard
  have := h.enough
  omega

theorem Progress.enter (h : Progress t cwd (budget + 1) seen) (hk : k.Normal)
    (hlink : t.link? cwd k = some target) (hnew : seen.lookup k = none) :
    Progress t cwd budget ((k, none) :: seen) where
  links := by
    intro k' hk'
    rw [List.map_cons, List.mem_cons] at hk'
    rcases hk' with rfl | hk'
    · exact ⟨hk, target, hlink⟩
    · exact h.links k' hk'
  enough := by
    have hnotMem := notMem_of_lookup hnew
    have := h.enough
    rw [List.map_cons, List.toFinset_cons, Finset.card_insert_of_notMem (by simpa using hnotMem)]
    omega

theorem Progress.leave (h : Progress t cwd budget seen) {link : Path} {reached : Option Path}
    (hmet : link ∈ seen.map Prod.fst) : Progress t cwd budget ((link, reached) :: seen) where
  links := by
    intro k hk
    rw [List.map_cons, List.mem_cons] at hk
    rcases hk with rfl | hk
    · exact h.links _ hmet
    · exact h.links k hk
  enough := by
    rw [List.map_cons, List.toFinset_cons, Finset.insert_eq_of_mem (by simpa using hmet)]
    exact h.enough

end Progress

section Steps

variable {cwd : Location} {budget : Nat} {seen : List (Path × Option Path)} {hops : List Hop}

theorem resolve_nil {p : Path} : t.resolve cwd budget seen p [] = p := by
  rw [resolve]

theorem resolve_arrived {p link : Path} : t.resolve cwd budget seen p (.arrived link :: hops) =
    t.resolve cwd budget ((link, some p) :: seen) p hops := by
  rw [resolve]

theorem resolve_stay (h : part = "" ∨ part = ".") :
    t.resolve cwd budget seen (Location.path l) (.part part :: hops) =
      t.resolve cwd budget seen (Location.path l) hops := by
  have hstep : (Location.path l).step part = Location.path l := by simp [Path.step, h]
  rw [resolve, if_pos (by tauto), hstep]

theorem resolve_up : t.resolve cwd budget seen (Location.path l) (.part ".." :: hops) =
    t.resolve cwd budget seen (Location.path l.parent) hops := by
  have hstep : (Location.path l).step ".." = Location.path l.parent := by
    simp [Path.step, Path.parent, Location.path, Path.isAbsolute, Location.parent]
  rw [resolve, if_pos (by simp), hstep]

section Name

variable (hl : l.Proper) (hpart : isProperName part)

include hl hpart

theorem resolve_part : t.resolve cwd budget seen (Location.path l) (.part part :: hops) =
    match t.linkAt? (l ++ [part]) with
    | some target =>
      match seen.lookup (Location.path (l ++ [part])) with
      | some (some reached) => t.resolve cwd budget seen reached hops
      | some none => byName (Location.path (l ++ [part])) hops
      | none =>
        match budget with
        | 0 => byName (Location.path (l ++ [part])) hops
        | budget + 1 =>
          t.resolve cwd budget ((Location.path (l ++ [part]), none) :: seen)
            (Location.path (targetStart l target))
            (targetHops target ++ .arrived (Location.path (l ++ [part])) :: hops)
    | none => t.resolve cwd budget seen (Location.path (l ++ [part])) hops := by
  obtain ⟨hempty, hdot, hdots⟩ := hpart
  have hchild : (Location.path l).child part = Location.path (l ++ [part]) := rfl
  rw [resolve, if_neg (by tauto), hchild]
  dsimp only
  rw [t.link?_path (hl.concat ⟨hempty, hdot, hdots⟩)]
  cases t.linkAt? (l ++ [part]) with
  | none => rfl
  | some target =>
    dsimp only
    rcases seen.lookup (Location.path (l ++ [part])) with _ | _ | reached
    · cases budget with
      | zero => rfl
      | succ budget =>
        have hstart : (if target.startsWith "/" then Path.root else Location.path l) =
            Location.path (targetStart l target) := by
          unfold targetStart
          split <;> rfl
        dsimp only
        rw [hstart]
    · rfl
    · rfl

end Name

end Steps

/-- What is remembered of the links is right: the target of a link that was reached is where a walk
along it ends, and one that was not reached is deeper than `depth`. -/
def Faithful (t : FileTree) (depth : Nat) (seen : List (Path × Option Path)) : Prop :=
  ∀ l target, t.linkAt? l = some target →
    (∀ q, seen.lookup (Location.path l) = some (some q) →
      ∃ depth' m, q = Location.path m ∧ t.walkLink depth' l target = some m) ∧
    (seen.lookup (Location.path l) = some none →
      ∀ depth' < depth, t.walkLink depth' l target = none)

theorem faithful_nil : Faithful t depth [] := by
  intro l target _
  simp

theorem Faithful.mono {depth' : Nat} {seen : List (Path × Option Path)}
    (h : Faithful t depth seen) (hle : depth' ≤ depth) : Faithful t depth' seen := by
  intro l target hlink
  obtain ⟨hreached, hpending⟩ := h l target hlink
  exact ⟨hreached, fun hnone d hd => hpending hnone d (by omega)⟩

section Faithful

variable {seen inside : List (Path × Option Path)}

theorem path_inj {l l' : Location} : Location.path l = Location.path l' ↔ l = l' := by
  simp [Location.path]

/-- A link is entered. What its target leads to is not deeper than before. -/
theorem Faithful.enter {least : Nat} (h : Faithful t depth seen) (hle : least ≤ depth)
    (hlink : t.linkAt? l = some target)
    (hleast : ∀ depth' < least, t.walkLink depth' l target = none) :
    Faithful t least ((Location.path l, none) :: seen) := by
  intro l' target' hlink'
  by_cases hl : l' = l
  · subst hl
    rw [hlink, Option.some.injEq] at hlink'
    subst hlink'
    rw [List.lookup_cons_self]
    exact ⟨fun q hq => (nomatch hq), fun _ => hleast⟩
  · have hne : Location.path l' ≠ Location.path l := fun he => hl (path_inj.1 he)
    rw [lookup_cons_of_ne hne]
    exact h.mono hle l' target' hlink'

/-- A link is left when its target is reached. The links it stands inside of are as they were. -/
theorem Faithful.leave {least : Nat} (h : Faithful t depth seen) (hin : Faithful t least inside)
    (hpending : ∀ k, inside.lookup k = some none ↔
      List.lookup k ((Location.path l, none) :: seen) = some none)
    (hlink : t.linkAt? l = some target) {depth' : Nat}
    (hwalk : t.walkLink depth' l target = some m) :
    Faithful t depth ((Location.path l, some (Location.path m)) :: inside) := by
  intro l' target' hlink'
  by_cases hl : l' = l
  · subst hl
    rw [hlink, Option.some.injEq] at hlink'
    subst hlink'
    rw [List.lookup_cons_self]
    refine ⟨?_, fun hnone => (nomatch hnone)⟩
    rintro q ⟨⟩
    exact ⟨depth', m, rfl, hwalk⟩
  · have hne : Location.path l' ≠ Location.path l := fun he => hl (path_inj.1 he)
    rw [lookup_cons_of_ne hne]
    refine ⟨(hin l' target' hlink').1, fun hnone => ?_⟩
    rw [hpending, lookup_cons_of_ne hne] at hnone
    exact (h l' target' hlink').2 hnone

end Faithful

/-- The first depth at which the target of a link is reached. -/
theorem exists_least_walkLink (h : t.walkLink depth l target = some m) :
    ∃ least ≤ depth, t.walkLink least l target = some m ∧
      ∀ depth' < least, t.walkLink depth' l target = none := by
  induction depth using Nat.strong_induction_on with
  | _ depth ih =>
    by_cases hearlier : ∃ d < depth, t.walkLink d l target ≠ none
    · obtain ⟨d, hd, hne⟩ := hearlier
      obtain ⟨m', hm'⟩ := Option.ne_none_iff_exists'.1 hne
      obtain rfl : m' = m := walk_unique hm' h
      obtain ⟨least, hle, hleast⟩ := ih d hd hm'
      exact ⟨least, by omega, hleast⟩
    · refine ⟨depth, Nat.le_refl _, h, ?_⟩
      intro d hd
      by_contra hne
      exact hearlier ⟨d, hd, hne⟩

/-- The parts of a path are resolved as they are walked, and what is remembered stays right. -/
theorem resolve_walk (cwd : Location) (hl : t.Resolved l) (h : t.walk depth l parts = some m)
    {budget : Nat} {seen : List (Path × Option Path)} (hprogress : Progress t cwd budget seen)
    (hfaithful : Faithful t depth seen) (hops : List Hop) :
    ∃ budget' seen', Progress t cwd budget' seen' ∧ Faithful t depth seen' ∧
      (∀ k, seen'.lookup k = some none ↔ seen.lookup k = some none) ∧
      t.resolve cwd budget seen (Location.path l) (parts.map .part ++ hops) =
        t.resolve cwd budget' seen' (Location.path m) hops := by
  induction depth using Nat.strong_induction_on generalizing l m parts budget seen hops with
  | _ depth ihDepth =>
    induction parts generalizing l budget seen with
    | nil =>
      rw [walk_nil, Option.some.injEq] at h
      exact ⟨budget, seen, hprogress, hfaithful, fun _ => Iff.rfl, by rw [h]; rfl⟩
    | cons part rest ih =>
      rw [List.map_cons, List.cons_append]
      rcases part_cases part with hstay | rfl | hname
      · rw [walk_stay hstay] at h
        rw [resolve_stay hstay]
        exact ih hl h hprogress hfaithful
      · rw [walk_up] at h
        rw [resolve_up]
        exact ih hl.parent h hprogress hfaithful
      rw [resolve_part hl.proper hname]
      cases hlink : t.linkAt? (l ++ [part]) with
      | none =>
        rw [walk_name hname hlink] at h
        exact ih (hl.concat hname hlink) h hprogress hfaithful
      | some target =>
        cases depth with
        | zero =>
          rw [walk_link_zero hname hlink] at h
          cases h
        | succ depth =>
          rw [walk_link hname hlink, Option.bind_eq_some_iff] at h
          obtain ⟨m', hinner, hrest⟩ := h
          obtain ⟨hreached, hpending⟩ := hfaithful _ _ hlink
          have hproper : Location.Proper (l ++ [part]) := hl.proper.concat hname
          have hfound : t.link? cwd (Location.path (l ++ [part])) = some target := by
            rw [t.link?_path hproper, hlink]
          have hparent : Location.parent (l ++ [part]) = l := List.dropLast_concat
          have hm' : t.Resolved m' := by
            rw [walkLink, hparent] at hinner
            exact (hl.targetStart target).walk hinner
          dsimp only
          rcases hseen : seen.lookup (Location.path (l ++ [part])) with _ | _ | q
          · obtain ⟨budget, rfl⟩ : ∃ b, budget = b + 1 :=
              ⟨budget - 1, by have := hprogress.pos (Path.normal_path hproper) hfound hseen; omega⟩
            -- the target is resolved with the link as pending, and then what follows the link
            obtain ⟨least, hle, hleast, hdeeper⟩ := exists_least_walkLink hinner
            rw [walkLink, hparent] at hleast
            obtain ⟨b₁, seen₁, hprogress₁, hfaithful₁, hpending₁, hresolve₁⟩ :=
              ihDepth least (by omega) (hl.targetStart target) hleast
                (hprogress.enter (Path.normal_path hproper) hfound hseen)
                (hfaithful.enter (by omega) hlink hdeeper)
                (.arrived (Location.path (l ++ [part])) :: (rest.map .part ++ hops))
            have hmet : seen₁.lookup (Location.path (l ++ [part])) = some none := by
              rw [hpending₁, List.lookup_cons_self]
            obtain ⟨b₂, seen₂, hprogress₂, hfaithful₂, hpending₂, hresolve₂⟩ :=
              ih hm' hrest (hprogress₁.leave (mem_of_lookup hmet))
                (hfaithful.leave hfaithful₁ hpending₁ hlink hinner)
            refine ⟨b₂, seen₂, hprogress₂, hfaithful₂, ?_, ?_⟩
            · intro k
              by_cases hk : k = Location.path (l ++ [part])
              · subst hk
                rw [hpending₂, List.lookup_cons_self, hseen]
                simp
              · rw [hpending₂, lookup_cons_of_ne hk, hpending₁, lookup_cons_of_ne hk]
            · dsimp only
              rw [targetHops_eq, hresolve₁, resolve_arrived, hresolve₂]
          · -- met inside its own target, which would be as deep as itself
            have := hpending hseen depth (by omega)
            rw [this] at hinner
            cases hinner
          · obtain ⟨d, m'', rfl, hwalk⟩ := hreached q hseen
            obtain rfl : m'' = m' := walk_unique hwalk hinner
            exact ih hm' hrest hprogress hfaithful

/-- Where a walk along an absolute path ends, there the path is resolved to. -/
theorem realPath_of_walk {p : Path} (hp : p.isAbsolute = true)
    (h : t.walk depth [] p.parts = some m) (cwd : Location) :
    t.realPath cwd p = Location.path m := by
  have hm : t.Resolved m := t.resolved_nil.walk h
  obtain ⟨b, seen, -, -, -, hresolve⟩ :=
    resolve_walk cwd t.resolved_nil h (progress_nil t cwd) faithful_nil []
  have hstart : (Location.path [] : Path) = .root := rfl
  rw [List.append_nil, resolve_nil, hstart] at hresolve
  have habsolute : (Location.path m).absolute cwd = Location.path m := by
    rw [Path.absolute, Location.place_path hm.proper]
    rfl
  rw [realPath, hp, if_pos rfl, hresolve, habsolute]

/-- A place that is reached by its names alone is where its path is resolved to. -/
theorem walk_of_resolved (h : t.Resolved (l ++ parts)) :
    t.walk depth l parts = some (l ++ parts) := by
  induction parts generalizing l with
  | nil => rw [walk_nil, List.append_nil]
  | cons name rest ih =>
    have hsplit : l ++ name :: rest = l ++ [name] ++ rest := by simp
    rw [hsplit] at h ⊢
    have hname : isProperName name := h.proper name (by simp)
    rw [walk_name hname (h.noLink _ (List.prefix_append _ _)), ih h]

theorem realPath_of_resolved {p : Path} (hp : p.isAbsolute = true) (h : t.Resolved p.parts)
    (cwd : Location) : t.realPath cwd p = Location.path p.parts := by
  have hwalk : t.walk 0 [] p.parts = some p.parts := walk_of_resolved (l := []) h
  exact realPath_of_walk hp hwalk cwd

/-- Without loops an absolute path is resolved to a place that is reached by its names alone. -/
theorem Loopless.realPath (ht : t.Loopless) {p : Path} (hp : p.isAbsolute = true)
    (cwd : Location) : ∃ m, t.Resolved m ∧ t.realPath cwd p = Location.path m := by
  obtain ⟨depth, m, h⟩ := ht.exists_walk [] p.parts
  exact ⟨m, t.resolved_nil.walk h, realPath_of_walk hp h cwd⟩

/-! ## Trees with the same links -/

/-- The trees have the same links. -/
def SameLinks (t t' : FileTree) : Prop :=
  ∀ l target, t'.entry? l = some (.link target) ↔ t.entry? l = some (.link target)

section SameLinks

variable {t' t'' : FileTree}

theorem SameLinks.refl (t : FileTree) : SameLinks t t := fun _ _ => Iff.rfl

theorem SameLinks.symm (h : SameLinks t t') : SameLinks t' t := fun l target =>
  (h l target).symm

theorem SameLinks.trans (h : SameLinks t t') (h' : SameLinks t' t'') : SameLinks t t'' :=
  fun l target => (h' l target).trans (h l target)

theorem SameLinks.target? (h : SameLinks t t') (l : Location) :
    (match t'.entry? l with
      | some (.link target) => some target
      | _ => none) =
    match t.entry? l with
      | some (.link target) => some target
      | _ => none := by
  split
  · next target htarget => rw [(h l target).1 htarget]
  · next hnone =>
    split
    · next target htarget => exact absurd ((h l target).2 htarget) (hnone target)
    · rfl

theorem SameLinks.link? (h : SameLinks t t') (cwd : Location) (p : Path) :
    t'.link? cwd p = t.link? cwd p := by
  unfold FileTree.link?
  split
  · rfl
  · exact h.target? (p.place cwd)

theorem SameLinks.linkAt? (h : SameLinks t t') (l : Location) : t'.linkAt? l = t.linkAt? l := by
  unfold FileTree.linkAt?
  split
  · rfl
  · exact h.target? l

theorem Resolved.congr (h : t.Resolved l) (hlinks : SameLinks t t') : t'.Resolved l where
  proper := h.proper
  noLink := fun q hq => (hlinks.linkAt? q).trans (h.noLink q hq)

theorem Resolved.of_entries (h : t.Resolved l)
    (hway : ∀ q, q <+: l → t'.entry? q = t.entry? q) : t'.Resolved l where
  proper := h.proper
  noLink := by
    intro q hq
    have hlink := h.noLink q hq
    rwa [FileTree.linkAt?, ← hway q hq] at hlink

/-- The targets that were reached have normal paths. -/
def Landed (seen : List (Path × Option Path)) : Prop :=
  ∀ link reached, (link, some reached) ∈ seen → reached.Normal

variable {cwd : Location} {p : Path} {seen : List (Path × Option Path)} {hops : List Hop}

theorem Landed.cons (h : Landed seen) (hp : p.Normal) (link : Path) :
    Landed ((link, some p) :: seen) := by
  intro link' reached hmem
  rcases List.mem_cons.1 hmem with heq | hmem
  · cases heq
    exact hp
  · exact h link' reached hmem

theorem Landed.cons_none (h : Landed seen) (link : Path) : Landed ((link, none) :: seen) := by
  intro link' reached hmem
  rcases List.mem_cons.1 hmem with heq | hmem
  · cases heq
  · exact h link' reached hmem

/-- The paths at which a resolution looks for links. -/
def looks (t : FileTree) (cwd : Location) (budget : Nat) (seen : List (Path × Option Path))
    (p : Path) (hops : List Hop) : List Path :=
  match hops with
  | [] => []
  | .arrived link :: rest => looks t cwd budget ((link, some p) :: seen) p rest
  | .part name :: rest =>
    if name = "" ∨ name = "." ∨ name = ".." then looks t cwd budget seen (p.step name) rest
    else
      let next := p.child name
      next ::
        match t.link? cwd next with
        | some target =>
          match seen.lookup next with
          | some (some reached) => looks t cwd budget seen reached rest
          | some none => []
          | none =>
            match budget with
            | 0 => []
            | budget + 1 =>
              looks t cwd budget ((next, none) :: seen)
                (if target.startsWith "/" then .root else p)
                (targetHops target ++ .arrived next :: rest)
        | none => looks t cwd budget seen next rest
termination_by (budget, hops.length)

/-- The paths at which links are looked for to find out what a path means. -/
def lookups (t : FileTree) (cwd : Location) (p : Path) : List Path :=
  t.looks cwd (t.entries.length * (Path.longest + 2)) [] (if p.isAbsolute then .root else .here)
    (p.parts.map .part)

/-- The resolution sees nothing of a tree but the links that it looks for. -/
theorem resolve_congr {budget budget' : Nat}
    (hlinks : ∀ q ∈ t.looks cwd budget seen p hops, t'.link? cwd q = t.link? cwd q)
    (hp : p.Normal) (hprogress : Progress t cwd budget seen)
    (hprogress' : Progress t' cwd budget' seen) (hlanded : Landed seen)
    (hmet : ∀ link, .arrived link ∈ hops → link ∈ seen.map Prod.fst) :
    t'.resolve cwd budget' seen p hops = t.resolve cwd budget seen p hops := by
  induction budget using Nat.strong_induction_on generalizing budget' seen p hops with
  | _ budget ihBudget =>
    induction hops generalizing budget' seen p with
    | nil => rw [resolve_nil, resolve_nil]
    | cons hop hops ih =>
      cases hop with
      | arrived link =>
        have hlink : link ∈ seen.map Prod.fst := hmet link (by simp)
        rw [looks] at hlinks
        rw [resolve_arrived, resolve_arrived]
        refine ih hlinks hp (hprogress.leave hlink) (hprogress'.leave hlink) (hlanded.cons hp link)
          ?_
        intro link' hmem
        exact List.mem_cons_of_mem _ (hmet link' (List.mem_cons_of_mem _ hmem))
      | part part =>
        have hmet' : ∀ link, .arrived link ∈ hops → link ∈ seen.map Prod.fst := fun link hmem =>
          hmet link (List.mem_cons_of_mem _ hmem)
        by_cases hpart : part = "" ∨ part = "." ∨ part = ".."
        · rw [looks, if_pos hpart] at hlinks
          rw [resolve, resolve, if_pos hpart, if_pos hpart]
          exact ih hlinks (hp.step hpart) hprogress hprogress' hlanded hmet'
        have hchild : (p.child part).Normal := hp.child (by simpa [isProperName] using hpart)
        rw [looks, if_neg hpart] at hlinks
        rw [resolve, resolve, if_neg hpart, if_neg hpart]
        dsimp only at hlinks ⊢
        obtain ⟨hnext, hlinks⟩ := List.forall_mem_cons.1 hlinks
        rw [hnext]
        cases hlink : t.link? cwd (p.child part) with
        | none =>
          rw [hlink] at hlinks
          exact ih hlinks hchild hprogress hprogress' hlanded hmet'
        | some target =>
          rw [hlink] at hlinks
          dsimp only at hlinks ⊢
          have hlink' : t'.link? cwd (p.child part) = some target := by rw [hnext, hlink]
          rcases hseen : seen.lookup (p.child part) with _ | _ | reached
          · have hpos := hprogress.pos hchild hlink hseen
            have hpos' := hprogress'.pos hchild hlink' hseen
            obtain ⟨b, rfl⟩ : ∃ b, budget = b + 1 := ⟨budget - 1, by omega⟩
            obtain ⟨b', rfl⟩ : ∃ b', budget' = b' + 1 := ⟨budget' - 1, by omega⟩
            have hstart : (if target.startsWith "/" then Path.root else p).Normal := by
              split
              · exact Path.normal_path (by simp [Location.Proper])
              · exact hp
            rw [hseen] at hlinks
            refine ihBudget b (by omega) hlinks hstart (hprogress.enter hchild hlink hseen)
              (hprogress'.enter hchild hlink' hseen) (hlanded.cons_none _) ?_
            intro link hmem
            rw [targetHops_eq] at hmem
            simp only [List.mem_append, List.mem_map, reduceCtorEq, and_false, exists_const,
              false_or, List.mem_cons, Hop.arrived.injEq] at hmem
            rcases hmem with rfl | hmem
            · simp
            · exact List.mem_cons_of_mem _ (hmet' link hmem)
          · rfl
          · have hreached := hlanded _ _ (mem_pair_of_lookup hseen)
            rw [hseen] at hlinks
            exact ih hlinks hreached hprogress hprogress' hlanded hmet'

/-- A path means the same in two trees that have the same links where it leads. -/
theorem realPath_congr
    (hlinks : ∀ q ∈ t.lookups cwd p, t'.link? cwd q = t.link? cwd q) :
    t'.realPath cwd p = t.realPath cwd p := by
  have hstart : (if p.isAbsolute then Path.root else Path.here).Normal := by
    split
    · exact Path.normal_path (by simp [Location.Proper])
    · exact Path.normal_here
  rw [realPath, realPath, resolve_congr hlinks hstart (progress_nil t cwd) (progress_nil t' cwd)
    (by simp [Landed]) (by simp)]

theorem SameLinks.realPath (hlinks : SameLinks t t') (cwd : Location) (p : Path) :
    t'.realPath cwd p = t.realPath cwd p :=
  realPath_congr fun q _ => hlinks.link? cwd q

end SameLinks

end FileTree

end RecipeManifest

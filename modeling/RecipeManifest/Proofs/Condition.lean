import Mathlib
import RecipeManifest.Manifest.Draft

/-!
What the text of a guard tells of its condition.

A condition tests files and joins tests by negation, `&&` and `||`. Its text is the signs of the
tree from left to right (`conditionText_eq_iff`), without the grouping. So the text settles the
meaning for one shape of signs only: all joints are the same, and no test but the last is negated
(`OneWay`). Any other text over different tests is also that of a condition with another meaning
(`oneWay_or_mistaken`).
-/

namespace RecipeManifest

/-- A word of a command line. -/
structure Word where
  text : String
  nonempty : text.toList ≠ []
  plain : (text.toList.all fun c => !Text.isBlank c) = true
  deriving DecidableEq

/-- How two conditions are joined. -/
inductive Joint where
  | both
  | either
  deriving DecidableEq

namespace Joint

def mark : Joint → String
  | both => "&&"
  | either => "||"

def apply : Joint → Bool → Bool → Bool
  | both, a, b => a && b
  | either, a, b => a || b

/-- The value that settles a joint, whatever stands on the other side. -/
def absorbing : Joint → Bool
  | both => false
  | either => true

@[simp]
theorem apply_absorbing_left (j : Joint) (a : Bool) : j.apply j.absorbing a = j.absorbing := by
  cases j <;> simp [apply, absorbing]

@[simp]
theorem apply_absorbing_right (j : Joint) (a : Bool) : j.apply a j.absorbing = j.absorbing := by
  cases j <;> simp [apply, absorbing]

/-- The other value leaves the other side as it is. -/
@[simp]
theorem apply_not_absorbing (j : Joint) (a : Bool) : j.apply (!j.absorbing) a = a := by
  cases j <;> simp [apply, absorbing]

theorem apply_assoc (j : Joint) (a b c : Bool) :
    j.apply (j.apply a b) c = j.apply a (j.apply b c) := by
  cases j <;> simp [apply, Bool.and_assoc, Bool.or_assoc]

theorem absorbing_ne {j k : Joint} (h : j ≠ k) : j.absorbing ≠ k.absorbing := by
  cases j <;> cases k <;> simp_all [absorbing]

end Joint

/-- A condition on files. -/
inductive Condition where
  | test (flag path : Word)
  | not (c : Condition)
  | join (j : Joint) (left right : Condition)

/-- What is written of a condition, sign by sign. -/
inductive Sign where
  | bang
  | test (flag path : Word)
  | joint (j : Joint)
  deriving DecidableEq

def Sign.words : Sign → List (List Char)
  | bang => ["!".toList]
  | test flag path => ["test".toList, flag.text.toList, path.text.toList]
  | joint j => [j.mark.toList]

/-- The file that a sign asks for. -/
def Sign.asked? : Sign → Option (String × String)
  | test flag path => some (flag.text, path.text)
  | _ => none

namespace Condition

/-- The condition as an expression of a recipe. -/
def expr : Condition → Expr
  | test flag path => .fileTest flag.text (.literal .string path.text)
  | not c => .not c.expr
  | join j left right => .binary j.mark left.expr right.expr

/-- Whether the condition holds where `present` says which files are there. -/
def truth (present : String → String → Bool) : Condition → Bool
  | test flag path => present flag.text path.text
  | not c => !c.truth present
  | join j left right => j.apply (left.truth present) (right.truth present)

/-- The signs of the condition from left to right. -/
def signs : Condition → List Sign
  | test flag path => [.test flag path]
  | not c => .bang :: c.signs
  | join j left right => left.signs ++ .joint j :: right.signs

/-- The files that the condition asks for, with the flags of the tests. -/
def tests (c : Condition) : List (String × String) :=
  c.signs.filterMap Sign.asked?

end Condition

/-! ## The text is the signs -/

/-- Words with a blank behind each. -/
def spacedOut (words : List (List Char)) : List Char :=
  words.flatMap (· ++ [' '])

/-- What stands before the first of two equal marks. -/
theorem append_cons_inj {a : Char} {xs ys us vs : List Char} (hx : a ∉ xs) (hy : a ∉ ys)
    (h : xs ++ a :: us = ys ++ a :: vs) : xs = ys ∧ us = vs := by
  have hfirst : ∀ {zs ws : List Char}, a ∉ zs → (zs ++ a :: ws).takeWhile (· != a) = zs := by
    intro zs ws hz
    rw [List.takeWhile_append_of_pos]
    · simp
    · intro b hb
      simp only [bne_iff_ne, ne_eq]
      rintro rfl
      exact hz hb
  have hxy : xs = ys := by rw [← hfirst hx, h, hfirst hy]
  subst hxy
  exact ⟨rfl, by simpa using h⟩

/-- Words without blanks can be told from their text. -/
theorem spacedOut_injective {ws vs : List (List Char)} (hw : ∀ w ∈ ws, ' ' ∉ w)
    (hv : ∀ v ∈ vs, ' ' ∉ v) (h : spacedOut ws = spacedOut vs) : ws = vs := by
  induction ws generalizing vs with
  | nil =>
    cases vs with
    | nil => rfl
    | cons v vs => simp [spacedOut] at h
  | cons w ws ih =>
    cases vs with
    | nil => simp [spacedOut] at h
    | cons v vs =>
      simp only [spacedOut, List.flatMap_cons, List.append_assoc, List.singleton_append] at h
      obtain ⟨rfl, hrest⟩ := append_cons_inj (hw w (by simp)) (hv v (by simp)) h
      rw [ih (fun w h => hw w (by simp [h])) (fun v h => hv v (by simp [h])) hrest]

/-- No sign's words are the beginning of another's. -/
theorem words_injective {ss us : List Sign}
    (h : ss.flatMap Sign.words = us.flatMap Sign.words) : ss = us := by
  induction ss generalizing us with
  | nil =>
    cases us with
    | nil => rfl
    | cons u us => cases u <;> simp [Sign.words] at h
  | cons s ss ih =>
    cases us with
    | nil => cases s <;> simp [Sign.words] at h
    | cons u us =>
      obtain ⟨rfl, hrest⟩ : s = u ∧ ss.flatMap Sign.words = us.flatMap Sign.words := by
        cases s with
        | bang =>
          cases u with
          | bang => simpa [Sign.words] using h
          | test _ _ => simp [Sign.words] at h
          | joint j => cases j <;> simp [Sign.words, Joint.mark] at h
        | test flag path =>
          cases u with
          | bang => simp [Sign.words] at h
          | test flag' path' =>
            simp only [List.flatMap_cons, Sign.words, List.cons_append, List.nil_append,
              List.cons.injEq, true_and, String.toList_inj] at h
            obtain ⟨hf, hp, hrest⟩ := h
            cases flag; cases path; cases flag'; cases path'
            simp_all
          | joint j => cases j <;> simp [Sign.words, Joint.mark] at h
        | joint j =>
          cases u with
          | bang => cases j <;> simp [Sign.words, Joint.mark] at h
          | test _ _ => cases j <;> simp [Sign.words, Joint.mark] at h
          | joint k => cases j <;> cases k <;> simp_all [Sign.words, Joint.mark]
      rw [ih hrest]

theorem Sign.not_blank {s : Sign} : ∀ w ∈ s.words, ∀ c ∈ w, Text.isBlank c = false := by
  have hall : s.words.all (fun w => w.all fun c => !Text.isBlank c) = true := by
    cases s with
    | bang => decide
    | test flag path =>
      rw [words, List.all_cons, List.all_cons, List.all_cons, flag.plain, path.plain]
      decide
    | joint j => cases j <;> decide
  simpa using hall

theorem dropWhile_eq_self {p : Char → Bool} {cs : List Char} (h : ∀ c ∈ cs.head?, p c = false) :
    cs.dropWhile p = cs := by
  cases cs with
  | nil => rfl
  | cons c rest =>
    have := h c rfl
    simp [this]

/-- There is nothing to trim if neither end is white space. -/
theorem trim_eq_self {cs : List Char} (hhead : ∀ c ∈ cs.head?, Text.isBlank c = false)
    (hlast : ∀ c ∈ cs.getLast?, Text.isBlank c = false) : Text.trim cs = cs := by
  unfold Text.trim Text.trimBy Text.trimEndBy
  rw [dropWhile_eq_self hhead, dropWhile_eq_self (by simpa using hlast), List.reverse_reverse]

/-- A text that starts with no parenthesis keeps those it has. -/
theorem withoutParens_eq_self {cs : List Char} (h : cs.head? ≠ some '(') :
    withoutParens cs = cs := by
  have : isWrapped cs = false := by simp [isWrapped, h]
  rw [withoutParens, if_neg (by simp [this])]

namespace Condition

/-- A condition starts with a bang or a test. -/
theorem signs_starts (c : Condition) :
    ∃ s rest, c.signs = s :: rest ∧ (s = .bang ∨ ∃ flag path, s = .test flag path) := by
  induction c with
  | test flag path => exact ⟨_, [], rfl, .inr ⟨flag, path, rfl⟩⟩
  | not c _ => exact ⟨.bang, c.signs, rfl, .inl rfl⟩
  | join j left right ih _ =>
    obtain ⟨s, rest, h, hs⟩ := ih
    exact ⟨s, rest ++ .joint j :: right.signs, by simp [signs, h], hs⟩

/-- A condition ends with a test. -/
theorem signs_ends (c : Condition) : ∃ init flag path, c.signs = init ++ [.test flag path] := by
  induction c with
  | test flag path => exact ⟨[], flag, path, rfl⟩
  | not c ih =>
    obtain ⟨init, flag, path, h⟩ := ih
    exact ⟨.bang :: init, flag, path, by simp [signs, h]⟩
  | join j left right _ ih =>
    obtain ⟨init, flag, path, h⟩ := ih
    exact ⟨left.signs ++ .joint j :: init, flag, path, by simp [signs, h]⟩

theorem render_spacedOut (c : Condition) :
    ∃ text, Expr.render true c.expr = .ok text ∧
      text.toList ++ [' '] = spacedOut (c.signs.flatMap Sign.words) := by
  induction c with
  | test flag path =>
    refine ⟨s!"test {flag.text} {path.text}", rfl, ?_⟩
    simp [signs, spacedOut, Sign.words, toString]
  | not c ih =>
    obtain ⟨text, hr, ht⟩ := ih
    refine ⟨s!"! {text}", by simp [expr, Expr.render, hr, bind, Except.bind, pure, Except.pure], ?_⟩
    rw [signs, List.flatMap_cons, spacedOut, List.flatMap_append, ← spacedOut, ← spacedOut, ← ht]
    simp [Sign.words, spacedOut, toString]
  | join j left right ihl ihr =>
    obtain ⟨tl, hl, htl⟩ := ihl
    obtain ⟨tr, hr, htr⟩ := ihr
    refine ⟨s!"{tl} {j.mark} {tr}",
      by simp [expr, Expr.render, hl, hr, bind, Except.bind, pure, Except.pure], ?_⟩
    rw [signs, List.flatMap_append, List.flatMap_cons, spacedOut, List.flatMap_append,
      List.flatMap_append, ← spacedOut, ← spacedOut, ← spacedOut, ← htl, ← htr]
    simp [Sign.words, spacedOut, toString]

/-- The text of a condition is its words with a blank between each two. -/
theorem conditionText_spacedOut (c : Condition) :
    ∃ text, Expr.conditionText (some c.expr) = .ok text ∧
      text.toList ++ [' '] = spacedOut (c.signs.flatMap Sign.words) := by
  obtain ⟨text, hr, ht⟩ := c.render_spacedOut
  refine ⟨text, ?_, ht⟩
  -- the text starts with a bang or the word of a test
  have hhead : text.toList.head? = some '!' ∨ text.toList.head? = some 't' := by
    obtain ⟨s, rest, hsigns, rfl | ⟨flag, path, rfl⟩⟩ := c.signs_starts
    · left
      cases hcs : text.toList with
      | nil => rw [hcs, hsigns] at ht; simp [spacedOut, Sign.words] at ht
      | cons d ds =>
        rw [hcs, hsigns] at ht
        simp only [spacedOut, Sign.words, List.flatMap_cons] at ht
        simp_all
    · right
      cases hcs : text.toList with
      | nil => rw [hcs, hsigns] at ht; simp [spacedOut, Sign.words] at ht
      | cons d ds =>
        rw [hcs, hsigns] at ht
        simp only [spacedOut, Sign.words, List.flatMap_cons] at ht
        simp_all
  -- and ends with the path of one
  have hlast : ∀ d ∈ text.toList.getLast?, Text.isBlank d = false := by
    obtain ⟨init, flag, path, hsigns⟩ := c.signs_ends
    rw [hsigns] at ht
    obtain ⟨before, hbefore⟩ : ∃ before, text.toList = before ++ path.text.toList := by
      refine ⟨spacedOut (init.flatMap Sign.words ++ ["test".toList, flag.text.toList]), ?_⟩
      refine List.append_cancel_right (?_ : _ ++ [' '] = _ ++ [' '])
      rw [ht]
      simp [spacedOut, Sign.words]
    intro d hd
    cases hp : path.text.toList.getLast? with
    | none => exact absurd (List.getLast?_eq_none_iff.1 hp) path.nonempty
    | some e =>
      rw [hbefore, List.getLast?_append, hp, Option.some_or] at hd
      cases hd
      simpa using List.all_eq_true.1 path.plain d (List.mem_of_getLast? hp)
  have hbare : Expr.bare text = text := by
    unfold Expr.bare
    rw [trim_eq_self ?_ hlast, withoutParens_eq_self ?_, String.ofList_toList]
    · rcases hhead with h | h <;> simp [h]
    · intro d hd
      rcases hhead with h | h <;> rw [h] at hd <;> cases hd <;> decide
  simp [Expr.conditionText, Expr.valueText, Expr.renderReceiver, hr, Except.map, hbare]

/-- Two conditions have the same text if and only if they have the same signs in the same
order. -/
theorem conditionText_eq_iff {c d : Condition} :
    Expr.conditionText (some c.expr) = Expr.conditionText (some d.expr) ↔ c.signs = d.signs := by
  obtain ⟨tc, hc, htc⟩ := c.conditionText_spacedOut
  obtain ⟨td, hd, htd⟩ := d.conditionText_spacedOut
  have hplain : ∀ ss : List Sign, ∀ w ∈ ss.flatMap Sign.words, ' ' ∉ w := by
    intro ss w hw hmem
    obtain ⟨s, _, hs⟩ := List.mem_flatMap.1 hw
    exact absurd (s.not_blank w hs ' ' hmem) (by decide)
  rw [hc, hd]
  constructor
  · intro h
    cases h
    exact words_injective (spacedOut_injective (hplain _) (hplain _) (htc.symm.trans htd))
  · intro h
    rw [h, ← htd, List.append_cancel_right_eq, String.toList_inj] at htc
    rw [htc]

end Condition

/-! ## Texts that settle the meaning -/

/-- All joints are `j`, and no test but the last one is negated. -/
inductive OneWay (j : Joint) : List Sign → Prop
  | last (n : Nat) (flag path : Word) : OneWay j (List.replicate n .bang ++ [.test flag path])
  | more {flag path : Word} {rest : List Sign} (h : OneWay j rest) :
      OneWay j (.test flag path :: .joint j :: rest)

/-- What signs say if each applies to all that stands behind it. -/
def reading (present : String → String → Bool) : List Sign → Bool
  | .bang :: rest => !reading present rest
  | .test flag path :: .joint j :: rest =>
    j.apply (present flag.text path.text) (reading present rest)
  | .test flag path :: _ => present flag.text path.text
  | _ => false

namespace OneWay

variable {j : Joint}

theorem of_bang {s : List Sign} (h : OneWay j (.bang :: s)) : OneWay j s := by
  generalize hs : Sign.bang :: s = signs at h
  cases h with
  | last n flag path =>
    cases n with
    | zero => simp at hs
    | succ n =>
      rw [List.replicate_succ, List.cons_append, List.cons.injEq] at hs
      rw [hs.2]
      exact .last n flag path
  | more h => simp at hs

/-- Such signs can be parted at any joint. -/
theorem split {k : Joint} {a b : List Sign} (h : OneWay j (a ++ .joint k :: b)) :
    k = j ∧ OneWay j a ∧ OneWay j b ∧ ∀ present, reading present (a ++ .joint k :: b) =
      k.apply (reading present a) (reading present b) := by
  generalize hs : a ++ Sign.joint k :: b = signs at h
  induction h generalizing a with
  | last n flag path =>
    have : Sign.joint k ∈ List.replicate n Sign.bang ++ [.test flag path] := by
      rw [← hs]
      simp
    simp at this
  | @more flag path rest h ih =>
    cases a with
    | nil => simp at hs
    | cons x a =>
      rw [List.cons_append, List.cons.injEq] at hs
      obtain ⟨rfl, hs⟩ := hs
      cases a with
      | nil =>
        simp only [List.nil_append, List.cons.injEq, Sign.joint.injEq] at hs
        obtain ⟨rfl, rfl⟩ := hs
        exact ⟨rfl, .last 0 flag path, h, fun _ => rfl⟩
      | cons y a =>
        rw [List.cons_append, List.cons.injEq] at hs
        obtain ⟨rfl, hs⟩ := hs
        obtain ⟨rfl, ha, hb, hread⟩ := ih hs
        refine ⟨rfl, .more ha, hb, fun present => ?_⟩
        rw [← hs] at hread ⊢
        simp only [reading, hread, Joint.apply_assoc]

end OneWay

namespace Condition

theorem truth_eq_reading {j : Joint} {c : Condition} (h : OneWay j c.signs)
    (present : String → String → Bool) : c.truth present = reading present c.signs := by
  induction c with
  | test flag path => rfl
  | not c ih => simp only [truth, signs, reading, ih h.of_bang]
  | join k left right ihl ihr =>
    obtain ⟨-, hl, hr, hread⟩ := h.split
    simp only [truth, signs, hread, ihl hl, ihr hr]

/-! ## Texts that do not -/

@[simp]
theorem tests_test (flag path : Word) : (test flag path).tests = [(flag.text, path.text)] := rfl

@[simp]
theorem tests_not (c : Condition) : (not c).tests = c.tests := rfl

@[simp]
theorem tests_join (j : Joint) (left right : Condition) :
    (join j left right).tests = left.tests ++ right.tests := by
  simp only [tests, signs, List.filterMap_append]
  rfl

theorem truth_congr {c : Condition} {p q : String → String → Bool}
    (h : ∀ t ∈ c.tests, p t.1 t.2 = q t.1 t.2) : c.truth p = c.truth q := by
  induction c with
  | test flag path => exact h (flag.text, path.text) (by simp)
  | not c ih => simp only [truth, ih h]
  | join j left right ihl ihr =>
    simp only [tests_join, List.mem_append] at h
    simp only [truth, ihl fun t ht => h t (.inl ht), ihr fun t ht => h t (.inr ht)]

/-- Goes by `p` for the listed files and by `q` for all others. -/
def spliced (listed : List (String × String)) (p q : String → String → Bool) :
    String → String → Bool :=
  fun flag path => if (flag, path) ∈ listed then p flag path else q flag path

theorem truth_spliced_inside {c : Condition} {listed : List (String × String)}
    (p q : String → String → Bool) (h : ∀ t ∈ c.tests, t ∈ listed) :
    c.truth (spliced listed p q) = c.truth p :=
  truth_congr fun t ht => if_pos (h t ht)

theorem truth_spliced_outside {c : Condition} {listed : List (String × String)}
    (p q : String → String → Bool) (h : ∀ t ∈ c.tests, t ∉ listed) :
    c.truth (spliced listed p q) = c.truth q :=
  truth_congr fun t ht => if_neg (h t ht)

/-- A condition that asks for no file twice can hold, and can fail. -/
theorem attains {c : Condition} (h : c.tests.Nodup) (value : Bool) :
    ∃ present, c.truth present = value := by
  induction c generalizing value with
  | test flag path => exact ⟨fun _ _ => value, rfl⟩
  | not c ih =>
    obtain ⟨present, hp⟩ := ih h (!value)
    exact ⟨present, by simp [truth, hp]⟩
  | join j left right ihl ihr =>
    rw [tests_join, List.nodup_append] at h
    obtain ⟨hl, hr, hdisjoint⟩ := h
    obtain ⟨p, hp⟩ := ihl hl value
    obtain ⟨q, hq⟩ := ihr hr value
    refine ⟨spliced left.tests p q, ?_⟩
    rw [truth, truth_spliced_inside p q fun t ht => ht,
      truth_spliced_outside p q fun t ht ht' => hdisjoint t ht' t ht rfl, hp, hq]
    cases j <;> simp [Joint.apply]

/-- Signs that two conditions share which do not mean the same. -/
def Mistaken (s : List Sign) : Prop :=
  ∃ c d : Condition, c.signs = s ∧ d.signs = s ∧ ∃ present, c.truth present ≠ d.truth present

/-- A condition with bangs before it. -/
def negated : Nat → Condition → Condition
  | 0, c => c
  | n + 1, c => not (negated n c)

theorem signs_negated (n : Nat) (c : Condition) :
    (negated n c).signs = List.replicate n .bang ++ c.signs := by
  induction n with
  | zero => rfl
  | succ n ih => simp [negated, signs, ih, List.replicate_succ]

/-- Signs are a test with the bangs before it, alone or joined to a condition. -/
theorem signs_cases (c : Condition) : ∃ n flag path,
    c.signs = List.replicate n .bang ++ [.test flag path] ∨
    ∃ j, ∃ d : Condition,
      c.signs = List.replicate n .bang ++ .test flag path :: .joint j :: d.signs := by
  induction c with
  | test flag path => exact ⟨0, flag, path, .inl rfl⟩
  | not c ih =>
    obtain ⟨n, flag, path, h | ⟨j, d, h⟩⟩ := ih
    · exact ⟨n + 1, flag, path, .inl (by simp [signs, h, List.replicate_succ])⟩
    · exact ⟨n + 1, flag, path, .inr ⟨j, d, by simp [signs, h, List.replicate_succ]⟩⟩
  | join k left right ih _ =>
    obtain ⟨n, flag, path, h | ⟨j, d, h⟩⟩ := ih
    · exact ⟨n, flag, path, .inr ⟨k, right, by simp [signs, h]⟩⟩
    · exact ⟨n, flag, path, .inr ⟨j, join k d right, by simp [signs, h]⟩⟩

/-- A bang before a joined test negates the test or all that follows. -/
theorem mistaken_of_bang (n : Nat) (flag path : Word) (j : Joint) {d : Condition}
    (h : d.tests.Nodup) :
    Mistaken (List.replicate (n + 1) .bang ++ .test flag path :: .joint j :: d.signs) := by
  obtain ⟨present, hd⟩ := attains h j.absorbing
  refine ⟨join j (negated (n + 1) (test flag path)) d,
    not (join j (negated n (test flag path)) d), ?_, ?_, present, ?_⟩
  · simp [signs, signs_negated]
  · simp [signs, signs_negated, List.replicate_succ]
  · simp [truth, hd]

/-- Two different joints in a row can be grouped in two ways. -/
theorem mistaken_of_joints {flag path flag' path' : Word} {j k : Joint} {d : Condition}
    (hjk : j ≠ k) (h : (flag.text, path.text) ∉ d.tests) (hd : d.tests.Nodup) :
    Mistaken (.test flag path :: .joint j :: .test flag' path' :: .joint k :: d.signs) := by
  obtain ⟨present, hp⟩ := attains hd k.absorbing
  refine ⟨join k (join j (test flag path) (test flag' path')) d,
    join j (test flag path) (join k (test flag' path') d), rfl, rfl,
    spliced d.tests present fun _ _ => j.absorbing, ?_⟩
  have hfirst : (test flag path).truth (spliced d.tests present fun _ _ => j.absorbing) =
      j.absorbing :=
    truth_spliced_outside _ _ (by simpa using h)
  have hrest : d.truth (spliced d.tests present fun _ _ => j.absorbing) = k.absorbing := by
    rw [truth_spliced_inside _ _ fun t ht => ht, hp]
  simp only [truth] at hfirst
  simp only [truth, hfirst, hrest, Joint.apply_absorbing_left, Joint.apply_absorbing_right]
  exact (Joint.absorbing_ne hjk).symm

/-- A test joined to mistaken signs can be made not to matter. -/
theorem Mistaken.cons {flag path : Word} {j : Joint} {d : Condition} (hm : Mistaken d.signs)
    (h : (flag.text, path.text) ∉ d.tests) :
    Mistaken (.test flag path :: .joint j :: d.signs) := by
  obtain ⟨c, e, hc, he, present, hne⟩ := hm
  refine ⟨join j (test flag path) c, join j (test flag path) e, by simp [signs, hc],
    by simp [signs, he], spliced d.tests present fun _ _ => !j.absorbing, ?_⟩
  have hfirst : (test flag path).truth (spliced d.tests present fun _ _ => !j.absorbing) =
      !j.absorbing :=
    truth_spliced_outside _ _ (by simpa using h)
  have hsame : ∀ b : Condition, b.signs = d.signs →
      b.truth (spliced d.tests present fun _ _ => !j.absorbing) = b.truth present := by
    intro b hb
    refine truth_spliced_inside _ _ fun t ht => ?_
    rwa [tests, hb] at ht
  simp only [truth] at hfirst
  simp only [truth, hfirst, Joint.apply_not_absorbing, hsame c hc, hsame e he]
  exact hne

theorem tests_eq_cons {c d : Condition} {n : Nat} {flag path : Word} {j : Joint}
    (h : c.signs = List.replicate n .bang ++ .test flag path :: .joint j :: d.signs) :
    c.tests = (flag.text, path.text) :: d.tests := by
  have hbangs : (List.replicate n Sign.bang).filterMap Sign.asked? = [] := by simp [Sign.asked?]
  rw [tests, h, List.filterMap_append, hbangs]
  rfl

/-- Signs that ask for no file twice settle a meaning only if they go one way. -/
theorem oneWay_or_mistaken (c : Condition) (h : c.tests.Nodup) :
    (∃ j, OneWay j c.signs) ∨ Mistaken c.signs := by
  obtain ⟨n, flag, path, hs | ⟨j, d, hs⟩⟩ := c.signs_cases
  · exact .inl ⟨.both, hs ▸ .last n flag path⟩
  rw [tests_eq_cons hs, List.nodup_cons] at h
  obtain ⟨hnew, hd⟩ := h
  cases n with
  | succ n => exact .inr (hs ▸ mistaken_of_bang n flag path j hd)
  | zero =>
    rw [List.replicate_zero, List.nil_append] at hs
    -- the signs behind the first joint are fewer
    have : d.signs.length < c.signs.length := by simp only [hs, List.length_cons]; omega
    rcases oneWay_or_mistaken d hd with ⟨k, hk⟩ | hm
    · by_cases hjk : k = j
      · exact .inl ⟨j, hs ▸ .more (hjk ▸ hk)⟩
      obtain ⟨m, flag', path', hsd | ⟨l, e, hsd⟩⟩ := d.signs_cases
      · exact .inl ⟨j, hs ▸ .more (hsd ▸ .last m flag' path')⟩
      right
      have hkl : l = k := by
        have : d.signs =
            (List.replicate m .bang ++ [.test flag' path']) ++ .joint l :: e.signs := by
          simp [hsd]
        exact (this ▸ hk).split.1
      rw [tests_eq_cons hsd] at hd
      cases m with
      | succ m =>
        have hm : Mistaken d.signs := hsd ▸ mistaken_of_bang m flag' path' l hd.of_cons
        exact hs ▸ hm.cons hnew
      | zero =>
        rw [tests_eq_cons hsd, List.mem_cons, not_or] at hnew
        rw [hs, hsd]
        exact mistaken_of_joints (fun h => hjk (hkl ▸ h.symm)) hnew.2 hd.of_cons
    · exact .inr (hs ▸ hm.cons hnew)
termination_by c.signs.length

/-- No condition with the same text means anything else. -/
def Unmistakable (c : Condition) : Prop :=
  ∀ d : Condition, Expr.conditionText (some d.expr) = Expr.conditionText (some c.expr) →
    ∀ present, d.truth present = c.truth present

/-- The text of a condition keeps its signs and not their grouping. It settles the meaning if the
signs go one way, and over different tests only then. -/
theorem conditionText_settles (c : Condition) :
    (∀ d : Condition, Expr.conditionText (some d.expr) = Expr.conditionText (some c.expr) ↔
      d.signs = c.signs) ∧
    ((∃ j, OneWay j c.signs) → c.Unmistakable) ∧
    (c.tests.Nodup → c.Unmistakable → ∃ j, OneWay j c.signs) := by
  refine ⟨fun d => conditionText_eq_iff, ?_, ?_⟩
  · rintro ⟨j, hj⟩ d hd present
    have hsigns := conditionText_eq_iff.1 hd
    rw [truth_eq_reading (hsigns ▸ hj) present, truth_eq_reading hj present, hsigns]
  · intro hn hu
    rcases c.oneWay_or_mistaken hn with h | ⟨d, e, hd, he, present, hne⟩
    · exact h
    · have hd' := hu d (conditionText_eq_iff.2 hd) present
      have he' := hu e (conditionText_eq_iff.2 he) present
      exact absurd (hd'.trans he'.symm) hne

/-- One file is there and another is not. -/
theorem conditionText_settles_there_and_not :
    let c : Condition := join .both
      (test ⟨"-f", by decide, by decide⟩ ⟨"/a", by decide, by decide⟩)
      (not (test ⟨"-d", by decide, by decide⟩ ⟨"/b", by decide, by decide⟩))
    ((∃ j, OneWay j c.signs) ∧ c.tests.Nodup) ∧ c.Unmistakable ∧ ∃ j, OneWay j c.signs := by
  intro c
  have hone : ∃ j, OneWay j c.signs := ⟨.both, .more (.last 1 _ _)⟩
  have hn : c.tests.Nodup := by decide
  have hu := c.conditionText_settles.2.1 hone
  exact ⟨⟨hone, hn⟩, hu, c.conditionText_settles.2.2 hn hu⟩

/-- The denial of a conjunction reads like the conjunction with its first part denied. -/
theorem conditionText_mistakes_grouping :
    let a : Condition := test ⟨"-f", by decide, by decide⟩ ⟨"/a", by decide, by decide⟩
    let b : Condition := test ⟨"-f", by decide, by decide⟩ ⟨"/b", by decide, by decide⟩
    Expr.conditionText (some (not (join .both a b)).expr) = .ok "! test -f /a && test -f /b" ∧
    Expr.conditionText (some (join .both (not a) b).expr) = .ok "! test -f /a && test -f /b" ∧
    (not (join .both a b)).truth (fun _ path => path == "/a") = true ∧
    (join .both (not a) b).truth (fun _ path => path == "/a") = false := by
  intro a b
  refine ⟨?_, ?_, ?_, ?_⟩ <;> with_unfolding_all rfl

end Condition

end RecipeManifest

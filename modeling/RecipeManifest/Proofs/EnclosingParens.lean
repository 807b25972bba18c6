import RecipeManifest.Proofs.Condition
import RecipeManifest.Proofs.ControlStructures
import RecipeManifest.Proofs.WrittenLiterals

/-!
Parentheses that enclose a whole text.

The scan for the parenthesis that closes the first one comes to the last character of a text just if
all between the two is balanced (`isWrapped_iff`). So `withoutParens` takes off the pairs that
enclose the text, with the white space inside them, and no other character:

    withoutParens t is not enclosed, and t is withoutParens t with pairs put around it
    withoutParens (wrap (… (wrap x))) = x    for balanced x that is not enclosed or padded itself
                                                                          (withoutParens_unwraps)
-/

namespace RecipeManifest

/-! ## The closing parenthesis -/

/-- From inside one more pair the scan stops at the first parenthesis behind a text that nests. -/
theorem closingParen?_nests {depth : Nat} {cs : List Char} (h : Nests '(' ')' depth cs 0)
    (index : Nat) (rest : List Char) :
    closingParen? (depth + 1) index (cs ++ ')' :: rest) = some (index + cs.length) := by
  induction cs generalizing depth index with
  | nil =>
    obtain rfl : 0 = depth := h.depth_eq
    simp [closingParen?]
  | cons c cs ih =>
    have hlength : index + 1 + cs.length = index + (c :: cs).length := by
      rw [List.length_cons]
      omega
    rw [← hlength]
    by_cases hopen : c = '('
    · subst hopen
      exact ih (h.opened (by decide)) (index + 1)
    by_cases hclose : c = ')'
    · subst hclose
      obtain ⟨outer, rfl, houter⟩ := h.closed (by decide)
      rw [← ih houter (index + 1)]
      simp [closingParen?]
    · rw [← ih (h.other hopen hclose) (index + 1), List.cons_append, closingParen?]
      · exact fun h => hopen h
      · exact fun h => hclose h

/-- What the scan stops at is a parenthesis, and the text before it nests. -/
theorem nests_of_closingParen? {depth index place : Nat} {cs : List Char}
    (h : closingParen? (depth + 1) index cs = some place) :
    ∃ inside rest, cs = inside ++ ')' :: rest ∧ place = index + inside.length ∧
      Nests '(' ')' depth inside 0 := by
  induction cs generalizing depth index with
  | nil => simp [closingParen?] at h
  | cons c cs ih =>
    -- the first character goes before what was found from the depth behind it
    have hcons (inner : Nat) (hdepth : depth + [c].count '(' = inner + [c].count ')')
        (hscan : closingParen? (inner + 1) (index + 1) cs = some place) :
        ∃ inside rest, c :: cs = inside ++ ')' :: rest ∧ place = index + inside.length ∧
          Nests '(' ')' depth inside 0 := by
      obtain ⟨inside, rest, rfl, rfl, hnests⟩ := ih hscan
      refine ⟨c :: inside, rest, rfl, ?_, hnests.cons hdepth⟩
      rw [List.length_cons]
      omega
    by_cases hopen : c = '('
    · subst hopen
      exact hcons (depth + 1) (by simp) h
    by_cases hclose : c = ')'
    · subst hclose
      cases depth with
      | zero =>
        simp only [closingParen?, if_true, Option.some.injEq] at h
        exact ⟨[], cs, rfl, by simp [h], .of_notMem (by simp) (by simp)⟩
      | succ outer =>
        refine hcons outer (by simp) ?_
        simpa [closingParen?] using h
    · refine hcons depth (by simp [hopen, hclose]) ?_
      rw [closingParen?] at h
      · exact h
      · exact fun h => hopen h
      · exact fun h => hclose h

/-! ## Enclosed texts -/

/-- A pair of parentheses stands around a balanced text. -/
def Enclosed (t : List Char) : Prop :=
  ∃ inside, t = '(' :: (inside ++ [')']) ∧ Balanced '(' ')' inside

theorem isWrapped_iff {t : List Char} : isWrapped t = true ↔ Enclosed t := by
  constructor
  · intro h
    simp only [isWrapped, Bool.and_eq_true, beq_iff_eq] at h
    obtain ⟨hhead, hclosing⟩ := h
    obtain ⟨cs, rfl⟩ : ∃ cs, t = '(' :: cs := by
      cases t with
      | nil => simp at hhead
      | cons c cs => exact ⟨cs, by simpa using hhead⟩
    have hscan : closingParen? (0 + 1) 1 cs = some (('(' :: cs).length - 1) := hclosing
    obtain ⟨inside, rest, rfl, hplace, hnests⟩ := nests_of_closingParen? hscan
    have hrest : rest = [] := by
      simp only [List.length_cons, List.length_append] at hplace
      exact List.length_eq_zero_iff.1 (by omega)
    exact ⟨inside, by rw [hrest], hnests⟩
  · rintro ⟨inside, rfl, hbalanced⟩
    have hclosing := closingParen?_nests hbalanced 1 []
    have hlast : ('(' :: (inside ++ [')'])).length - 1 = 1 + inside.length := by
      simp only [List.length_cons, List.length_append, List.length_nil]
      omega
    simp only [isWrapped, closingParen?, hlast, hclosing, List.head?_cons, beq_self_eq_true,
      Bool.and_self]

theorem withoutParens_of_not_enclosed {t : List Char} (h : ¬ Enclosed t) :
    withoutParens t = t := by
  rw [withoutParens, if_neg (mt isWrapped_iff.1 h)]

theorem withoutParens_of_balanced {inside : List Char} (h : Balanced '(' ')' inside) :
    withoutParens ('(' :: (inside ++ [')'])) = withoutParens (Text.trim inside) := by
  rw [withoutParens, if_pos (isWrapped_iff.2 ⟨inside, rfl, h⟩), List.drop_one, List.tail_cons,
    List.dropLast_concat]

/-! ## Putting parentheses around a text -/

/-- A pair of parentheses with white space inside, to stand around a text. -/
structure Enclosure where
  before : List Char
  after : List Char
  before_blank : before.all Text.isBlank = true
  after_blank : after.all Text.isBlank = true

namespace Enclosure

def pad (p : Enclosure) (x : List Char) : List Char :=
  p.before ++ x ++ p.after

/-- The padded text in parentheses. -/
def wrap (p : Enclosure) (x : List Char) : List Char :=
  '(' :: (p.pad x ++ [')'])

/-- White space has no parentheses in it. -/
theorem balanced_of_blank {cs : List Char} (h : cs.all Text.isBlank = true) :
    Balanced '(' ')' cs := by
  refine .of_notMem (fun hopen => ?_) (fun hclose => ?_)
  · exact absurd (List.all_eq_true.1 h _ hopen) (by decide)
  · exact absurd (List.all_eq_true.1 h _ hclose) (by decide)

theorem balanced_pad (p : Enclosure) {x : List Char} (h : Balanced '(' ')' x) :
    Balanced '(' ')' (p.pad x) :=
  ((balanced_of_blank p.before_blank).append h).append (balanced_of_blank p.after_blank)

theorem balanced_wrap (p : Enclosure) {x : List Char} (h : Balanced '(' ')' x) :
    Balanced '(' ')' (p.wrap x) := by
  have hclose : Nests '(' ')' 1 [')'] 0 := by decide
  have hinside : Nests '(' ')' 1 (p.pad x) 1 := by
    have hpad := p.balanced_pad h
    refine ⟨fun n hn => ?_, ?_⟩
    · have := hpad.inside n hn
      omega
    · have := hpad.ends
      omega
  exact (hinside.append hclose).cons (by decide)

end Enclosure

/-- The text `y` is `x` with one more pair of parentheses around it, and what is inside of them is
balanced. -/
def WrapsOnce (x y : List Char) : Prop :=
  ∃ p : Enclosure, Balanced '(' ')' (p.pad x) ∧ y = p.wrap x

/-- Neither end of the text is white space. -/
def Unpadded (x : List Char) : Prop :=
  (∀ c ∈ x.head?, Text.isBlank c = false) ∧ ∀ c ∈ x.getLast?, Text.isBlank c = false

theorem Enclosure.unpadded_wrap (p : Enclosure) (x : List Char) : Unpadded (p.wrap x) := by
  constructor
  · intro c hc
    obtain rfl : '(' = c := by simpa [wrap] using hc
    decide
  · intro c hc
    obtain rfl : ')' = c := by simpa [wrap, List.getLast?_cons] using hc
    decide

theorem Enclosure.trim_pad (p : Enclosure) {x : List Char} (h : Unpadded x) :
    Text.trim (p.pad x) = x := by
  rw [pad, Text.trim_append (List.all_eq_true.1 p.before_blank) (List.all_eq_true.1 p.after_blank),
    trim_eq_self h.1 h.2]

/-! ## Taking them off -/

/-- A text that is enclosed is what is left of it with one more pair around. -/
theorem wrapsOnce_trim {inside : List Char} (h : Balanced '(' ')' inside) :
    WrapsOnce (Text.trim inside) ('(' :: (inside ++ [')'])) := by
  obtain ⟨front, back, hblank, hinside⟩ := Text.exists_of_trim inside
  have hfront : front.all Text.isBlank = true :=
    List.all_eq_true.2 fun c hc => hblank c (List.mem_append_left _ hc)
  have hback : back.all Text.isBlank = true :=
    List.all_eq_true.2 fun c hc => hblank c (List.mem_append_right _ hc)
  refine ⟨⟨front, back, hfront, hback⟩, ?_, ?_⟩
  · rwa [Enclosure.pad, ← hinside]
  · rw [Enclosure.wrap, Enclosure.pad, ← hinside]

/-- Whatever is taken off is put back by wrapping. -/
theorem not_enclosed_withoutParens (t : List Char) :
    ¬ Enclosed (withoutParens t) ∧ Relation.ReflTransGen WrapsOnce (withoutParens t) t := by
  induction t using withoutParens.induct with
  | case1 t hwrapped ih =>
    obtain ⟨inside, rfl, hbalanced⟩ := isWrapped_iff.1 hwrapped
    rw [List.drop_one, List.tail_cons, List.dropLast_concat] at ih
    rw [withoutParens_of_balanced hbalanced]
    exact ⟨ih.1, ih.2.tail (wrapsOnce_trim hbalanced)⟩
  | case2 t hwrapped =>
    have henclosed : ¬ Enclosed t := mt isWrapped_iff.2 hwrapped
    rw [withoutParens_of_not_enclosed henclosed]
    exact ⟨henclosed, .refl⟩

/-- Pairs around a balanced text leave it balanced, and each of them is taken off again. -/
theorem withoutParens_foldr_wrap {x : List Char} (hx : Balanced '(' ')' x) (hpadded : Unpadded x)
    (ps : List Enclosure) :
    Balanced '(' ')' (ps.foldr Enclosure.wrap x) ∧ Unpadded (ps.foldr Enclosure.wrap x) ∧
      withoutParens (ps.foldr Enclosure.wrap x) = withoutParens x := by
  induction ps with
  | nil => exact ⟨hx, hpadded, rfl⟩
  | cons p ps ih =>
    obtain ⟨hbalanced, hends, heq⟩ := ih
    refine ⟨p.balanced_wrap hbalanced, p.unpadded_wrap _, ?_⟩
    rw [List.foldr_cons, Enclosure.wrap, withoutParens_of_balanced (p.balanced_pad hbalanced),
      p.trim_pad hends, heq]

/-- What is left of a text is not enclosed, and the text is made from it by putting balanced pairs
around. A text is left alone just if it is not enclosed. A balanced text that is neither enclosed
nor padded comes back from any number of pairs with any white space in them. -/
theorem withoutParens_unwraps :
    (∀ t : List Char, ¬ Enclosed (withoutParens t) ∧
      Relation.ReflTransGen WrapsOnce (withoutParens t) t ∧
      (withoutParens t = t ↔ ¬ Enclosed t)) ∧
    ∀ (x : List Char) (ps : List Enclosure), Balanced '(' ')' x → ¬ Enclosed x → Unpadded x →
      withoutParens (ps.foldr Enclosure.wrap x) = x := by
  constructor
  · intro t
    obtain ⟨henclosed, hwraps⟩ := not_enclosed_withoutParens t
    refine ⟨henclosed, hwraps, fun heq => ?_, withoutParens_of_not_enclosed⟩
    rwa [heq] at henclosed
  · intro x ps hx henclosed hpadded
    rw [(withoutParens_foldr_wrap hx hpadded ps).2.2, withoutParens_of_not_enclosed henclosed]

/-- Two pairs, one of them padded, around a text that starts and ends with pairs of its own. -/
theorem withoutParens_unwraps_two_groups :
    let p : Enclosure := ⟨[' ', '\t'], [' '], by decide, by decide⟩
    let q : Enclosure := ⟨[], [], rfl, rfl⟩
    let x := "(a) && (b)".toList
    Balanced '(' ')' x ∧ ¬ Enclosed x ∧ Unpadded x ∧
      [q, p].foldr Enclosure.wrap x = "(( \t(a) && (b) ))".toList ∧
      withoutParens "(( \t(a) && (b) ))".toList = x := by
  intro p q x
  have hbalanced : Balanced '(' ')' x := by decide
  have henclosed : ¬ Enclosed x := by
    rw [← isWrapped_iff]
    decide
  have hpadded : Unpadded x := by
    constructor
    · rintro c ⟨⟩
      decide
    · rintro c ⟨⟩
      decide
  exact ⟨hbalanced, henclosed, hpadded, by decide,
    withoutParens_unwraps.2 x [q, p] hbalanced henclosed hpadded⟩

end RecipeManifest

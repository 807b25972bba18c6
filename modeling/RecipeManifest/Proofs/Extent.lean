import Mathlib.Data.List.TakeWhile
import RecipeManifest.Proofs.Results
import RecipeManifest.Token.Lexer

/-!
How far the readers of literals, names and numbers reach.

A reader of literals that succeeds uses at least one character and stays inside the text it was
given (`Reading.Within`). What the readers of names, numbers and marks give back is a beginning of
their text.
-/

namespace RecipeManifest

/-! ## Literals -/

namespace Reading

/-- Something was used, and nothing beyond the end of the text. -/
def Within {α : Type} (r : Reading α) (cs : List Char) : Prop :=
  0 < r.used ∧ r.used ≤ cs.length

variable {α β : Type} {r : Reading α} {rest : List Char}

theorem Within.after_one (h : r.Within rest) (f : α → β) (lines : Nat) (c : Char) :
    (r.after f 1 lines).Within (c :: rest) := by
  obtain ⟨h0, h1⟩ := h
  simp only [Within, after, List.length_cons]
  omega

theorem Within.after_two (h : r.Within rest) (f : α → β) (lines : Nat) (c d : Char) :
    (r.after f 2 lines).Within (c :: d :: rest) := by
  obtain ⟨h0, h1⟩ := h
  simp only [Within, after, List.length_cons]
  omega

end Reading

theorem readSingleQuoted_within {cs : List Char} {r : Reading (List Char)}
    (h : readSingleQuoted cs = some r) : r.Within cs := by
  fun_induction readSingleQuoted cs generalizing r with
  | case1 => cases h
  | case2 rest ih | case3 rest ih =>
    obtain ⟨s, hs, rfl⟩ := Option.map_eq_some_iff.1 h
    exact (ih hs).after_two ..
  | case4 rest =>
    cases h
    simp [Reading.Within]
  | case5 c rest _ _ _ ih =>
    obtain ⟨s, hs, rfl⟩ := Option.map_eq_some_iff.1 h
    exact (ih hs).after_one ..

theorem readRaw_within {marks : Delimiters} {depth : Nat} {cs : List Char}
    {r : Reading (List Char)} (h : readRaw marks depth cs = some r) : r.Within cs := by
  fun_induction readRaw marks depth cs generalizing r with
  | case1 | case2 => cases h
  | case3 depth c rest ih =>
    obtain ⟨s, hs, rfl⟩ := Option.map_eq_some_iff.1 h
    exact (ih hs).after_two ..
  | case5 =>
    cases h
    simp [Reading.Within]
  | case4 _ _ _ _ _ _ ih | case6 _ _ _ _ _ ih | case7 _ _ _ _ _ _ _ ih =>
    obtain ⟨s, hs, rfl⟩ := Option.map_eq_some_iff.1 h
    exact (ih hs).after_one ..

theorem readParts_within {marks : Delimiters} {place : Inside} {cs : List Char}
    {r : Reading (List Part)} (h : readParts marks place cs = .ok r) : r.Within cs := by
  fun_induction readParts marks place cs generalizing r with
  | case1 | case8 | case9 => cases h
  | case5 =>
    cases h
    simp [Reading.Within]
  | case2 _ _ _ ih | case3 _ _ ih | case10 _ _ _ _ _ ih =>
    obtain ⟨s, hs, rfl⟩ := map_eq_ok_iff.1 h
    exact (ih hs).after_two ..
  | case4 _ _ _ _ _ _ ih | case6 _ _ _ _ _ ih | case7 _ _ _ _ _ _ _ ih | case11 _ _ _ _ _ _ _ ih
  | case12 _ _ ih | case13 _ _ _ ih | case14 _ _ _ ih =>
    obtain ⟨s, hs, rfl⟩ := map_eq_ok_iff.1 h
    exact (ih hs).after_one ..
  | case15 =>
    rename_i ih
    obtain ⟨s, hs, rfl⟩ := map_eq_ok_iff.1 h
    exact (ih hs).after_one ..

theorem readDelimited_within {marks : Delimiters} {cs : List Char} {r : Reading (List Part)}
    (h : readDelimited marks cs = .ok r) : r.Within cs := by
  obtain ⟨s, hs, rfl⟩ := map_eq_ok_iff.1 h
  exact readParts_within (r := s) hs

/-! ## Names, numbers and marks -/

theorem frontName_isPrefix (cs : List Char) : frontName cs <+: cs := by
  unfold frontName
  split
  · exact List.nil_prefix
  · split
    · exact List.takeWhile_prefix _
    · exact List.nil_prefix

theorem frontName_ne_nil {c : Char} {more : List Char} (h : isNameStart c = true) :
    frontName (c :: more) ≠ [] := by
  have hc : isNameChar c = true := by
    simp only [isNameStart, isNameChar, Char.isAlphanum, Bool.or_eq_true] at h ⊢
    grind
  simp [frontName, h, hc]

/-- Two beginnings, the second one of what the first one leaves, make one. -/
theorem append_isPrefix_of_drop {xs ys cs : List Char} (hx : xs <+: cs)
    (hy : ys <+: cs.drop xs.length) : xs ++ ys <+: cs := by
  obtain ⟨rest, rfl⟩ := hx
  rw [List.drop_left] at hy
  exact (List.prefix_append_right_inj xs).2 hy

theorem symbolSuffix_isPrefix (cs : List Char) : Lexer.symbolSuffix cs <+: cs := by
  unfold Lexer.symbolSuffix
  split
  · split
    · exact List.prefix_append [_] _
    · exact List.nil_prefix
  · exact List.nil_prefix

theorem nameSuffix_isPrefix (cs : List Char) : Lexer.nameSuffix cs <+: cs := by
  unfold Lexer.nameSuffix
  split
  · split
    · exact List.prefix_append [_] _
    · exact List.nil_prefix
  · exact List.nil_prefix

theorem frontFraction_isPrefix (cs : List Char) : frontFraction cs <+: cs := by
  unfold frontFraction
  split
  · split
    · exact (List.prefix_append_right_inj ['.', _]).2 (List.takeWhile_prefix _)
    · exact List.nil_prefix
  · exact List.nil_prefix

/-- The sign of an exponent is the first character or missing. -/
theorem sign_isPrefix (rest : List Char) :
    (rest.take 1).filter (fun c => c == '+' || c == '-') <+: rest := by
  cases rest with
  | nil => exact List.nil_prefix
  | cons s more =>
    simp only [List.take_succ_cons, List.take_zero, List.filter_cons, List.filter_nil]
    split
    · exact List.prefix_append [s] more
    · exact List.nil_prefix

theorem frontExponent_isPrefix (cs : List Char) : frontExponent cs <+: cs := by
  unfold frontExponent
  split
  · exact List.nil_prefix
  · next e rest =>
    dsimp only
    split
    · exact (List.prefix_append_right_inj [e]).2
        (append_isPrefix_of_drop (sign_isPrefix rest) (List.takeWhile_prefix _))
    · exact List.nil_prefix

theorem frontDecimal_isPrefix (cs : List Char) : frontDecimal cs <+: cs := by
  unfold frontDecimal
  dsimp only
  refine append_isPrefix_of_drop
    (append_isPrefix_of_drop (List.takeWhile_prefix _) (frontFraction_isPrefix _)) ?_
  rw [List.length_append]
  exact frontExponent_isPrefix _

theorem frontHex_isPrefix (cs : List Char) : frontHex cs <+: cs := by
  unfold frontHex
  split
  · dsimp only
    split
    · exact (List.prefix_append_right_inj ['0', _]).2 (List.takeWhile_prefix _)
    · exact List.nil_prefix
  · exact List.nil_prefix

theorem frontNumber_isPrefix (cs : List Char) : frontNumber cs <+: cs := by
  unfold frontNumber
  split
  · split
    · exact frontDecimal_isPrefix cs
    · exact List.nil_prefix
  · exact frontHex_isPrefix cs

namespace Keyword

theorem spelling_of_ofSpelling? {name : String} {k : Keyword}
    (h : ofSpelling? name = some k) : k.spelling = name := by
  have := List.find?_some h
  simpa using this

end Keyword

namespace Operator

theorem spelling_ne_nil (o : Operator) : o.spelling.toList ≠ [] := by
  cases o <;> decide

theorem ofFront?_isPrefix {cs : List Char} {o : Operator} (h : ofFront? cs = some o) :
    o.spelling.toList <+: cs := by
  have := List.find?_some h
  simpa using this

end Operator

end RecipeManifest

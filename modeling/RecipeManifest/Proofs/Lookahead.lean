import RecipeManifest.Proofs.ScannedHeredoc
import RecipeManifest.Proofs.TokenSpan

/-!
How far the readers of names, numbers, marks and literals look ahead.

No name, number or mark goes on past a newline, and a literal that is closed is closed whatever
follows it. So a reader finds the same at the front of a text that ends with a newline (`EndsLine`)
when there is more behind the text.
-/

namespace RecipeManifest

/-! ## Texts that end with a newline -/

/-- The last character is a newline. -/
def EndsLine (cs : List Char) : Prop :=
  cs.getLast? = some '\n'

/-- Nothing, or a text that ends with a newline. -/
def Whole (cs : List Char) : Prop :=
  cs = [] ∨ EndsLine cs

theorem newline_notMem_takeWhile {p : Char → Bool} (hp : p '\n' = false) (cs : List Char) :
    '\n' ∉ cs.takeWhile p := fun hmem => by
  have := List.mem_takeWhile_imp hmem
  rw [hp] at this
  cases this

namespace EndsLine

variable {c : Char} {cs w more : List Char} {p : Char → Bool} (b : List Char)

theorem ne_nil (h : EndsLine cs) : cs ≠ [] := by
  rintro rfl
  cases h

/-- There is more behind a character that is no newline. -/
theorem tail (h : EndsLine (c :: more)) (hc : c ≠ '\n') : EndsLine more := by
  unfold EndsLine at h ⊢
  cases more with
  | nil => exact absurd (Option.some.inj h) hc
  | cons d rest => rwa [List.getLast?_cons_cons] at h

theorem drop (h : EndsLine cs) {k : Nat} (hk : k < cs.length) : EndsLine (cs.drop k) := by
  unfold EndsLine at h ⊢
  rw [List.getLast?_drop, if_neg (by omega), h]

theorem head?_append (h : EndsLine cs) : (cs ++ b).head? = cs.head? := by
  rw [List.head?_append_of_ne_nil _ h.ne_nil]

/-- A beginning without newlines is not all of the text. -/
theorem length_lt (h : EndsLine cs) (hw : w <+: cs) (hn : '\n' ∉ w) : w.length < cs.length := by
  have hle := hw.length_le
  have hne : w.length ≠ cs.length := by
    intro hlen
    rw [hw.eq_of_length hlen] at hn
    exact hn (List.mem_of_getLast? h)
  omega

theorem after (h : EndsLine cs) (hw : w <+: cs) (hn : '\n' ∉ w) : EndsLine (cs.drop w.length) :=
  h.drop (h.length_lt hw hn)

theorem drop_append (h : EndsLine cs) (hw : w <+: cs) (hn : '\n' ∉ w) :
    (cs ++ b).drop w.length = cs.drop w.length ++ b :=
  List.drop_append_of_le_length (Nat.le_of_lt (h.length_lt hw hn))

theorem takeWhile_append (h : EndsLine cs) (hp : p '\n' = false) :
    (cs ++ b).takeWhile p = cs.takeWhile p := by
  have hlt := h.length_lt (List.takeWhile_prefix p) (newline_notMem_takeWhile hp cs)
  rw [List.takeWhile_append, if_neg (by omega)]

end EndsLine

theorem Whole.drop {cs : List Char} (h : Whole cs) (k : Nat) : Whole (cs.drop k) := by
  rcases h with rfl | h
  · exact .inl List.drop_nil
  · by_cases hk : k < cs.length
    · exact .inr (h.drop hk)
    · exact .inl (List.drop_eq_nil_of_le (by omega))

/-- Such a text is made of lines. -/
theorem Whole.exists_lines {cs : List Char} (h : Whole cs) :
    ∃ lines, (∀ line ∈ lines, '\n' ∉ line) ∧ cs = Text.unlines lines := by
  induction cs with
  | nil => exact ⟨[], by simp, rfl⟩
  | cons c more ih =>
    obtain ⟨lines, hlines, rfl⟩ := ih (by simpa using h.drop 1)
    by_cases hc : c = '\n'
    · refine ⟨[] :: lines, by simpa using hlines, ?_⟩
      simp [Text.unlines, hc]
    · cases lines with
      | nil =>
        rcases h with h | h
        · cases h
        · exact absurd (h.tail hc).ne_nil (by simp [Text.unlines])
      | cons line rest =>
        refine ⟨(c :: line) :: rest, ?_, by simp [Text.unlines]⟩
        simpa [Ne.symm hc] using hlines

/-! ## Names, numbers and marks -/

section Fronts

variable {c : Char} {cs more : List Char} (b : List Char)

theorem newline_notMem_frontName (cs : List Char) : '\n' ∉ frontName cs := by
  unfold frontName
  split
  · exact List.not_mem_nil
  · split
    · exact newline_notMem_takeWhile (by decide) _
    · exact List.not_mem_nil

theorem frontName_append (h : EndsLine cs) : frontName (cs ++ b) = frontName cs := by
  have htake := h.takeWhile_append b (p := isNameChar) (by decide)
  cases cs with
  | nil => exact absurd rfl h.ne_nil
  | cons c more =>
    rw [List.cons_append] at htake ⊢
    unfold frontName
    dsimp only
    rw [htake]

/-- What follows the name at the front. -/
theorem drop_frontName_append (h : EndsLine cs) :
    (cs ++ b).drop (frontName cs).length = cs.drop (frontName cs).length ++ b :=
  h.drop_append b (frontName_isPrefix cs) (newline_notMem_frontName cs)

theorem endsLine_drop_frontName (h : EndsLine cs) : EndsLine (cs.drop (frontName cs).length) :=
  h.after (frontName_isPrefix cs) (newline_notMem_frontName cs)

theorem symbolSuffix_append (h : EndsLine cs) :
    Lexer.symbolSuffix (cs ++ b) = Lexer.symbolSuffix cs := by
  cases cs with
  | nil => exact absurd rfl h.ne_nil
  | cons s rest =>
    rw [List.cons_append]
    unfold Lexer.symbolSuffix
    by_cases hs : s = '\n'
    · subst hs
      rfl
    · dsimp only
      rw [(h.tail hs).head?_append]

theorem nameSuffix_append (h : EndsLine cs) :
    Lexer.nameSuffix (cs ++ b) = Lexer.nameSuffix cs := by
  cases cs with
  | nil => exact absurd rfl h.ne_nil
  | cons s rest =>
    rw [List.cons_append]
    unfold Lexer.nameSuffix
    by_cases hs : s = '\n'
    · subst hs
      rfl
    · dsimp only
      rw [(h.tail hs).head?_append]

theorem newline_notMem_nameSuffix (cs : List Char) : '\n' ∉ Lexer.nameSuffix cs := by
  unfold Lexer.nameSuffix
  split
  · split
    · next hs =>
      intro hmem
      rw [List.mem_singleton] at hmem
      rw [← hmem] at hs
      exact absurd hs.1 (by decide)
    · exact List.not_mem_nil
  · exact List.not_mem_nil

theorem endsLabel_append (h : EndsLine cs) : Lexer.endsLabel (cs ++ b) = Lexer.endsLabel cs := by
  cases cs with
  | nil => exact absurd rfl h.ne_nil
  | cons s rest =>
    by_cases hs : s = ':'
    · subst hs
      obtain ⟨d, more, rfl⟩ := List.exists_cons_of_ne_nil (h.tail (by decide)).ne_nil
      by_cases hd : d = ':'
      · subst hd
        rfl
      · simp [Lexer.endsLabel, hd]
    · simp [Lexer.endsLabel, hs]

theorem frontFraction_append (h : EndsLine cs) : frontFraction (cs ++ b) = frontFraction cs := by
  cases cs with
  | nil => exact absurd rfl h.ne_nil
  | cons s rest =>
    by_cases hs : s = '.'
    · subst hs
      obtain ⟨d, more, rfl⟩ := List.exists_cons_of_ne_nil (h.tail (by decide)).ne_nil
      by_cases hd : Text.isDecimalDigit d = true
      · have hmore : EndsLine more := by
          refine (h.tail (by decide)).tail ?_
          rintro rfl
          exact absurd hd (by decide)
        simp [frontFraction, hd, hmore.takeWhile_append b (p := isDigitChar) (by decide)]
      · simp [frontFraction, hd]
    · simp [frontFraction, hs]

theorem newline_notMem_frontFraction (cs : List Char) : '\n' ∉ frontFraction cs := by
  unfold frontFraction
  split
  · next d rest =>
    split
    · next hd =>
      have hne : '\n' ≠ d := by
        rintro rfl
        exact absurd hd (by decide)
      have hrest := newline_notMem_takeWhile (p := isDigitChar) (by decide) rest
      simp [hne, hrest]
    · exact List.not_mem_nil
  · exact List.not_mem_nil

/-- The sign of an exponent. -/
theorem sign_append (h : EndsLine cs) (p : Char → Bool) :
    ((cs ++ b).take 1).filter p = (cs.take 1).filter p := by
  obtain ⟨d, more, rfl⟩ := List.exists_cons_of_ne_nil h.ne_nil
  simp

theorem frontExponent_append (h : EndsLine cs) : frontExponent (cs ++ b) = frontExponent cs := by
  cases cs with
  | nil => exact absurd rfl h.ne_nil
  | cons e rest =>
    rw [List.cons_append]
    by_cases he : e = '\n'
    · simp [frontExponent, he]
    · have hrest := h.tail he
      unfold frontExponent
      dsimp only
      rw [sign_append b hrest]
      generalize hsign : (rest.take 1).filter (fun c => c == '+' || c == '-') = sign
      have hprefix : sign <+: rest := hsign ▸ sign_isPrefix rest
      have hnewline : '\n' ∉ sign := by
        rw [← hsign]
        simp
      rw [hrest.drop_append b hprefix hnewline,
        (hrest.after hprefix hnewline).takeWhile_append b (by decide)]

theorem frontDecimal_append (h : EndsLine cs) : frontDecimal (cs ++ b) = frontDecimal cs := by
  unfold frontDecimal
  dsimp only
  rw [h.takeWhile_append b (by decide)]
  generalize hwhole : cs.takeWhile isDigitChar = whole
  have hprefix : whole <+: cs := hwhole ▸ List.takeWhile_prefix _
  have hnewline : '\n' ∉ whole := hwhole ▸ newline_notMem_takeWhile (by decide) cs
  have hafter := h.after hprefix hnewline
  rw [← List.drop_drop, ← List.drop_drop, h.drop_append b hprefix hnewline,
    frontFraction_append b hafter,
    hafter.drop_append b (frontFraction_isPrefix _) (newline_notMem_frontFraction _),
    frontExponent_append b
      (hafter.after (frontFraction_isPrefix _) (newline_notMem_frontFraction _))]

theorem frontHex_append (h : EndsLine cs) : frontHex (cs ++ b) = frontHex cs := by
  cases cs with
  | nil => exact absurd rfl h.ne_nil
  | cons z rest =>
    by_cases hz : z = '0'
    · subst hz
      obtain ⟨x, more, rfl⟩ := List.exists_cons_of_ne_nil (h.tail (by decide)).ne_nil
      by_cases hx : x = 'x' ∨ x = 'X'
      · have hmore : EndsLine more := by
          refine (h.tail (by decide)).tail ?_
          rintro rfl
          simp at hx
        simp [frontHex, hmore.takeWhile_append b (p := isHexChar) (by decide)]
      · simp [frontHex, hx]
    · simp [frontHex, hz]

theorem frontNumber_append (h : EndsLine cs) : frontNumber (cs ++ b) = frontNumber cs := by
  unfold frontNumber
  rw [frontHex_append b h, frontDecimal_append b h, h.head?_append]

/-- A word without newlines stands at the front of a text or not, whatever is behind the text. -/
theorem isPrefixOf_append (h : EndsLine cs) {w : List Char} (hw : '\n' ∉ w) :
    w.isPrefixOf (cs ++ b) = w.isPrefixOf cs := by
  induction w generalizing cs with
  | nil => simp
  | cons x w ih =>
    rw [List.mem_cons, not_or] at hw
    cases cs with
    | nil => exact absurd rfl h.ne_nil
    | cons c more =>
      rw [List.cons_append, List.isPrefixOf_cons_cons, List.isPrefixOf_cons_cons]
      by_cases hx : x = c
      · subst hx
        rw [ih (h.tail (Ne.symm hw.1)) hw.2]
      · rw [beq_false_of_ne hx, Bool.false_and, Bool.false_and]

theorem Operator.ofFront?_append (h : EndsLine cs) :
    Operator.ofFront? (cs ++ b) = Operator.ofFront? cs := by
  have hspelling (o : Operator) : '\n' ∉ o.spelling.toList := by
    cases o <;> decide
  unfold Operator.ofFront?
  congr 1
  funext o
  exact isPrefixOf_append b h (hspelling o)

theorem Lexer.frontOperator_append (h : EndsLine (c :: more)) :
    Lexer.frontOperator c (more ++ b) = Lexer.frontOperator c more := by
  unfold Lexer.frontOperator
  rw [← List.cons_append, Operator.ofFront?_append b h]

end Fronts

/-! ## Literals -/

section Literals

variable {cs : List Char} (b : List Char)

/-- A single-quoted text that is closed is closed whatever follows. -/
theorem readSingleQuoted_append {r : Reading (List Char)} (h : readSingleQuoted cs = some r) :
    readSingleQuoted (cs ++ b) = some r := by
  fun_induction readSingleQuoted cs generalizing r with
  | case1 => cases h
  | case2 rest ih | case3 rest ih =>
    obtain ⟨s, hs, rfl⟩ := Option.map_eq_some_iff.1 h
    simp [readSingleQuoted, ih hs]
  | case4 rest =>
    cases h
    rfl
  | case5 c rest hquote hslash hclose ih =>
    obtain ⟨s, hs, rfl⟩ := Option.map_eq_some_iff.1 h
    have hne : rest ≠ [] := by
      rintro rfl
      cases hs
    obtain ⟨d, more, rfl⟩ := List.exists_cons_of_ne_nil hne
    rw [List.cons_append, readSingleQuoted, ih hs]
    · rfl
    · rintro tail rfl ⟨⟩
      exact hquote more rfl rfl
    · rintro tail rfl ⟨⟩
      exact hslash more rfl rfl
    · exact hclose

theorem ne_backslash {c : Char} {rest : List Char} (hlast : c = '\\' → rest = [] → False)
    (hmore : ∀ d more, c = '\\' → rest = d :: more → False) : c ≠ '\\' := by
  intro hc
  cases rest with
  | nil => exact hlast hc rfl
  | cons d more => exact hmore d more hc rfl

theorem readRaw_append {marks : Delimiters} {depth : Nat} {r : Reading (List Char)}
    (h : readRaw marks depth cs = some r) : readRaw marks depth (cs ++ b) = some r := by
  fun_induction readRaw marks depth cs generalizing r with
  | case1 | case2 => cases h
  | case3 depth c rest ih =>
    obtain ⟨s, hs, rfl⟩ := Option.map_eq_some_iff.1 h
    simp [readRaw, ih hs]
  | case5 rest hlast hmore hopener =>
    cases h
    simp [readRaw, ne_backslash hlast hmore, hopener]
  | case4 depth c rest hlast hmore hopener ih =>
    obtain ⟨s, hs, rfl⟩ := Option.map_eq_some_iff.1 h
    cases depth <;> simp [readRaw, ne_backslash hlast hmore, hopener, ih hs]
  | case6 rest outer hlast hmore hopener ih =>
    obtain ⟨s, hs, rfl⟩ := Option.map_eq_some_iff.1 h
    simp [readRaw, ne_backslash hlast hmore, hopener, ih hs]
  | case7 depth c rest hlast hmore hopener hcloser ih =>
    obtain ⟨s, hs, rfl⟩ := Option.map_eq_some_iff.1 h
    cases depth <;> simp [readRaw, ne_backslash hlast hmore, hopener, hcloser, ih hs]

theorem Whole.tail {c : Char} {rest : List Char} (h : Whole (c :: rest)) : Whole rest := by
  simpa using h.drop 1

/-- What starts neither an escape nor code at the end of a line starts none with more behind it. -/
theorem not_escape_append {c : Char} {rest : List Char} (h : Whole (c :: rest))
    (hmore : ∀ d more, c = '\\' → rest = d :: more → False) :
    ∀ d more, c = '\\' → rest ++ b = d :: more → False := by
  have hc : c ≠ '\\' := by
    apply ne_backslash _ hmore
    rintro rfl rfl
    rcases h with h | h
    · cases h
    · cases h
  exact fun _ _ heq _ => hc heq

theorem not_code_append {c : Char} {rest : List Char} (h : Whole (c :: rest))
    (hcode : ∀ more, c = '#' → rest = '{' :: more → False) :
    ∀ more, c = '#' → rest ++ b = '{' :: more → False := by
  rintro more rfl heq
  cases rest with
  | nil =>
    rcases h with h | h
    · cases h
    · cases h
  | cons d tail =>
    cases heq
    exact hcode tail rfl rfl

/-- A character of text that starts neither an escape nor code is text. -/
theorem readParts_text (marks : Delimiters) (pairs : Nat) {c : Char} {rest : List Char}
    (hescape : ∀ d more, c = '\\' → rest = d :: more → False)
    (hcode : ∀ more, c = '#' → rest = '{' :: more → False) :
    readParts marks (.text pairs) (c :: rest) =
      if marks.opener = some c then
        (readParts marks (.text (pairs + 1)) rest).map fun r => r.after (consText c) 1 (lineEnds c)
      else if c = marks.closer then
        match pairs with
        | 0 => .ok ⟨[], 1, 0⟩
        | outer + 1 =>
          (readParts marks (.text outer) rest).map fun r => r.after (consText c) 1 (lineEnds c)
      else
        (readParts marks (.text pairs) rest).map fun r => r.after (consText c) 1 (lineEnds c) := by
  cases pairs with
  | zero => exact readParts.eq_4 marks c rest hescape hcode
  | succ outer => exact readParts.eq_5 marks c rest outer hescape hcode

/-- An interpolated literal that is closed is closed whatever follows. -/
theorem readParts_append {marks : Delimiters} {place : Inside} {r : Reading (List Part)}
    (hcs : Whole cs) (h : readParts marks place cs = .ok r) :
    readParts marks place (cs ++ b) = .ok r := by
  fun_induction readParts marks place cs generalizing r with
  | case1 | case8 | case9 => cases h
  | case2 pairs c rest ih | case3 pairs rest ih | case10 pairs braces quote c rest ih =>
    obtain ⟨s, hs, rfl⟩ := map_eq_ok_iff.1 h
    simp [readParts, ih hcs.tail.tail hs, Except.map]
  | case4 pairs c rest hmore hcode hopener ih =>
    obtain ⟨s, hs, rfl⟩ := map_eq_ok_iff.1 h
    rw [List.cons_append, readParts_text marks pairs (not_escape_append b hcs hmore)
      (not_code_append b hcs hcode), if_pos hopener, ih hcs.tail hs]
    rfl
  | case5 rest hmore hcode hopener =>
    cases h
    rw [List.cons_append, readParts_text marks 0 (not_escape_append b hcs hmore)
      (not_code_append b hcs hcode), if_neg hopener, if_pos rfl]
  | case6 rest outer hmore hcode hopener ih =>
    obtain ⟨s, hs, rfl⟩ := map_eq_ok_iff.1 h
    rw [List.cons_append, readParts_text marks (outer + 1) (not_escape_append b hcs hmore)
      (not_code_append b hcs hcode), if_neg hopener, if_pos rfl]
    dsimp only
    rw [ih hcs.tail hs]
    rfl
  | case7 pairs c rest hmore hcode hopener hcloser ih =>
    obtain ⟨s, hs, rfl⟩ := map_eq_ok_iff.1 h
    rw [List.cons_append, readParts_text marks pairs (not_escape_append b hcs hmore)
      (not_code_append b hcs hcode), if_neg hopener, if_neg hcloser, ih hcs.tail hs]
    rfl
  | case11 pairs braces quote c rest hlast hmore ih =>
    obtain ⟨s, hs, rfl⟩ := map_eq_ok_iff.1 h
    simp [readParts, ne_backslash hlast hmore, ih hcs.tail hs, Except.map]
  | case12 _ _ ih | case13 _ _ _ ih | case14 _ _ _ ih =>
    obtain ⟨s, hs, rfl⟩ := map_eq_ok_iff.1 h
    simp [readParts, ih hcs.tail hs, Except.map]
  | case15 =>
    rename_i hopen hclose houter ih
    obtain ⟨s, hs, rfl⟩ := map_eq_ok_iff.1 h
    rw [List.cons_append, readParts.eq_13 _ _ _ _ _ hopen hclose houter, ih hcs.tail hs]
    rfl

theorem readDelimited_append {marks : Delimiters} {r : Reading (List Part)} (hcs : Whole cs)
    (h : readDelimited marks cs = .ok r) : readDelimited marks (cs ++ b) = .ok r := by
  obtain ⟨s, hs, rfl⟩ := map_eq_ok_iff.1 h
  rw [readDelimited, readParts_append b hcs hs]
  rfl

end Literals

/-! ## Literals that flags follow -/

/-- The last character that a reader of interpolated text uses is the closing mark. -/
theorem readParts_closer {marks : Delimiters} {place : Inside} {cs : List Char}
    {r : Reading (List Part)} (h : readParts marks place cs = .ok r) :
    (cs.take r.used).getLast? = some marks.closer := by
  -- characters in front do not change the last one
  have hcons (c : Char) {rest : List Char} {n : Nat}
      (hlast : (rest.take n).getLast? = some marks.closer) :
      ((c :: rest).take (1 + n)).getLast? = some marks.closer := by
    rw [Nat.add_comm, List.take_succ_cons, List.getLast?_cons, hlast]
    rfl
  have htwo (c d : Char) {rest : List Char} {n : Nat}
      (hlast : (rest.take n).getLast? = some marks.closer) :
      ((c :: d :: rest).take (2 + n)).getLast? = some marks.closer := by
    rw [show 2 + n = 1 + (1 + n) by omega]
    exact hcons c (hcons d hlast)
  fun_induction readParts marks place cs generalizing r with
  | case1 | case8 | case9 => cases h
  | case5 =>
    cases h
    rfl
  | case2 _ _ _ ih | case3 _ _ ih | case10 _ _ _ _ _ ih =>
    obtain ⟨s, hs, rfl⟩ := map_eq_ok_iff.1 h
    exact htwo _ _ (ih hs)
  | case4 _ _ _ _ _ _ ih | case6 _ _ _ _ _ ih | case7 _ _ _ _ _ _ _ ih | case11 _ _ _ _ _ _ _ ih
  | case12 _ _ ih | case13 _ _ _ ih | case14 _ _ _ ih =>
    obtain ⟨s, hs, rfl⟩ := map_eq_ok_iff.1 h
    exact hcons _ (ih hs)
  | case15 =>
    rename_i ih
    obtain ⟨s, hs, rfl⟩ := map_eq_ok_iff.1 h
    exact hcons _ (ih hs)

/-! ## Heredocs -/

section Heredocs

variable {cs : List Char} (b : List Char)

theorem HeredocOpener.readTag_append (style : HeredocStyle) (h : EndsLine cs) :
    readTag style (cs ++ b) = readTag style cs := by
  unfold readTag
  dsimp only
  rw [h.head?_append]
  generalize hquote : cs.head?.filter (fun c => c == '\'' || c == '"') = quote
  have hprefix : quote.toList <+: cs := by
    obtain ⟨d, more, rfl⟩ := List.exists_cons_of_ne_nil h.ne_nil
    rw [← hquote, List.head?_cons, Option.filter_some]
    split
    · exact List.prefix_append [d] more
    · exact List.nil_prefix
  have hnewline : '\n' ∉ quote.toList := by
    rw [← hquote]
    simp
  have hbody := h.after hprefix hnewline
  rw [h.drop_append b hprefix hnewline, frontName_append b hbody, drop_frontName_append b hbody,
    (endsLine_drop_frontName hbody).head?_append]

theorem HeredocOpener.read_append (h : EndsLine cs) : read (cs ++ b) = read cs := by
  obtain ⟨x, more, rfl⟩ := List.exists_cons_of_ne_nil h.ne_nil
  by_cases hx : x = '<'
  · subst hx
    have hmore := h.tail (by decide)
    obtain ⟨y, tail, rfl⟩ := List.exists_cons_of_ne_nil hmore.ne_nil
    by_cases hy : y = '<'
    · subst hy
      have htail := hmore.tail (by decide)
      obtain ⟨z, rest, rfl⟩ := List.exists_cons_of_ne_nil htail.ne_nil
      by_cases hminus : z = '-'
      · subst hminus
        exact readTag_append b .indented (htail.tail (by decide))
      · by_cases htilde : z = '~'
        · subst htilde
          exact readTag_append b .squiggly (htail.tail (by decide))
        · have := readTag_append b .flush htail
          simpa [read, hminus, htilde] using this
    · simp [read, hy]
  · simp [read, hx]

/-- The lines of a text that a heredoc's body is read from. -/
theorem HeredocBody.read_eq_some {o : HeredocOpener} {lines : List (List Char)}
    {body : HeredocBody} (hlines : ∀ line ∈ lines, '\n' ∉ line)
    (h : HeredocBody.read o (Text.unlines lines) = some body) :
    ∃ last tail, lines = body.lines ++ [last] ++ tail ∧ o.closes last = true ∧
      (∀ line ∈ body.lines, o.closes line = false) ∧
      body.used = (Text.unlines (body.lines ++ [last])).length ∧
      body.consumed = body.lines.length + 1 := by
  unfold HeredocBody.read at h
  rw [Text.newlineLines_unlines hlines] at h
  dsimp only at h
  split at h
  · cases h
  · next last tail hdrop =>
    cases h
    generalize hbody : lines.takeWhile (fun line => !o.closes line) = body at hdrop
    have hsplit : body ++ lines.dropWhile (fun line => !o.closes line) = lines := by
      rw [← hbody]
      exact List.takeWhile_append_dropWhile
    have hrest : lines.dropWhile (fun line => !o.closes line) = last :: tail := by
      rw [← hdrop]
      conv_rhs => rw [← hsplit]
      rw [List.drop_left]
    refine ⟨last, tail, ?_, ?_, ?_, rfl, rfl⟩
    · rw [← hsplit, hrest]
      simp
    · have := List.head_dropWhile_not (fun line => !o.closes line) (l := lines) (by simp [hrest])
      simpa [hrest] using this
    · intro line hline
      rw [← hbody] at hline
      simpa using List.mem_takeWhile_imp hline

/-- A body that is closed in complete lines is closed there whatever follows. -/
theorem HeredocBody.read_append {o : HeredocOpener} {body : HeredocBody} (hcs : Whole cs)
    (h : HeredocBody.read o cs = some body) :
    HeredocBody.read o (cs ++ b) = some body ∧ body.used ≤ cs.length := by
  obtain ⟨lines, hlines, rfl⟩ := hcs.exists_lines
  obtain ⟨last, tail, rfl, hclose, hopen, hused, hconsumed⟩ := read_eq_some hlines h
  have hsplit : Text.unlines (body.lines ++ [last] ++ tail) =
      Text.unlines (body.lines ++ [last]) ++ Text.unlines tail := by
    simp [Text.unlines]
  have hread := HeredocBody.read_closed (fun line hline => hlines line (by simp [hline])) hopen
    (hlines last (by simp)) hclose (Text.unlines tail ++ b)
  rw [← hused, ← hconsumed] at hread
  refine ⟨?_, ?_⟩
  · rw [hsplit, List.append_assoc]
    exact hread
  · rw [hused, hsplit, List.length_append]
    omega

end Heredocs

end RecipeManifest

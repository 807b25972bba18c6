import RecipeManifest.Proofs.Subscription
import RecipeManifest.Proofs.WrittenLiterals

/-!
Texts that are put in quotes, and what is read from the quotes.

Only quotes are escaped when a text is put in quotes, and a backslash is an escape too when quotes
are read. So a backslash that was just a character may be taken for an escape, of the character
behind it or of the closing quote.

    quoted t read as a string      is t exactly if no backslash of t is taken so
                                                                          (quoted_read_back_iff)
    quoted d in front of quoted t  only if d = t, unless d ends with a backslash
                                                                          (quoted_isPrefix_iff)
-/

namespace RecipeManifest

/-- No backslash of the text is followed by a backslash, by a quote or by the end. -/
def FreeOfEscapes (t : List Char) : Prop :=
  ∀ i, t[i]? = some '\\' → t[i + 1]? ∉ [none, some '\\', some '\'']

instance (t : List Char) : Decidable (FreeOfEscapes t) :=
  decidable_of_iff
    (∀ i < t.length, t[i]? = some '\\' → t[i + 1]? ∉ [none, some '\\', some '\''])
    ⟨fun h i hi => h i (List.getElem?_eq_some_iff.1 hi).1 hi, fun h i _ => h i⟩

theorem freeOfEscapes_cons {c : Char} {t : List Char} :
    FreeOfEscapes (c :: t) ↔
      (c = '\\' → t.head? ∉ [none, some '\\', some '\'']) ∧ FreeOfEscapes t := by
  rw [List.head?_eq_getElem?]
  constructor
  · intro h
    exact ⟨fun hc => h 0 (by simp [hc]), fun i => h (i + 1)⟩
  · rintro ⟨hhead, ht⟩ i hi
    cases i with
    | zero => exact hhead (by simpa using hi)
    | succ i => exact ht i hi

/-! ## Quotes around a text -/

theorem flatMap_escapedQuote_quote (t : List Char) :
    ('\'' :: t).flatMap escapedQuote = '\\' :: '\'' :: t.flatMap escapedQuote :=
  rfl

theorem flatMap_escapedQuote_cons {c : Char} (hc : c ≠ '\'') (t : List Char) :
    (c :: t).flatMap escapedQuote = c :: t.flatMap escapedQuote := by
  simp [escapedQuote, hc]

theorem length_flatMap_escapedQuote (t : List Char) :
    (t.flatMap escapedQuote).length = t.length + t.count '\'' := by
  induction t with
  | nil => rfl
  | cons c t ih =>
    by_cases hc : c = '\''
    · rw [hc, flatMap_escapedQuote_quote, List.count_cons_self]
      simp only [List.length_cons, ih]
      omega
    · rw [flatMap_escapedQuote_cons hc, List.count_cons_of_ne hc]
      simp only [List.length_cons, ih]
      omega

theorem toList_quoted (t : String) :
    (quoted t).toList = '\'' :: (t.toList.flatMap escapedQuote ++ ['\'']) := by
  simp [quoted_eq]

/-- A closing quote stands at the front of what is left of a text and its own closing quote only if
nothing is left of the text. -/
theorem quote_isPrefix {rest t : List Char}
    (h : '\'' :: rest <+: t.flatMap escapedQuote ++ ['\'']) : rest = [] ∧ t = [] := by
  cases t with
  | nil => simpa using h
  | cons c t =>
    by_cases hc : c = '\''
    · rw [hc, flatMap_escapedQuote_quote] at h
      simp at h
    · rw [flatMap_escapedQuote_cons hc] at h
      exact absurd (List.cons_prefix_cons.1 h).1.symm hc

theorem eq_of_escapedQuote_isPrefix {d t : List Char} (hd : d.getLast? ≠ some '\\')
    (h : d.flatMap escapedQuote ++ ['\''] <+: t.flatMap escapedQuote ++ ['\'']) : d = t := by
  induction d generalizing t with
  | nil => exact (quote_isPrefix h).2.symm
  | cons c d ih =>
    have hd' : d.getLast? ≠ some '\\' := by
      cases d with
      | nil => simp
      | cons => simpa using hd
    cases t with
    | nil =>
      have := h.length_le
      simp only [List.length_append, length_flatMap_escapedQuote, List.length_cons] at this
      simp at this
    | cons e t =>
      by_cases hc : c = '\'' <;> by_cases he : e = '\''
      · subst hc he
        simp only [flatMap_escapedQuote_quote, List.cons_append, List.cons_prefix_cons,
          true_and] at h
        rw [ih hd' h]
      · -- The backslash of an escape is a character of the other text, and its quote would have to
        -- close that text.
        subst hc
        rw [flatMap_escapedQuote_quote, flatMap_escapedQuote_cons he] at h
        have := (quote_isPrefix (List.cons_prefix_cons.1 h).2).1
        simp at this
      · -- The other way round, the text would end with this backslash.
        subst he
        rw [flatMap_escapedQuote_quote, flatMap_escapedQuote_cons hc] at h
        obtain ⟨rfl, hrest⟩ := List.cons_prefix_cons.1 h
        cases d with
        | nil => simp at hd
        | cons f d =>
          by_cases hf : f = '\''
          · rw [hf, flatMap_escapedQuote_quote] at hrest
            simp at hrest
          · rw [flatMap_escapedQuote_cons hf] at hrest
            exact absurd (List.cons_prefix_cons.1 hrest).1 hf
      · rw [flatMap_escapedQuote_cons hc, flatMap_escapedQuote_cons he] at h
        obtain ⟨rfl, hrest⟩ := List.cons_prefix_cons.1 h
        rw [ih hd' hrest]

/-- A text in quotes does not stand in front of another one, unless it ends with a backslash, which
can be the escape of a quote in the other. -/
theorem quoted_isPrefix_iff {d t : String} (hd : d.toList.getLast? ≠ some '\\') :
    (quoted d).toList <+: (quoted t).toList ↔ d = t := by
  constructor
  · intro h
    rw [toList_quoted, toList_quoted] at h
    exact String.toList_inj.1 (eq_of_escapedQuote_isPrefix hd (List.cons_prefix_cons.1 h).2)
  · rintro rfl
    exact List.prefix_refl _

/-! ## Reading -/

/-- A character that neither closes the quotes nor escapes the next one stands for itself. -/
theorem readSingleQuoted_cons {c : Char} {rest : List Char} (hc : c ≠ '\'')
    (hrest : c = '\\' → rest.head? ∉ [some '\\', some '\'']) :
    readSingleQuoted (c :: rest) =
      (readSingleQuoted rest).map fun r => r.after (c :: ·) 1 (lineEnds c) := by
  rw [readSingleQuoted]
  · rintro more rfl rfl
    simp at hrest
  · rintro more rfl rfl
    simp at hrest
  · exact hc

/-- What follows a backslash that is no escape is no escape either. -/
theorem head?_escapedQuote {t : List Char} (h : t.head? ∉ [none, some '\\', some '\''])
    (r : List Char) : (t.flatMap escapedQuote ++ r).head? ∉ [some '\\', some '\''] := by
  cases t with
  | nil => simp at h
  | cons d t =>
    have hd : d ≠ '\'' := by
      rintro rfl
      simp at h
    simpa [flatMap_escapedQuote_cons hd] using h

/-- A text without escapes is read as it is. -/
theorem readSingleQuoted_escapedQuote {t : List Char} (h : FreeOfEscapes t) (r : List Char) :
    readSingleQuoted (t.flatMap escapedQuote ++ '\'' :: r) =
      some ⟨t, (t.flatMap escapedQuote).length + 1, t.count '\n'⟩ := by
  induction t with
  | nil => rfl
  | cons c t ih =>
    obtain ⟨hhead, ht⟩ := freeOfEscapes_cons.1 h
    by_cases hc : c = '\''
    · rw [hc, flatMap_escapedQuote_quote, List.cons_append, List.cons_append, readSingleQuoted,
        ih ht, List.count_cons_of_ne (by decide)]
      simp only [Option.map_some, Reading.after, List.length_cons, Option.some.injEq,
        Reading.mk.injEq, true_and]
      omega
    · rw [flatMap_escapedQuote_cons hc, List.cons_append,
        readSingleQuoted_cons hc fun hslash => head?_escapedQuote (hhead hslash) _, ih ht]
      simp [Reading.after, count_cons_lineEnds, Nat.add_comm]

/-- Each quote in what was read was escaped. -/
theorem length_value_lt_used {cs : List Char} {r : Reading (List Char)}
    (h : readSingleQuoted cs = some r) : r.value.length + r.value.count '\'' < r.used := by
  fun_induction readSingleQuoted cs generalizing r with
  | case1 => cases h
  | case2 rest ih | case3 rest ih =>
    obtain ⟨s, hs, rfl⟩ := Option.map_eq_some_iff.1 h
    have := ih hs
    simp [Reading.after]
    omega
  | case4 rest =>
    cases h
    simp
  | case5 c rest _ _ hquote ih =>
    obtain ⟨s, hs, rfl⟩ := Option.map_eq_some_iff.1 h
    have := ih hs
    simp only [Reading.after, List.length_cons, List.count_cons_of_ne hquote]
    omega

/-- A text that starts with an escape is not what is read. -/
theorem value_ne_of_escape {t : List Char} {r : Reading (List Char)}
    (ht : t.head? ∈ [none, some '\\', some '\''])
    (h : readSingleQuoted (('\\' :: t).flatMap escapedQuote ++ ['\'']) = some r) :
    r.value ≠ '\\' :: t := by
  rw [flatMap_escapedQuote_cons (by decide), List.cons_append] at h
  intro hr
  cases t with
  | nil => simp [readSingleQuoted] at h
  | cons d t =>
    obtain rfl | rfl : d = '\\' ∨ d = '\'' := by simpa using ht
    · -- Two backslashes are read as one. The rest is too short to make up for it.
      rw [flatMap_escapedQuote_cons (by decide), List.cons_append, readSingleQuoted] at h
      obtain ⟨s, hs, rfl⟩ := Option.map_eq_some_iff.1 h
      have hvalue : s.value = '\\' :: t := (List.cons.inj hr).2
      have hlt := length_value_lt_used hs
      have hle := (readSingleQuoted_within hs).2
      rw [hvalue, List.count_cons_of_ne (by decide)] at hlt
      simp only [List.length_append, length_flatMap_escapedQuote, List.length_cons] at hlt hle
      simp at hle
      omega
    · -- The backslash of the escape is read as the escaped one, and so the quote closes.
      rw [flatMap_escapedQuote_quote, List.cons_append, List.cons_append, readSingleQuoted,
        readSingleQuoted] at h
      cases h
      simp [Reading.after] at hr

/-- What is read is the text only if the text has no escapes. -/
theorem freeOfEscapes_of_read {t : List Char} {r : Reading (List Char)}
    (h : readSingleQuoted (t.flatMap escapedQuote ++ ['\'']) = some r) (hr : r.value = t) :
    FreeOfEscapes t := by
  induction t generalizing r with
  | nil => exact fun i hi => absurd hi (by simp)
  | cons c t ih =>
    have hhead : c = '\\' → t.head? ∉ [none, some '\\', some '\''] := by
      rintro rfl hescape
      exact value_ne_of_escape hescape h hr
    refine freeOfEscapes_cons.2 ⟨hhead, ?_⟩
    by_cases hc : c = '\''
    · rw [hc, flatMap_escapedQuote_quote, List.cons_append, List.cons_append,
        readSingleQuoted] at h
      obtain ⟨s, hs, rfl⟩ := Option.map_eq_some_iff.1 h
      exact ih hs (List.cons.inj hr).2
    · rw [flatMap_escapedQuote_cons hc, List.cons_append,
        readSingleQuoted_cons hc fun hslash => head?_escapedQuote (hhead hslash) _] at h
      obtain ⟨s, hs, rfl⟩ := Option.map_eq_some_iff.1 h
      exact ih hs (List.cons.inj hr).2

theorem tokenize_quoted (map : LineMap) {t : String} (h : FreeOfEscapes t.toList) :
    tokenize map (quoted t).toList = .ok (onlyToken (.string [.text t.toList])
      (quoted t).toList.length (t.toList.count '\n')) := by
  rw [toList_quoted]
  refine tokenize_eq_onlyToken map ?_
  show Lexer.frontSingleQuoted _ = _
  rw [Lexer.frontSingleQuoted, readSingleQuoted_escapedQuote h, List.length_append]
  rfl

open Lexer in
/-- The first token of a text that starts with a quote is the string that is read there. -/
theorem read_of_tokenize {map : LineMap} {body value : List Char} {tokens : List Token}
    (h : tokenize map ('\'' :: body) = .ok tokens)
    (hfirst : tokens.head?.map Token.lexeme = some (.string [.text value])) :
    ∃ r, readSingleQuoted body = some r ∧ r.value = value := by
  rw [tokenize_eq_ok] at h
  have hfront : (start ('\'' :: body)).front '\'' body = frontSingleQuoted body := rfl
  cases hr : readSingleQuoted body with
  | none =>
    have hstep : (start ('\'' :: body)).step '\'' body = .error .unterminatedString := by
      rw [step, hfront, frontSingleQuoted, hr]
      rfl
    rw [run_error rfl hstep] at h
    cases h
  | some r =>
    refine ⟨r, rfl, ?_⟩
    have hstep : (start ('\'' :: body)).step '\'' body =
        .ok (some ((start ('\'' :: body)).token (.string [.text r.value]) r.used),
          (start ('\'' :: body)).behind (.string [.text r.value]) r.used r.lines) := by
      rw [step, hfront, frontSingleQuoted, hr]
      rfl
    rw [run_step rfl hstep] at h
    obtain ⟨more, -, rfl⟩ := map_eq_ok_iff.1 h
    simpa [token] using hfirst

/-- A text comes back from quotes as one string, with nothing behind it, exactly if no backslash of
it stands before a backslash, a quote or the end. Different texts differ in quotes, whether they
come back or not. -/
theorem quoted_read_back_iff (map : LineMap) :
    (∀ t : String,
      ((∃ body lines, (quoted t).toList = '\'' :: body ∧
          readSingleQuoted body = some ⟨t.toList, body.length, lines⟩) ↔
        FreeOfEscapes t.toList) ∧
      ((tokenize map (quoted t).toList).map (·.map Token.lexeme) =
          .ok [.string [.text t.toList], .eof] ↔
        FreeOfEscapes t.toList)) ∧
    Function.Injective quoted := by
  refine ⟨fun t => ⟨⟨?_, fun h => ?_⟩, ⟨fun h => ?_, fun h => ?_⟩⟩, fun s t h => quoted_inj.1 h⟩
  · rintro ⟨body, lines, hbody, hread⟩
    rw [toList_quoted, List.cons.injEq] at hbody
    rw [← hbody.2] at hread
    exact freeOfEscapes_of_read hread rfl
  · refine ⟨_, t.toList.count '\n', toList_quoted t, ?_⟩
    rw [readSingleQuoted_escapedQuote h, List.length_append]
    rfl
  · obtain ⟨tokens, htokens, hlexemes⟩ := map_eq_ok_iff.1 h
    rw [toList_quoted] at htokens
    obtain ⟨r, hr, hvalue⟩ := read_of_tokenize htokens (by rw [← List.head?_map, hlexemes]; rfl)
    exact freeOfEscapes_of_read hr hvalue
  · rw [tokenize_quoted map h]
    rfl

/-- A backslash before a letter comes back, one at the end does not. -/
example : FreeOfEscapes "\\d it's".toList ∧ ¬ FreeOfEscapes "C:\\".toList := by
  decide

end RecipeManifest

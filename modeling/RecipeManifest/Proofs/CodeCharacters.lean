import RecipeManifest.Proofs.FollowingText
import RecipeManifest.Proofs.ReadValues

/-!
The characters of the code inside strings, and the faults of a text.

Code inside a string is made of characters of the text around it, of newlines, and of the NUL
character that ends a heredoc's body. So what holds of these characters and of all characters of a
text also holds of the code in its tokens, and of the code in the tokens of that code. Of the faults
of a text one is not meant for the user, and it arises only from a digit without a place
(`lexable_of_places`).
-/

namespace RecipeManifest

/-! ## Parts of strings -/

/-- The code among the parts, one after the other. -/
def codeChars (parts : List Part) : List Char :=
  parts.flatMap fun
    | .text _ => []
    | .code chars => chars

theorem mem_codeChars {parts : List Part} {code : List Char} (h : Part.code code ∈ parts) {c : Char}
    (hc : c ∈ code) : c ∈ codeChars parts :=
  List.mem_flatMap.2 ⟨.code code, h, hc⟩

theorem codeChars_consText (c : Char) (parts : List Part) :
    codeChars (consText c parts) = codeChars parts := by
  unfold consText
  split <;> rfl

theorem codeChars_consCode (c : Char) (parts : List Part) :
    codeChars (consCode c parts) = c :: codeChars parts := by
  unfold consCode
  split <;> rfl

/-- A fault that is told to the user as such. -/
def Malformed.isReported : Malformed → Bool
  | digitWithoutPlace _ => false
  | _ => true

/-- The code is made of characters of the text, or a fault is reported. -/
def PartsIn (cs : List Char) : Except Malformed (Reading (List Part)) → Prop
  | .ok r => codeChars r.value ⊆ cs
  | .error e => e.isReported = true

section Parts

variable {cs rest : List Char} {x : Except Malformed (Reading (List Part))}

theorem PartsIn.after (h : PartsIn rest x) {f : List Part → List Part} (used lines : Nat)
    (hf : ∀ parts, codeChars parts ⊆ rest → codeChars (f parts) ⊆ cs) :
    PartsIn cs (x.map fun r => r.after f used lines) := by
  cases x with
  | error e => exact h
  | ok r => exact hf r.value h

/-- A character of text adds nothing to the code. -/
theorem PartsIn.text (h : PartsIn rest x) (w : List Char) (c : Char) (used lines : Nat) :
    PartsIn (w ++ rest) (x.map fun r => r.after (consText c) used lines) := by
  apply h.after
  intro parts hparts
  rw [codeChars_consText]
  exact List.subset_append_of_subset_right w hparts

theorem PartsIn.code (h : PartsIn rest x) (c : Char) (used lines : Nat) :
    PartsIn (c :: rest) (x.map fun r => r.after (consCode c) used lines) := by
  apply h.after
  intro parts hparts
  rw [codeChars_consCode]
  exact List.cons_subset_cons c hparts

theorem readParts_partsIn (marks : Delimiters) (place : Inside) (cs : List Char) :
    PartsIn cs (readParts marks place cs) := by
  fun_induction readParts marks place cs with
  | case1 | case8 | case9 => rfl
  | case5 => exact List.nil_subset _
  | case2 pairs c rest ih => exact ih.text ['\\', c] ..
  | case3 pairs rest ih =>
    apply ih.after
    intro parts hparts
    exact List.subset_append_of_subset_right ['#', '{'] hparts
  | case4 pairs c rest _ _ _ ih | case7 pairs c rest _ _ _ _ ih => exact ih.text [c] ..
  | case6 rest outer _ _ _ ih => exact ih.text [marks.closer] ..
  | case10 pairs braces quote c rest ih =>
    apply ih.after
    intro parts hparts
    rw [Function.comp_apply, codeChars_consCode, codeChars_consCode]
    exact List.cons_subset_cons '\\' (List.cons_subset_cons c hparts)
  | case12 pairs rest ih =>
    apply ih.after
    intro parts hparts
    exact List.subset_cons_of_subset '}' hparts
  | case11 _ _ _ c _ _ _ ih => exact ih.code c ..
  | case13 _ _ _ ih => exact ih.code '}' ..
  | case14 _ _ _ ih => exact ih.code '{' ..
  | case15 =>
    rename_i ih
    exact ih.code ..

theorem readDelimited_partsIn (marks : Delimiters) (cs : List Char) :
    PartsIn cs (readDelimited marks cs) := by
  have h := readParts_partsIn marks (.text 0) cs
  unfold readDelimited
  cases hread : readParts marks (.text 0) cs with
  | error e =>
    rw [hread] at h
    exact h
  | ok r =>
    rw [hread] at h
    show codeChars (if r.value.isEmpty then [.text []] else r.value) ⊆ cs
    split
    · exact List.nil_subset cs
    · exact h

end Parts

/-! ## Heredocs -/

section Heredocs

theorem mem_of_mem_pieces {p : Char → Bool} {cs piece : List Char}
    (h : piece ∈ Text.pieces p cs) {c : Char} (hc : c ∈ piece) : c ∈ cs := by
  induction cs generalizing piece with
  | nil =>
    rw [Text.pieces, List.mem_singleton] at h
    rw [h] at hc
    cases hc
  | cons d rest ih =>
    rw [Text.pieces] at h
    split at h
    · rcases List.mem_cons.1 h with rfl | h
      · cases hc
      · exact List.mem_cons_of_mem d (ih h hc)
    · split at h
      · rw [List.mem_singleton] at h
        rw [h] at hc
        exact List.mem_append_left rest hc
      · next first more hpieces =>
        rw [hpieces] at ih
        rcases List.mem_cons.1 h with rfl | h
        · rcases List.mem_cons.1 hc with rfl | hc
          · exact List.mem_cons_self
          · exact List.mem_cons_of_mem d (ih List.mem_cons_self hc)
        · exact List.mem_cons_of_mem d (ih (List.mem_cons_of_mem _ h) hc)

theorem mem_of_mem_newlineLines {cs line : List Char} (h : line ∈ Text.newlineLines cs) {c : Char}
    (hc : c ∈ line) : c ∈ cs := by
  unfold Text.newlineLines at h
  dsimp only at h
  split at h
  · exact mem_of_mem_pieces (List.mem_of_mem_dropLast h) hc
  · exact mem_of_mem_pieces h hc

theorem HeredocBody.mem_of_read {o : HeredocOpener} {cs : List Char} {body : HeredocBody}
    (h : HeredocBody.read o cs = some body) {line : List Char} (hline : line ∈ body.lines)
    {c : Char} (hc : c ∈ line) : c ∈ cs := by
  unfold HeredocBody.read at h
  dsimp only at h
  split at h
  · cases h
  · cases h
    exact mem_of_mem_newlineLines ((List.takeWhile_prefix _).subset hline) hc

theorem mem_unlines {lines : List (List Char)} {c : Char} :
    c ∈ Text.unlines lines ↔ ∃ line ∈ lines, c ∈ line ∨ c = '\n' := by
  simp [Text.unlines]

/-- The text of a heredoc is made of its lines and newlines. -/
theorem HeredocOpener.mem_text {o : HeredocOpener} {lines : List (List Char)} {c : Char}
    (h : c ∈ o.text lines) : c = '\n' ∨ ∃ line ∈ lines, c ∈ line := by
  unfold HeredocOpener.text at h
  split at h
  · obtain ⟨line, hline, hc | hc⟩ := mem_unlines.1 h
    · unfold Text.withoutMargin at hline
      obtain ⟨whole, hwhole, rfl⟩ := List.mem_map.1 hline
      split at hc
      · cases hc
      · exact .inr ⟨whole, hwhole, List.mem_of_mem_drop hc⟩
    · exact .inl hc
  · obtain ⟨line, hline, hc | hc⟩ := mem_unlines.1 h
    · exact .inr ⟨line, hline, hc⟩
    · exact .inl hc

end Heredocs

/-! ## Tokens -/

/-- The code inside the string that a lexeme is. -/
def Lexeme.code : Lexeme → List Char
  | .string parts => codeChars parts
  | _ => []

def Front.code : Front → List Char
  | .lexeme x _ _ => x.code
  | .heredoc x _ _ => x.code
  | _ => []

/-- A number starts with a digit that has a place. -/
theorem frontNumber_ne_nil {c : Char} {more : List Char} (h : Text.isDecimalDigit c = true) :
    frontNumber (c :: more) ≠ [] := by
  have hdecimal : frontDecimal (c :: more) ≠ [] := by
    have hc : isDigitChar c = true := by simp [isDigitChar, h]
    simp [frontDecimal, hc]
  unfold frontNumber
  split
  · simpa [h] using hdecimal
  · next hex hne => exact hne

namespace Lexer

variable {p : Char → Prop} {l l' : Lexer} {c : Char} {more : List Char} {t : Option Token}
  {ts : List Token}

/-- Code that is found has the property, and a fault is reported. -/
def FrontKeeps (p : Char → Prop) : Except Malformed Front → Prop
  | .ok f => ∀ c ∈ f.code, p c
  | .error e => e.isReported = true

theorem frontKeeps_of_code {f : Front} (h : f.code = []) : FrontKeeps p (.ok f) := by
  intro c hc
  rw [h] at hc
  cases hc

theorem frontOperator_keeps (c : Char) (more : List Char) :
    FrontKeeps p (frontOperator c more) := by
  unfold frontOperator
  split
  · exact frontKeeps_of_code rfl
  · rfl

theorem frontSingleQuoted_keeps (more : List Char) : FrontKeeps p (frontSingleQuoted more) := by
  unfold frontSingleQuoted
  split
  · exact frontKeeps_of_code rfl
  · rfl

theorem frontString_keeps (marks : Delimiters) (h : ∀ c ∈ more, p c) :
    FrontKeeps p (frontString marks more) := by
  have hparts := readDelimited_partsIn marks more
  unfold frontString
  cases hread : readDelimited marks more with
  | error e =>
    rw [hread] at hparts
    exact hparts
  | ok r =>
    rw [hread] at hparts
    intro c hc
    exact h c (hparts hc)

theorem frontSymbol_keeps (more : List Char) : FrontKeeps p (frontSymbol more) := by
  unfold frontSymbol
  split
  · split
    · exact frontKeeps_of_code rfl
    · rfl
  · next body =>
    have hparts := readDelimited_partsIn (.same '"') body
    cases hread : readDelimited (.same '"') body with
    | error e =>
      rw [hread] at hparts
      exact hparts
    | ok r => exact frontKeeps_of_code rfl
  · exact frontKeeps_of_code rfl

theorem frontPercent_keeps (letter : Option Char) (opener : Char) (h : ∀ c ∈ more, p c) :
    FrontKeeps p (frontPercent letter opener more) := by
  unfold frontPercent
  dsimp only
  split
  · split
    · rfl
    · apply frontKeeps_of_code
      split <;> rfl
  · generalize hbody : more.drop (letter.toList.length + 1) = body
    have hparts := readDelimited_partsIn (.ofOpener opener) body
    cases hread : readDelimited (.ofOpener opener) body with
    | error e =>
      rw [hread] at hparts
      exact hparts
    | ok r =>
      rw [hread] at hparts
      intro c hc
      dsimp only [Front.code] at hc
      split at hc
      · have hmem := hparts hc
        rw [← hbody] at hmem
        exact h c (List.mem_of_mem_drop hmem)
      · cases hc

theorem frontRegex_keeps (more : List Char) : FrontKeeps p (frontRegex more) := by
  have hparts := readDelimited_partsIn (.same '/') more
  unfold frontRegex
  cases hread : readDelimited (.same '/') more with
  | error e =>
    rw [hread] at hparts
    exact hparts
  | ok r => exact frontKeeps_of_code rfl

theorem frontSigil_keeps (c : Char) (more : List Char) : FrontKeeps p (frontSigil c more) := by
  unfold frontSigil
  dsimp only
  split
  · exact frontOperator_keeps c more
  · exact frontKeeps_of_code rfl

theorem code_frontWord (l : Lexer) (cs : List Char) : (l.frontWord cs).code = [] := by
  unfold frontWord
  dsimp only
  split
  · rfl
  · dsimp only [Front.code]
    split
    · split <;> rfl
    · split <;> rfl

/-- The property holds of all characters that are left to read. -/
structure Keeps (p : Char → Prop) (l : Lexer) : Prop where
  rest : ∀ c ∈ l.rest, p c
  resume : ∀ r, l.resume = some r → ∀ c ∈ r.rest, p c

theorem Keeps.bodyStart (h : l.Keeps p) (opener : HeredocOpener) :
    ∀ c ∈ (l.bodyStart opener).rest, p c := by
  unfold Lexer.bodyStart
  cases hresume : l.resume with
  | none =>
    intro c hc
    exact h.rest c (List.mem_of_mem_drop hc)
  | some r => exact h.resume r hresume

section Step

variable (hnewline : p '\n') (hnul : p '\x00')

include hnewline hnul

theorem frontHeredoc_keeps (h : l.Keeps p) (opener : HeredocOpener) :
    FrontKeeps p (l.frontHeredoc opener) := by
  rw [frontHeredoc_eq]
  split
  · rfl
  · split
    · rfl
    · next body hbody =>
      -- the lines of the body come from what is left
      have htext : ∀ c ∈ opener.text body.lines, p c := by
        intro c hc
        rcases HeredocOpener.mem_text hc with rfl | ⟨line, hline, hmem⟩
        · exact hnewline
        · exact h.bodyStart opener c (HeredocBody.mem_of_read hbody hline hmem)
      unfold HeredocOpener.parts
      split
      · exact frontKeeps_of_code rfl
      · have hparts := readDelimited_partsIn (.same '\x00')
          (opener.text body.lines ++ ['\x00'])
        cases hread : readDelimited (.same '\x00') (opener.text body.lines ++ ['\x00']) with
        | error e =>
          rw [hread] at hparts
          exact hparts
        | ok r =>
          rw [hread] at hparts
          intro c hc
          rcases List.mem_append.1 (hparts hc) with hmem | hmem
          · exact htext c hmem
          · rw [List.mem_singleton] at hmem
            exact hmem ▸ hnul

variable (hdigit : ∀ c, p c → Text.isDigit c = true → Text.isDecimalDigit c = true)

include hdigit

/-- The code inside a string at the front has the property, and a fault there is reported. -/
theorem Keeps.front (h : l.Keeps p) (hr : l.rest = c :: more) :
    FrontKeeps p (l.front c more) := by
  have hc : p c := h.rest c (by simp [hr])
  have hmore : ∀ d ∈ more, p d := fun d hd => h.rest d (by simp [hr, hd])
  unfold Lexer.front
  split
  · exact frontKeeps_of_code rfl
  · exact frontKeeps_of_code rfl
  · exact frontKeeps_of_code rfl
  · split
    · exact frontKeeps_of_code rfl
    · exact frontOperator_keeps ..
  · exact frontKeeps_of_code rfl
  · exact frontKeeps_of_code rfl
  · exact frontKeeps_of_code rfl
  · exact frontSingleQuoted_keeps more
  · exact frontString_keeps _ hmore
  · exact frontString_keeps _ hmore
  · split
    · exact frontSymbol_keeps more
    · exact frontOperator_keeps ..
  · split
    · split
      · exact frontPercent_keeps _ _ hmore
      · exact frontOperator_keeps ..
    · exact frontOperator_keeps ..
  · split
    · exact frontRegex_keeps more
    · exact frontOperator_keeps ..
  · split
    · split
      · exact frontHeredoc_keeps hnewline hnul h _
      · exact frontOperator_keeps ..
    · exact frontOperator_keeps ..
  · exact frontSigil_keeps ..
  · exact frontSigil_keeps ..
  · split
    · next hd =>
      split
      · next hnone => exact absurd hnone (frontNumber_ne_nil (hdigit c hc hd))
      · exact frontKeeps_of_code rfl
    · split
      · exact frontKeeps_of_code (code_frontWord l _)
      · exact frontOperator_keeps ..

/-- A step goes on in characters with the property, and so does the code in its token. -/
theorem Keeps.step (h : l.Keeps p) (hr : l.rest = c :: more)
    (hs : l.step c more = .ok (t, l')) :
    l'.Keeps p ∧ ∀ u ∈ t.toList, ∀ d ∈ u.lexeme.code, p d := by
  have hfront := h.front hnewline hnul hdigit hr
  have hadvance (used : Nat) : ∀ d ∈ l.rest.tail.drop used, p d := fun d hd =>
    h.rest d (List.mem_of_mem_tail (List.mem_of_mem_drop hd))
  obtain ⟨used, lines, -, rfl, rfl⟩ | ⟨x, used, lines, hf, rfl, rfl⟩ | ⟨-, rfl, rfl⟩ |
    ⟨x, used, resume, hf, rfl, rfl⟩ := step_cases hs
  · exact ⟨⟨hadvance used, h.resume⟩, by simp⟩
  · rw [hf] at hfront
    refine ⟨⟨hadvance used, h.resume⟩, ?_⟩
    intro u hu
    rw [Option.toList_some, List.mem_singleton] at hu
    rw [hu]
    exact hfront
  · constructor
    · unfold jump
      split
      · next r hresume =>
        split
        · exact ⟨h.resume r hresume, by rintro r ⟨⟩⟩
        · exact ⟨hadvance 0, h.resume⟩
      · exact ⟨hadvance 0, h.resume⟩
    · intro u hu d hd
      rw [Option.toList_some, List.mem_singleton] at hu
      rw [hu] at hd
      cases hd
  · rw [hf] at hfront
    constructor
    · refine ⟨hadvance used, ?_⟩
      rintro r ⟨⟩
      obtain ⟨opener, hopener⟩ := front_eq_heredoc hr hf
      obtain ⟨-, body, parts, -, -, heq⟩ := frontHeredoc_eq_ok.1 hopener
      cases heq
      intro d hd
      exact h.bodyStart opener d (List.mem_of_mem_drop hd)
    · intro u hu
      rw [Option.toList_some, List.mem_singleton] at hu
      rw [hu]
      exact hfront

theorem Reads.keeps (h : Reads l ts l') (hl : l.Keeps p) :
    l'.Keeps p ∧ ∀ u ∈ ts, ∀ d ∈ u.lexeme.code, p d := by
  induction h with
  | refl l => exact ⟨hl, by simp⟩
  | step hr hs _ ih =>
    obtain ⟨hnext, htoken⟩ := hl.step hnewline hnul hdigit hr hs
    obtain ⟨hend, htokens⟩ := ih hnext
    refine ⟨hend, ?_⟩
    intro u hu
    rcases List.mem_append.1 hu with hu | hu
    · exact htoken u hu
    · exact htokens u hu

end Step

theorem keeps_start {source : List Char} (h : ∀ c ∈ source, p c) : (start source).Keeps p :=
  ⟨h, by rintro r ⟨⟩⟩

end Lexer

/-! ## Texts whose digits have places -/

/-- Every digit of the text can stand in a positional number. -/
def HasPlaces (text : List Char) : Prop :=
  ∀ c ∈ text, Text.isDigit c = true → Text.isDecimalDigit c = true

theorem hasPlaces_iff_all {text : List Char} :
    (text.all fun c => !Text.isDigit c || Text.isDecimalDigit c) = true ↔ HasPlaces text := by
  simp only [HasPlaces, List.all_eq_true, Bool.or_eq_true, Bool.not_eq_true', ← Bool.not_eq_true,
    imp_iff_not_or]

instance : DecidablePred HasPlaces := fun _ =>
  decidable_of_iff _ hasPlaces_iff_all

/-- A text whose digits have places has such texts for the code in its tokens, and its faults are
reported. -/
theorem lexable_of_places :
    Lexable (fun _ => HasPlaces) fun f => f.cause.isReported = true where
  fault {lines text f} hfits h := by
    have hkeeps := Lexer.keeps_start hfits
    unfold tokenize at h
    cases hrun : (Lexer.start text).run with
    | ok tokens =>
      rw [hrun] at h
      cases h
    | error fault =>
      obtain ⟨line, e⟩ := fault
      rw [hrun] at h
      cases h
      obtain ⟨ts, l, c, more, hreads, hr, hs, -⟩ := Lexer.run_eq_error hrun
      have hend := (hreads.keeps (by decide) (by decide) (fun _ h => h) hkeeps).1
      have hfront := hend.front (by decide) (by decide) (fun _ h => h) hr
      unfold Lexer.step at hs
      cases hf : l.front c more with
      | ok f =>
        rw [hf] at hs
        cases hs
      | error cause =>
        rw [hf] at hs hfront
        cases hs
        exact hfront
  code {lines text tokens} hfits h := by
    obtain ⟨ts, l, hreads, -, rfl⟩ := Lexer.run_eq_ok (tokenize_eq_ok.1 h)
    have htokens := (hreads.keeps (by decide) (by decide) (fun _ h => h)
      (Lexer.keeps_start hfits)).2
    intro t ht parts hparts code hcode c hc
    rcases List.mem_append.1 ht with ht | ht
    · apply htokens t ht c
      rw [hparts]
      exact mem_codeChars hcode hc
    · rw [List.mem_singleton] at ht
      rw [ht] at hparts
      cases hparts

end RecipeManifest

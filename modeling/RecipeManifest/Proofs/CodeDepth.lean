import RecipeManifest.Proofs.PaddedValues
import RecipeManifest.Proofs.TokenLines

/-!
How deep strings with code nest in each other.

The code inside a string is shorter than the text that the string stands in (`length_code_lt`), so
strings nest no deeper in each other than there are characters. A depth that is at least the length
of the code is as good as any greater one (`codeValue_eq`).
-/

namespace RecipeManifest

/-! ## The length of code in strings -/

/-- The code among the parts is shorter than what was read. -/
theorem length_codeChars_lt {marks : Delimiters} {place : Inside} {cs : List Char}
    {r : Reading (List Part)} (h : readParts marks place cs = .ok r) :
    (codeChars r.value).length < r.used := by
  fun_induction readParts marks place cs generalizing r with
  | case1 | case8 | case9 => cases h
  | case5 =>
    cases h
    exact Nat.one_pos
  | case2 _ _ _ ih | case4 _ _ _ _ _ _ ih | case6 _ _ _ _ _ ih | case7 _ _ _ _ _ _ _ ih =>
    obtain ⟨s, hs, rfl⟩ := map_eq_ok_iff.1 h
    have := ih hs
    simp only [Reading.after, codeChars_consText]
    omega
  | case3 _ _ ih =>
    obtain ⟨s, hs, rfl⟩ := map_eq_ok_iff.1 h
    have := ih hs
    simp only [Reading.after, id]
    omega
  | case10 _ _ _ _ _ ih =>
    obtain ⟨s, hs, rfl⟩ := map_eq_ok_iff.1 h
    have := ih hs
    simp only [Reading.after, Function.comp_apply, codeChars_consCode, List.length_cons]
    omega
  | case12 _ _ ih =>
    obtain ⟨s, hs, rfl⟩ := map_eq_ok_iff.1 h
    have := ih hs
    show (codeChars s.value).length < 1 + s.used
    omega
  | case11 _ _ _ _ _ _ _ ih | case13 _ _ _ ih | case14 _ _ _ ih =>
    obtain ⟨s, hs, rfl⟩ := map_eq_ok_iff.1 h
    have := ih hs
    simp only [Reading.after, codeChars_consCode, List.length_cons]
    omega
  | case15 =>
    rename_i ih
    obtain ⟨s, hs, rfl⟩ := map_eq_ok_iff.1 h
    have := ih hs
    simp only [Reading.after, codeChars_consCode, List.length_cons]
    omega

theorem length_codeChars_readDelimited {marks : Delimiters} {cs : List Char}
    {r : Reading (List Part)} (h : readDelimited marks cs = .ok r) :
    (codeChars r.value).length < cs.length := by
  have hle := (readDelimited_within h).2
  obtain ⟨s, hs, rfl⟩ := map_eq_ok_iff.1 h
  have hlt := length_codeChars_lt hs
  have hvalue : codeChars (if s.value.isEmpty then [.text []] else s.value) = codeChars s.value := by
    split
    · next hnil => simp [List.isEmpty_iff.1 hnil, codeChars]
    · rfl
  simp only [Reading.map, hvalue] at hle ⊢
  omega

theorem length_unlines_map_le {f : List Char → List Char} (hf : ∀ l, (f l).length ≤ l.length)
    (lines : List (List Char)) :
    (Text.unlines (lines.map f)).length ≤ (Text.unlines lines).length := by
  induction lines with
  | nil => exact Nat.le_refl _
  | cons line rest ih =>
    have := hf line
    simp only [Text.unlines, List.map_cons, List.flatMap_cons, List.length_append] at ih ⊢
    omega

theorem HeredocOpener.length_text_le (o : HeredocOpener) (lines : List (List Char)) :
    (o.text lines).length ≤ (Text.unlines lines).length := by
  unfold text
  split
  · apply length_unlines_map_le
    intro line
    split
    · exact Nat.zero_le _
    · rw [List.length_drop]
      omega
  · exact Nat.le_refl _

/-- The lines of a body with their ends are no longer than the text they are read from. -/
theorem HeredocBody.length_lines_le {o : HeredocOpener} {cs : List Char} {body : HeredocBody}
    (h : HeredocBody.read o cs = some body) : (Text.unlines body.lines).length ≤ cs.length := by
  -- a newline that is missing at the end makes no difference
  obtain ⟨whole, hwhole, hread, hlength⟩ : ∃ whole, Whole whole ∧
      HeredocBody.read o whole = some body ∧ whole.length ≤ cs.length + 1 := by
    by_cases hcs : Whole cs
    · exact ⟨cs, hcs, h, Nat.le_succ _⟩
    · refine ⟨cs ++ ['\n'], .inr (by simp [EndsLine]), ?_, by simp⟩
      unfold HeredocBody.read at h ⊢
      rwa [Text.newlineLines_append_newline hcs]
  obtain ⟨lines, hlines, rfl⟩ := hwhole.exists_lines
  obtain ⟨last, tail, rfl, -⟩ := read_eq_some hlines hread
  simp only [Text.unlines, List.flatMap_append, List.length_append, List.flatMap_singleton,
    List.length_singleton] at hlength
  simp only [Text.unlines]
  omega

namespace Lexer

variable {l l' : Lexer} {c : Char} {more : List Char} {f : Front} {t : Option Token}
  {ts : List Token} {length : Nat}

theorem frontHeredoc_code_lt (hl : l.Placed length) (hbound : l.bound ≤ length)
    {opener : HeredocOpener} (h : l.frontHeredoc opener = .ok f) : f.code.length < length := by
  obtain ⟨hle, body, parts, hbody, hparts, rfl⟩ := frontHeredoc_eq_ok.1 h
  have hstart := (hl.bodyStart hle).2
  have hlines := HeredocBody.length_lines_le hbody
  have htext := opener.length_text_le body.lines
  show (codeChars parts).length < length
  unfold HeredocOpener.parts at hparts
  split at hparts
  · cases hparts
    show 0 < length
    omega
  · obtain ⟨r, hr, rfl⟩ := map_eq_ok_iff.1 hparts
    have hcode := length_codeChars_readDelimited hr
    simp only [List.length_append, List.length_singleton] at hcode
    omega

/-- What has no code with any property has none. -/
theorem code_eq_nil {x : Except Malformed Front} (hx : FrontKeeps (fun _ => False) x)
    (h : x = .ok f) : f.code = [] := by
  rw [h] at hx
  exact List.eq_nil_iff_forall_not_mem.2 hx

theorem frontPercent_code_lt {letter : Option Char} {opener : Char} (hmore : more.length < length)
    (h : frontPercent letter opener more = .ok f) : f.code.length < length := by
  have hpos : 0 < length := by omega
  unfold frontPercent at h
  dsimp only at h
  split at h
  · split at h
    · cases h
    · cases h
      dsimp only [Front.code]
      split <;> exact hpos
  · obtain ⟨r, hr, rfl⟩ := map_eq_ok_iff.1 h
    have hcode := length_codeChars_readDelimited hr
    rw [List.length_drop] at hcode
    dsimp only [Front.code]
    split
    · show (codeChars r.value).length < length
      omega
    · exact hpos

/-- The code in a string at the front is shorter than the text. -/
theorem front_code_lt (hl : l.Placed length) (hbound : l.bound ≤ length) (hr : l.rest = c :: more)
    (h : l.front c more = .ok f) : f.code.length < length := by
  have hmore : more.length < length := by
    have := hl.rest
    rw [hr, List.length_cons] at this
    omega
  have hnone {x : Except Malformed Front} (hx : FrontKeeps (fun _ => False) x) (h : x = .ok f) :
      f.code.length < length := by
    rw [code_eq_nil hx h, List.length_nil]
    omega
  have hmark (h : frontOperator c more = .ok f) := hnone (frontOperator_keeps c more) h
  have hstring {marks : Delimiters} (h : frontString marks more = .ok f) :
      f.code.length < length := by
    obtain ⟨r, hr, rfl⟩ := map_eq_ok_iff.1 h
    exact Nat.lt_trans (length_codeChars_readDelimited hr) hmore
  unfold front at h
  split at h
  · exact hnone (frontKeeps_of_code rfl) h
  · exact hnone (frontKeeps_of_code rfl) h
  · exact hnone (frontKeeps_of_code rfl) h
  · split at h
    · exact hnone (frontKeeps_of_code rfl) h
    · exact hmark h
  · exact hnone (frontKeeps_of_code rfl) h
  · exact hnone (frontKeeps_of_code rfl) h
  · exact hnone (frontKeeps_of_code rfl) h
  · exact hnone (frontSingleQuoted_keeps more) h
  · exact hstring h
  · exact hstring h
  · split at h
    · exact hnone (frontSymbol_keeps more) h
    · exact hmark h
  · split at h
    · split at h
      · exact frontPercent_code_lt hmore h
      · exact hmark h
    · exact hmark h
  · split at h
    · exact hnone (frontRegex_keeps more) h
    · exact hmark h
  · split at h
    · split at h
      · exact frontHeredoc_code_lt hl hbound h
      · exact hmark h
    · exact hmark h
  · exact hnone (frontSigil_keeps _ more) h
  · exact hnone (frontSigil_keeps _ more) h
  · split at h
    · split at h
      · cases h
      · exact hnone (frontKeeps_of_code rfl) h
    · split at h
      · exact hnone (frontKeeps_of_code (code_frontWord l _)) h
      · exact hmark h

theorem bound_le_of_step (hl : l.Placed length) (hbound : l.bound ≤ length)
    (hs : l.step c more = .ok (t, l')) : l'.bound ≤ length := by
  obtain ⟨used, lines, -, rfl, rfl⟩ | ⟨x, used, lines, -, rfl, rfl⟩ | ⟨-, rfl, rfl⟩ |
    ⟨x, used, resume, -, rfl, rfl⟩ := step_cases hs
  · exact hbound
  · exact hbound
  · cases hresume : l.resume with
    | none =>
      rw [jump_of_resume_none hresume]
      exact hbound
    | some r =>
      have hpos := (hl.resume r hresume).1
      rw [hl.jump_of_resume hresume]
      show r.rest.length ≤ length
      omega
  · exact hbound

theorem Reads.code_lt (h : Reads l ts l') (hl : l.Placed length) (hbound : l.bound ≤ length) :
    ∀ u ∈ ts, u.lexeme.code.length < length := by
  induction h with
  | refl l => simp
  | @step l l₁ l' c more t ts hr hs _ ih =>
    intro u hu
    rcases List.mem_append.1 hu with hu | hu
    · have hpos : 0 < length := by
        have := hl.rest
        rw [hr, List.length_cons] at this
        omega
      obtain ⟨used, lines, -, rfl, -⟩ | ⟨x, used, lines, hf, rfl, -⟩ | ⟨-, rfl, -⟩ |
        ⟨x, used, resume, hf, rfl, -⟩ := step_cases hs
      · cases hu
      · cases List.mem_singleton.1 hu
        exact front_code_lt hl hbound hr hf
      · cases List.mem_singleton.1 hu
        exact hpos
      · cases List.mem_singleton.1 hu
        exact front_code_lt hl hbound hr hf
    · exact ih (hl.step hr hs) (bound_le_of_step hl hbound hs) u hu

end Lexer

open Lexer in
/-- The code inside the strings of a text is shorter than the text. -/
theorem length_code_lt {lines : LineMap} {text : List Char} {tokens : List Token}
    (h : tokenize lines text = .ok tokens) {t : Token} (ht : t ∈ tokens) {parts : List Part}
    (hparts : t.lexeme = .string parts) {code : List Char} (hcode : Part.code code ∈ parts) :
    code.length < text.length := by
  obtain ⟨ts, l, hreads, -, rfl⟩ := run_eq_ok (tokenize_eq_ok.1 h)
  have hin : List.Sublist code (codeChars parts) := by
    obtain ⟨before, after, rfl⟩ := List.append_of_mem hcode
    simp only [codeChars, List.flatMap_append, List.flatMap_cons]
    exact (List.sublist_append_left _ _).trans (List.sublist_append_right _ _)
  rcases List.mem_append.1 ht with ht | ht
  · have hlt := hreads.code_lt (placed_start text) (Nat.le_refl _) t ht
    rw [hparts] at hlt
    exact Nat.lt_of_le_of_lt hin.length_le hlt
  · cases List.mem_singleton.1 ht
    cases hparts

/-! ## The value of code -/

/-- No code is kept as no text. -/
theorem codeValue_nil (depth : Nat) : codeValue depth [] = .ok (.literal .code "") := by
  cases depth with
  | zero => rfl
  | succ depth =>
    have htokens : tokenize [] [] = .ok [⟨.eof, 1, 0, 0, false⟩] :=
      tokenize_eq_ok.2 (Lexer.run_nil rfl)
    have hexpression : expression (codeValue depth) 0 (afterBreaks [⟨.eof, 1, 0, 0, false⟩]) =
        .error .endOfBlock := by
      show expression (codeValue depth) 0 [⟨.eof, 1, 0, 0, false⟩] = _
      rw [expression, unary, primary.eq_def]
      rfl
    simp only [codeValue, htokens, hexpression]
    rfl

/-- A depth that is at least the length of the code is deep enough. -/
theorem codeValue_eq {code : List Char} {depth depth' : Nat} (h : code.length ≤ depth)
    (h' : code.length ≤ depth') : codeValue depth' code = codeValue depth code := by
  induction depth generalizing code depth' with
  | zero =>
    have hnil : code = [] := List.eq_nil_of_length_eq_zero (Nat.le_zero.1 h)
    rw [hnil, codeValue_nil, codeValue_nil]
  | succ depth ih =>
    cases depth' with
    | zero =>
      have hnil : code = [] := List.eq_nil_of_length_eq_zero (Nat.le_zero.1 h')
      rw [hnil, codeValue_nil, codeValue_nil]
    | succ depth' =>
      rw [codeValue, codeValue]
      cases htokens : tokenize [] code with
      | error f => rfl
      | ok tokens =>
        -- the code in the strings of the code is shorter
        have hpadded : (Padding.mk (codeValue depth) (codeValue depth') fun _ => False).Padded
            tokens tokens := by
          apply Padding.Padded.of_forall₂
          rw [List.forall₂_same]
          refine fun t ht => ⟨rfl, rfl, ?_⟩
          intro parts hparts inner hinner
          have hlt := length_code_lt htokens ht hparts hinner
          exact ih (by omega) (by omega)
        have hbreaks := hpadded.afterBreaks.padded
        obtain ⟨e, hts, hus⟩ | ⟨a, _, rest, rest', hts, hus, rfl, hleaves⟩ :=
          (Padding.matched_expression 0 _ _ hbreaks).cases
        · dsimp only at hts hus ⊢
          rw [hts, hus]
        · dsimp only at hts hus ⊢
          rw [hts, hus]
          dsimp only
          rw [atEnd, atEnd, hleaves.padded.afterBreaks.padded.peek]

end RecipeManifest

import RecipeManifest.Proofs.ReportedFaults
import RecipeManifest.Proofs.TokenComposition

/-!
The lines on which faults are reported.

The lexer counts the newlines it passes, and the lines of a heredoc's body when it jumps behind
them, so it never counts more lines than it has passed (`Accounted`), unless the line that announces
a heredoc is run over: then the newlines of the body are counted twice (`overruns`). Code in the
strings of a block is read with no place in the file. Main statement (`reported_line_in_block`): a
fault in the text of a block is reported on one of the block's lines, unless such a line is run
over, and a fault in the code of a string is reported on a line counted from the start of the code.
-/

namespace RecipeManifest

/-! ## Lines that are counted -/

namespace Reading

variable {α β : Type} {r : Reading α} {rest : List Char}

/-- No more line ends are counted than there are among the characters used. -/
def Counted (r : Reading α) (cs : List Char) : Prop :=
  r.lines ≤ (cs.take r.used).count '\n'

theorem Counted.after_one (h : r.Counted rest) (f : α → β) {lines : Nat} (c : Char)
    (hlines : lines ≤ lineEnds c) : (r.after f 1 lines).Counted (c :: rest) := by
  unfold Counted at h ⊢
  simp only [after, Nat.add_comm 1, List.take_succ_cons, List.count_cons, beq_iff_eq]
  unfold lineEnds at hlines
  omega

theorem Counted.after_two (h : r.Counted rest) (f : α → β) {lines : Nat} (c d : Char)
    (hlines : lines ≤ lineEnds d) : (r.after f 2 lines).Counted (c :: d :: rest) := by
  unfold Counted at h ⊢
  simp only [after, Nat.add_comm 2, List.take_succ_cons, List.count_cons, beq_iff_eq]
  unfold lineEnds at hlines
  omega

end Reading

theorem readSingleQuoted_counted {cs : List Char} {r : Reading (List Char)}
    (h : readSingleQuoted cs = some r) : r.Counted cs := by
  fun_induction readSingleQuoted cs generalizing r with
  | case1 => cases h
  | case2 rest ih | case3 rest ih =>
    obtain ⟨s, hs, rfl⟩ := Option.map_eq_some_iff.1 h
    exact (ih hs).after_two _ _ _ (Nat.zero_le _)
  | case4 rest =>
    cases h
    exact Nat.zero_le _
  | case5 c rest _ _ _ ih =>
    obtain ⟨s, hs, rfl⟩ := Option.map_eq_some_iff.1 h
    exact (ih hs).after_one _ _ (Nat.le_refl _)

theorem readRaw_counted {marks : Delimiters} {depth : Nat} {cs : List Char}
    {r : Reading (List Char)} (h : readRaw marks depth cs = some r) : r.Counted cs := by
  fun_induction readRaw marks depth cs generalizing r with
  | case1 | case2 => cases h
  | case3 depth c rest ih =>
    obtain ⟨s, hs, rfl⟩ := Option.map_eq_some_iff.1 h
    exact (ih hs).after_two _ _ _ (Nat.zero_le _)
  | case5 =>
    cases h
    exact Nat.zero_le _
  | case4 _ _ _ _ _ _ ih | case6 _ _ _ _ _ ih | case7 _ _ _ _ _ _ _ ih =>
    obtain ⟨s, hs, rfl⟩ := Option.map_eq_some_iff.1 h
    exact (ih hs).after_one _ _ (Nat.le_refl _)

theorem readParts_counted {marks : Delimiters} {place : Inside} {cs : List Char}
    {r : Reading (List Part)} (h : readParts marks place cs = .ok r) : r.Counted cs := by
  fun_induction readParts marks place cs generalizing r with
  | case1 | case8 | case9 => cases h
  | case5 =>
    cases h
    exact Nat.zero_le _
  | case2 _ _ _ ih =>
    obtain ⟨s, hs, rfl⟩ := map_eq_ok_iff.1 h
    exact (ih hs).after_two _ _ _ (Nat.le_refl _)
  | case3 _ _ ih | case10 _ _ _ _ _ ih =>
    obtain ⟨s, hs, rfl⟩ := map_eq_ok_iff.1 h
    exact (ih hs).after_two _ _ _ (Nat.zero_le _)
  | case4 _ _ _ _ _ _ ih | case6 _ _ _ _ _ ih | case7 _ _ _ _ _ _ _ ih =>
    obtain ⟨s, hs, rfl⟩ := map_eq_ok_iff.1 h
    exact (ih hs).after_one _ _ (Nat.le_refl _)
  | case11 _ _ _ _ _ _ _ ih | case12 _ _ ih | case13 _ _ _ ih | case14 _ _ _ ih =>
    obtain ⟨s, hs, rfl⟩ := map_eq_ok_iff.1 h
    exact (ih hs).after_one _ _ (Nat.zero_le _)
  | case15 =>
    rename_i ih
    obtain ⟨s, hs, rfl⟩ := map_eq_ok_iff.1 h
    exact (ih hs).after_one _ _ (Nat.zero_le _)

theorem readDelimited_counted {marks : Delimiters} {cs : List Char} {r : Reading (List Part)}
    (h : readDelimited marks cs = .ok r) : r.Counted cs := by
  obtain ⟨s, hs, rfl⟩ := map_eq_ok_iff.1 h
  exact readParts_counted (r := s) hs

/-- How many line ends are counted for it. -/
def Front.lines : Front → Nat
  | .blank _ lines | .lexeme _ _ lines => lines
  | .newline | .heredoc .. => 0

/-- What is counted from a place on is counted in the text from before it. -/
theorem Reading.Counted.le_count {α : Type} {r : Reading α} (cs : List Char) (skipped : Nat)
    {used : Nat} (h : r.Counted (cs.drop skipped)) (hused : skipped + r.used ≤ used) :
    r.lines ≤ (cs.take used).count '\n' := by
  have hpart : List.Sublist ((cs.drop skipped).take r.used) (cs.take used) := by
    rw [List.take_drop]
    exact (List.drop_sublist _ _).trans (List.take_prefix_take_left hused).sublist
  exact Nat.le_trans h (hpart.count_le _)

namespace Lexer

variable {l : Lexer} {c : Char} {more : List Char} {f : Front}

theorem frontOperator_lines (h : frontOperator c more = .ok f) : f.lines = 0 := by
  unfold frontOperator at h
  split at h <;> cases h
  rfl

theorem frontSigil_lines (h : frontSigil c more = .ok f) : f.lines = 0 := by
  unfold frontSigil at h
  dsimp only at h
  split at h
  · exact frontOperator_lines h
  · cases h
    rfl

theorem frontHeredoc_lines {opener : HeredocOpener} (h : l.frontHeredoc opener = .ok f) :
    f.lines = 0 := by
  obtain ⟨-, _, _, -, -, rfl⟩ := frontHeredoc_eq_ok.1 h
  rfl

theorem frontSymbol_lines (h : frontSymbol more = .ok f) :
    f.lines ≤ ((':' :: more).take (f.used + 1)).count '\n' := by
  unfold frontSymbol at h
  split at h
  · next body =>
    split at h
    · next r hr =>
      cases h
      exact Reading.Counted.le_count (':' :: '\'' :: body) 2 (readSingleQuoted_counted hr)
        (by simp only [Front.used]; omega)
    · cases h
  · next body =>
    obtain ⟨r, hr, rfl⟩ := map_eq_ok_iff.1 h
    exact Reading.Counted.le_count (':' :: '"' :: body) 2 (readDelimited_counted hr)
      (by simp only [Front.used]; omega)
  · cases h
    exact Nat.zero_le _

theorem frontPercent_lines {letter : Option Char} {opener : Char}
    (h : frontPercent letter opener more = .ok f) :
    f.lines ≤ (('%' :: more).take (f.used + 1)).count '\n' := by
  unfold frontPercent at h
  dsimp only at h
  split at h
  · split at h
    · cases h
    · next r hr =>
      cases h
      exact Reading.Counted.le_count ('%' :: more) (letter.toList.length + 1 + 1)
        (readRaw_counted hr) (by simp only [Front.used]; omega)
  · obtain ⟨r, hr, rfl⟩ := map_eq_ok_iff.1 h
    exact Reading.Counted.le_count ('%' :: more) (letter.toList.length + 1 + 1)
      (readDelimited_counted hr) (by simp only [Front.used]; omega)

theorem frontWord_lines (l : Lexer) (cs : List Char) : (l.frontWord cs).lines = 0 := by
  unfold frontWord
  dsimp only
  split <;> rfl

/-- A step counts no more line ends than it passes. -/
theorem front_lines_le (h : l.front c more = .ok f) :
    f.lines ≤ ((c :: more).take (f.used + 1)).count '\n' := by
  have hnone (h : f.lines = 0) : f.lines ≤ ((c :: more).take (f.used + 1)).count '\n' :=
    h ▸ Nat.zero_le _
  have hmark (h : frontOperator c more = .ok f) := hnone (frontOperator_lines h)
  have hstring {marks : Delimiters} (h : frontString marks more = .ok f) :
      f.lines ≤ ((c :: more).take (f.used + 1)).count '\n' := by
    obtain ⟨r, hr, rfl⟩ := map_eq_ok_iff.1 h
    exact Reading.Counted.le_count (c :: more) 1 (readDelimited_counted hr)
      (by simp only [Front.used]; omega)
  unfold front at h
  split at h
  · cases h; exact hnone rfl
  · cases h; exact hnone rfl
  · cases h; exact hnone rfl
  · split at h
    · next hn =>
      cases h
      cases more with
      | nil => cases hn
      | cons d tail =>
        cases hn
        simp [Front.lines, Front.used]
    · exact hmark h
  · cases h; exact hnone rfl
  · cases h; exact hnone rfl
  · cases h; exact hnone rfl
  · unfold frontSingleQuoted at h
    split at h
    · next r hr =>
      cases h
      exact Reading.Counted.le_count ('\'' :: more) 1 (readSingleQuoted_counted hr)
        (by simp only [Front.used]; omega)
    · cases h
  · exact hstring h
  · exact hstring h
  · split at h
    · exact frontSymbol_lines h
    · exact hmark h
  · split at h
    · split at h
      · exact frontPercent_lines h
      · exact hmark h
    · exact hmark h
  · split at h
    · obtain ⟨r, hr, rfl⟩ := map_eq_ok_iff.1 h
      exact Reading.Counted.le_count ('/' :: more) 1 (readDelimited_counted hr)
        (by simp only [Front.used]; omega)
    · exact hmark h
  · split at h
    · split at h
      · exact hnone (frontHeredoc_lines h)
      · exact hmark h
    · exact hmark h
  · exact hnone (frontSigil_lines h)
  · exact hnone (frontSigil_lines h)
  · split at h
    · split at h
      · cases h
      · cases h; exact hnone rfl
    · split at h
      · cases h; exact hnone (frontWord_lines l _)
      · exact hmark h

/-! ## Lines of the lexer -/

/-- The lines counted and those that are left are no more than there are, also behind the body of a
heredoc that is pending. -/
structure Accounted (total : Nat) (l : Lexer) : Prop where
  rest : l.line + l.rest.count '\n' ≤ total + 1
  resume : ∀ r, l.resume = some r → l.line + 1 + r.lines + r.rest.count '\n' ≤ total + 1

theorem accounted_start (source : List Char) :
    (start source).Accounted (source.count '\n') :=
  ⟨by simp only [start]; omega, by rintro r ⟨⟩⟩

/-- While the body of a heredoc lies ahead, something other than the end of the line takes a
newline: a literal that runs on into the body, or a line that is continued. -/
def passesNewline (l l' : Lexer) : Bool :=
  l.resume.isSome && l.rest.head? != some '\n' && (l.rest.take (l'.pos - l.pos)).contains '\n'

/-- The line that announces a heredoc is run over somewhere in what is left. -/
def overruns (l : Lexer) : Bool :=
  match _hr : l.rest with
  | [] => false
  | c :: more =>
    match _h : l.step c more with
    | .error _ => false
    | .ok (_, next) => l.passesNewline next || next.overruns
termination_by l.remaining
decreasing_by exact remaining_step_lt _hr _h

variable {l' : Lexer} {t : Option Token} {ts : List Token} {total : Nat}

theorem Accounted.advance (h : l.Accounted total) {used lines : Nat}
    (hlines : lines ≤ (l.rest.take (used + 1)).count '\n')
    (hpending : l.resume.isSome → lines = 0) : (l.advance used lines).Accounted total := by
  have hsplit : l.rest.count '\n' =
      (l.rest.take (used + 1)).count '\n' + (l.rest.tail.drop used).count '\n' := by
    rw [← List.drop_one, List.drop_drop, Nat.add_comm 1, ← List.count_append,
      List.take_append_drop]
  refine ⟨?_, fun r hr => ?_⟩
  · have := h.rest
    simp only [Lexer.advance]
    omega
  · have := h.resume r hr
    simp only [Lexer.advance, hpending (by simp [show l.resume = some r from hr])]
    omega

theorem newline_mem_take {cs : List Char}
    (h : (cs.takeWhile (· != '\n')).length < cs.length) :
    '\n' ∈ cs.take ((cs.takeWhile (· != '\n')).length + 1) := by
  induction cs with
  | nil => cases h
  | cons d rest ih =>
    by_cases hd : d = '\n'
    · simp [hd]
    · simp only [List.takeWhile_cons, bne_iff_ne, ne_eq, hd, not_false_eq_true, if_true,
        List.length_cons, Nat.add_lt_add_iff_right] at h
      simp [hd, ih h]

/-- The line that announces a heredoc ends before the body. -/
theorem newline_mem_take_toBody {opener : HeredocOpener} (h : l.toBody opener ≤ l.rest.length) :
    '\n' ∈ l.rest.take (l.toBody opener) := by
  have hsplit : l.rest.take (l.toBody opener) = l.rest.take opener.length ++
      (l.rest.drop opener.length).take
        (((l.rest.drop opener.length).takeWhile (· != '\n')).length + 1) := by
    rw [Lexer.toBody, Nat.add_assoc, List.take_add]
  have hlen : ((l.rest.drop opener.length).takeWhile (· != '\n')).length <
      (l.rest.drop opener.length).length := by
    rw [List.length_drop]
    unfold Lexer.toBody at h
    omega
  rw [hsplit]
  apply List.mem_append_right
  exact newline_mem_take hlen

theorem Accounted.bodyStart (h : l.Accounted total) {opener : HeredocOpener}
    (hle : l.toBody opener ≤ l.rest.length) :
    l.line + 1 + (l.bodyStart opener).lines + (l.bodyStart opener).rest.count '\n' ≤
      total + 1 := by
  unfold Lexer.bodyStart
  cases hresume : l.resume with
  | none =>
    have hend := List.count_pos_iff.2 (newline_mem_take_toBody hle)
    have hsplit : l.rest.count '\n' = (l.rest.take (l.toBody opener)).count '\n' +
        (l.rest.drop (l.toBody opener)).count '\n' := by
      rw [← List.count_append, List.take_append_drop]
    have := h.rest
    simp only [Option.getD_none]
    omega
  | some r => exact h.resume r hresume

end Lexer

/-- A body in complete lines takes as many lines as are counted for it. -/
theorem HeredocBody.count_read {o : HeredocOpener} {cs : List Char} {body : HeredocBody}
    (hcs : Whole cs) (h : HeredocBody.read o cs = some body) :
    body.consumed + (cs.drop body.used).count '\n' = cs.count '\n' := by
  obtain ⟨lines, hlines, rfl⟩ := hcs.exists_lines
  obtain ⟨last, tail, rfl, -, -, hused, hconsumed⟩ := read_eq_some hlines h
  have hsplit : Text.unlines (body.lines ++ [last] ++ tail) =
      Text.unlines (body.lines ++ [last]) ++ Text.unlines tail := by
    simp [Text.unlines]
  have htail : ∀ line ∈ tail, '\n' ∉ line := fun line hline => hlines line (by simp [hline])
  rw [Text.count_unlines hlines, hsplit, hused, List.drop_left, Text.count_unlines htail,
    hconsumed]
  simp only [List.length_append, List.length_singleton]

namespace Lexer

variable {l l' : Lexer} {c : Char} {more : List Char} {t : Option Token} {ts : List Token}
  {total length : Nat}

theorem overruns_step (hr : l.rest = c :: more) (hs : l.step c more = .ok (t, l')) :
    l.overruns = (l.passesNewline l' || l'.overruns) := by
  rw [overruns]
  split
  · next h => rw [hr] at h; cases h
  · next c' more' h =>
    rw [hr] at h
    cases h
    split
    · next h' => rw [hs] at h'; cases h'
    · next h' => rw [hs] at h'; cases h'; rfl

theorem Accounted.step (h : l.Accounted total) (hin : l.InLines) (hplaced : l.Placed length)
    (hr : l.rest = c :: more) (hs : l.step c more = .ok (t, l'))
    (hno : l.passesNewline l' = false) : l'.Accounted total := by
  -- Where a heredoc is pending, what is no line end passes none.
  have hpending {f : Front} (hf : l.front c more = .ok f) (hc : c ≠ '\n')
      (hpos : l'.pos = l.pos + 1 + f.used) (hresume : l.resume.isSome) : f.lines = 0 := by
    have hle := front_lines_le hf
    have hnone : '\n' ∉ (c :: more).take (f.used + 1) := by
      rw [passesNewline, hresume, hr, show l'.pos - l.pos = f.used + 1 by omega] at hno
      simpa [hc] using hno
    rw [List.count_eq_zero.2 hnone] at hle
    omega
  have hcount {f : Front} (hf : l.front c more = .ok f) :
      f.lines ≤ (l.rest.take (f.used + 1)).count '\n' := by
    rw [hr]
    exact front_lines_le hf
  obtain ⟨used, lines, hf, rfl, rfl⟩ | ⟨x, used, lines, hf, rfl, rfl⟩ | ⟨hf, rfl, rfl⟩ |
    ⟨x, used, resume, hf, rfl, rfl⟩ := step_cases hs
  · have hc : c ≠ '\n' := by
      rintro rfl
      cases hf
    exact h.advance (hcount hf) (hpending hf hc rfl)
  · have hc : c ≠ '\n' := by
      rintro rfl
      cases hf
    have hnext := h.advance (hcount hf) (hpending hf hc rfl)
    exact ⟨hnext.rest, hnext.resume⟩
  · have hc : c = '\n' := Option.some.inj (front_fits hr hf)
    cases hresume : l.resume with
    | none =>
      have hnext : (l.advance 0 1).Accounted total :=
        h.advance (by simp [hr, hc]) (by simp [hresume])
      rw [jump_of_resume_none hresume]
      exact ⟨hnext.rest, hnext.resume⟩
    | some r =>
      rw [hplaced.jump_of_resume hresume]
      exact ⟨h.resume r hresume, by rintro r ⟨⟩⟩
  · have hnext : (l.advance used 0).Accounted total := h.advance (Nat.zero_le _) fun _ => rfl
    refine ⟨hnext.rest, ?_⟩
    rintro r ⟨⟩
    obtain ⟨opener, hopener⟩ := front_eq_heredoc hr hf
    obtain ⟨hle, body, parts, hbody, -, heq⟩ := frontHeredoc_eq_ok.1 hopener
    cases heq
    have hstart := h.bodyStart hle
    have hlines := HeredocBody.count_read (hin.bodyStart opener) hbody
    simp only [Lexer.advance]
    omega

theorem Reads.accounted (h : Reads l ts l') (hl : l.Accounted total) (hin : l.InLines)
    (hplaced : l.Placed length) (hno : l.overruns = false) :
    l'.Accounted total ∧ l'.InLines := by
  induction h with
  | refl l => exact ⟨hl, hin⟩
  | step hr hs _ ih =>
    rw [overruns_step hr hs, Bool.or_eq_false_iff] at hno
    exact ih (hl.step hin hplaced hr hs hno.1) (hin.step hr hs) (hplaced.step hr hs) hno.2

/-- Reading complete lines stops on one of them, unless the line of a heredoc is run over. -/
theorem run_error_line {text : List Char} (htext : Whole text)
    (hno : (start text).overruns = false) {line : Nat} {cause : Malformed}
    (h : (start text).run = .error (line, cause)) :
    1 ≤ line ∧ line ≤ text.count '\n' := by
  obtain ⟨ts, l, c, more, hreads, hr, -, rfl⟩ := run_eq_error h
  obtain ⟨hcounted, hin⟩ :=
    hreads.accounted (accounted_start text) ⟨htext, by rintro r ⟨⟩⟩ (placed_start text) hno
  refine ⟨hreads.line_le, ?_⟩
  -- What is left ends with a newline, and that one is not counted yet.
  have hlast : '\n' ∈ l.rest := by
    rcases hin.rest with hnil | hend
    · rw [hnil] at hr
      cases hr
    · exact List.mem_of_getLast? hend
  have hpos := List.count_pos_iff.2 hlast
  have := hcounted.rest
  omega

end Lexer

/-! ## Code in strings -/

/-- The code is in a string of the text, or in a string of such code. -/
inductive CodeIn (text : List Char) : List Char → Prop
  | string {lines : LineMap} {tokens : List Token} {t : Token} {parts : List Part}
      {code : List Char} (htokens : tokenize lines text = .ok tokens) (ht : t ∈ tokens)
      (hparts : t.lexeme = .string parts) (hcode : .code code ∈ parts) : CodeIn text code
  | nested {lines : LineMap} {outer code : List Char} {tokens : List Token} {t : Token}
      {parts : List Part} (houter : CodeIn text outer)
      (htokens : tokenize lines outer = .ok tokens) (ht : t ∈ tokens)
      (hparts : t.lexeme = .string parts) (hcode : .code code ∈ parts) : CodeIn text code

/-- A text with code in its strings has tokens. -/
theorem CodeIn.run_eq_ok {text code : List Char} (h : CodeIn text code) :
    ∃ tokens, (Lexer.start text).run = .ok tokens := by
  induction h with
  | string htokens => exact ⟨_, tokenize_eq_ok.1 htokens⟩
  | nested _ _ _ _ _ ih => exact ih

/-- A fault of a block is one of its own text, or one of code in its strings, which is numbered on
its own. -/
theorem read_eq_error {lines : LineMap} {text : List Char} {f : LexFault}
    (h : BlockContent.read lines text = .error f) :
    tokenize lines text = .error f ∨ ∃ code, CodeIn text code ∧ tokenize [] code = .error f := by
  have hlex : Lexable
      (fun map cs => (map = lines ∧ cs = text) ∨ (map = [] ∧ CodeIn text cs))
      (fun f => tokenize lines text = .error f ∨
        ∃ code, CodeIn text code ∧ tokenize [] code = .error f) := by
    refine ⟨?_, ?_⟩
    · rintro map cs f (⟨rfl, rfl⟩ | ⟨rfl, hcode⟩) herror
      · exact .inl herror
      · exact .inr ⟨cs, hcode, herror⟩
    · rintro map cs tokens (⟨rfl, rfl⟩ | ⟨rfl, hcs⟩) htokens t ht parts hparts code hcode
      · exact .inr ⟨rfl, .string htokens ht hparts hcode⟩
      · exact .inr ⟨rfl, .nested hcs htokens ht hparts hcode⟩
  have hread := hlex.read lines text (.inl ⟨rfl, rfl⟩)
  rw [h] at hread
  exact hread

theorem tokenize_eq_error {lines : LineMap} {text : List Char} {f : LexFault}
    (h : tokenize lines text = .error f) :
    ∃ line, (Lexer.start text).run = .error (line, f.cause) ∧ f.line = lines.lineInFile line := by
  unfold tokenize at h
  cases hrun : (Lexer.start text).run with
  | ok tokens =>
    rw [hrun] at h
    cases h
  | error e =>
    obtain ⟨line, cause⟩ := e
    rw [hrun] at h
    cases h
    exact ⟨line, rfl, rfl⟩

theorem LineMap.lineInFile_mem {map : LineMap} {line : Nat} (hpos : 1 ≤ line)
    (hle : line ≤ map.length) : map.lineInFile line ∈ map := by
  have hlt : ((line : Int) - 1).toNat < map.length := by omega
  rw [lineInFile, if_pos (by omega), List.getD_eq_getElem _ _ hlt]
  exact List.getElem_mem hlt

/-! ## Blocks and recipes -/

theorem Fault.ofLex_eq_report {source : String} {f : LexFault} {n : Int} {detail : String}
    (h : ofLex source f = .report (.unreadable source (some n) detail)) :
    f.line = n ∧ f.cause.detail = detail := by
  obtain ⟨line, cause⟩ := f
  cases cause <;> cases h <;> exact ⟨rfl, rfl⟩

namespace Section

variable {style : Style} {className source : String}

/-- A block is made of complete lines, one for each of its numbers. -/
theorem count_block {content text : List Char} {lines : LineMap} {terminated : Bool}
    (h : .block text lines terminated ∈ scan (Text.splitLines content)) :
    Whole text ∧ text.count '\n' = lines.length := by
  have hchars : ∀ line ∈ Text.splitLines content, ∀ c ∈ line, c ≠ '\n' := by
    rintro line hline c hc rfl
    have := Text.isLineBreak_of_mem_splitLines hline hc
    exact absurd this (by decide)
  obtain ⟨gathered, rfl, hlen, hne, hgathered⟩ :=
    exists_lines_of_block hchars 1 [] [] rfl (by simp) h
  refine ⟨.inr ?_, ?_⟩
  · obtain ⟨front, last, rfl⟩ := List.eq_nil_or_concat gathered |>.resolve_left hne
    simp [EndsLine, Text.unlines]
  · rw [← hlen]
    exact Text.count_unlines fun line hline hmem => hgathered line hline _ hmem rfl

/-- A block that is converted has been read. -/
theorem read_of_blockToManifest {text : List Char} {lines : LineMap} {body : String}
    (h : (blockToManifest style source text lines).result = .ok body) :
    ∃ content, BlockContent.read lines text = .ok content := by
  cases hblock : BlockContent.read lines text with
  | error f =>
    rw [blockToManifest, hblock] at h
    cases h
  | ok content => exact ⟨content, rfl⟩

/-- A block cannot be converted just when it cannot be read. -/
theorem blockToManifest_eq_error {text : List Char} {lines : LineMap} {e : Fault}
    (h : (blockToManifest style source text lines).result = .error e) :
    ∃ f, BlockContent.read lines text = .error f ∧ e = .ofLex source f := by
  cases hblock : BlockContent.read lines text with
  | error f =>
    rw [blockToManifest, hblock] at h
    exact ⟨f, rfl, (Except.error.inj h).symm⟩
  | ok content =>
    have hread := lexable_any.read lines text trivial
    rw [hblock] at hread
    obtain ⟨t, ht⟩ := Statement.returns_allToManifest style source hread
    rw [blockToManifest_of_read hblock, ← Statement.allToManifest_result, ht] at h
    cases h

/-- The conversion of sections stops at the first block that cannot be converted. -/
theorem allToManifest_eq_error {sections : List Section} {opened : Bool} {e : Fault}
    (h : (allToManifest style className source opened sections).result = .error e) :
    ∃ before text lines terminated after,
      sections = before ++ .block text lines terminated :: after ∧
      (∀ text lines terminated, .block text lines terminated ∈ before →
        ∃ content, BlockContent.read lines text = .ok content) ∧
      (blockToManifest style source text lines).result = .error e := by
  induction sections generalizing opened with
  | nil => cases h
  | cons s rest ih =>
    cases s with
    | comment text line =>
      rw [allToManifest, Noted.result_bind, bind_eq_error_iff] at h
      obtain h | ⟨_, -, h⟩ := h
      · obtain ⟨before, text', lines, terminated, after, rfl, hbefore, herror⟩ := ih h
        refine ⟨.comment text line :: before, text', lines, terminated, after, rfl, ?_, herror⟩
        intro text'' lines' terminated' hmem
        exact hbefore text'' lines' terminated' (by simpa using hmem)
      · cases h
    | block text lines terminated =>
      rw [allToManifest, Noted.result_bind, bind_eq_error_iff] at h
      obtain h | ⟨body, hbody, h⟩ := h
      · exact ⟨[], text, lines, terminated, rest, rfl, by simp, h⟩
      · rw [Noted.result_bind, bind_eq_error_iff] at h
        obtain h | ⟨_, -, h⟩ := h
        · obtain ⟨before, text', lines', terminated', after, rfl, hbefore, herror⟩ := ih h
          refine ⟨.block text lines terminated :: before, text', lines', terminated', after, rfl,
            ?_, herror⟩
          intro text'' lines'' terminated'' hmem
          obtain heq | hmem := List.mem_cons.1 hmem
          · cases heq
            exact read_of_blockToManifest hbody
          · exact hbefore text'' lines'' terminated'' hmem
        · cases h

end Section

/-- A fault that is reported for a recipe lies in the first block that cannot be read. If the text
of the block itself cannot be broken into tokens, the line is one of the block's lines, unless the
line of a heredoc is run over. If code in one of its strings cannot be read, the line is that of the
code, counted from the start of the code. -/
theorem reported_line_in_block (style : Style) (className source content : String) (n : Int)
    (detail : String)
    (h : (Manifest.ofRecipe style className source content).result =
      .error (.report (.unreadable source (some n) detail))) :
    ∃ before text lines terminated after cause,
      Section.scan (Text.splitLines content.toList) =
        before ++ .block text lines terminated :: after ∧
      (∀ text lines terminated, .block text lines terminated ∈ before →
        ∃ content, BlockContent.read lines text = .ok content) ∧
      cause.detail = detail ∧
      ((∃ line, (Lexer.start text).run = .error (line, cause) ∧ n = lines.lineInFile line ∧
          ((Lexer.start text).overruns = false → n ∈ lines)) ∨
        ∃ code line, CodeIn text code ∧ (Lexer.start code).run = .error (line, cause) ∧
          n = line) := by
  rw [Manifest.ofRecipe, Noted.result_bind, bind_eq_error_iff] at h
  obtain h | ⟨_, -, h⟩ := h
  · obtain ⟨before, text, lines, terminated, after, hscan, hbefore, hblock⟩ :=
      Section.allToManifest_eq_error h
    obtain ⟨f, hread, hfault⟩ := Section.blockToManifest_eq_error hblock
    obtain ⟨rfl, rfl⟩ := Fault.ofLex_eq_report hfault.symm
    refine ⟨before, text, lines, terminated, after, f.cause, hscan, hbefore, rfl, ?_⟩
    obtain hown | ⟨code, hcode, hinner⟩ := read_eq_error hread
    · obtain ⟨line, hrun, hline⟩ := tokenize_eq_error hown
      refine .inl ⟨line, hrun, hline, fun hno => ?_⟩
      have hmem : .block text lines terminated ∈ Section.scan (Text.splitLines content.toList) := by
        simp [hscan]
      obtain ⟨hwhole, hcount⟩ := Section.count_block hmem
      obtain ⟨hpos, hle⟩ := Lexer.run_error_line hwhole hno hrun
      rw [hline]
      exact LineMap.lineInFile_mem hpos (hcount ▸ hle)
    · obtain ⟨line, hrun, hline⟩ := tokenize_eq_error hinner
      exact .inr ⟨code, line, hcode, hrun, by rw [hline]; simp [LineMap.lineInFile]⟩
  · cases h

/-- A string that is left open behind a heredoc, in a block with a comment in it. -/
theorem reported_line_in_block_of_open_string :
    let content := "# web\n\nfile '/srv' do\n# as is\n  content <<-X\nall\nX\n  owner \"web\nend\n"
    (Manifest.ofRecipe {} "web" "web.rb" content).result =
        .error (.report (.unreadable "web.rb" (some 8) "unterminated string literal")) ∧
      ∃ before text lines terminated after, Section.scan (Text.splitLines content.toList) =
        before ++ .block text lines terminated :: after ∧ 8 ∈ lines := by
  intro content
  have hresult : (Manifest.ofRecipe {} "web" "web.rb" content).result =
      .error (.report (.unreadable "web.rb" (some 8) "unterminated string literal")) := by
    decide +kernel
  have hscan : Section.scan (Text.splitLines content.toList) = [.comment "# web" 1,
      .comment "# as is" 4, .block
        "file '/srv' do\n  content <<-X\nall\nX\n  owner \"web\nend\n".toList
        [3, 5, 6, 7, 8, 9] true] := by
    decide
  have hblock : ∀ text lines terminated,
      .block text lines terminated ∈ Section.scan (Text.splitLines content.toList) →
      (Lexer.start text).overruns = false ∧ (Lexer.start text).run.toOption = none := by
    intro text lines terminated hmem
    rw [hscan] at hmem
    simp only [List.mem_cons, reduceCtorEq, false_or, List.not_mem_nil, or_false,
      Section.block.injEq] at hmem
    obtain ⟨rfl, rfl, rfl⟩ := hmem
    decide +kernel
  refine ⟨hresult, ?_⟩
  obtain ⟨before, text, lines, terminated, after, cause, hsplit, -, -, hline⟩ :=
    reported_line_in_block {} "web" "web.rb" content 8 _ hresult
  obtain ⟨hno, hfails⟩ := hblock text lines terminated (by simp [hsplit])
  refine ⟨before, text, lines, terminated, after, hsplit, ?_⟩
  obtain ⟨_, -, -, hmem⟩ | ⟨code, _, hcode, -, -⟩ := hline
  · exact hmem hno
  · obtain ⟨tokens, htokens⟩ := hcode.run_eq_ok
    rw [htokens] at hfails
    cases hfails

/-- Code in a string is numbered on its own, and where a literal runs on into the body of a heredoc
the lines are counted twice: the first recipe is reported for its comment, the second for a line
that it does not have. -/
theorem reported_line_outside_block :
    ((Manifest.ofRecipe {} "web" "web.rb" "# web\nfile \"#\x7b\x60x\x7d\" do\nend\n").result =
        .error (.report (.unreadable "web.rb" (some 1) "unterminated string literal")) ∧
      Section.scan (Text.splitLines "# web\nfile \"#\x7b\x60x\x7d\" do\nend\n".toList) =
        [.comment "# web" 1, .block "file \"#\x7b\x60x\x7d\" do\nend\n".toList [2, 3] true]) ∧
    ((Manifest.ofRecipe {} "web" "web.rb" "run <<X, \"all\nX\nof\"\n").result =
        .error (.report (.unreadable "web.rb" (some 5) "unterminated string literal")) ∧
      Section.scan (Text.splitLines "run <<X, \"all\nX\nof\"\n".toList) =
        [.block "run <<X, \"all\nX\nof\"\n".toList [1, 2, 3] false]) := by
  decide +kernel

end RecipeManifest

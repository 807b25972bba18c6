import RecipeManifest.Proofs.FollowingText

/-!
The tokens of a text that goes on after complete lines.

Behind a line end the lexer is as it was at the start: nothing waits to be read, and a separator
leaves a place open for a value just as the start of a text does. So it reads what follows as a text
of its own, only further on (`Shifted`, `step_shift`, `run_shift`).

    tokenize a = ts and a mark for the end, a = complete lines, nothing pending →
      tokenize (a ++ b) = ts, then tokenize b moved behind a          (tokenize_append)
-/

namespace RecipeManifest

/-- The token that many characters and lines further on. -/
def Token.shift (chars lines : Nat) (t : Token) : Token :=
  { t with line := t.line + lines, start := t.start + chars, stop := t.stop + chars }

def Resume.shift (chars : Nat) (r : Resume) : Resume :=
  { r with pos := r.pos + chars }

def Front.shift (chars : Nat) : Front → Front
  | .heredoc x used resume => .heredoc x used (resume.shift chars)
  | f => f

namespace Lexer

variable {l l' m : Lexer} {c : Char} {more : List Char} {t : Option Token} {ts : List Token}

/-! ## Places -/

/-- The places of the lexer are those of a text of this length, and a heredoc that is pending ends
before what was left at the last jump. -/
structure Placed (length : Nat) (l : Lexer) : Prop where
  rest : l.pos + l.rest.length = length
  resume : ∀ r, l.resume = some r → r.pos + r.rest.length = length ∧ r.rest.length < l.bound
  bound : l.rest.length ≤ l.bound

theorem placed_start (source : List Char) : (start source).Placed source.length :=
  ⟨Nat.zero_add _, by rintro r ⟨⟩, Nat.le_refl _⟩

section Placed

variable {length : Nat}

/-- The line end behind which a heredoc's body lies takes the lexer behind the body. -/
theorem Placed.jump_of_resume (h : l.Placed length) {r : Resume} (hr : l.resume = some r) :
    l.jump =
      { l with
        rest := r.rest, pos := r.pos, line := l.line + 1 + r.lines, spaced := false,
        resume := none, bound := r.rest.length } := by
  unfold jump
  rw [hr]
  dsimp only
  rw [if_pos (h.resume r hr).2]

theorem Placed.bodyStart (h : l.Placed length) {opener : HeredocOpener}
    (hle : l.toBody opener ≤ l.rest.length) :
    (l.bodyStart opener).pos + (l.bodyStart opener).rest.length = length ∧
      (l.bodyStart opener).rest.length < l.bound := by
  have hrest := h.rest
  have hbound := h.bound
  unfold Lexer.bodyStart
  cases hresume : l.resume with
  | none =>
    have hpos : 0 < l.toBody opener := Nat.zero_lt_succ _
    simp only [Option.getD_none, List.length_drop]
    omega
  | some r => exact h.resume r hresume

theorem Placed.advance (h : l.Placed length) {used : Nat} (lines : Nat)
    (hu : used < l.rest.length) : (l.advance used lines).Placed length := by
  have hrest := h.rest
  have hbound := h.bound
  refine ⟨?_, h.resume, ?_⟩
  · simp only [Lexer.advance, List.length_drop, List.length_tail]
    omega
  · simp only [Lexer.advance, List.length_drop, List.length_tail]
    omega

theorem Placed.step (h : l.Placed length) (hr : l.rest = c :: more)
    (hs : l.step c more = .ok (t, l')) : l'.Placed length := by
  obtain ⟨used, lines, hf, rfl, rfl⟩ | ⟨x, used, lines, hf, rfl, rfl⟩ | ⟨hf, rfl, rfl⟩ |
    ⟨x, used, resume, hf, rfl, rfl⟩ := step_cases hs
  · exact h.advance lines (used_lt_of_front hr hf)
  · have hnext := h.advance lines (used_lt_of_front hr hf)
    exact ⟨hnext.rest, hnext.resume, hnext.bound⟩
  · cases hresume : l.resume with
    | none =>
      have hnext := h.advance 1 (used_lt_of_front hr hf)
      rw [jump_of_resume_none hresume]
      exact ⟨hnext.rest, hnext.resume, hnext.bound⟩
    | some r =>
      rw [h.jump_of_resume hresume]
      exact ⟨(h.resume r hresume).1, by rintro r ⟨⟩, Nat.le_refl _⟩
  · have hnext := h.advance 0 (used_lt_of_front hr hf)
    refine ⟨hnext.rest, ?_, hnext.bound⟩
    rintro r ⟨⟩
    obtain ⟨opener, hopener⟩ := front_eq_heredoc hr hf
    obtain ⟨hle, body, parts, -, -, heq⟩ := frontHeredoc_eq_ok.1 hopener
    obtain ⟨hpos, hbound⟩ := h.bodyStart hle
    cases heq
    simp only [List.length_drop, Lexer.advance]
    omega

theorem Reads.placed (h : Reads l ts l') (hl : l.Placed length) : l'.Placed length := by
  induction h with
  | refl l => exact hl
  | step hr hs _ ih => exact ih (hl.step hr hs)

end Placed

/-! ## A text further on -/

/-- The second lexer reads, `chars` characters and `lines` lines further on, the text that the
first one reads. -/
structure Shifted (chars lines : Nat) (l m : Lexer) : Prop where
  rest : m.rest = l.rest
  pos : m.pos = l.pos + chars
  line : m.line = l.line + lines
  spaced : m.spaced = l.spaced
  awaitsOperand : m.awaitsOperand = l.awaitsOperand
  afterIdent : m.afterIdent = l.afterIdent
  afterDot : m.afterDot = l.afterDot
  resume : m.resume = l.resume.map (Resume.shift chars)

section Shifted

variable {chars lines : Nat}

theorem Shifted.toBody (h : Shifted chars lines l m) (opener : HeredocOpener) :
    m.toBody opener = l.toBody opener := by
  unfold Lexer.toBody
  rw [h.rest]

theorem Shifted.bodyStart (h : Shifted chars lines l m) (opener : HeredocOpener) :
    m.bodyStart opener = (l.bodyStart opener).shift chars := by
  unfold Lexer.bodyStart
  rw [h.toBody, h.rest, h.pos, h.resume]
  cases l.resume with
  | none => simp [Resume.shift, Nat.add_right_comm]
  | some r => rfl

theorem Shifted.frontHeredoc (h : Shifted chars lines l m) (opener : HeredocOpener) :
    m.frontHeredoc opener = (l.frontHeredoc opener).map (Front.shift chars) := by
  rw [frontHeredoc_eq, frontHeredoc_eq, h.toBody, h.rest, h.bodyStart]
  split
  · rfl
  · have hrest : (Resume.shift chars (l.bodyStart opener)).rest = (l.bodyStart opener).rest := rfl
    rw [hrest]
    cases HeredocBody.read opener (l.bodyStart opener).rest with
    | none => rfl
    | some body =>
      dsimp only
      cases opener.parts (opener.text body.lines) with
      | error e => rfl
      | ok parts => simp [Except.map, Front.shift, Resume.shift, Nat.add_right_comm]

/-- The same stands at the front, but for where a heredoc leads. -/
theorem Shifted.front (h : Shifted chars lines l m) (hr : l.rest = c :: more) :
    m.front c more = (l.front c more).map (Front.shift chars) := by
  by_cases hc : c = '<'
  · subst hc
    have hop : (frontOperator '<' more).map (Front.shift chars) = frontOperator '<' more := by
      unfold frontOperator
      split <;> rfl
    rw [front_angle, front_angle, h.awaitsOperand, h.afterIdent]
    cases HeredocOpener.read ('<' :: more) with
    | none => exact hop.symm
    | some opener =>
      dsimp only
      split
      · exact h.frontHeredoc opener
      · exact hop.symm
  · have hregex : m.opensRegex more = l.opensRegex more := by
      unfold opensRegex
      rw [h.awaitsOperand, h.afterIdent, h.spaced]
    have hword : m.frontWord (c :: more) = l.frontWord (c :: more) := by
      unfold frontWord
      rw [h.afterDot]
    have hsame : m.front c more = l.front c more := by
      unfold Lexer.front
      rw [hregex, hword, h.awaitsOperand, h.afterIdent]
      split
      case h_14 => exact absurd rfl hc
      all_goals rfl
    rw [hsame]
    cases hf : l.front c more with
    | error e => rfl
    | ok f =>
      -- no heredoc is announced here
      cases f with
      | heredoc x used resume => exact absurd (Option.some.inj (front_fits hr hf).2) hc
      | blank used lines => rfl
      | lexeme x used lines => rfl
      | newline => rfl

theorem Shifted.advance (h : Shifted chars lines l m) (used more : Nat) :
    Shifted chars lines (l.advance used more) (m.advance used more) where
  rest := by simp only [Lexer.advance, h.rest]
  pos := by
    simp only [Lexer.advance, h.pos]
    omega
  line := by
    simp only [Lexer.advance, h.line]
    omega
  spaced := by simp only [Lexer.advance, h.rest]
  awaitsOperand := h.awaitsOperand
  afterIdent := h.afterIdent
  afterDot := h.afterDot
  resume := h.resume

/-- A token that both lexers have just made leaves them alike. -/
theorem Shifted.say (h : Shifted chars lines l m) (x : Lexeme) :
    Shifted chars lines { l with previous := some x } { m with previous := some x } :=
  ⟨h.rest, h.pos, h.line, h.spaced, rfl, rfl, rfl, h.resume⟩

theorem Shifted.announce (h : Shifted chars lines l m) (x : Lexeme) (r : Resume) :
    Shifted chars lines { l with previous := some x, resume := some r }
      { m with previous := some x, resume := some (r.shift chars) } :=
  ⟨h.rest, h.pos, h.line, h.spaced, rfl, rfl, rfl, rfl⟩

theorem Shifted.token (h : Shifted chars lines l m) (x : Lexeme) (used : Nat) :
    m.token x used = (l.token x used).shift chars lines := by
  simp only [Lexer.token, Token.shift, h.pos, h.line, h.spaced, Token.mk.injEq, true_and, and_true]
  omega

theorem Shifted.jump (h : Shifted chars lines l m) {n n' : Nat} (hl : l.Placed n)
    (hm : m.Placed n') : Shifted chars lines l.jump m.jump := by
  cases hresume : l.resume with
  | none =>
    have hresume' : m.resume = none := by
      rw [h.resume, hresume]
      rfl
    rw [jump_of_resume_none hresume, jump_of_resume_none hresume']
    exact h.advance 0 1
  | some r =>
    have hresume' : m.resume = some (r.shift chars) := by
      rw [h.resume, hresume]
      rfl
    rw [hl.jump_of_resume hresume, hm.jump_of_resume hresume']
    refine ⟨rfl, rfl, ?_, rfl, h.awaitsOperand, h.afterIdent, h.afterDot, rfl⟩
    simp only [h.line, Resume.shift]
    omega

/-- Both lexers do the same in a step. -/
theorem Shifted.step (h : Shifted chars lines l m) {n n' : Nat} (hl : l.Placed n)
    (hm : m.Placed n') (hr : l.rest = c :: more) :
    (∀ e, l.step c more = .error e → m.step c more = .error e) ∧
    ∀ t l', l.step c more = .ok (t, l') →
      ∃ m', m.step c more = .ok (t.map (Token.shift chars lines), m') ∧
        Shifted chars lines l' m' := by
  unfold Lexer.step
  rw [h.front hr]
  cases l.front c more with
  | error e => exact ⟨fun _ he => he, by rintro t l' ⟨⟩⟩
  | ok f =>
    refine ⟨by rintro e ⟨⟩, ?_⟩
    rintro t l' hnext
    cases f with
    | blank used more =>
      cases hnext
      exact ⟨_, rfl, h.advance used more⟩
    | lexeme x used more =>
      cases hnext
      exact ⟨_, by rw [Option.map_some, ← h.token]; rfl, (h.advance used more).say x⟩
    | newline =>
      cases hnext
      exact ⟨_, by rw [Option.map_some, ← h.token]; rfl, (h.jump hl hm).say .newline⟩
    | heredoc x used resume =>
      cases hnext
      exact ⟨_, by rw [Option.map_some, ← h.token]; rfl, (h.advance used 0).announce x resume⟩

/-- What is read further on is what is read in a text of its own, moved. -/
theorem Shifted.run {l m : Lexer} (h : Shifted chars lines l m) {n n' : Nat} (hl : l.Placed n)
    (hm : m.Placed n') :
    m.run =
      match l.run with
      | .ok ts => .ok (ts.map (Token.shift chars lines))
      | .error (line, cause) => .error (line + lines, cause) := by
  cases hr : l.rest with
  | nil =>
    have hr' : m.rest = [] := by rw [h.rest, hr]
    rw [run_nil hr, run_nil hr', h.line, h.pos]
    rfl
  | cons c more =>
    have hr' : m.rest = c :: more := by rw [h.rest, hr]
    obtain ⟨herror, hok⟩ := h.step hl hm hr
    cases hs : l.step c more with
    | error e =>
      rw [run_error hr hs, run_error hr' (herror e hs), h.line]
    | ok next =>
      obtain ⟨t, l₁⟩ := next
      obtain ⟨m₁, hs', h₁⟩ := hok t l₁ hs
      -- what is left gets less with every step
      have ih := h₁.run (hl.step hr hs) (hm.step hr' hs')
      rw [run_step hr hs, run_step hr' hs', ih]
      cases l₁.run with
      | error e => rfl
      | ok ts => cases t <;> rfl
termination_by l.remaining
decreasing_by exact remaining_step_lt hr hs

/-- A run goes the same way further on. -/
theorem Shifted.reads {l m l' : Lexer} (h : Shifted chars lines l m) {n n' : Nat}
    (hl : l.Placed n) (hm : m.Placed n') (hreads : Reads l ts l') :
    ∃ m', Reads m (ts.map (Token.shift chars lines)) m' ∧ Shifted chars lines l' m' := by
  induction hreads generalizing m with
  | refl l => exact ⟨m, .refl m, h⟩
  | @step l l₁ l' c more t ts hr hs _ ih =>
    have hr' : m.rest = c :: more := by rw [h.rest, hr]
    obtain ⟨m₁, hs', h₁⟩ := (h.step hl hm hr).2 t l₁ hs
    obtain ⟨m', hreads', h'⟩ := ih h₁ (hl.step hr hs) (hm.step hr' hs')
    refine ⟨m', ?_, h'⟩
    have := Reads.step hr' hs' hreads'
    cases t <;> exact this

end Shifted

/-! ## The place behind complete lines -/

/-- At the end of a text that ends with a newline no blank is right before. -/
theorem spaced_of_step (hl : l.InLines) (hr : l.rest = c :: more)
    (hs : l.step c more = .ok (t, l')) (hend : l'.rest = []) : l'.spaced = false := by
  have hlast : l.rest.getLast? = some '\n' := by
    rcases hl.rest with hnil | hlast
    · rw [hnil] at hr
      cases hr
    · exact hlast
  -- what was used last is the newline at the end
  have hadvance (lines : Nat) {used : Nat} (hu : used < l.rest.length)
      (hnil : (l.advance used lines).rest = []) : (l.advance used lines).spaced = false := by
    have hused : used = l.rest.length - 1 := by
      have := congrArg List.length hnil
      simp only [advance, List.length_drop, List.length_tail, List.length_nil] at this
      omega
    rw [List.getLast?_eq_getElem?, ← hused] at hlast
    simp only [advance, hlast]
    decide
  obtain ⟨used, lines, hf, rfl, rfl⟩ | ⟨x, used, lines, hf, rfl, rfl⟩ | ⟨hf, rfl, rfl⟩ |
    ⟨x, used, resume, hf, rfl, rfl⟩ := step_cases hs
  · exact hadvance lines (used_lt_of_front hr hf) hend
  · exact hadvance lines (used_lt_of_front hr hf) hend
  · unfold jump at hend ⊢
    split
    · next r hresume =>
      split
      · rfl
      · next hlt =>
        rw [hresume] at hend
        dsimp only at hend
        rw [if_neg hlt] at hend
        exact hadvance 1 (used_lt_of_front hr hf) hend
    · next hresume =>
      rw [hresume] at hend
      exact hadvance 1 (used_lt_of_front hr hf) hend
  · exact hadvance 0 (used_lt_of_front hr hf) hend

theorem Reads.spaced (h : Reads l ts l') (hl : l.InLines)
    (hstart : l.rest = [] → l.spaced = false) : l'.rest = [] → l'.spaced = false := by
  induction h with
  | refl l => exact hstart
  | step hr hs _ ih => exact ih (hl.step hr hs) (spaced_of_step hl hr hs)

theorem Reads.line_le (h : Reads l ts l') : l.line ≤ l'.line := by
  induction h with
  | refl l => exact Nat.le_refl _
  | @step l l₁ l' c more t ts hr hs _ ih =>
    have hstep : l.line ≤ l₁.line := by
      obtain ⟨used, lines, -, rfl, rfl⟩ | ⟨x, used, lines, -, rfl, rfl⟩ | ⟨-, rfl, rfl⟩ |
        ⟨x, used, resume, -, rfl, rfl⟩ := step_cases hs
      · exact Nat.le_add_right _ _
      · exact Nat.le_add_right _ _
      · unfold jump
        split
        · split
          · simp only
            omega
          · exact Nat.le_add_right _ _
        · exact Nat.le_add_right _ _
      · exact Nat.le_add_right _ _
    omega

/-- Only a line end is read as one. -/
theorem front_ne_newline {used lines : Nat} (hr : l.rest = c :: more) :
    l.front c more ≠ .ok (.lexeme .newline used lines) := by
  intro hf
  have hspells : "\n".toList = (c :: more).take (used + 1) := (front_fits hr hf).2
  rw [List.take_succ_cons] at hspells
  have hc : '\n' = c := (List.cons.inj hspells).1
  subst hc
  cases hf

/-- A line end leaves no heredoc behind. -/
theorem Reads.resume_of_newline {length : Nat} (h : Reads l ts l') (hl : l.Placed length)
    (hstart : l.previous = some .newline → l.resume = none) :
    l'.previous = some .newline → l'.resume = none := by
  induction h with
  | refl l => exact hstart
  | @step l l₁ l' c more t ts hr hs _ ih =>
    apply ih (hl.step hr hs)
    obtain ⟨used, lines, -, rfl, rfl⟩ | ⟨x, used, lines, hf, rfl, rfl⟩ | ⟨-, rfl, rfl⟩ |
      ⟨x, used, resume, hf, rfl, rfl⟩ := step_cases hs
    · exact hstart
    · rintro ⟨⟩
      exact absurd hf (front_ne_newline hr)
    · intro _
      cases hresume : l.resume with
      | none =>
        rw [jump_of_resume_none hresume]
        exact hresume
      | some r => rw [hl.jump_of_resume hresume]
    · rintro ⟨⟩
      obtain ⟨opener, hopener⟩ := front_eq_heredoc hr hf
      obtain ⟨-, body, parts, -, -, heq⟩ := frontHeredoc_eq_ok.1 hopener
      cases heq

end Lexer

/-- No heredoc's body lies ahead when all of the text has been read. -/
def NothingPending (source : List Char) : Prop :=
  ∀ ts l, Lexer.Reads (Lexer.start source) ts l → l.rest = [] → l.resume = none

open Lexer in
/-- A text whose last token is a line end leaves nothing pending. -/
theorem nothingPending_of_newline {lines : LineMap} {source : List Char} {ts : List Token}
    {last eof : Token} (h : tokenize lines source = .ok (ts ++ [last, eof]))
    (hlast : last.lexeme = .newline) : NothingPending source := by
  intro us l hreads hend
  have hrun := run_of_reads hreads
  rw [tokenize_eq_ok.1 h, run_nil hend] at hrun
  have hus : ts ++ [last] = us := by
    have := Except.ok.inj hrun
    rw [show ts ++ [last, eof] = ts ++ [last] ++ [eof] by simp] at this
    exact (List.append_inj' this rfl).1
  have hprevious := hreads.previous
  rw [← hus, List.getLast?_concat] at hprevious
  refine hreads.resume_of_newline (placed_start source) (by rintro ⟨⟩) ?_
  rw [hprevious, Option.elim_some, hlast]

open Lexer in
/-- Where complete lines have been read and nothing is pending, the lexer reads what follows as it
reads a text of its own. -/
theorem shifted_of_reads {a : List Char} {ts : List Token} {l : Lexer} {last : Token}
    (hreads : Reads (start a) ts l) (hend : l.rest = []) (ha : EndsLine a)
    (hlast : ts.getLast? = some last) (hsep : last.lexeme.isSeparator = true)
    (hresume : l.resume = none) (b : List Char) :
    Shifted a.length (l.line - 1) (start b) (l.extend b) := by
  have hin : (start a).InLines := ⟨.inr ha, by rintro r ⟨⟩⟩
  have hpos := (hreads.placed (placed_start a)).rest
  have hline : 1 ≤ l.line := hreads.line_le
  have hprevious : l.previous = some .newline ∨ l.previous = some .semicolon := by
    rw [hreads.previous, hlast, Option.elim_some]
    cases hlexeme : last.lexeme <;> simp_all [Lexeme.isSeparator]
  have hrest : (l.extend b).rest = b := by
    show l.rest ++ b = b
    rw [hend, List.nil_append]
  rw [hend, List.length_nil, Nat.add_zero] at hpos
  refine ⟨hrest, ?_, ?_, ?_, ?_, ?_, ?_, ?_⟩
  · show l.pos = 0 + a.length
    omega
  · show l.line = 1 + (l.line - 1)
    omega
  · exact hreads.spaced hin (fun _ => rfl) hend
  · show l.awaitsOperand = true
    unfold awaitsOperand
    rcases hprevious with h | h <;> rw [h]
  · show l.afterIdent = false
    unfold afterIdent
    rcases hprevious with h | h <;> rw [h]
  · show l.afterDot = false
    unfold afterDot
    rcases hprevious with h | h <;> rw [h] <;> rfl
  · show l.resume.map (Resume.extend b) = none
    rw [hresume]
    rfl

open Lexer in
/-- The run of such a text goes on with the run of what follows, moved behind it. -/
theorem run_append_of_reads {a : List Char} {ts : List Token} {l : Lexer} {last : Token}
    (hreads : Reads (start a) ts l) (hend : l.rest = []) (ha : EndsLine a)
    (hlast : ts.getLast? = some last) (hsep : last.lexeme.isSeparator = true)
    (hresume : l.resume = none) (b : List Char) :
    (start (a ++ b)).run =
      match (start b).run with
      | .ok us => .ok (ts ++ us.map (Token.shift a.length (l.line - 1)))
      | .error (line, cause) => .error (line + (l.line - 1), cause) := by
  have hin : (start a).InLines := ⟨.inr ha, by rintro r ⟨⟩⟩
  have hextend := hreads.extend b hin
  rw [extend_start] at hextend
  have hshift := shifted_of_reads hreads hend ha hlast hsep hresume b
  have hrun := hshift.run (placed_start b) (hextend.placed (placed_start (a ++ b)))
  rw [run_of_reads hextend, hrun]
  cases (start b).run <;> rfl

open Lexer in
/-- Tokens are made line by line. Behind complete lines whose last token is a separator, and which
leave nothing pending, a text has the tokens or the fault that it has on its own, as many
characters and lines further on as lie before it. -/
theorem tokenize_append (lines : LineMap) {a : List Char} {ts : List Token} {last eof : Token}
    (ha : tokenize lines a = .ok (ts ++ [eof])) (hend : a.getLast? = some '\n')
    (hlast : ts.getLast? = some last) (hsep : last.lexeme.isSeparator = true)
    (hpending : NothingPending a) (b : List Char) :
    tokenize lines (a ++ b) =
      match tokenize [] b with
      | .ok us => .ok (ts ++ us.map (Token.shift a.length (eof.line - 1)))
      | .error fault =>
        .error ⟨lines.lineInFile (fault.line + (eof.line - 1 : Nat)), fault.cause⟩ := by
  obtain ⟨us, l, hreads, hnil, htokens⟩ := run_eq_ok (tokenize_eq_ok.1 ha)
  obtain ⟨rfl, heof⟩ := List.append_inj' htokens rfl
  cases heof
  unfold tokenize
  rw [run_append_of_reads hreads hnil hend hlast hsep (hpending ts l hreads hnil)]
  cases (start b).run with
  | ok us => rfl
  | error fault =>
    obtain ⟨line, cause⟩ := fault
    simp [LineMap.lineInFile]

/-- Behind a heredoc, a slash starts a regular expression as it does at the start of a text, and an
open quote is a fault on its own line. -/
theorem tokenize_append_heredoc :
    NothingPending "log <<A\n1\nA\n".toList ∧
    tokenize [] ("log <<A\n1\nA\n".toList ++ "/b/i;".toList) = .ok
      [⟨.ident "log", 1, 0, 3, false⟩, ⟨.string [.text ['1', '\n']], 1, 4, 7, true⟩,
        ⟨.newline, 1, 7, 8, false⟩, ⟨.regex "/b/i", 4, 12, 16, false⟩,
        ⟨.semicolon, 4, 16, 17, false⟩, ⟨.eof, 4, 17, 17, false⟩] ∧
    tokenize [] ("log <<A\n1\nA\n".toList ++ "\n'".toList) =
      .error ⟨5, .unterminatedString⟩ := by
  have ha : tokenize [] "log <<A\n1\nA\n".toList = .ok
      ([⟨.ident "log", 1, 0, 3, false⟩, ⟨.string [.text ['1', '\n']], 1, 4, 7, true⟩] ++
        [⟨.newline, 1, 7, 8, false⟩, ⟨.eof, 4, 12, 12, false⟩]) := by
    decide +kernel
  have hpending : NothingPending "log <<A\n1\nA\n".toList := nothingPending_of_newline ha rfl
  rw [List.append_cons] at ha
  have hend : "log <<A\n1\nA\n".toList.getLast? = some '\n' := by decide
  have hslash : tokenize [] "/b/i;".toList = .ok
      [⟨.regex "/b/i", 1, 0, 4, false⟩, ⟨.semicolon, 1, 4, 5, false⟩,
        ⟨.eof, 1, 5, 5, false⟩] := by
    decide +kernel
  have hquote : tokenize [] "\n'".toList = .error ⟨2, .unterminatedString⟩ := by
    decide +kernel
  refine ⟨hpending, ?_, ?_⟩
  · rw [tokenize_append [] ha hend rfl rfl hpending, hslash]
    rfl
  · rw [tokenize_append [] ha hend rfl rfl hpending, hquote]
    rfl

end RecipeManifest

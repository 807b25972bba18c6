import RecipeManifest.Token.Lexer

/-!
Runs of the lexer.

`Reads l ts l'` says that stepping from `l` makes the tokens `ts` and leads to `l'`. A whole run is
such a sequence of steps to the end of the text, with the mark for the end behind its tokens
(`run_eq_ok`), and what is known of a beginning can be taken off a run (`run_of_reads`).
-/

namespace RecipeManifest.Lexer

theorem jump_of_resume_none {l : Lexer} (h : l.resume = none) : l.jump = l.advance 0 1 := by
  unfold jump
  rw [h]

/-- What a step can do, by what stands at the front. -/
theorem step_cases {l l' : Lexer} {c : Char} {more : List Char} {t : Option Token}
    (hs : l.step c more = .ok (t, l')) :
    (∃ used lines, l.front c more = .ok (.blank used lines) ∧ t = none ∧
      l' = l.advance used lines) ∨
    (∃ x used lines, l.front c more = .ok (.lexeme x used lines) ∧ t = some (l.token x used) ∧
      l' = { l.advance used lines with previous := some x }) ∨
    (l.front c more = .ok .newline ∧ t = some (l.token .newline 0) ∧
      l' = { l.jump with previous := some .newline }) ∨
    (∃ x used resume, l.front c more = .ok (.heredoc x used resume) ∧
      t = some (l.token x used) ∧
      l' = { l.advance used 0 with previous := some x, resume := some resume }) := by
  unfold step at hs
  cases hf : l.front c more with
  | error e => rw [hf] at hs; cases hs
  | ok f =>
    rw [hf] at hs
    cases f with
    | blank used lines => cases hs; exact .inl ⟨used, lines, rfl, rfl, rfl⟩
    | lexeme x used lines => cases hs; exact .inr (.inl ⟨x, used, lines, rfl, rfl, rfl⟩)
    | newline => cases hs; exact .inr (.inr (.inl ⟨rfl, rfl, rfl⟩))
    | heredoc x used resume =>
      cases hs; exact .inr (.inr (.inr ⟨x, used, resume, rfl, rfl, rfl⟩))

/-- A token stands where the lexer does. -/
theorem token_of_step {l l' : Lexer} {c : Char} {more : List Char} {t : Option Token}
    (hs : l.step c more = .ok (t, l')) : t = none ∨ ∃ x used, t = some (l.token x used) := by
  obtain ⟨used, lines, -, rfl, -⟩ | ⟨x, used, lines, -, rfl, -⟩ | ⟨-, rfl, -⟩ |
    ⟨x, used, resume, -, rfl, -⟩ := step_cases hs
  · exact .inl rfl
  · exact .inr ⟨_, _, rfl⟩
  · exact .inr ⟨_, _, rfl⟩
  · exact .inr ⟨_, _, rfl⟩

/-- From `l` the lexer makes the tokens `ts` and comes to `l'`. -/
inductive Reads : Lexer → List Token → Lexer → Prop
  | refl (l : Lexer) : Reads l [] l
  | step {l l₁ l' : Lexer} {c : Char} {more : List Char} {t : Option Token} {ts : List Token}
      (hr : l.rest = c :: more) (hs : l.step c more = .ok (t, l₁)) (h : Reads l₁ ts l') :
      Reads l (t.toList ++ ts) l'

theorem Reads.trans {l l₁ l₂ : Lexer} {ts us : List Token} (h : Reads l ts l₁)
    (h' : Reads l₁ us l₂) : Reads l (ts ++ us) l₂ := by
  induction h with
  | refl l => exact h'
  | step hr hs _ ih =>
    rw [List.append_assoc]
    exact .step hr hs (ih h')

/-- One step is a run. -/
theorem Reads.single {l l' : Lexer} {c : Char} {more : List Char} {t : Option Token}
    (hr : l.rest = c :: more) (hs : l.step c more = .ok (t, l')) : Reads l t.toList l' := by
  simpa using Reads.step hr hs (.refl l')

theorem run_nil {l : Lexer} (h : l.rest = []) :
    l.run = .ok [⟨.eof, l.line, l.pos, l.pos, false⟩] := by
  rw [run]
  split
  · rfl
  · next hr => rw [h] at hr; cases hr

theorem run_step {l l' : Lexer} {c : Char} {more : List Char} {t : Option Token}
    (hr : l.rest = c :: more) (hs : l.step c more = .ok (t, l')) :
    l.run = l'.run.map (t.toList ++ ·) := by
  rw [run]
  split
  · next h => rw [hr] at h; cases h
  · next c' more' h =>
    rw [hr] at h
    cases h
    split
    · next h' => rw [hs] at h'; cases h'
    · next h' => rw [hs] at h'; cases h'; rfl

theorem run_error {l : Lexer} {c : Char} {more : List Char} {e : Malformed}
    (hr : l.rest = c :: more) (hs : l.step c more = .error e) : l.run = .error (l.line, e) := by
  rw [run]
  split
  · next h => rw [hr] at h; cases h
  · next c' more' h =>
    rw [hr] at h
    cases h
    split
    · next h' => rw [hs] at h'; cases h'; rfl
    · next h' => rw [hs] at h'; cases h'

/-- What is read first stands first in the run. -/
theorem run_of_reads {l l' : Lexer} {ts : List Token} (h : Reads l ts l') :
    l.run = l'.run.map (ts ++ ·) := by
  induction h with
  | refl l => cases l.run <;> simp [Except.map]
  | step hr hs _ ih =>
    rw [run_step hr hs, ih]
    cases run _ <;> simp [Except.map]

/-- A run that succeeds reads to the end of the text. -/
theorem run_eq_ok {l : Lexer} {tokens : List Token} (h : l.run = .ok tokens) :
    ∃ ts l', Reads l ts l' ∧ l'.rest = [] ∧
      tokens = ts ++ [⟨.eof, l'.line, l'.pos, l'.pos, false⟩] := by
  cases hr : l.rest with
  | nil =>
    rw [run_nil hr] at h
    cases h
    exact ⟨[], l, .refl l, hr, rfl⟩
  | cons c more =>
    cases hs : l.step c more with
    | error e => rw [run_error hr hs] at h; cases h
    | ok r =>
      obtain ⟨t, l₁⟩ := r
      rw [run_step hr hs] at h
      cases h₁ : l₁.run with
      | error e => rw [h₁] at h; cases h
      | ok rest =>
        rw [h₁] at h
        cases h
        -- the run from the next state is the shorter one
        obtain ⟨ts, l', hreads, hend, rfl⟩ := run_eq_ok h₁
        exact ⟨t.toList ++ ts, l', .step hr hs hreads, hend, by simp⟩
termination_by l.remaining
decreasing_by exact remaining_step_lt hr hs

/-- A run that fails reads up to a step that fails. -/
theorem run_eq_error {l : Lexer} {line : Nat} {e : Malformed} (h : l.run = .error (line, e)) :
    ∃ ts l' c more, Reads l ts l' ∧ l'.rest = c :: more ∧ l'.step c more = .error e ∧
      line = l'.line := by
  cases hr : l.rest with
  | nil =>
    rw [run_nil hr] at h
    cases h
  | cons c more =>
    cases hs : l.step c more with
    | error e =>
      rw [run_error hr hs] at h
      cases h
      exact ⟨[], l, c, more, .refl l, hr, hs, rfl⟩
    | ok r =>
      obtain ⟨t, l₁⟩ := r
      rw [run_step hr hs] at h
      cases h₁ : l₁.run with
      | ok rest => rw [h₁] at h; cases h
      | error f =>
        rw [h₁] at h
        cases h
        obtain ⟨ts, l', c', more', hreads, hrest, hstep, hline⟩ := run_eq_error h₁
        exact ⟨t.toList ++ ts, l', c', more', .step hr hs hreads, hrest, hstep, hline⟩
termination_by l.remaining
decreasing_by exact remaining_step_lt hr hs

end RecipeManifest.Lexer

namespace RecipeManifest

open Lexer in
/-- The tokens of a text are those of a run from its start. -/
theorem tokenize_eq_ok {lines : LineMap} {source : List Char} {tokens : List Token} :
    tokenize lines source = .ok tokens ↔ (start source).run = .ok tokens := by
  unfold tokenize
  cases (start source).run <;> simp

end RecipeManifest

import Mathlib.Order.WellFounded
import RecipeManifest.Proofs.TokenOrder

/-!
The loop over a text ends.

A newline behind a heredoc's announcement takes the cursor behind the heredoc's body. The body
starts on the line below the announcement, so a string that is opened on the line of the
announcement and goes on below it is read first, and the newline behind the string takes the cursor
back into it. What always grows is the place where such a jump ends: a heredoc is announced behind
the last jump, and its body ends behind its announcement.

`jump` has a guard that makes it end by definition. The turns here have none (`leap`, `turn`), and
a run keeps the places to which it has jumped (`Run`). Along every run these places grow, between
them the cursor does (`Run.next`), and no text has a run without end (`Run.acc`).
-/

namespace RecipeManifest.Lexer

variable {source : List Char} {jumps : List Nat} {l l' : Lexer} {c : Char} {more : List Char}
  {t : Option Token} {ts : List Token}

/-- Goes past a newline as `jump` does, but behind a pending body wherever the body ends. -/
def leap (l : Lexer) : Lexer :=
  match l.resume with
  | some r =>
    { l with
      rest := r.rest, pos := r.pos, line := l.line + 1 + r.lines, spaced := false,
      resume := none, bound := r.rest.length }
  | none => l.advance 0 1

/-- One turn of the loop, which nothing keeps from going back. -/
def turn (l : Lexer) (c : Char) (more : List Char) : Except Malformed (Option Token × Lexer) :=
  match l.front c more with
  | .ok .newline => .ok (some (l.token .newline 0), { l.leap with previous := some .newline })
  | _ => l.step c more

/-- A turn of the loop leads from the one to the other. -/
def Turns (l l' : Lexer) : Prop :=
  ∃ c more t, l.rest = c :: more ∧ l.turn c more = .ok (t, l')

/-- The next turn takes the cursor behind the bodies that are pending. -/
def atJump (l : Lexer) : Bool :=
  l.rest.head? == some '\n' && l.resume.isSome

/-- The places to which jumps were made, the last one first, with the turn to the second lexer. -/
def jumpsAfter (jumps : List Nat) (l l' : Lexer) : List Nat :=
  if l.atJump then l'.pos :: jumps else jumps

/-- Where the last jump ended, or the start of the text. -/
def lastJump (jumps : List Nat) : Nat :=
  jumps.head?.getD 0

/-- From the start of the text the loop has made these jumps and tokens and come to this place. -/
inductive Run (source : List Char) : List Nat → List Token → Lexer → Prop
  | start : Run source [] [] (start source)
  | turn {jumps : List Nat} {ts : List Token} {l l' : Lexer} {c : Char} {more : List Char}
      {t : Option Token} (h : Run source jumps ts l) (hr : l.rest = c :: more)
      (ht : l.turn c more = .ok (t, l')) : Run source (jumpsAfter jumps l l') (ts ++ t.toList) l'

/-! ## One turn -/

theorem Placed.leap_eq_jump {length : Nat} (h : l.Placed length) : l.leap = l.jump := by
  unfold leap
  split
  · next r hresume => exact (h.jump_of_resume hresume).symm
  · next hresume => exact (jump_of_resume_none hresume).symm

/-- The guard of `jump` is never met. -/
theorem Placed.turn_eq_step {length : Nat} (h : l.Placed length) :
    l.turn c more = l.step c more := by
  unfold turn
  split
  · next hf =>
    rw [h.leap_eq_jump, Lexer.step, hf]
    rfl
  · rfl

theorem atJump_eq_true (hr : l.rest = c :: more) :
    l.atJump = true ↔ c = '\n' ∧ ∃ r, l.resume = some r := by
  simp [atJump, hr, Option.isSome_iff_exists]

/-- Only a newline jumps. -/
theorem atJump_eq_false {f : Front} (hr : l.rest = c :: more) (hf : l.front c more = .ok f)
    (hne : f ≠ .newline) : l.atJump = false := by
  rw [Bool.eq_false_iff]
  intro hjump
  obtain ⟨rfl, -⟩ := (atJump_eq_true hr).1 hjump
  cases hf
  exact hne rfl

/-- A step jumps behind the bodies that are pending, which end behind the last jump, or goes
forward. -/
theorem Placed.step_moves {length : Nat} (h : l.Placed length) (hr : l.rest = c :: more)
    (hs : l.step c more = .ok (t, l')) :
    (l.atJump = true ∧ ∃ r, l.resume = some r ∧ l'.pos = r.pos ∧ l'.bound = r.rest.length) ∨
      l.atJump = false ∧ l.pos < l'.pos ∧ l'.bound = l.bound := by
  have hforward (used : Nat) : l.pos < l.pos + 1 + used := by omega
  obtain ⟨used, lines, hf, rfl, rfl⟩ | ⟨x, used, lines, hf, rfl, rfl⟩ | ⟨hf, rfl, rfl⟩ |
    ⟨x, used, resume, hf, rfl, rfl⟩ := step_cases hs
  · exact .inr ⟨atJump_eq_false hr hf (by simp), hforward used, rfl⟩
  · exact .inr ⟨atJump_eq_false hr hf (by simp), hforward used, rfl⟩
  · have hc : c = '\n' := Option.some.inj (front_fits hr hf)
    cases hresume : l.resume with
    | none =>
      refine .inr ⟨?_, ?_⟩
      · simp [atJump, hresume]
      · rw [jump_of_resume_none hresume]
        exact ⟨hforward 0, rfl⟩
    | some r =>
      refine .inl ⟨(atJump_eq_true hr).2 ⟨hc, r, hresume⟩, r, rfl, ?_⟩
      rw [h.jump_of_resume hresume]
      exact ⟨rfl, rfl⟩
  · exact .inr ⟨atJump_eq_false hr hf (by simp), hforward used, rfl⟩

/-! ## Runs -/

/-- What holds along a run: its tokens are read, and what was left at the last jump is what lies
behind the place to which the jump led. -/
structure Kept (source : List Char) (jumps : List Nat) (ts : List Token) (l : Lexer) : Prop where
  reads : Reads (start source) ts l
  placed : l.Placed source.length
  bound : lastJump jumps + l.bound = source.length

theorem Kept.turn (h : Kept source jumps ts l) (hr : l.rest = c :: more)
    (ht : l.turn c more = .ok (t, l')) :
    Kept source (jumpsAfter jumps l l') (ts ++ t.toList) l' := by
  rw [h.placed.turn_eq_step] at ht
  refine ⟨h.reads.trans (.single hr ht), h.placed.step hr ht, ?_⟩
  obtain ⟨hjump, r, hresume, hpos, hbound⟩ | ⟨hjump, -, hbound⟩ := h.placed.step_moves hr ht
  · rw [jumpsAfter, if_pos hjump, hbound]
    show l'.pos + r.rest.length = source.length
    rw [hpos]
    exact (h.placed.resume r hresume).1
  · rw [jumpsAfter, if_neg (by simp [hjump]), hbound]
    exact h.bound

theorem Run.kept (h : Run source jumps ts l) : Kept source jumps ts l := by
  induction h with
  | start => exact ⟨.refl _, placed_start source, Nat.zero_add _⟩
  | turn _ hr ht ih => exact ih.turn hr ht

/-- A turn ends in the text: behind the last jump if it jumps, and otherwise behind the cursor. -/
theorem Run.next (h : Run source jumps ts l) (hr : l.rest = c :: more)
    (ht : l.turn c more = .ok (t, l')) :
    l'.pos ≤ source.length ∧
      ((l.atJump = true ∧ lastJump jumps < l'.pos ∧ ∃ r, l.resume = some r ∧ l'.pos = r.pos) ∨
        l.atJump = false ∧ l.pos < l'.pos) := by
  have hplaced := h.kept.placed
  have hnext := (h.turn hr ht).kept.placed.rest
  rw [hplaced.turn_eq_step] at ht
  refine ⟨by omega, ?_⟩
  obtain ⟨hjump, r, hresume, hpos, -⟩ | ⟨hjump, hpos, -⟩ := hplaced.step_moves hr ht
  · have hbound := h.kept.bound
    have hbody := hplaced.resume r hresume
    exact .inl ⟨hjump, by omega, r, hresume, hpos⟩
  · exact .inr ⟨hjump, hpos⟩

/-- Every turn leaves less behind the last jump, or as much there and less behind the cursor. -/
theorem Run.decreases (h : Run source jumps ts l) (hr : l.rest = c :: more)
    (ht : l.turn c more = .ok (t, l')) :
    Prod.Lex (· < ·) (· < ·)
      (source.length - lastJump (jumpsAfter jumps l l'), source.length - l'.pos)
      (source.length - lastJump jumps, source.length - l.pos) := by
  obtain ⟨hend, ⟨hjump, hlast, -⟩ | ⟨hjump, hpos⟩⟩ := h.next hr ht
  · rw [jumpsAfter, if_pos hjump]
    have hplace : lastJump (l'.pos :: jumps) = l'.pos := rfl
    exact .left _ _ (by omega)
  · rw [jumpsAfter, if_neg (by simp [hjump])]
    exact .right _ (by omega)

theorem le_lastJump {j : Nat} (h : jumps.Pairwise (· > ·)) (hj : j ∈ jumps) :
    j ≤ lastJump jumps := by
  cases h with
  | nil => cases hj
  | cons hfirst _ =>
    obtain rfl | hj := List.mem_cons.1 hj
    · exact Nat.le_refl _
    · exact Nat.le_of_lt (hfirst j hj)

/-- The places of the jumps grow, and they lie behind the start and in the text. -/
theorem Run.jumps_grow (h : Run source jumps ts l) :
    jumps.Pairwise (· > ·) ∧ ∀ j ∈ jumps, 0 < j ∧ j ≤ source.length := by
  induction h with
  | start => exact ⟨.nil, by simp⟩
  | @turn jumps ts l l' _ _ _ h hr ht ih =>
    obtain ⟨hgrow, hin⟩ := ih
    obtain ⟨hend, ⟨hjump, hlast, -⟩ | ⟨hjump, -⟩⟩ := h.next hr ht
    · rw [jumpsAfter, if_pos hjump]
      constructor
      · exact .cons (fun j hj => Nat.lt_of_le_of_lt (le_lastJump hgrow hj) hlast) hgrow
      · intro j hj
        obtain rfl | hj := List.mem_cons.1 hj
        · exact ⟨by omega, hend⟩
        · exact hin j hj
    · rw [jumpsAfter, if_neg (by simp [hjump])]
      exact ⟨hgrow, hin⟩

/-- From no place of a run can the loop go on without end. -/
theorem Run.acc {jumps : List Nat} {ts : List Token} {l : Lexer} (h : Run source jumps ts l) :
    Acc (fun next here => Turns here next) l := by
  constructor
  rintro l' ⟨c, more, t, hr, ht⟩
  exact (h.turn hr ht).acc
termination_by (source.length - lastJump jumps, source.length - l.pos)
decreasing_by exact h.decreases hr ht

/-- Every run can be led on to the end of the text or to a turn that fails. -/
theorem Run.ends {jumps : List Nat} {ts : List Token} {l : Lexer} (h : Run source jumps ts l) :
    ∃ jumps ts l, Run source jumps ts l ∧
      (l.rest = [] ∨ ∃ c more e, l.rest = c :: more ∧ l.turn c more = .error e) := by
  cases hr : l.rest with
  | nil => exact ⟨jumps, ts, l, h, .inl hr⟩
  | cons c more =>
    cases ht : l.turn c more with
    | error e => exact ⟨jumps, ts, l, h, .inr ⟨c, more, e, hr, ht⟩⟩
    | ok r =>
      obtain ⟨t, l'⟩ := r
      exact (h.turn hr ht).ends
termination_by (source.length - lastJump jumps, source.length - l.pos)
decreasing_by exact h.decreases hr ht

end RecipeManifest.Lexer

namespace RecipeManifest

open Lexer in
/-- Reading a text ends, with tokens or with a fault. Along every run the places to which newlines
jump grow up to the length of the text, and between two jumps the cursor does, so that every turn
makes what is left behind the last jump and behind the cursor smaller, in this order. -/
theorem tokenize_ends (lines : LineMap) (source : List Char) :
    (∀ jumps ts l, Run source jumps ts l →
      jumps.Pairwise (· > ·) ∧ (∀ j ∈ jumps, 0 < j ∧ j ≤ source.length) ∧
      l.pos ≤ source.length ∧ l.rest = source.drop l.pos ∧
      ∀ c more t l', l.rest = c :: more → l.turn c more = .ok (t, l') →
        (l.atJump = true → lastJump jumps < l'.pos ∧ l'.pos ≤ source.length ∧
          ∃ r, l.resume = some r ∧ l'.pos = r.pos) ∧
        (l.atJump = false → l.pos < l'.pos ∧ l'.pos ≤ source.length) ∧
        Prod.Lex (· < ·) (· < ·)
          (source.length - lastJump (jumpsAfter jumps l l'), source.length - l'.pos)
          (source.length - lastJump jumps, source.length - l.pos)) ∧
    (¬ ∃ places : ℕ → Lexer, places 0 = start source ∧
      ∀ n, Turns (places n) (places (n + 1))) ∧
    ∃ jumps ts l, Run source jumps ts l ∧
      ((l.rest = [] ∧
          tokenize lines source = .ok (ts ++ [⟨.eof, l.line, l.pos, l.pos, false⟩])) ∨
        ∃ c more e, l.rest = c :: more ∧ l.turn c more = .error e ∧
          tokenize lines source = .error ⟨lines.lineInFile l.line, e⟩) := by
  have hfirst : Run source [] [] (start source) := .start
  refine ⟨?_, ?_, ?_⟩
  · intro jumps ts l h
    obtain ⟨hgrow, hin⟩ := h.jumps_grow
    have hrest := h.kept.placed.rest
    refine ⟨hgrow, hin, by omega, (h.kept.reads.inText (inText_start source)).rest, ?_⟩
    intro c more t l' hr ht
    refine ⟨fun hjump => ?_, fun hjump => ?_, h.decreases hr ht⟩
    · obtain ⟨hend, ⟨-, hlast, hbody⟩ | ⟨hno, -⟩⟩ := h.next hr ht
      · exact ⟨hlast, hend, hbody⟩
      · rw [hjump] at hno
        cases hno
    · obtain ⟨hend, ⟨hyes, -⟩ | ⟨-, hpos⟩⟩ := h.next hr ht
      · rw [hjump] at hyes
        cases hyes
      · exact ⟨hpos, hend⟩
  · rintro ⟨places, hstart, hturns⟩
    exact (acc_iff_isEmpty_descending_chain.1 hfirst.acc).false ⟨places, hstart, hturns⟩
  · obtain ⟨jumps, ts, l, h, hend⟩ := hfirst.ends
    have hrun := run_of_reads h.kept.reads
    refine ⟨jumps, ts, l, h, ?_⟩
    obtain hnil | ⟨c, more, e, hr, ht⟩ := hend
    · rw [run_nil hnil] at hrun
      exact .inl ⟨hnil, by rw [tokenize, hrun]; rfl⟩
    · have hs := ht
      rw [h.kept.placed.turn_eq_step] at hs
      rw [run_error hr hs] at hrun
      exact .inr ⟨c, more, e, hr, ht, by rw [tokenize, hrun]; rfl⟩

end RecipeManifest

import RecipeManifest.Proofs.ReadStatements
import RecipeManifest.Proofs.UnguardedValues

/-!
Reading statements ends and makes progress.

These are the readers of statements without guards, in stages over those of values. A statement that
does not fit the grammar is read again from its start, and takes at least its first token: the
readers of blocks and of whole texts start a statement only where neither a separator nor the end
stands.

    tokenize source = tokens →
      the statements are those that the readers without guards come to, each takes a token or more
      and stops before the mark for the end, and code inside strings is shorter than the text
                                                                             (reading_progresses)
-/

namespace RecipeManifest.Unguarded

/-! ## The readers -/

/-- The name of a command and its arguments. -/
def commandHead (values : Readers) (ts : List Token) :
    Reading ((String × List Expr) × List Token) := do
  let t ← here ts
  let rest ← past ts
  let name := t.lexeme.value
  let following ← here rest
  let (args, rest) ←
    if atTightOp .parenL rest then do
      let (args, rest) ← values.arguments (some .parenR) (← past rest)
      let rest ← pastMark .parenR rest
      pure (args, rest)
    else if endsCommand following.lexeme then pure ([], rest)
    else values.arguments none rest
  let args := if name = "resources" then [.resources (lookupTargets args)] else args
  return ((name, args), rest)

/-- The readers of statements, at some stage. -/
structure BlockReaders where
  /-- One statement, of the grammar or not. -/
  statement : Option Closer → List Token → Reading (Statement × List Token)
  supported : Option Closer → List Token → Reading (Statement × List Token)
  commandBlock : List Token → Reading (Option (List Statement) × List Token)
  block : Closer → List Token → Reading (List Statement × List Token)
  blockItems : Closer → List Token → Reading (List Statement × List Token)
  /-- The statements up to the end of the text, and the line of the one that the text ends in, if it
  ends inside one. -/
  statements : List Token → Option (Except LexFault (List Statement × Option Int))

/-- The first stage, at which nothing has an outcome. -/
def BlockReaders.initial : BlockReaders where
  statement _ _ := none
  supported _ _ := none
  commandBlock _ := none
  block _ _ := none
  blockItems _ _ := none
  statements _ := none

/-- The readers of the next stage. -/
def BlockReaders.next (b : BlockSource) (values : Readers) (inner : BlockReaders) :
    BlockReaders where
  statement closer ts :=
    (do
      match ← (inner.supported closer ts).run with
      | .ok (s, rest) =>
        if endsStatement closer (← here rest).lexeme then return .ok (s, rest)
        else return b.unsupported closer ts
      | .error .mismatch => return b.unsupported closer ts
      | .error e => return .error e : Option (Except Stop (Statement × List Token)))
  supported closer ts := do
    let t ← here ts
    if opensBlock t.lexeme then throw .mismatch
    else if startsCommand ts then
      let ((name, args), rest) ← commandHead values ts
      let (block, rest) ← inner.commandBlock rest
      match closer with
      | none =>
        return (.resource name args.head? (block.getD []) block.isSome (b.lineInFile ts), rest)
      | some _ => return (.property name args block (b.lineInFile ts), rest)
    else if closer.isNone then throw .mismatch
    else
      let (e, rest) ← values.expression 0 ts
      return (.expression e (b.lineInFile ts), rest)
  commandBlock ts := do
    let t ← here ts
    if t.lexeme = .keyword .doWord then
      let (body, rest) ← inner.block .endWord (← past ts)
      return (some body, rest)
    else if t.lexeme = .op .braceL then
      let (body, rest) ← inner.block .brace (← past ts)
      return (some body, rest)
    else return (none, ts)
  block closer ts := do
    let rest ← skipParameters (afterBreaks ts)
    inner.blockItems closer rest
  blockItems closer ts := do
    let t ← here (afterBreaks ts)
    if t.lexeme = .eof then throw .endOfBlock
    else if closer.isAt t.lexeme then return ([], ← past (afterBreaks ts))
    else
      let (s, rest) ← inner.statement (some closer) (afterBreaks ts)
      let (items, rest) ← inner.blockItems closer rest
      return (s :: items, rest)
  statements ts := do
    let t ← here (afterBreaks ts)
    if t.lexeme = .eof then return .ok ([], none)
    else
      match ← (inner.statement none (afterBreaks ts)).run with
      | .error (.fault f) => return .error f
      | .error _ => return .ok ([], some (b.lineInFile (afterBreaks ts)))
      | .ok (s, rest) =>
        let behind ← inner.statements rest
        return behind.map fun (items, line) => (s :: items, line)

/-- The readers whose calls stand in each other less deep than the stage. -/
def blockReaders (b : BlockSource) : Nat → BlockReaders
  | 0 => .initial
  | n + 1 => (blockReaders b n).next b (readers n)

/-! ## What is left -/

section Leaves

variable {ts rest : List Token} {closer : Option Closer}

theorem isSeparator_peek_afterBreaks (ts : List Token) :
    (peek (afterBreaks ts)).isSeparator = false := by
  cases hs : afterBreaks ts with
  | nil => rfl
  | cons t more =>
    have hhead := List.head?_dropWhile_not (fun t : Token => t.lexeme.isSeparator) ts
    rw [show ts.dropWhile (fun t => t.lexeme.isSeparator) = t :: more from hs] at hhead
    simpa using hhead

theorem endsStatement_of_endsUnsupported {last : Option Lexeme} {x : Lexeme}
    (h : endsUnsupported closer last x = true) : endsStatement closer x = true := by
  simp only [endsUnsupported, Bool.or_eq_true, Bool.and_eq_true] at h
  rcases h with ⟨hsep, -⟩ | ⟨-, hclose⟩
  · simp [endsStatement, hsep]
  · simp [endsStatement, hclose]

/-- Skipping stops at the end of a statement, and not behind the mark for the end. -/
theorem leaves_skipUnsupported {depth stop stop' : Nat} {last : Option Lexeme} {fresh : Bool}
    (h : Ended ts) (hskip : skipUnsupported closer depth last fresh stop ts = .ok (stop', rest)) :
    Leaves 0 ts rest ∧ endsStatement closer (peek rest) = true := by
  fun_induction skipUnsupported closer depth last fresh stop ts with
  | case1 => cases h
  | case2 | case4 => cases hskip
  | case3 last fresh stop t more heof =>
    cases hskip
    exact ⟨h.refl, by simp [endsStatement, peek, heof]⟩
  | case5 depth last fresh stop t more heof hends =>
    cases hskip
    exact ⟨h.refl, endsStatement_of_endsUnsupported hends.2⟩
  | case6 depth last fresh stop t more heof hends ih =>
    have hmore := h.tail heof
    obtain ⟨hleaves, hpeek⟩ := ih (h.leaves hmore) hskip
    exact ⟨(hmore.trans hleaves).mono (Nat.zero_le _), hpeek⟩

/-- A statement that is kept as text takes a token or more, if one stands there. -/
theorem leaves_unsupported {b : BlockSource} {s : Statement} (h : Ended ts)
    (hsep : (peek ts).isSeparator = false) (heof : peek ts ≠ .eof)
    (hkept : b.unsupported closer ts = .ok (s, rest)) :
    Leaves 1 ts rest ∧ endsStatement closer (peek rest) = true := by
  obtain ⟨t, more, rfl⟩ := h.exists_cons
  have hmore := h.tail heof
  obtain ⟨⟨stop, rest'⟩, hskip, hresult⟩ := bind_eq_ok_iff.1 hkept
  cases hresult
  -- the first token is no separator, and only a later one can close the block
  have hfirst : ¬ ((0 : Nat) = 0 ∧ endsUnsupported closer none t.lexeme = true) := by
    simpa [endsUnsupported] using hsep
  have ht : t.lexeme ≠ .eof := heof
  rw [skipUnsupported, if_neg ht, if_neg hfirst] at hskip
  obtain ⟨hleaves, hpeek⟩ := leaves_skipUnsupported (h.leaves hmore) hskip
  exact ⟨hmore.trans hleaves, hpeek⟩

theorem leaves_skipParameters (h : Ended ts) (hskip : skipParameters ts = .ok rest) :
    Leaves 0 ts rest := by
  obtain ⟨t, more, rfl⟩ := h.exists_cons
  unfold skipParameters at hskip
  split at hskip
  · next hbar =>
    have ht : t.lexeme ≠ .eof := by
      intro heof
      simp [atOp, peek, heof] at hbar
    have hmore := h.tail ht
    have hsuffix := List.dropWhile_suffix (l := more)
      fun t => t.lexeme != .op .bar && t.lexeme != .eof
    split at hskip
    · cases hskip
    · next u behind hdrop =>
      rw [show more.dropWhile _ = u :: behind from hdrop] at hsuffix
      have hmark : Leaves 0 more (u :: behind) :=
        ⟨hsuffix, by simp, by have := hsuffix.length_le; omega⟩
      split at hskip
      · cases hskip
      · next hu =>
        cases hskip
        have hbar := (h.leaves (hmore.trans hmark)).tail hu
        exact ((hmore.trans hmark).trans hbar).mono (Nat.zero_le _)
  · cases hskip
    exact h.refl

theorem peek_ne_eof_of_startsCommand (h : startsCommand ts = true) : peek ts ≠ .eof := by
  unfold startsCommand at h
  split at h
  · simp [peek]
  · cases h

end Leaves

/-! ## Statements -/

section Statements

variable {b : BlockSource} {N n : Nat} {ts : List Token}

theorem settles_commandHead (hts : Sound b.interpret N ts) (heof : peek ts ≠ .eof)
    (hn : N + 8 * ts.length < n) :
    Settles (Leaves 1 ts) (commandHead (readers n) ts) (b.commandHead ts) := by
  have values : SettleAt b.interpret N n := settleAt n
  obtain ⟨t, more, rfl⟩ := hts.ended.exists_cons
  have hmore := hts.ended.tail heof
  have hsound := hts.leaves hmore
  have hlength := hmore.used
  obtain ⟨u, hhere, hu⟩ := hsound.ended.here
  unfold commandHead BlockSource.commandHead
  rw [here_bind, past_bind heof, hhere, some_bind, hu]
  dsimp only
  by_cases hparen : atTightOp .parenL more = true
  · rw [if_pos hparen, if_pos (show atTightOp .parenL (t :: more).tail = true from hparen)]
    obtain ⟨v, behind, rfl⟩ := hsound.ended.exists_cons
    have hv : v.lexeme ≠ .eof := by
      intro heof
      simp [atTightOp, heof] at hparen
    have hbehind := hmore.trans (hsound.ended.tail hv)
    have hinside := hbehind.used
    rw [past_bind hv]
    exact settles_enclosed values _ hts hbehind (by omega)
      fun args rest hrest => .pure (a := (t.lexeme.value,
        if t.lexeme.value = "resources" then [.resources (lookupTargets args)] else args)) hrest
  · rw [if_neg hparen, if_neg (show ¬ atTightOp .parenL (t :: more).tail = true from hparen)]
    by_cases hends : endsCommand (peek more) = true
    · rw [if_pos hends, if_pos (show endsCommand (peek (t :: more).tail) = true from hends)]
      exact .pure hmore
    · rw [if_neg hends, if_neg (show ¬ endsCommand (peek (t :: more).tail) = true from hends)]
      apply (values.arguments hsound (by omega)).bind
      intro args rest hrest
      exact .pure (hmore.trans hrest)

variable (b N) in
/-- From the tokens of a text, each reader of the stage comes to the outcome of the reader with
guards, if the stage is beyond what bounds the recursion of that reader. -/
structure BlocksSettleAt (n : Nat) : Prop where
  statement : ∀ {closer ts}, Sound b.interpret N ts → (peek ts).isSeparator = false →
    peek ts ≠ .eof → N + 8 * ts.length + 5 < n →
      Settles (fun rest => Leaves 1 ts rest ∧ endsStatement closer (peek rest) = true)
        ((blockReaders b n).statement closer ts) (b.statement closer ts)
  supported : ∀ {closer ts}, Sound b.interpret N ts → N + 8 * ts.length + 4 < n →
    Settles (Leaves 1 ts) ((blockReaders b n).supported closer ts) (b.supported closer ts)
  commandBlock : ∀ {ts}, Sound b.interpret N ts → N + 8 * ts.length + 5 < n →
    Settles (Leaves 0 ts) ((blockReaders b n).commandBlock ts) (b.commandBlock ts)
  block : ∀ {closer ts}, Sound b.interpret N ts → N + 8 * ts.length + 7 < n →
    Settles (Leaves 1 ts) ((blockReaders b n).block closer ts) (b.block closer ts)
  blockItems : ∀ {closer ts}, Sound b.interpret N ts → N + 8 * ts.length + 6 < n →
    Settles (Leaves 1 ts) ((blockReaders b n).blockItems closer ts) (b.blockItems closer ts)
  statements : ∀ {ts}, Sound b.interpret N ts → N + 8 * ts.length + 6 < n →
    (blockReaders b n).statements ts = some (b.statements ts)

section Stages

theorem settles_statement (ih : BlocksSettleAt b N n) (closer : Option Closer)
    (hts : Sound b.interpret N ts) (hsep : (peek ts).isSeparator = false) (heof : peek ts ≠ .eof)
    (hn : N + 8 * ts.length + 5 < n + 1) :
    Settles (fun rest => Leaves 1 ts rest ∧ endsStatement closer (peek rest) = true)
      ((blockReaders b (n + 1)).statement closer ts) (b.statement closer ts) := by
  -- after a mismatch, and where the statement does not end, it is read again from its start
  have hkept : Settles (fun rest => Leaves 1 ts rest ∧ endsStatement closer (peek rest) = true)
      (some (b.unsupported closer ts) : Option _) (b.unsupported closer ts) :=
    ⟨rfl, fun s rest h => leaves_unsupported hts.ended hsep heof h⟩
  obtain ⟨hrun, hleaves⟩ := @BlocksSettleAt.supported _ _ _ ih closer ts hts (by omega)
  rw [BlockSource.statement, blockReaders]
  dsimp only [BlockReaders.next]
  show (((blockReaders b n).supported closer ts).run >>= _) = _ ∧ _
  rw [hrun]
  cases hresult : b.supported closer ts with
  | error e =>
    cases e with
    | mismatch => exact hkept
    | endOfBlock => exact Settles.throw _
    | fault f => exact Settles.throw _
  | ok r =>
    obtain ⟨s, rest⟩ := r
    have hrest := hleaves s rest hresult
    obtain ⟨u, hhere, hu⟩ := (hts.leaves hrest).ended.here
    show (here rest >>= _) = _ ∧ _
    rw [hhere]
    dsimp only
    by_cases hends : endsStatement closer (peek rest) = true
    · rw [if_pos hends]
      exact ⟨if_pos (by rw [hu]; exact hends), by rintro _ _ ⟨⟩; exact ⟨hrest, hends⟩⟩
    · rw [if_neg hends]
      exact ⟨if_neg (by rw [hu]; exact hends), hkept.2⟩

theorem settles_supported (ih : BlocksSettleAt b N n) (closer : Option Closer)
    (hts : Sound b.interpret N ts) (hn : N + 8 * ts.length + 4 < n + 1) :
    Settles (Leaves 1 ts) ((blockReaders b (n + 1)).supported closer ts)
      (b.supported closer ts) := by
  obtain ⟨u, hhere, hu⟩ := hts.ended.here
  rw [BlockSource.supported, blockReaders]
  dsimp only [BlockReaders.next]
  rw [hhere, some_bind, hu]
  by_cases hopens : opensBlock (peek ts) = true
  · rw [if_pos hopens, if_pos hopens]
    exact .throw _
  · rw [if_neg hopens, if_neg hopens]
    by_cases hcommand : startsCommand ts = true
    · rw [if_pos hcommand, if_pos hcommand]
      apply (settles_commandHead hts (peek_ne_eof_of_startsCommand hcommand) (by omega)).goOn
        (fun rest hrest => by have := hrest.used; omega)
      intro head rest hlt hrest
      obtain ⟨name, args⟩ := head
      have hblock := (ih.commandBlock (hts.leaves hrest) (by omega)).mono
        fun _ h => hrest.trans h
      cases closer with
      | none =>
        exact hblock.map fun block =>
          Statement.resource name args.head? (block.getD []) block.isSome (b.lineInFile ts)
      | some _ => exact hblock.map fun block => Statement.property name args block (b.lineInFile ts)
    · rw [if_neg hcommand, if_neg hcommand]
      by_cases hclosed : closer.isNone = true
      · rw [if_pos hclosed, if_pos hclosed]
        exact .throw _
      · rw [if_neg hclosed, if_neg hclosed]
        exact ((settleAt n).expression hts (by omega)).map
          fun e => Statement.expression e (b.lineInFile ts)

theorem settles_commandBlock (ih : BlocksSettleAt b N n) (hts : Sound b.interpret N ts)
    (hn : N + 8 * ts.length + 5 < n + 1) :
    Settles (Leaves 0 ts) ((blockReaders b (n + 1)).commandBlock ts) (b.commandBlock ts) := by
  obtain ⟨t, more, rfl⟩ := hts.ended.exists_cons
  have hlength : (t :: more).length = more.length + 1 := rfl
  rw [BlockSource.commandBlock.eq_def, blockReaders]
  dsimp only [BlockReaders.next]
  rw [here_bind]
  by_cases hdo : t.lexeme = .keyword .doWord
  · have ht : t.lexeme ≠ .eof := by simp [hdo]
    rw [if_pos hdo, past_bind ht, hdo]
    exact ((ih.block (hts.tail ht) (by omega)).map some).mono
      fun _ h => ((hts.ended.tail ht).trans h).mono (Nat.zero_le _)
  · rw [if_neg hdo]
    by_cases hbrace : t.lexeme = .op .braceL
    · have ht : t.lexeme ≠ .eof := by simp [hbrace]
      rw [if_pos hbrace, past_bind ht, hbrace]
      exact ((ih.block (hts.tail ht) (by omega)).map some).mono
        fun _ h => ((hts.ended.tail ht).trans h).mono (Nat.zero_le _)
    · rw [if_neg hbrace]
      split
      · contradiction
      · contradiction
      · exact .pure hts.ended.refl

theorem settles_block (ih : BlocksSettleAt b N n) (closer : Closer)
    (hts : Sound b.interpret N ts) (hn : N + 8 * ts.length + 7 < n + 1) :
    Settles (Leaves 1 ts) ((blockReaders b (n + 1)).block closer ts) (b.block closer ts) := by
  rw [BlockSource.block.eq_def, blockReaders]
  dsimp only [BlockReaders.next]
  cases hskip : skipParameters (afterBreaks ts) with
  | error e => exact .throw e
  | ok rest =>
    have hrest := hts.ended.afterBreaks.trans (leaves_skipParameters hts.afterBreaks.ended hskip)
    have hlength := hrest.used
    exact (ih.blockItems (hts.leaves hrest) (by omega)).mono
      fun _ h => (hrest.trans h).mono (Nat.le_add_left 1 _)

theorem settles_blockItems (ih : BlocksSettleAt b N n) (closer : Closer)
    (hts : Sound b.interpret N ts) (hn : N + 8 * ts.length + 6 < n + 1) :
    Settles (Leaves 1 ts) ((blockReaders b (n + 1)).blockItems closer ts)
      (b.blockItems closer ts) := by
  rw [BlockSource.blockItems.eq_def, blockReaders]
  dsimp only [BlockReaders.next]
  have hbreaks := hts.ended.afterBreaks
  have hsep := isSeparator_peek_afterBreaks ts
  have hlength := length_afterBreaks_le ts
  generalize afterBreaks ts = us at hbreaks hsep hlength ⊢
  obtain ⟨t, more, rfl⟩ := (hts.leaves hbreaks).ended.exists_cons
  rw [here_bind]
  dsimp only
  by_cases heof : t.lexeme = .eof
  · rw [if_pos heof, if_pos heof]
    exact .throw _
  · rw [if_neg heof, if_neg heof]
    have hmore := hbreaks.trans ((hts.leaves hbreaks).ended.tail heof)
    by_cases hclose : closer.isAt t.lexeme = true
    · rw [if_pos hclose, if_pos hclose, past_bind heof]
      exact .pure hmore
    · rw [if_neg hclose, if_neg hclose]
      apply (ih.statement (hts.leaves hbreaks) hsep heof (by omega)).goOn
        (fun rest hrest => by have := hrest.1.used; omega)
      intro s rest hlt hrest
      have hused := hbreaks.trans hrest.1
      exact ((ih.blockItems (hts.leaves hused) (by omega)).map (s :: ·)).mono
        fun _ h => (hused.trans h).mono (Nat.le_add_left 1 _)

theorem statements_eq (ih : BlocksSettleAt b N n) (hts : Sound b.interpret N ts)
    (hn : N + 8 * ts.length + 6 < n + 1) :
    (blockReaders b (n + 1)).statements ts = some (b.statements ts) := by
  rw [BlockSource.statements.eq_def, blockReaders]
  dsimp only [BlockReaders.next]
  have hbreaks := hts.ended.afterBreaks
  have hsep := isSeparator_peek_afterBreaks ts
  have hlength := length_afterBreaks_le ts
  generalize afterBreaks ts = us at hbreaks hsep hlength ⊢
  obtain ⟨t, more, rfl⟩ := (hts.leaves hbreaks).ended.exists_cons
  show (some t >>= _) = _
  dsimp only
  by_cases heof : t.lexeme = .eof
  · rw [if_pos heof]
    exact if_pos heof
  · rw [if_neg heof]
    obtain ⟨hrun, hleaves⟩ :=
      @BlocksSettleAt.statement _ _ _ ih none _ (hts.leaves hbreaks) hsep heof (by omega)
    refine (if_neg heof).trans ?_
    rw [hrun]
    cases hresult : b.statement none (t :: more) with
    | error e => cases e <;> rfl
    | ok r =>
      obtain ⟨s, rest⟩ := r
      have hrest := (hleaves s rest hresult).1
      have hused := hbreaks.trans hrest
      have hlt : rest.length < (t :: more).length := by
        have := hrest.used
        omega
      dsimp only
      rw [dif_pos hlt]
      show ((blockReaders b n).statements rest >>= _) = _
      rw [ih.statements (hts.leaves hused) (by omega)]
      rfl

end Stages

theorem blocksSettleAt (n : Nat) : BlocksSettleAt b N n := by
  induction n with
  | zero => constructor <;> intros <;> omega
  | succ n ih =>
    exact {
      statement := settles_statement ih _
      supported := settles_supported ih _
      commandBlock := settles_commandBlock ih
      block := settles_block ih _
      blockItems := settles_blockItems ih _
      statements := statements_eq ih }

end Statements

end RecipeManifest.Unguarded

namespace RecipeManifest

open Unguarded in
/-- Reading the statements of a text ends as it does without guards. Every statement that is started
in a block or a text, of the grammar or kept as text, takes a token or more and leaves the mark for
the end; at the top, a separator or that mark follows it. The code inside the strings of a text,
which is read as a text of its own, is shorter than the text. -/
theorem reading_progresses (lines : LineMap) (source : List Char) (tokens : List Token)
    (htokens : tokenize lines source = .ok tokens) :
    ComesTo (fun n => (blockReaders ⟨source, lines⟩ n).statements tokens)
      (BlockSource.statements ⟨source, lines⟩ tokens) ∧
    (∃ body stop, tokens = body ++ [stop] ∧ stop.lexeme = .eof ∧ ∀ t ∈ body, t.lexeme ≠ .eof) ∧
    (∀ closer ts, ts <:+ tokens → (peek ts).isSeparator = false → peek ts ≠ .eof →
      ComesTo (fun n => ((blockReaders ⟨source, lines⟩ n).statement closer ts).run)
        (BlockSource.statement ⟨source, lines⟩ closer ts) ∧
      ∀ s rest, BlockSource.statement ⟨source, lines⟩ closer ts = .ok (s, rest) →
        (∃ used, 0 < used ∧ used < ts.length ∧ rest = ts.drop used) ∧
        (closer = none → (peek rest).isSeparator = true ∨ peek rest = .eof)) ∧
    ∀ t ∈ tokens, ∀ parts, t.lexeme = .string parts → ∀ code, Part.code code ∈ parts →
      code.length < source.length ∧
      ComesTo (fun n => ((readers n).codeValue code).run)
        ((BlockSource.interpret ⟨source, lines⟩ code).mapError .fault) := by
  have hcode (code : List Char) (hlt : code.length < source.length) :
      ComesTo (fun n => ((readers n).codeValue code).run)
        ((BlockSource.interpret ⟨source, lines⟩ code).mapError .fault) :=
    comesTo_codeValue (Nat.le_of_lt hlt)
  obtain ⟨N, hsound⟩ := exists_sound htokens hcode
  refine ⟨⟨N + 8 * tokens.length + 7, fun n hn => (blocksSettleAt n).statements hsound hn⟩,
    ?_, ?_, ?_⟩
  · obtain ⟨ts, l, hreads, -, rfl⟩ := Lexer.run_eq_ok (tokenize_eq_ok.1 htokens)
    exact ⟨ts, _, rfl, rfl, hreads.lexeme_ne_eof⟩
  · intro closer ts hsuffix hsep heof
    have hne : ts ≠ [] := by
      rintro rfl
      exact heof rfl
    have hts : Leaves 0 tokens ts := ⟨hsuffix, hne, by have := hsuffix.length_le; omega⟩
    have hsettles (n : Nat) (hn : N + 8 * ts.length + 6 ≤ n) :=
      @BlocksSettleAt.statement _ _ _ (blocksSettleAt n) closer _ (hsound.leaves hts) hsep heof hn
    refine ⟨⟨_, fun n hn => (hsettles n hn).1⟩, fun s rest hresult => ?_⟩
    obtain ⟨hrest, hends⟩ := (hsettles _ (Nat.le_refl _)).2 s rest hresult
    have hused := hrest.used
    have hpos := List.length_pos_iff.2 hrest.ne_nil
    refine ⟨⟨ts.length - rest.length, by omega, by omega,
      List.suffix_iff_eq_drop.1 hrest.suffix⟩, ?_⟩
    rintro rfl
    simpa [endsStatement] using hends
  · intro t ht parts hparts code hmem
    have hlt := length_code_lt htokens ht hparts hmem
    exact ⟨hlt, hcode code hlt⟩

/-- A block with code in its label, and with a line that is read again and kept as text. -/
theorem reading_progresses_of_kept_line :
    ∃ tokens, tokenize [] "file \"#\x7ba\x7d\" do\n  x = 1\nend\n".toList = .ok tokens ∧
      Unguarded.ComesTo
        (fun n => (Unguarded.blockReaders
          ⟨"file \"#\x7ba\x7d\" do\n  x = 1\nend\n".toList, []⟩ n).statements tokens)
        (.ok ([.resource "file" (some (.interpolated [.value (.call none "a" [])]))
          [.unsupported "x = 1" 2] true 1], none)) := by
  have htokens : tokenize [] "file \"#\x7ba\x7d\" do\n  x = 1\nend\n".toList = .ok
      [⟨.ident "file", 1, 0, 4, false⟩, ⟨.string [.code ['a']], 1, 5, 11, true⟩,
        ⟨.keyword .doWord, 1, 12, 14, true⟩, ⟨.newline, 1, 14, 15, false⟩,
        ⟨.ident "x", 2, 17, 18, true⟩, ⟨.op .assign, 2, 19, 20, true⟩,
        ⟨.number "1", 2, 21, 22, true⟩, ⟨.newline, 2, 22, 23, false⟩,
        ⟨.keyword .endWord, 3, 23, 26, false⟩, ⟨.newline, 3, 26, 27, false⟩,
        ⟨.eof, 4, 27, 27, false⟩] := by
    decide +kernel
  refine ⟨_, htokens, ?_⟩
  refine Eq.mp (congrArg (Unguarded.ComesTo _) ?_) (reading_progresses _ _ _ htokens).1
  with_unfolding_all rfl

end RecipeManifest

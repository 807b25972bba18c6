import RecipeManifest.Proofs.ReadValues
import RecipeManifest.Statement.Reader

/-!
What the readers of statements make.

The statements of a recipe are declarations and code kept as text (`Statement.isTopLevel`), those of
a block are properties, expressions and code kept as text (`Statement.isInner`); the expressions in
them are made of values. Reading a text gives such statements, or a fault that the text's kind
allows (`Lexable.read`).
-/

namespace RecipeManifest

/-! ## Statements by where they stand -/

namespace Statement

mutual

/-- A statement as it can stand in a block: a property, an expression or code kept as text. -/
def isInner : Statement → Bool
  | resource _ _ _ _ _ => false
  | property _ args block _ => Expr.areValues args && isMaybeBlock block
  | expression expr _ => expr.isValue
  | unsupported _ _ => true

def areInner : List Statement → Bool
  | [] => true
  | s :: rest => isInner s && areInner rest

/-- There is no block, or one of such statements. -/
def isMaybeBlock : Option (List Statement) → Bool
  | none => true
  | some body => areInner body

end

/-- A statement as it can stand outside all blocks: a declaration or code kept as text. -/
def isTopLevel : Statement → Bool
  | resource _ name body _ _ => Expr.isMaybeValue name && areInner body
  | unsupported _ _ => true
  | _ => false

theorem areInner_iff {body : List Statement} :
    areInner body = true ↔ ∀ s ∈ body, s.isInner = true := by
  induction body with
  | nil => simp [areInner]
  | cons s rest ih => simp [areInner, ih]

end Statement

/-- A statement as it can stand in a block with that closer, or outside all blocks. -/
def Statement.standsIn (closer : Option Closer) (s : Statement) : Bool :=
  if closer.isNone then s.isTopLevel else s.isInner

theorem skipUnsupported_outcome (closer : Option Closer) (depth : Nat) (last : Option Lexeme)
    (fresh : Bool) (stop : Nat) (ts : List Token) :
    match skipUnsupported closer depth last fresh stop ts with
    | .ok (_, rest) => rest <:+ ts
    | .error e => e = .endOfBlock := by
  fun_induction skipUnsupported closer depth last fresh stop ts with
  | case1 | case3 | case5 => exact List.suffix_refl _
  | case2 | case4 => rfl
  | case6 depth last fresh stop t more _ _ ih =>
    split
    · next rest hok =>
      rw [hok] at ih
      exact ih.trans (List.suffix_cons t more)
    · next e herror =>
      rw [herror] at ih
      exact ih

theorem skipParameters_outcome (ts : List Token) :
    match skipParameters ts with
    | .ok rest => rest <:+ ts
    | .error e => e = .endOfBlock := by
  have hsuffix := List.dropWhile_suffix (l := ts.tail)
    fun t => t.lexeme != .op .bar && t.lexeme != .eof
  unfold skipParameters
  by_cases hbar : atOp .bar ts = true
  · rw [if_pos hbar]
    cases hdrop : ts.tail.dropWhile fun t => t.lexeme != .op .bar && t.lexeme != .eof with
    | nil => rfl
    | cons t rest =>
      rw [hdrop] at hsuffix
      by_cases heof : t.lexeme = .eof
      · simp [heof]
      · simp only [heof, if_false]
        exact (List.suffix_cons t rest).trans (hsuffix.trans (List.tail_suffix ts))
  · simp only [if_neg hbar, List.suffix_refl]

namespace BlockSource

variable {allowed : LexFault → Prop} {b : BlockSource}

/-- Code outside the grammar is kept as text, or the tokens end in it. -/
theorem unsupported_cases (b : BlockSource) (closer : Option Closer) (ts : List Token) :
    b.unsupported closer ts = .error .endOfBlock ∨
      ∃ code line rest, rest <:+ ts ∧
        b.unsupported closer ts = .ok (.unsupported code line, rest) := by
  have hskip := skipUnsupported_outcome closer 0 none true (ts.head?.elim 0 (·.stop)) ts
  unfold unsupported
  dsimp only
  cases hresult : skipUnsupported closer 0 none true (ts.head?.elim 0 (·.stop)) ts with
  | error e =>
    rw [hresult] at hskip
    dsimp only at hskip
    rw [hskip]
    exact .inl rfl
  | ok skipped =>
    rw [hresult] at hskip
    exact .inr ⟨_, _, skipped.2, hskip, rfl⟩

theorem unsupported_outcome (closer : Option Closer) {ts : List Token}
    (hts : Readable allowed b.interpret ts) :
    Outcome allowed b.interpret (fun s => s.standsIn closer = true) (b.unsupported closer ts) := by
  obtain h | ⟨code, line, rest, hrest, h⟩ := unsupported_cases b closer ts
  · rw [h]
    trivial
  · rw [h]
    refine ⟨?_, hts.of_suffix hrest⟩
    cases closer <;> rfl

theorem commandHead_outcome {ts : List Token} (hts : Readable allowed b.interpret ts) :
    Outcome allowed b.interpret (fun head => Expr.areValues head.2 = true) (b.commandHead ts) := by
  have hhead : ∀ args rest, Expr.areValues args = true → Readable allowed b.interpret rest →
      Outcome allowed b.interpret (fun head => Expr.areValues head.2 = true)
        (pure (((peek ts).value,
          if (peek ts).value = "resources" then [Expr.resources (lookupTargets args)] else args),
          rest)) := by
    intro args rest hargs hrest
    refine ⟨?_, hrest⟩
    dsimp only
    split
    · rfl
    · exact hargs
  unfold commandHead
  dsimp only
  split
  · apply (readsValues_arguments (some .parenR) ts.tail.tail hts.tail.tail).bind
    intro args rest hargs hrest
    apply Outcome.pastOp hrest
    intro rest hrest
    exact hhead args rest hargs hrest
  · split
    · exact hhead [] ts.tail rfl hts.tail
    · apply (readsValues_arguments none ts.tail hts.tail).bind
      intro args rest hargs hrest
      exact hhead args rest hargs hrest

/-- A command with its block as a declaration, or as a property inside a block. -/
theorem standsIn_command (closer : Option Closer) (name : String) {args : List Expr}
    (hargs : Expr.areValues args = true) {block : Option (List Statement)}
    (hblock : Statement.isMaybeBlock block = true) (line : Int) :
    (match closer with
      | none => Statement.resource name args.head? (block.getD []) block.isSome line
      | some _ => Statement.property name args block line).standsIn closer = true := by
  cases closer with
  | none =>
    have hname : Expr.isMaybeValue args.head? = true := by
      cases args with
      | nil => rfl
      | cons e rest => exact (Expr.areValues_iff.1 hargs) e List.mem_cons_self
    have hbody : Statement.areInner (block.getD []) = true := by
      cases block with
      | none => rfl
      | some body => exact hblock
    simp [Statement.standsIn, Statement.isTopLevel, hname, hbody]
  | some c => simp [Statement.standsIn, Statement.isInner, hargs, hblock]

mutual

theorem statement_outcome (closer : Option Closer) (ts : List Token)
    (hts : Readable allowed b.interpret ts) :
    Outcome allowed b.interpret (fun s => s.standsIn closer = true) (b.statement closer ts) := by
  have hsupported := supported_outcome closer ts hts
  rw [statement]
  split
  · next s rest hok =>
    rw [hok] at hsupported
    split
    · exact hsupported
    · exact unsupported_outcome closer hts
  · exact unsupported_outcome closer hts
  · next e _ herror =>
    rw [herror] at hsupported
    cases e <;> exact hsupported
termination_by 8 * ts.length + 1
decreasing_by all_goals omega

theorem supported_outcome (closer : Option Closer) (ts : List Token)
    (hts : Readable allowed b.interpret ts) :
    Outcome allowed b.interpret (fun s => s.standsIn closer = true) (b.supported closer ts) := by
  rw [supported]
  split
  · trivial
  · split
    · apply (commandHead_outcome hts).goOn
      intro head rest hlt hargs hrest
      have hcommand := commandBlock_outcome rest hrest
      dsimp only
      cases hblock : b.commandBlock rest with
      | error e =>
        rw [hblock] at hcommand
        cases e <;> exact hcommand
      | ok r =>
        rw [hblock] at hcommand
        have hstands := standsIn_command closer head.1 hargs hcommand.1
          (b.lineInFile ts)
        cases closer <;> exact ⟨hstands, hcommand.2⟩
    · split
      · trivial
      · next hclosed =>
        apply (readsValue_expression 0 ts hts).map
          (f := fun e => Statement.expression e (b.lineInFile ts))
        intro e he
        simp [Statement.standsIn, hclosed, Statement.isInner, he]
termination_by 8 * ts.length
decreasing_by all_goals omega

theorem commandBlock_outcome (ts : List Token) (hts : Readable allowed b.interpret ts) :
    Outcome allowed b.interpret (fun block => Statement.isMaybeBlock block = true)
      (b.commandBlock ts) := by
  rw [commandBlock.eq_def]
  match ts, hts with
  | [], hts => exact ⟨rfl, hts⟩
  | t :: more, hts =>
    dsimp only
    split
    · apply (block_outcome .endWord more hts.more).map
      intro body hbody
      exact hbody
    · apply (block_outcome .brace more hts.more).map
      intro body hbody
      exact hbody
    · exact ⟨rfl, hts⟩
termination_by 8 * ts.length + 1
decreasing_by all_goals simp only [List.length_cons]; omega

theorem block_outcome (closer : Closer) (ts : List Token)
    (hts : Readable allowed b.interpret ts) :
    Outcome allowed b.interpret (fun body => Statement.areInner body = true)
      (b.block closer ts) := by
  rw [block.eq_def]
  have hskip := skipParameters_outcome (afterBreaks ts)
  cases h : skipParameters (afterBreaks ts) with
  | error e =>
    rw [h] at hskip
    dsimp only at hskip
    rw [hskip]
    trivial
  | ok rest =>
    rw [h] at hskip
    exact blockItems_outcome closer rest (hts.afterBreaks.of_suffix hskip)
termination_by 8 * ts.length + 3
decreasing_by
  have h1 := length_skipParameters_le h
  have h2 := length_afterBreaks_le ts
  omega

theorem blockItems_outcome (closer : Closer) (ts : List Token)
    (hts : Readable allowed b.interpret ts) :
    Outcome allowed b.interpret (fun body => Statement.areInner body = true)
      (b.blockItems closer ts) := by
  rw [blockItems.eq_def]
  have hbreaks := hts.afterBreaks
  split
  · trivial
  · next t more hs =>
    have hle : (t :: more).length ≤ ts.length := hs ▸ length_afterBreaks_le ts
    rw [hs] at hbreaks
    split
    · trivial
    · split
      · exact ⟨rfl, hbreaks.more⟩
      · apply (statement_outcome (some closer) (t :: more) hbreaks).goOn
        intro s rest hlt hinner hrest
        apply (blockItems_outcome closer rest hrest).map
        intro items hitems
        rw [Statement.areInner, Bool.and_eq_true]
        exact ⟨hinner, hitems⟩
termination_by 8 * ts.length + 2
decreasing_by all_goals omega

end

/-- The statements of a text are declarations and code kept as text. -/
theorem statements_outcome (ts : List Token) (hts : Readable allowed b.interpret ts) :
    match b.statements ts with
    | .ok (items, _) => ∀ s ∈ items, s.isTopLevel = true
    | .error f => allowed f := by
  rw [statements.eq_def]
  have hbreaks := hts.afterBreaks
  cases hs : afterBreaks ts with
  | nil => simp
  | cons t more =>
    have hle : (t :: more).length ≤ ts.length := hs ▸ length_afterBreaks_le ts
    rw [hs] at hbreaks
    have hstatement := statement_outcome none (t :: more) hbreaks
    dsimp only
    by_cases heof : t.lexeme = .eof
    · simp [heof]
    · rw [if_neg heof]
      cases hresult : b.statement none (t :: more) with
      | error e =>
        rw [hresult] at hstatement
        cases e with
        | fault f => exact hstatement
        | mismatch => simp
        | endOfBlock => simp
      | ok r =>
        rw [hresult] at hstatement
        obtain ⟨s, rest⟩ := r
        obtain ⟨htop, hrest⟩ := hstatement
        dsimp only
        by_cases hlt : rest.length < (t :: more).length
        · rw [dif_pos hlt]
          have ih := statements_outcome rest hrest
          cases htail : b.statements rest with
          | error f =>
            rw [htail] at ih
            exact ih
          | ok items =>
            rw [htail] at ih
            intro x hx
            rcases List.mem_cons.1 hx with rfl | hx
            · exact htop
            · exact ih x hx
        · rw [dif_neg hlt]
          intro x hx
          rw [List.mem_singleton] at hx
          rw [hx]
          exact htop
termination_by ts.length
decreasing_by omega

/-- The grammar's end inside a statement shows only as code kept as text. -/
theorem statement_ne_mismatch (b : BlockSource) (closer : Option Closer) (ts : List Token) :
    b.statement closer ts ≠ .error .mismatch := by
  have hkept : b.unsupported closer ts ≠ .error .mismatch := by
    obtain h | ⟨code, line, rest, -, h⟩ := unsupported_cases b closer ts
    · rw [h]
      rintro ⟨⟩
    · rw [h]
      rintro ⟨⟩
  rw [statement]
  split
  · split
    · rintro ⟨⟩
    · exact hkept
  · exact hkept
  · next e hmismatch _ =>
    rintro ⟨⟩
    exact hmismatch rfl

end BlockSource

/-- What is read from a text is made of declarations and of code kept as text. -/
theorem Lexable.read {fits : LineMap → List Char → Prop} {allowed : LexFault → Prop}
    (h : Lexable fits allowed) (lines : LineMap) (text : List Char) (hfits : fits lines text) :
    match BlockContent.read lines text with
    | .ok content => ∀ s ∈ content.statements, s.isTopLevel = true
    | .error f => allowed f := by
  unfold BlockContent.read
  cases htokens : tokenize lines text with
  | error f => exact h.fault hfits htokens
  | ok tokens =>
    have hread := (BlockSource.mk text lines).statements_outcome tokens
      (h.readable (fun code hcode => h.interpreted text.length hcode) hfits htokens)
    cases hstatements : (BlockSource.mk text lines).statements tokens with
    | error f =>
      rw [hstatements] at hread
      simpa [bind, Except.bind, pure, Except.pure, hstatements] using hread
    | ok r =>
      rw [hstatements] at hread
      simpa [bind, Except.bind, pure, Except.pure, hstatements] using hread

end RecipeManifest

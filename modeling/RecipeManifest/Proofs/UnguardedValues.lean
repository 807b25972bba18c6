import RecipeManifest.Proofs.CodeDepth

/-!
Readers of values without guards.

The readers of values end by definition: one that uses nothing has failed, and code inside strings
is read up to a depth. The readers here have neither bound. They are made in stages: a reader of the
next stage calls those of the stage before (`Readers.next`), so that a stage bounds how deep calls
stand in each other, rounds of a loop included, and a reading that goes on without end has no
outcome at any stage. It has none either if it looks behind the mark for the end of the tokens, or
goes past that mark.

On the tokens of a text every stage from some one on comes to the outcome of the readers with guards
(`Settles`), and what is left shows that they make progress (`Leaves`).
-/

namespace RecipeManifest.Unguarded

/-! ## The readers -/

/-- A reading that may stop, or have no outcome at all. -/
abbrev Reading (α : Type) :=
  ExceptT Stop Option α

/-- The token that is next. Behind the mark for the end there is none. -/
def here (ts : List Token) : Option Token :=
  ts.head?

/-- Goes past a token other than the mark for the end. -/
def past : List Token → Option (List Token)
  | [] => none
  | t :: more => if t.lexeme = .eof then none else some more

/-- Goes past a mark that has to stand here. -/
def pastMark (o : Operator) (ts : List Token) : Reading (List Token) := do
  let t ← here ts
  if t.lexeme = .eof then throw .endOfBlock
  else if t.lexeme = .op o then past ts
  else throw .mismatch

/-- A part of a string literal, with its code read by `interpret`. -/
def piece (interpret : List Char → Reading Expr) : Part → Reading Piece
  | .text chars => return .text (String.ofList chars)
  | .code chars => return .value (← interpret chars)

def string (interpret : List Char → Reading Expr) (parts : List Part) : Reading Expr :=
  if parts.any Part.isCode then do
    let pieces ← (parts.filter fun p => p != .text []).mapM (piece interpret)
    return .interpolated pieces
  else return .literal .string (Lexeme.string parts).value

/-- The readers of values, at some stage. -/
structure Readers where
  expression : Nat → List Token → Reading (Expr × List Token)
  climb : Nat → Expr → List Token → Reading (Expr × List Token)
  unary : List Token → Reading (Expr × List Token)
  primary : List Token → Reading (Expr × List Token)
  method : Option Expr → List Token → Reading (Expr × List Token)
  selections : Expr → List Token → Reading (Expr × List Token)
  arguments : Option Operator → List Token → Reading (List Expr × List Token)
  argumentItems : Option Operator → List Token → Reading (List Argument × List Token)
  argument : List Token → Reading (Argument × List Token)
  codeValue : List Char → Reading Expr

/-- The first stage, at which nothing has an outcome. -/
def Readers.initial : Readers where
  expression _ _ := none
  climb _ _ _ := none
  unary _ := none
  primary _ := none
  method _ _ := none
  selections _ _ := none
  arguments _ _ := none
  argumentItems _ _ := none
  argument _ := none
  codeValue _ := none

/-- The readers of the next stage. -/
def Readers.next (inner : Readers) : Readers where
  expression floor ts := do
    let (left, rest) ← inner.unary ts
    inner.climb floor left rest
  climb floor left ts := do
    let t ← here ts
    match binaryOperator? t.lexeme with
    | none => return (left, ts)
    | some (op, precedence) =>
      if precedence ≤ floor then return (left, ts)
      else
        let (right, rest) ← inner.expression precedence (afterBreaks (← past ts))
        inner.climb floor (.binary op left right) rest
  unary ts := do
    let t ← here ts
    if t.lexeme = .op .bang ∨ t.lexeme = .keyword .notWord then
      let (e, rest) ← inner.unary (← past ts)
      return (.not e, rest)
    else
      match negativeNumber? ts with
      | some result => return result
      | none =>
        let (e, rest) ← inner.primary ts
        inner.selections e rest
  primary ts := do
    let t ← here ts
    match t.lexeme.literal? with
    | some e => return (e, ← past ts)
    | none =>
      match t.lexeme with
      | .eof => throw .endOfBlock
      | .string parts =>
        let rest ← past ts
        return (← string inner.codeValue parts, rest)
      | .op .parenL =>
        let (e, rest) ← inner.expression 0 (afterBreaks (← past ts))
        let rest ← pastMark .parenR (afterBreaks rest)
        return (e, rest)
      | .op .bracketL =>
        let (items, rest) ← inner.arguments (some .bracketR) (← past ts)
        let rest ← pastMark .bracketR rest
        return (.array items, rest)
      | .op .braceL =>
        let (items, rest) ← inner.arguments (some .braceR) (← past ts)
        let rest ← pastMark .braceR rest
        return (← braceValue items, rest)
      | .op .scope =>
        let rest ← past ts
        match (← here rest).lexeme with
        | .const name => return (.call none name [], ← past rest)
        | _ => throw .mismatch
      | .ident name =>
        if name = "node" then return nodeLookup (← past ts) else inner.method none ts
      | _ => throw .mismatch
  method receiver ts := do
    let t ← here ts
    let rest ← past ts
    let name := t.lexeme.value
    let (args, rest) ←
      if atTightOp .parenL rest then do
        let (args, rest) ← inner.arguments (some .parenR) (← past rest)
        let rest ← pastMark .parenR rest
        pure (args, rest)
      else if startsBareArgument name rest then inner.arguments none rest
      else pure ([], rest)
    if receiver.isNone && name == "resources" then return (.resources (lookupTargets args), rest)
    else return (selectedCall receiver name args, rest)
  selections value ts := do
    let t ← here ts
    if t.lexeme = .op .dot ∨ (t.lexeme = .op .scope ∧ t.spaced = false) then
      let rest ← past ts
      if isMemberName (← here rest).lexeme then
        let (e, rest) ← inner.method (some value) rest
        inner.selections e rest
      else throw .mismatch
    else if t.lexeme = .op .bracketL ∧ t.spaced = false then
      let rest ← past ts
      let (index, rest) ← (do
        let (index, rest) ← inner.arguments (some .bracketR) rest
        return (index, ← pastMark .bracketR rest) : Reading (List Expr × List Token))
      inner.selections (.call (some value) "[]" index) rest
    else return (value, ts)
  arguments closer ts := do
    match closer with
    | none =>
      let (items, rest) ← inner.argumentItems none ts
      return (collectArguments items, rest)
    | some o =>
      let t ← here (afterBreaks ts)
      if t.lexeme = .op o then return ([], afterBreaks ts)
      else
        let (items, rest) ← inner.argumentItems (some o) (afterBreaks ts)
        return (collectArguments items, rest)
  argumentItems closer ts := do
    let (item, rest) ← inner.argument ts
    let rest := if closer.isSome then afterBreaks rest else rest
    let t ← here rest
    if t.lexeme = .op .comma then
      let rest ← past rest
      let rest := afterBreaks rest
      let t ← here rest
      if closer.any fun o => t.lexeme == .op o then return ([item], rest)
      else
        let (items, rest) ← inner.argumentItems closer rest
        return (item :: items, rest)
    else return ([item], rest)
  argument ts := do
    let t ← here ts
    match t.lexeme with
    | .label name =>
      let (value, rest) ← inner.expression 0 (afterBreaks (← past ts))
      return (.pair (.literal .symbol name) value, rest)
    | x =>
      if x = .op .star ∨ x = .op .amp ∨ x = .op .pow then
        let (value, rest) ← inner.expression 0 (← past ts)
        return (.value value, rest)
      else
        let (key, rest) ← inner.expression 0 ts
        if (← here rest).lexeme = .op .rocket then
          let (value, rest) ← inner.expression 0 (afterBreaks (← past rest))
          return (.pair key value, rest)
        else return (.value key, rest)
  codeValue code :=
    match tokenize [] code with
    | .error f => throw (.fault f)
    | .ok tokens => (do
      match ← (inner.expression 0 (afterBreaks tokens)).run with
      | .error (.fault f) => return .error (.fault f)
      | .error _ => return .ok (.literal .code (String.ofList (Text.trim code)))
      | .ok (e, rest) =>
        if (← here (afterBreaks rest)).lexeme = .eof then return .ok e
        else return .ok (.literal .code (String.ofList (Text.trim code))) :
          Option (Except Stop Expr))

/-- The readers whose calls stand in each other less deep than the stage. -/
def readers : Nat → Readers
  | 0 => .initial
  | n + 1 => (readers n).next

/-! ## What is left -/

section Leaves

variable {ts rest behind : List Token} {t : Token} {m n : Nat}

/-- What is left behind at least that many tokens, with the mark for the end. -/
structure Leaves (used : Nat) (ts rest : List Token) : Prop where
  suffix : rest <:+ ts
  ne_nil : rest ≠ []
  used : used + rest.length ≤ ts.length

theorem Leaves.trans (h : Leaves m ts rest) (h' : Leaves n rest behind) :
    Leaves (m + n) ts behind := by
  have hused := h.used
  have hused' := h'.used
  exact ⟨h'.suffix.trans h.suffix, h'.ne_nil, by omega⟩

theorem Leaves.mono (h : Leaves m ts rest) (hle : n ≤ m) : Leaves n ts rest := by
  have hused := h.used
  exact ⟨h.suffix, h.ne_nil, by omega⟩

/-- The tokens end with a mark for the end, the only one among them. -/
inductive Ended : List Token → Prop
  | mark {t : Token} (ht : t.lexeme = .eof) : Ended [t]
  | cons {t : Token} {more : List Token} (ht : t.lexeme ≠ .eof) (h : Ended more) :
      Ended (t :: more)

namespace Ended

theorem exists_cons (h : Ended ts) : ∃ t more, ts = t :: more := by
  cases h with
  | mark _ => exact ⟨_, _, rfl⟩
  | cons _ _ => exact ⟨_, _, rfl⟩

theorem refl (h : Ended ts) : Leaves 0 ts ts := by
  obtain ⟨t, more, rfl⟩ := h.exists_cons
  exact ⟨List.suffix_refl _, by simp, by omega⟩

theorem here (h : Ended ts) : ∃ t, here ts = some t ∧ t.lexeme = peek ts := by
  obtain ⟨t, more, rfl⟩ := h.exists_cons
  exact ⟨t, rfl, rfl⟩

theorem leaves (h : Ended ts) (hrest : Leaves n ts rest) : Ended rest := by
  obtain ⟨hsuffix, hne, -⟩ := hrest
  induction h with
  | mark ht =>
    obtain rfl | hnil := List.suffix_cons_iff.1 hsuffix
    · exact .mark ht
    · exact absurd (List.suffix_nil.1 hnil) hne
  | cons ht h ih =>
    obtain rfl | hmore := List.suffix_cons_iff.1 hsuffix
    · exact .cons ht h
    · exact ih hmore

theorem tail (h : Ended (t :: rest)) (ht : t.lexeme ≠ .eof) : Leaves 1 (t :: rest) rest := by
  cases h with
  | mark heof => exact absurd heof ht
  | cons _ h =>
    obtain ⟨u, more, rfl⟩ := h.exists_cons
    exact ⟨List.suffix_cons t _, by simp, by simp; omega⟩

theorem afterBreaks (h : Ended ts) : Leaves 0 ts (afterBreaks ts) := by
  refine ⟨List.dropWhile_suffix _, ?_, by have := length_afterBreaks_le ts; omega⟩
  induction h with
  | mark ht => simp [RecipeManifest.afterBreaks, ht, Lexeme.isSeparator]
  | @cons t more _ _ ih =>
    by_cases hsep : t.lexeme.isSeparator = true
    · simpa [RecipeManifest.afterBreaks, hsep] using ih
    · simp [RecipeManifest.afterBreaks, hsep]

theorem of_append {body : List Token} (ht : t.lexeme = .eof) (h : ∀ u ∈ body, u.lexeme ≠ .eof) :
    Ended (body ++ [t]) := by
  induction body with
  | nil => exact .mark ht
  | cons u body ih =>
    exact .cons (h u List.mem_cons_self) (ih fun v hv => h v (List.mem_cons_of_mem u hv))

end Ended

end Leaves

/-! ## Outcomes -/

section Settles

variable {α β : Type} {P Q : List Token → Prop} {x : Reading (α × List Token)}
  {r : Except Stop (α × List Token)}

/-- The reading has this outcome, and what it leaves has the property. -/
def Settles (P : List Token → Prop) (x : Reading (α × List Token))
    (r : Except Stop (α × List Token)) : Prop :=
  x.run = some r ∧ ∀ a rest, r = .ok (a, rest) → P rest

namespace Settles

theorem pure {a : α} {rest : List Token} (h : P rest) :
    Settles P (Pure.pure (a, rest)) (.ok (a, rest)) :=
  ⟨rfl, by rintro _ _ ⟨⟩; exact h⟩

theorem throw (e : Stop) : Settles P (MonadExcept.throw e : Reading (α × List Token)) (.error e) :=
  ⟨rfl, by rintro _ _ ⟨⟩⟩

theorem mono (h : Settles P x r) (hPQ : ∀ rest, P rest → Q rest) : Settles Q x r :=
  ⟨h.1, fun a rest hr => hPQ rest (h.2 a rest hr)⟩

theorem bind (h : Settles P x r) {k : α × List Token → Reading (β × List Token)}
    {k' : α × List Token → Except Stop (β × List Token)}
    (hk : ∀ a rest, P rest → Settles Q (k (a, rest)) (k' (a, rest))) :
    Settles Q (x >>= k) (r >>= k') := by
  obtain ⟨hx, hP⟩ := h
  unfold Settles
  rw [ExceptT.run_bind, hx]
  cases r with
  | error e => exact ⟨rfl, by rintro _ _ ⟨⟩⟩
  | ok y => exact hk y.1 y.2 (hP y.1 y.2 rfl)

theorem goOn {before : List Token} (h : Settles P x r)
    {k : α × List Token → Reading (β × List Token)}
    {next : α → (rest : List Token) → rest.length < before.length → Except Stop (β × List Token)}
    (hP : ∀ rest, P rest → rest.length < before.length)
    (hk : ∀ a rest hlt, P rest → Settles Q (k (a, rest)) (next a rest hlt)) :
    Settles Q (x >>= k) (RecipeManifest.goOn before .mismatch r next) := by
  obtain ⟨hx, hleft⟩ := h
  unfold Settles
  rw [ExceptT.run_bind, hx]
  cases r with
  | error e => exact ⟨rfl, by rintro _ _ ⟨⟩⟩
  | ok y =>
    obtain ⟨a, rest⟩ := y
    have hrest := hleft a rest rfl
    rw [goOn_ok _ a next (hP rest hrest)]
    exact hk a rest (hP rest hrest) hrest

theorem map (h : Settles P x r) (f : α → β) :
    Settles P (x >>= fun (a, rest) => Pure.pure (f a, rest))
      (r.map fun (a, rest) => (f a, rest)) := by
  obtain ⟨hx, hleft⟩ := h
  unfold Settles
  rw [ExceptT.run_bind, hx]
  cases r with
  | error e => exact ⟨rfl, by rintro _ _ ⟨⟩⟩
  | ok y =>
    refine ⟨rfl, ?_⟩
    rintro a rest ⟨⟩
    exact hleft y.1 y.2 rfl

end Settles

theorem here_bind (t : Token) (more : List Token) (k : Token → Reading α) :
    (liftM (here (t :: more)) >>= k : Reading α) = k t :=
  rfl

theorem past_bind {t : Token} (ht : t.lexeme ≠ .eof) (more : List Token)
    (k : List Token → Reading α) : (liftM (past (t :: more)) >>= k : Reading α) = k more := by
  simp only [past, if_neg ht]
  rfl

theorem some_bind (t : Token) (k : Token → Reading α) :
    (liftM (some t) >>= k : Reading α) = k t :=
  rfl

end Settles

/-! ## Values -/

section Values

variable {interpret : List Char → Except LexFault Expr} {N : Nat}

variable (interpret N) in
/-- The tokens are those of a text, and from stage `N` on the code inside its strings is read as
`interpret` does. -/
structure Sound (ts : List Token) : Prop where
  ended : Ended ts
  code : ∀ t ∈ ts, ∀ parts, t.lexeme = .string parts → ∀ code, Part.code code ∈ parts →
    ∀ n, N ≤ n → ((readers n).codeValue code).run = some ((interpret code).mapError .fault)

namespace Sound

variable {ts rest : List Token} {t : Token} {n : Nat}

theorem leaves (h : Sound interpret N ts) (hrest : Leaves n ts rest) : Sound interpret N rest :=
  ⟨h.ended.leaves hrest, fun t ht => h.code t (hrest.suffix.subset ht)⟩

theorem tail (h : Sound interpret N (t :: rest)) (ht : t.lexeme ≠ .eof) : Sound interpret N rest :=
  h.leaves (h.ended.tail ht)

theorem afterBreaks (h : Sound interpret N ts) : Sound interpret N (afterBreaks ts) :=
  h.leaves h.ended.afterBreaks

end Sound

section Strings

variable {inner : List Char → Reading Expr} {parts : List Part}

theorem run_pieces (hparts : ∀ code, Part.code code ∈ parts →
      (inner code).run = some ((interpret code).mapError .fault)) :
    (parts.mapM (piece inner)).run = some ((parts.mapM (pieceOf interpret)).mapError .fault) := by
  induction parts with
  | nil => rfl
  | cons part rest ih =>
    have hrest := ih fun code hcode => hparts code (List.mem_cons_of_mem _ hcode)
    have hpiece : (piece inner part).run = some ((pieceOf interpret part).mapError .fault) := by
      cases part with
      | text chars => rfl
      | code code =>
        rw [piece, ExceptT.run_bind, hparts code List.mem_cons_self, pieceOf]
        cases interpret code <;> rfl
    rw [List.mapM_cons, List.mapM_cons, ExceptT.run_bind, hpiece]
    cases pieceOf interpret part with
    | error f => rfl
    | ok p =>
      show ((rest.mapM (piece inner)) >>= fun ps => pure (p :: ps) : Reading (List Piece)).run = _
      rw [ExceptT.run_bind, hrest]
      cases rest.mapM (pieceOf interpret) <;> rfl

theorem settles_string {P : List Token → Prop} {rest : List Token}
    (hparts : ∀ code, Part.code code ∈ parts →
      (inner code).run = some ((interpret code).mapError .fault)) (hrest : P rest) :
    Settles P (string inner parts >>= fun e => pure (e, rest))
      ((stringExpr interpret parts).map fun e => (e, rest)) := by
  unfold string stringExpr
  by_cases hcode : parts.any Part.isCode = true
  · rw [if_pos hcode, if_pos hcode]
    have hpieces := @run_pieces interpret inner (parts.filter fun p => p != .text [])
      fun code hcode => hparts code (List.mem_filter.1 hcode).1
    unfold Settles
    rw [ExceptT.run_bind, ExceptT.run_bind, hpieces]
    cases (parts.filter fun p => p != .text []).mapM (pieceOf interpret) with
    | error f => exact ⟨rfl, by rintro _ _ ⟨⟩⟩
    | ok pieces =>
      refine ⟨rfl, ?_⟩
      rintro _ _ ⟨⟩
      exact hrest
  · rw [if_neg hcode, if_neg hcode]
    exact .pure hrest

end Strings

theorem settles_pastMark {α : Type} {Q : List Token → Prop} {ts : List Token} (h : Ended ts)
    (o : Operator) {k : List Token → Reading (α × List Token)}
    {k' : List Token → Except Stop (α × List Token)}
    (hk : ∀ rest, Leaves 1 ts rest → Settles Q (k rest) (k' rest)) :
    Settles Q (pastMark o ts >>= k) (pastOp o ts >>= k') := by
  obtain ⟨t, more, rfl⟩ := h.exists_cons
  unfold pastMark pastOp
  rw [here_bind]
  by_cases heof : t.lexeme = .eof
  · have hend : atEnd (t :: more) = true := by simp [atEnd, peek, heof]
    rw [if_pos heof, if_pos hend]
    exact .throw _
  · have hend : ¬ atEnd (t :: more) = true := by simp [atEnd, peek, heof]
    rw [if_neg heof, if_neg hend]
    by_cases hop : t.lexeme = .op o
    · have hat : atOp o (t :: more) = true := by simp [atOp, peek, hop]
      rw [if_pos hop, if_pos hat, past_bind heof]
      exact hk more (h.tail heof)
    · have hat : ¬ atOp o (t :: more) = true := by simp [atOp, peek, hop]
      rw [if_neg hop, if_neg hat]
      exact .throw _

theorem leaves_nodePath {ts : List Token} (h : Ended ts) : Leaves 0 ts (nodePath ts).2 := by
  fun_induction nodePath ts with
  | case1 bracket key close rest hbracket hkey path rest' hpath ih =>
    have hkey' : key.lexeme ≠ .eof := by
      intro heof
      simp [heof, isLiteralKey] at hkey
    have h₁ := h.tail (by simp [hbracket.1])
    have h₂ := h₁.trans ((h.leaves h₁).tail hkey')
    have h₃ := h₂.trans ((h.leaves h₂).tail (by simp [hkey.2]))
    have hrest := ih (h.leaves h₃)
    rw [hpath] at hrest
    exact (h₃.trans hrest).mono (by omega)
  | case4 bracket key close rest _ name hname hdot _ path rest' hpath ih =>
    have h₁ := h.tail (by simp [hdot])
    have h₂ := h₁.trans ((h.leaves h₁).tail (by simp [hname]))
    have hrest := ih (h.leaves h₂)
    rw [hpath] at hrest
    exact (h₂.trans hrest).mono (by omega)
  | case2 | case3 | case5 | case6 => exact h.refl

theorem leaves_nodeLookup {ts : List Token} (h : Ended ts) : Leaves 0 ts (nodeLookup ts).2 := by
  have hpath := leaves_nodePath h
  unfold nodeLookup
  split
  · next heq =>
    rw [heq] at hpath
    exact hpath
  · next heq =>
    rw [heq] at hpath
    exact hpath

theorem leaves_negativeNumber {ts rest : List Token} {e : Expr} (h : Ended ts)
    (hneg : negativeNumber? ts = some (e, rest)) : Leaves 2 ts rest := by
  unfold negativeNumber? at hneg
  split at hneg
  · cases hneg
    have hnumber := h.tail (by simp)
    exact hnumber.trans ((h.leaves hnumber).tail (by simp))
  · cases hneg

theorem settles_braceValue {P : List Token → Prop} {rest : List Token} (items : List Expr)
    (h : P rest) :
    Settles P (do return (← braceValue items, rest)) (do return (← braceValue items, rest)) := by
  cases braceValue items with
  | error e => exact .throw e
  | ok e => exact .pure h

variable (interpret N) in
/-- From the tokens of a text, each reader of the stage comes to the outcome of the reader with
guards, if the stage is beyond what bounds the recursion of that reader. -/
structure SettleAt (n : Nat) : Prop where
  expression : ∀ {floor ts}, Sound interpret N ts → N + 8 * ts.length + 3 < n →
    Settles (Leaves 1 ts) ((readers n).expression floor ts) (expression interpret floor ts)
  climb : ∀ {floor left ts}, Sound interpret N ts → N + 8 * ts.length < n →
    Settles (Leaves 0 ts) ((readers n).climb floor left ts) (climb interpret floor left ts)
  unary : ∀ {ts}, Sound interpret N ts → N + 8 * ts.length + 2 < n →
    Settles (Leaves 1 ts) ((readers n).unary ts) (unary interpret ts)
  primary : ∀ {ts}, Sound interpret N ts → N + 8 * ts.length + 1 < n →
    Settles (Leaves 1 ts) ((readers n).primary ts) (primary interpret ts)
  method : ∀ {receiver ts}, Sound interpret N ts → peek ts ≠ .eof → N + 8 * ts.length < n →
    Settles (Leaves 1 ts) ((readers n).method receiver ts) (method interpret receiver ts)
  selections : ∀ {value ts}, Sound interpret N ts → N + 8 * ts.length < n →
    Settles (Leaves 0 ts) ((readers n).selections value ts) (selections interpret value ts)
  arguments : ∀ {closer ts}, Sound interpret N ts → N + 8 * ts.length + 6 < n →
    Settles (Leaves 0 ts) ((readers n).arguments closer ts) (arguments interpret closer ts)
  argumentItems : ∀ {closer ts}, Sound interpret N ts → N + 8 * ts.length + 5 < n →
    Settles (Leaves 1 ts) ((readers n).argumentItems closer ts)
      (argumentItems interpret closer ts)
  argument : ∀ {ts}, Sound interpret N ts → N + 8 * ts.length + 4 < n →
    Settles (Leaves 1 ts) ((readers n).argument ts) (argument interpret ts)

/-- Arguments between marks, read by the readers of a stage. -/
theorem settles_enclosed {m n : Nat} {start ts : List Token} {α : Type} {Q : List Token → Prop}
    (ih : SettleAt interpret N n) (o : Operator) (hts : Sound interpret N start)
    (hleft : Leaves m start ts) (hn : N + 8 * ts.length + 6 < n)
    {k : List Expr → List Token → Reading (α × List Token)}
    {k' : List Expr → List Token → Except Stop (α × List Token)}
    (hk : ∀ items rest, Leaves 1 start rest → Settles Q (k items rest) (k' items rest)) :
    Settles Q ((readers n).arguments (some o) ts >>= fun r => pastMark o r.2 >>= k r.1)
      (arguments interpret (some o) ts >>= fun r => pastOp o r.2 >>= k' r.1) := by
  apply (ih.arguments (hts.leaves hleft) hn).bind
  intro items rest hrest
  have hused := hleft.trans hrest
  apply settles_pastMark (hts.leaves hused).ended
  intro behind hbehind
  exact hk items behind ((hused.trans hbehind).mono (Nat.le_add_left 1 _))

section Stages

variable {n : Nat} {ts : List Token}

theorem settles_expression (ih : SettleAt interpret N n) (floor : Nat) (hts : Sound interpret N ts)
    (hn : N + 8 * ts.length + 3 < n + 1) :
    Settles (Leaves 1 ts) ((readers (n + 1)).expression floor ts)
      (expression interpret floor ts) := by
  rw [expression]
  apply (ih.unary hts (by omega)).goOn (fun rest hrest => by have := hrest.used; omega)
  intro left rest hlt hrest
  exact (ih.climb (hts.leaves hrest) (by omega)).mono fun _ h => hrest.trans h

theorem settles_climb (ih : SettleAt interpret N n) (floor : Nat) (left : Expr)
    (hts : Sound interpret N ts) (hn : N + 8 * ts.length < n + 1) :
    Settles (Leaves 0 ts) ((readers (n + 1)).climb floor left ts)
      (climb interpret floor left ts) := by
  obtain ⟨t, more, rfl⟩ := hts.ended.exists_cons
  rw [climb.eq_def, readers]
  dsimp only [Readers.next]
  rw [here_bind]
  cases hop : binaryOperator? t.lexeme with
  | none => exact .pure hts.ended.refl
  | some o =>
    obtain ⟨op, precedence⟩ := o
    dsimp only
    by_cases hle : precedence ≤ floor
    · rw [if_pos hle, if_pos hle]
      exact .pure hts.ended.refl
    · have ht : t.lexeme ≠ .eof := by
        intro heof
        rw [heof] at hop
        cases hop
      have hbreaks := (hts.ended.tail ht).trans (hts.tail ht).ended.afterBreaks
      have hlength := hbreaks.used
      rw [if_neg hle, if_neg hle, past_bind ht]
      apply (ih.expression (hts.leaves hbreaks) (by omega)).goOn
        (fun rest hrest => by have := hrest.used; omega)
      intro right rest hlt hrest
      have hused := hbreaks.trans hrest
      exact (ih.climb (hts.leaves hused) (by omega)).mono
        fun _ h => (hused.trans h).mono (Nat.zero_le _)

theorem settles_unary (ih : SettleAt interpret N n) (hts : Sound interpret N ts)
    (hn : N + 8 * ts.length + 2 < n + 1) :
    Settles (Leaves 1 ts) ((readers (n + 1)).unary ts) (unary interpret ts) := by
  obtain ⟨t, more, rfl⟩ := hts.ended.exists_cons
  rw [unary.eq_def, readers]
  dsimp only [Readers.next]
  rw [here_bind]
  by_cases hnot : t.lexeme = .op .bang ∨ t.lexeme = .keyword .notWord
  · have ht : t.lexeme ≠ .eof := by
      rcases hnot with h | h <;> simp [h]
    have hmore := hts.ended.tail ht
    have hlength := hmore.used
    rw [if_pos hnot, if_pos hnot, past_bind ht]
    exact ((ih.unary (hts.leaves hmore) (by omega)).map Expr.not).mono
      fun rest h => (hmore.trans h).mono (Nat.le_add_right 1 1)
  · rw [if_neg hnot, if_neg hnot]
    cases hneg : negativeNumber? (t :: more) with
    | some result => exact .pure ((leaves_negativeNumber hts.ended hneg).mono (by omega))
    | none =>
      apply (ih.primary hts (by omega)).goOn (fun rest hrest => by have := hrest.used; omega)
      intro e rest hlt hrest
      exact (ih.selections (hts.leaves hrest) (by omega)).mono fun _ h => hrest.trans h

theorem settles_primary (ih : SettleAt interpret N n) (hts : Sound interpret N ts)
    (hn : N + 8 * ts.length + 1 < n + 1) :
    Settles (Leaves 1 ts) ((readers (n + 1)).primary ts) (primary interpret ts) := by
  obtain ⟨t, more, rfl⟩ := hts.ended.exists_cons
  have hmore (ht : t.lexeme ≠ .eof) : Leaves 1 (t :: more) more := hts.ended.tail ht
  have hlength : (t :: more).length = more.length + 1 := rfl
  rw [primary.eq_def, readers]
  dsimp only [Readers.next]
  rw [here_bind]
  cases hliteral : t.lexeme.literal? with
  | some e =>
    have ht : t.lexeme ≠ .eof := by
      intro heof
      rw [heof] at hliteral
      cases hliteral
    dsimp only
    rw [past_bind ht, atom?_of_literal? interpret hliteral]
    exact .pure (hmore ht)
  | none =>
    -- a string is an atom to the reader with guards, so this holds in the other branches only
    have hatom := atom?_of_literal?_eq_none interpret hliteral
    dsimp only
    split
    · next hx =>
      rw [hx]
      exact .throw _
    · next parts hx =>
      have ht : t.lexeme ≠ .eof := by simp [hx]
      rw [past_bind ht, hx]
      exact settles_string (fun code hcode => hts.code t List.mem_cons_self parts hx code hcode n
        (by omega)) (hmore ht)
    · next hx =>
      have ht : t.lexeme ≠ .eof := by simp [hx]
      have hbreaks := (hmore ht).trans (hts.tail ht).ended.afterBreaks
      have hbehind := hbreaks.used
      rw [past_bind ht, hx]
      apply (ih.expression (hts.leaves hbreaks) (by omega)).bind
      intro inner rest hrest
      have hused := hbreaks.trans hrest
      have hinner := hused.trans (hts.leaves hused).ended.afterBreaks
      apply settles_pastMark (hts.leaves hinner).ended
      intro behind hbehind
      exact .pure ((hinner.trans hbehind).mono (by omega))
    · next hx =>
      have ht : t.lexeme ≠ .eof := by simp [hx]
      rw [past_bind ht, hx]
      exact settles_enclosed ih _ hts (hmore ht) (by omega)
        fun items rest hrest => .pure (a := Expr.array items) hrest
    · next hx =>
      have ht : t.lexeme ≠ .eof := by simp [hx]
      rw [past_bind ht, hx]
      exact settles_enclosed ih _ hts (hmore ht) (by omega)
        fun items rest hrest => settles_braceValue items hrest
    · next hx =>
      have ht : t.lexeme ≠ .eof := by simp [hx]
      obtain ⟨⟨x, line, start, stop, spaced⟩, behind, rfl⟩ := (hts.tail ht).ended.exists_cons
      rw [hatom (by simp [hx]), past_bind ht, hx, here_bind]
      dsimp only
      split
      · next name =>
        rw [past_bind (by simp)]
        exact .pure (((hmore ht).trans ((hts.tail ht).ended.tail (by simp))).mono (by omega))
      · next hconst =>
        split
        · next hcons =>
          cases hcons
          exact absurd rfl (hconst _)
        · exact .throw _
    · next name hx =>
      have ht : t.lexeme ≠ .eof := by simp [hx]
      rw [hx]
      dsimp only
      by_cases hnode : name = "node"
      · rw [if_pos hnode, if_pos hnode, past_bind ht]
        exact .pure ((hmore ht).trans (leaves_nodeLookup (hts.tail ht).ended))
      · rw [if_neg hnode, if_neg hnode]
        exact ih.method hts ht (by omega)
    · next hstring _ _ _ _ hident =>
      rw [hatom hstring]
      dsimp only
      split
      · contradiction
      · contradiction
      · contradiction
      · contradiction
      · contradiction
      · next name hx => exact absurd hx (hident name)
      · exact .throw _

theorem settles_method (ih : SettleAt interpret N n) (receiver : Option Expr)
    (hts : Sound interpret N ts) (hhead : peek ts ≠ .eof) (hn : N + 8 * ts.length < n + 1) :
    Settles (Leaves 1 ts) ((readers (n + 1)).method receiver ts)
      (method interpret receiver ts) := by
  obtain ⟨t, more, rfl⟩ := hts.ended.exists_cons
  have hmore := hts.ended.tail hhead
  have hsound := hts.leaves hmore
  have hlength := hmore.used
  have hcall : ∀ args rest, Leaves 1 (t :: more) rest →
      Settles (Leaves 1 (t :: more))
        (if receiver.isNone && t.lexeme.value == "resources" then
          pure (.resources (lookupTargets args), rest)
        else pure (selectedCall receiver t.lexeme.value args, rest))
        (if receiver.isNone && t.lexeme.value == "resources" then
          pure (.resources (lookupTargets args), rest)
        else pure (selectedCall receiver t.lexeme.value args, rest)) := by
    intro args rest hrest
    split
    · exact .pure hrest
    · exact .pure hrest
  rw [method.eq_def, readers]
  dsimp only [Readers.next]
  rw [here_bind, past_bind hhead]
  by_cases hparen : atTightOp .parenL more = true
  · obtain ⟨u, behind, rfl⟩ := hsound.ended.exists_cons
    have hu : u.lexeme ≠ .eof := by
      intro heof
      simp [atTightOp, heof] at hparen
    have hbehind := hmore.trans (hsound.ended.tail hu)
    have hinside := hbehind.used
    rw [if_pos hparen, if_pos hparen, past_bind hu]
    exact settles_enclosed ih _ hts hbehind (by omega) hcall
  · rw [if_neg hparen, if_neg hparen]
    by_cases hbare : startsBareArgument t.lexeme.value more = true
    · rw [if_pos hbare, if_pos hbare]
      apply (ih.arguments hsound (by omega)).bind
      intro args rest hrest
      exact hcall args rest (hmore.trans hrest)
    · rw [if_neg hbare, if_neg hbare]
      exact hcall [] more hmore

theorem settles_selections (ih : SettleAt interpret N n) (value : Expr)
    (hts : Sound interpret N ts) (hn : N + 8 * ts.length < n + 1) :
    Settles (Leaves 0 ts) ((readers (n + 1)).selections value ts)
      (selections interpret value ts) := by
  obtain ⟨t, more, rfl⟩ := hts.ended.exists_cons
  rw [selections.eq_def, readers]
  dsimp only [Readers.next]
  rw [here_bind]
  by_cases hdot : t.lexeme = .op .dot ∨ t.lexeme = .op .scope ∧ t.spaced = false
  · have ht : t.lexeme ≠ .eof := by
      rcases hdot with h | ⟨h, -⟩ <;> simp [h]
    have hmore := hts.ended.tail ht
    have hlength := hmore.used
    obtain ⟨u, hhere, hu⟩ := (hts.tail ht).ended.here
    rw [if_pos hdot, if_pos hdot, past_bind ht, hhere, some_bind, hu]
    by_cases hname : isMemberName (peek more) = true
    · have hpeek : peek more ≠ .eof := by
        intro heof
        rw [heof] at hname
        cases hname
      rw [if_pos hname, if_pos hname]
      apply (ih.method (hts.leaves hmore) hpeek (by omega)).goOn
        (fun rest hrest => by have := hrest.used; omega)
      intro e rest hlt hrest
      have hused := hmore.trans hrest
      exact (ih.selections (hts.leaves hused) (by omega)).mono
        fun _ h => (hused.trans h).mono (Nat.zero_le _)
    · rw [if_neg hname, if_neg hname]
      exact .throw _
  · rw [if_neg hdot, if_neg hdot]
    by_cases hbracket : t.lexeme = .op .bracketL ∧ t.spaced = false
    · have ht : t.lexeme ≠ .eof := by simp [hbracket.1]
      have hmore := hts.ended.tail ht
      have hlength := hmore.used
      rw [if_pos hbracket, if_pos hbracket, past_bind ht]
      apply Settles.goOn (P := Leaves 1 (t :: more))
      · exact settles_enclosed ih _ hts hmore (by omega)
          fun index rest hrest => .pure (a := index) hrest
      · intro rest hrest
        have := hrest.used
        omega
      · intro index rest hlt hrest
        exact (ih.selections (hts.leaves hrest) (by omega)).mono
          fun _ h => (hrest.trans h).mono (Nat.zero_le _)
    · rw [if_neg hbracket, if_neg hbracket]
      exact .pure hts.ended.refl

theorem settles_arguments (ih : SettleAt interpret N n) (closer : Option Operator)
    (hts : Sound interpret N ts) (hn : N + 8 * ts.length + 6 < n + 1) :
    Settles (Leaves 0 ts) ((readers (n + 1)).arguments closer ts)
      (arguments interpret closer ts) := by
  rw [arguments.eq_def, readers]
  dsimp only [Readers.next]
  cases closer with
  | none =>
    exact ((ih.argumentItems hts (by omega)).map collectArguments).mono
      fun _ h => h.mono (Nat.zero_le 1)
  | some o =>
    have hbreaks := hts.ended.afterBreaks
    have hlength := hbreaks.used
    obtain ⟨u, hhere, hu⟩ := hts.afterBreaks.ended.here
    dsimp only
    rw [hhere, some_bind, hu]
    by_cases hclose : peek (afterBreaks ts) = .op o
    · rw [if_pos hclose, if_pos (by simp [atOp, hclose])]
      exact .pure hbreaks
    · rw [if_neg hclose, if_neg (by simp [atOp, hclose])]
      exact ((ih.argumentItems hts.afterBreaks (by omega)).map collectArguments).mono
        fun _ h => (hbreaks.trans h).mono (Nat.zero_le _)

theorem settles_argumentItems (ih : SettleAt interpret N n) (closer : Option Operator)
    (hts : Sound interpret N ts) (hn : N + 8 * ts.length + 5 < n + 1) :
    Settles (Leaves 1 ts) ((readers (n + 1)).argumentItems closer ts)
      (argumentItems interpret closer ts) := by
  rw [argumentItems.eq_def, readers]
  dsimp only [Readers.next]
  apply (ih.argument hts (by omega)).goOn (fun rest hrest => by have := hrest.used; omega)
  intro item rest hlt hrest
  dsimp only
  have hrest' : Leaves 1 ts (if closer.isSome = true then afterBreaks rest else rest) := by
    split
    · exact hrest.trans (hts.leaves hrest).ended.afterBreaks
    · exact hrest
  generalize (if closer.isSome = true then afterBreaks rest else rest) = rest' at hrest' ⊢
  obtain ⟨t, more, rfl⟩ := (hts.leaves hrest').ended.exists_cons
  rw [here_bind]
  dsimp only
  by_cases hcomma : t.lexeme = .op .comma
  · have ht : t.lexeme ≠ .eof := by simp [hcomma]
    have hmore := hrest'.trans ((hts.leaves hrest').ended.tail ht)
    have hused := hmore.trans (hts.leaves hmore).ended.afterBreaks
    have hlength := hused.used
    obtain ⟨u, hhere, hu⟩ := (hts.leaves hused).ended.here
    have hany : (closer.any fun o => u.lexeme == .op o) =
        closer.any fun o => atOp o (afterBreaks more) := by
      simp only [hu, atOp]
    rw [if_pos hcomma, if_pos hcomma, past_bind ht, hhere, some_bind, hany]
    by_cases hclose : (closer.any fun o => atOp o (afterBreaks more)) = true
    · rw [if_pos hclose, if_pos hclose]
      exact .pure (hused.mono (by omega))
    · rw [if_neg hclose, if_neg hclose]
      exact ((ih.argumentItems (hts.leaves hused) (by omega)).map (item :: ·)).mono
        fun _ h => (hused.trans h).mono (Nat.le_add_left 1 2)
  · rw [if_neg hcomma, if_neg hcomma]
    exact .pure hrest'

theorem settles_argument (ih : SettleAt interpret N n) (hts : Sound interpret N ts)
    (hn : N + 8 * ts.length + 4 < n + 1) :
    Settles (Leaves 1 ts) ((readers (n + 1)).argument ts) (argument interpret ts) := by
  obtain ⟨t, more, rfl⟩ := hts.ended.exists_cons
  rw [argument.eq_def, readers]
  dsimp only [Readers.next]
  rw [here_bind]
  split
  · next name hx =>
    have ht : t.lexeme ≠ .eof := by simp [hx]
    have hbreaks := (hts.ended.tail ht).trans (hts.tail ht).ended.afterBreaks
    have hlength := hbreaks.used
    rw [past_bind ht, hx]
    exact ((ih.expression (hts.leaves hbreaks) (by omega)).map
      (Argument.pair (.literal .symbol name))).mono
        fun _ h => (hbreaks.trans h).mono (Nat.le_add_left 1 1)
  · next hlabel =>
    by_cases hsplat : t.lexeme = .op .star ∨ t.lexeme = .op .amp ∨ t.lexeme = .op .pow
    · have ht : t.lexeme ≠ .eof := by
        rcases hsplat with h | h | h <;> simp [h]
      have hmore := hts.ended.tail ht
      have hlength := hmore.used
      have hvalue := ((@SettleAt.expression _ _ _ ih 0 _ (hts.leaves hmore) (by omega)).map
        Argument.value).mono fun _ h => (hmore.trans h).mono (Nat.le_add_left 1 1)
      rw [if_pos hsplat, past_bind ht]
      rcases hsplat with h | h | h
      · rw [h]
        exact hvalue
      · rw [h]
        exact hvalue
      · rw [h]
        exact hvalue
    · rw [if_neg hsplat]
      split
      · next name hx => exact absurd hx (hlabel name)
      · next hx => exact absurd (.inl hx) hsplat
      · next hx => exact absurd (.inr (.inl hx)) hsplat
      · next hx => exact absurd (.inr (.inr hx)) hsplat
      · apply (ih.expression hts (by omega)).goOn
          (fun rest hrest => by have := hrest.used; omega)
        intro key rest hlt hrest
        obtain ⟨u, behind, rfl⟩ := (hts.leaves hrest).ended.exists_cons
        rw [here_bind]
        by_cases hrocket : u.lexeme = .op .rocket
        · have hu : u.lexeme ≠ .eof := by simp [hrocket]
          have hbehind := hrest.trans ((hts.leaves hrest).ended.tail hu)
          have hbreaks := hbehind.trans (hts.leaves hbehind).ended.afterBreaks
          have hlength := hbreaks.used
          rw [if_pos hrocket, if_pos (by simp [atOp, peek, hrocket]), past_bind hu]
          exact ((ih.expression (hts.leaves hbreaks) (by omega)).map
            (Argument.pair key)).mono fun _ h => (hbreaks.trans h).mono (Nat.le_add_left 1 2)
        · rw [if_neg hrocket, if_neg (by simp [atOp, peek, hrocket])]
          exact .pure hrest

end Stages

/-- The bounds of the readers with guards are those of the stages: by induction on the stage. -/
theorem settleAt (n : Nat) : SettleAt interpret N n := by
  induction n with
  | zero => constructor <;> intros <;> omega
  | succ n ih =>
    exact {
      expression := settles_expression ih _
      climb := settles_climb ih _ _
      unary := settles_unary ih
      primary := settles_primary ih
      method := settles_method ih _
      selections := settles_selections ih _
      arguments := settles_arguments ih _
      argumentItems := settles_argumentItems ih _
      argument := settles_argument ih }

end Values

/-! ## Code inside strings -/

section Code

variable {α : Type}

/-- From some stage on the outcome is `a`. -/
def ComesTo (x : Nat → Option α) (a : α) : Prop :=
  ∃ stage, ∀ n, stage ≤ n → x n = some a

/-- Finitely many readings have a stage in common. -/
theorem exists_stage {p : Nat → α → Prop} (l : List α)
    (h : ∀ a ∈ l, ∃ stage, ∀ n, stage ≤ n → p n a) :
    ∃ stage, ∀ a ∈ l, ∀ n, stage ≤ n → p n a := by
  induction l with
  | nil => exact ⟨0, by simp⟩
  | cons a l ih =>
    obtain ⟨first, hfirst⟩ := h a List.mem_cons_self
    obtain ⟨stage, hstage⟩ := ih fun b hb => h b (List.mem_cons_of_mem a hb)
    refine ⟨max first stage, fun b hb n hn => ?_⟩
    obtain ⟨hn₁, hn₂⟩ := Nat.max_le.1 hn
    rcases List.mem_cons.1 hb with rfl | hb
    · exact hfirst n hn₁
    · exact hstage b hb n hn₂

variable {interpret : List Char → Except LexFault Expr} {lines : LineMap} {source : List Char}
  {tokens : List Token}

theorem ended_of_tokenize (h : tokenize lines source = .ok tokens) : Ended tokens := by
  obtain ⟨ts, l, hreads, -, rfl⟩ := Lexer.run_eq_ok (tokenize_eq_ok.1 h)
  exact .of_append rfl hreads.lexeme_ne_eof

theorem exists_sound (h : tokenize lines source = .ok tokens)
    (hcode : ∀ code, code.length < source.length →
      ComesTo (fun n => ((readers n).codeValue code).run) ((interpret code).mapError .fault)) :
    ∃ N, Sound interpret N tokens := by
  -- a stage in common for the parts of one string, then for the strings of the text
  have hstring (t : Token) (ht : t ∈ tokens) : ∃ stage, ∀ n, stage ≤ n →
      ∀ parts, t.lexeme = .string parts → ∀ code, Part.code code ∈ parts →
        ((readers n).codeValue code).run = some ((interpret code).mapError .fault) := by
    by_cases hx : ∃ parts, t.lexeme = .string parts
    · obtain ⟨parts, hparts⟩ := hx
      have hpart (part : Part) (hmem : part ∈ parts) : ∃ stage, ∀ n, stage ≤ n →
          ∀ code, part = .code code →
            ((readers n).codeValue code).run = some ((interpret code).mapError .fault) := by
        cases part with
        | text chars => exact ⟨0, by rintro _ _ _ ⟨⟩⟩
        | code code =>
          obtain ⟨stage, hstage⟩ := hcode code (length_code_lt h ht hparts hmem)
          exact ⟨stage, by rintro n hn _ ⟨⟩; exact hstage n hn⟩
      obtain ⟨stage, hstage⟩ := exists_stage parts hpart
      refine ⟨stage, fun n hn parts' hparts' code hmem => ?_⟩
      cases hparts.symm.trans hparts'
      exact hstage _ hmem n hn code rfl
    · exact ⟨0, fun _ _ parts hparts => absurd ⟨parts, hparts⟩ hx⟩
  obtain ⟨N, hN⟩ := exists_stage tokens hstring
  exact ⟨N, ended_of_tokenize h, fun t ht parts hparts code hmem n hn =>
    hN t ht n hn parts hparts code hmem⟩

/-- Without a bound on the depth, code is read as with one that is at least its length. -/
theorem comesTo_codeValue {code : List Char} {depth : Nat} (h : code.length ≤ depth) :
    ComesTo (fun n => ((readers n).codeValue code).run) ((codeValue depth code).mapError .fault) := by
  rw [codeValue_eq (Nat.le_succ code.length) h, codeValue]
  cases htokens : tokenize [] code with
  | error f =>
    refine ⟨1, fun n hn => ?_⟩
    obtain ⟨n, rfl⟩ := Nat.exists_eq_add_of_le' hn
    show ((readers n).next.codeValue code).run = _
    dsimp only [Readers.next]
    rw [htokens]
    rfl
  | ok tokens =>
    -- the code inside the strings of this code is shorter
    obtain ⟨N, hsound⟩ := exists_sound htokens fun inner hinner =>
      comesTo_codeValue (Nat.le_of_lt hinner)
    refine ⟨N + 8 * tokens.length + 4 + 1, fun n hn => ?_⟩
    obtain ⟨n, rfl⟩ := Nat.exists_eq_add_of_le' (Nat.le_of_add_left_le hn)
    have hlength := length_afterBreaks_le tokens
    obtain ⟨hread, hleaves⟩ :=
      @SettleAt.expression _ _ _ (settleAt n) 0 _ hsound.afterBreaks (by omega)
    show ((readers n).next.codeValue code).run = _
    dsimp only [Readers.next]
    rw [htokens]
    dsimp only
    show (((readers n).expression 0 (afterBreaks tokens)).run >>= _) = _
    rw [hread]
    cases hresult : expression (codeValue code.length) 0 (afterBreaks tokens) with
    | error e => cases e <;> rfl
    | ok r =>
      obtain ⟨e, rest⟩ := r
      have hrest := hsound.afterBreaks.leaves (hleaves e rest hresult)
      obtain ⟨u, hhere, hu⟩ := hrest.afterBreaks.ended.here
      show (here (afterBreaks rest) >>= _) = _
      rw [hhere]
      dsimp only
      by_cases hend : peek (afterBreaks rest) = .eof
      · rw [if_pos (show atEnd (afterBreaks rest) = true by simp [atEnd, hend])]
        exact if_pos (hu.trans hend)
      · rw [if_neg (show ¬ atEnd (afterBreaks rest) = true by simp [atEnd, hend])]
        exact if_neg fun heof => hend (hu.symm.trans heof)
termination_by code.length

end Code

end RecipeManifest.Unguarded

import Mathlib
import RecipeManifest.Proofs.PlainTokens

/-!
Reading plain declarations back.

The tokens that spell a value are read as its expression, those of a call as a command, and those
of a declaration as a statement; each time what follows is left as it is. Main statement
(`read_print`): what is printed is read back as it was meant, and where the last block is left
open, all before it is.
-/

namespace RecipeManifest

open Plain

/-! ## What stands around a value -/

/-- Can stand behind a value. -/
def endsValue : Lexeme → Bool
  | .newline | .keyword .doWord | .op .comma | .op .parenR | .op .bracketR | .op .braceL => true
  | _ => false

/-- Can start a value. -/
def opensValue : Lexeme → Bool
  | .string _ | .symbol _ | .number _ | .keyword .trueWord | .keyword .falseWord
  | .keyword .nilWord | .op .minus | .op .bracketL => true
  | _ => false

theorem afterBreaks_cons {t : Token} (more : List Token) (h : t.lexeme.isSeparator = false) :
    afterBreaks (t :: more) = t :: more := by
  simp [afterBreaks, h]

theorem length_lt_cons_append (t : Token) (ts rest : List Token) :
    rest.length < (t :: (ts ++ rest)).length := by
  simp only [List.length_cons, List.length_append]
  omega

@[simp]
theorem peek_cons (t : Token) (more : List Token) : peek (t :: more) = t.lexeme :=
  rfl

theorem isSeparator_of_opensValue {x : Lexeme} (h : opensValue x = true) :
    x.isSeparator = false := by
  cases x <;> simp_all [opensValue, Lexeme.isSeparator]

theorem binaryOperator?_of_endsValue {x : Lexeme} (h : endsValue x = true) :
    binaryOperator? x = none := by
  unfold endsValue at h
  split at h
  case h_7 => cases h
  all_goals rfl

section Expressions

variable {interpret : List Char → Except LexFault Expr} {e : Expr} {t : Token}
  {ts rest more : List Token}

theorem selections_of_endsValue (h : endsValue (peek rest) = true) :
    selections interpret e rest = .ok (e, rest) := by
  cases rest with
  | nil => simp [peek, endsValue] at h
  | cons t more =>
    have hdot : t.lexeme ≠ .op .dot := by rintro hx; simp [peek, hx, endsValue] at h
    have hscope : t.lexeme ≠ .op .scope := by rintro hx; simp [peek, hx, endsValue] at h
    have hbracket : t.lexeme ≠ .op .bracketL := by rintro hx; simp [peek, hx, endsValue] at h
    rw [selections]
    simp [hdot, hscope, hbracket]

theorem climb_of_endsValue (h : endsValue (peek rest) = true) :
    climb interpret 0 e rest = .ok (e, rest) := by
  cases rest with
  | nil => simp [peek, endsValue] at h
  | cons t more =>
    have hnone : binaryOperator? t.lexeme = none := binaryOperator?_of_endsValue h
    rw [climb, hnone]

theorem expression_of_unary (h : unary interpret ts = .ok (e, rest))
    (hlt : rest.length < ts.length) (hrest : endsValue (peek rest) = true) :
    expression interpret 0 ts = .ok (e, rest) := by
  rw [expression, h, goOn_ok _ _ _ hlt]
  exact climb_of_endsValue hrest

/-- A value that is a primary has no selections where a value ends. -/
theorem unary_of_primary (hbang : t.lexeme ≠ .op .bang) (hnot : t.lexeme ≠ .keyword .notWord)
    (hminus : t.lexeme ≠ .op .minus) (h : primary interpret (t :: more) = .ok (e, rest))
    (hlt : rest.length < (t :: more).length) (hrest : endsValue (peek rest) = true) :
    unary interpret (t :: more) = .ok (e, rest) := by
  have hneg : negativeNumber? (t :: more) = none := by
    unfold negativeNumber?
    split
    · next heq =>
      cases heq
      exact absurd rfl hminus
    · rfl
  rw [unary]
  simp only [hbang, hnot, or_self, if_false, hneg, h]
  rw [goOn_ok _ _ _ hlt]
  exact selections_of_endsValue hrest

theorem atom?_of_lexeme? {v : Value} {x : Lexeme} (h : v.lexeme? = some x) :
    atom? interpret x = some (.ok v.expr) := by
  cases v with
  | string s =>
    cases h
    simp [atom?, stringExpr, Part.isCode, Lexeme.value, Part.plain, Value.expr]
  | symbol n => cases h; rfl
  | number d =>
    simp only [Value.lexeme?] at h
    split at h
    · cases h
    · next hneg =>
      cases h
      simp [atom?, Lexeme.literal?, Value.expr, Decimal.chars, hneg]
  | bool b =>
    cases h
    cases b <;> rfl
  | nil => cases h; rfl
  | array items => cases h

theorem unary_atom {v : Value} (h : v.lexeme? = some t.lexeme)
    (hrest : endsValue (peek rest) = true) :
    unary interpret (t :: rest) = .ok (v.expr, rest) := by
  have hatom : atom? interpret t.lexeme = some (.ok v.expr) := atom?_of_lexeme? h
  refine unary_of_primary ?_ ?_ ?_ ?_ (by simp) hrest
  · intro hx; simp [hx, atom?, Lexeme.literal?] at hatom
  · intro hx; simp [hx, atom?, Lexeme.literal?] at hatom
  · intro hx; simp [hx, atom?, Lexeme.literal?] at hatom
  · rw [primary.eq_def]
    simp only [hatom, Except.map]

theorem unary_negative {d : Decimal} {m : Token} (hd : d.negative = true)
    (hm : m.lexeme = .op .minus) (ht : t.lexeme = .number (String.ofList d.digits))
    (hs : t.spaced = false) :
    unary interpret (m :: t :: rest) = .ok (Value.expr (.number d), rest) := by
  have hneg : negativeNumber? (m :: t :: rest) =
      some (.literal .number ("-" ++ String.ofList d.digits), rest) := by
    cases m
    cases t
    cases hm
    cases ht
    cases hs
    rfl
  have htext : "-" ++ String.ofList d.digits = String.ofList d.chars := by
    simp [Decimal.chars, hd]
  rw [unary]
  simp [hm, hneg, Value.expr, htext]

/-! ## Arguments -/

theorem argument_of_expression (ho : opensValue t.lexeme = true)
    (h : expression interpret 0 (t :: more) = .ok (e, rest))
    (hlt : rest.length < (t :: more).length) (hrest : endsValue (peek rest) = true) :
    argument interpret (t :: more) = .ok (.value e, rest) := by
  have hrocket : atOp .rocket rest = false := by
    rw [atOp, beq_eq_false_iff_ne]
    intro hx
    rw [hx] at hrest
    cases hrest
  rw [argument.eq_def]
  dsimp only
  split
  · next hx => rw [hx] at ho; cases ho
  · next hx => rw [hx] at ho; cases ho
  · next hx => rw [hx] at ho; cases ho
  · next hx => rw [hx] at ho; cases ho
  · rw [h, goOn_ok _ _ _ hlt, hrocket]
    rfl

variable {closer : Option Operator} {item : Argument}

theorem argumentItems_last (h : argument interpret ts = .ok (item, t :: more))
    (hlt : (t :: more).length < ts.length) (hs : closer.isSome → t.lexeme.isSeparator = false)
    (hc : t.lexeme ≠ .op .comma) :
    argumentItems interpret closer ts = .ok ([item], t :: more) := by
  have hrest : (if closer.isSome = true then afterBreaks (t :: more) else t :: more) =
      t :: more := by
    split
    · next hsome => exact afterBreaks_cons more (hs hsome)
    · rfl
  rw [argumentItems, h, goOn_ok _ _ _ hlt]
  dsimp only
  split
  · next heq => rw [hrest] at heq; cases heq
  · next heq =>
    rw [hrest] at heq
    cases heq
    rw [if_neg hc]

theorem argumentItems_comma {c : Token} (h : argument interpret ts = .ok (item, c :: t :: more))
    (hlt : (c :: t :: more).length < ts.length) (hc : c.lexeme = .op .comma)
    (ho : opensValue t.lexeme = true) (hcl : ∀ o, closer = some o → t.lexeme ≠ .op o) :
    argumentItems interpret closer ts =
      (argumentItems interpret closer (t :: more)).map fun (items, rest) =>
        (item :: items, rest) := by
  have hcomma : c.lexeme.isSeparator = false := by rw [hc]; rfl
  have hrest : (if closer.isSome = true then afterBreaks (c :: t :: more) else c :: t :: more) =
      c :: t :: more := by
    split
    · exact afterBreaks_cons _ hcomma
    · rfl
  have hafter : afterBreaks (t :: more) = t :: more :=
    afterBreaks_cons more (isSeparator_of_opensValue ho)
  have hno : (closer.any fun o => atOp o (t :: more)) = false := by
    cases closer with
    | none => rfl
    | some o => simp [atOp, peek, hcl o rfl]
  rw [argumentItems, h, goOn_ok _ _ _ hlt]
  dsimp only
  split
  · next heq => rw [hrest] at heq; cases heq
  · next heq =>
    rw [hrest] at heq
    cases heq
    rw [if_pos hc, hafter, hno]
    rfl

theorem collectArguments_values (es : List Expr) : collectArguments (es.map .value) = es := by
  simp [collectArguments, List.filterMap_map]

/-- What values start with closes nothing. -/
theorem not_closer_of_opensValue {x : Lexeme} {o : Operator} (h : opensValue x = true)
    (ho : o.isCloser = true) : x ≠ .op o := by
  rintro rfl
  cases o <;> simp_all [opensValue, Operator.isCloser]

theorem opensValue_of_lexeme? {v : Value} {x : Lexeme} (h : v.lexeme? = some x) :
    opensValue x = true := by
  cases v with
  | number d =>
    simp only [Value.lexeme?] at h
    split at h <;> cases h
    rfl
  | bool b => cases h; cases b <;> rfl
  | string _ | symbol _ | nil | array _ => cases h <;> rfl

theorem Plain.Value.Tokens.opens {v : Value} (h : v.Tokens ts) :
    ∃ t us, ts = t :: us ∧ opensValue t.lexeme = true := by
  cases h with
  | atom h => exact ⟨_, _, rfl, opensValue_of_lexeme? h⟩
  | negative _ hm _ _ => exact ⟨_, _, rfl, by rw [hm]; rfl⟩
  | array ho _ _ => exact ⟨_, _, rfl, by rw [ho]; rfl⟩

theorem Plain.ListTokens.opens {vs : List Value} (h : ListTokens vs ts) (hne : vs ≠ []) :
    ∃ t us, ts = t :: us ∧ opensValue t.lexeme = true := by
  cases h with
  | nil => exact absurd rfl hne
  | cons h hm =>
    obtain ⟨t, us, rfl, ho⟩ := h.opens
    exact ⟨t, _, rfl, ho⟩

/-- Behind the first of several values stands a comma and then the rest of them. -/
theorem Plain.TailTokens.cases {vs : List Value} (h : TailTokens vs ts) :
    (vs = [] ∧ ts = []) ∨
      (vs ≠ [] ∧ ∃ c us, ts = c :: us ∧ c.lexeme = .op .comma ∧ ListTokens vs us) := by
  cases h with
  | nil => exact .inl ⟨rfl, rfl⟩
  | cons hc h hm => exact .inr ⟨by simp, _, _, rfl, hc, .cons h hm⟩

/-- Arguments before the mark that closes them. -/
theorem arguments_closed {vs : List Value} {o : Operator} {c : Token} (h : ListTokens vs ts)
    (ho : o.isCloser = true) (hc : c.lexeme = .op o)
    (hitems : vs ≠ [] → argumentItems interpret (some o) (ts ++ c :: rest) =
      .ok ((exprs vs).map .value, c :: rest)) :
    arguments interpret (some o) (ts ++ c :: rest) = .ok (exprs vs, c :: rest) := by
  have hsep : c.lexeme.isSeparator = false := by rw [hc]; rfl
  rw [arguments]
  cases vs with
  | nil =>
    cases h
    simp [afterBreaks_cons rest hsep, atOp, peek, hc, exprs]
  | cons v more =>
    obtain ⟨t, us, rfl, hopens⟩ := h.opens (by simp)
    have hclose : atOp o (t :: (us ++ c :: rest)) = false := by
      simp [atOp, peek, not_closer_of_opensValue hopens ho]
    have hitems := hitems (by simp)
    rw [List.cons_append] at hitems ⊢
    rw [afterBreaks_cons _ (isSeparator_of_opensValue hopens), hclose, hitems]
    simp [Except.map, collectArguments_values]

mutual

/-- The tokens of a value are read as its expression. -/
theorem unary_value : (v : Value) → {ts rest : List Token} → v.Tokens ts →
    endsValue (peek rest) = true → unary interpret (ts ++ rest) = .ok (v.expr, rest)
  | .array items, _, rest, h, hrest => by
    cases h with
    | atom h => cases h
    | @array _ o c ts ho hitems hc =>
      have hargs : arguments interpret (some .bracketR) (ts ++ c :: rest) =
          .ok (exprs items, c :: rest) := by
        refine arguments_closed hitems rfl hc fun hne => ?_
        exact argumentItems_values items hne hitems (by simp [peek, hc, endsValue])
          (by simp [peek, hc]) (by simp [Operator.isCloser])
          (by simp [peek, hc, Lexeme.isSeparator])
      have hclose : pastOp .bracketR (c :: rest) = .ok rest := by
        simp [pastOp, atEnd, atOp, peek, hc]
      have hatom : atom? interpret (.op .bracketL) = none := rfl
      rw [List.cons_append, List.cons_append, List.append_assoc, List.singleton_append]
      have hlt : rest.length < (o :: (ts ++ c :: rest)).length := by
        simp only [List.length_cons, List.length_append]
        omega
      refine unary_of_primary (by simp [ho]) (by simp [ho]) (by simp [ho]) ?_ hlt hrest
      rw [primary.eq_def]
      simp only [ho, hatom, hargs, bind, Except.bind, hclose, pure, Except.pure, Value.expr]
  | .number d, _, rest, h, hrest => by
    cases h with
    | atom h => exact unary_atom h hrest
    | negative hd hm ht hs => exact unary_negative hd hm ht hs
  | .string _, _, rest, .atom h, hrest => unary_atom h hrest
  | .symbol _, _, rest, .atom h, hrest => unary_atom h hrest
  | .bool _, _, rest, .atom h, hrest => unary_atom h hrest
  | .nil, _, rest, .atom h, hrest => unary_atom h hrest

theorem argumentItems_values : (vs : List Value) → vs ≠ [] → {ts rest : List Token} →
    {closer : Option Operator} → ListTokens vs ts → endsValue (peek rest) = true →
    peek rest ≠ .op .comma → (∀ o, closer = some o → o.isCloser = true) →
    (closer.isSome → (peek rest).isSeparator = false) →
    argumentItems interpret closer (ts ++ rest) = .ok ((exprs vs).map .value, rest)
  | v :: more, _, _, rest, closer, h, hrest, hcomma, hclosers, hsep => by
    cases h with
    | @cons _ _ ts us h hm =>
      have hread : ∀ {rest'}, endsValue (peek rest') = true →
          argument interpret (ts ++ rest') = .ok (.value v.expr, rest') := by
        intro rest' hrest'
        have hunary := unary_value v h hrest'
        obtain ⟨t, us, rfl, ho⟩ := h.opens
        have hlt := length_lt_cons_append t us rest'
        exact argument_of_expression ho (expression_of_unary hunary hlt hrest') hlt hrest'
      have hlt : ∀ {rest' : List Token}, rest'.length < (ts ++ rest').length := by
        have := List.length_pos_iff.2 h.ne_nil
        intro rest'
        rw [List.length_append]
        omega
      rw [List.append_assoc]
      rcases hm.cases with ⟨rfl, rfl⟩ | ⟨hne, c, us, rfl, hc, hmore⟩
      · cases rest with
        | nil => cases hrest
        | cons t rest => exact argumentItems_last (hread hrest) hlt hsep hcomma
      · have hnext := argumentItems_values more hne hmore hrest hcomma hclosers hsep
        obtain ⟨t, us, rfl, ho⟩ := hmore.opens hne
        rw [List.cons_append, List.cons_append,
          argumentItems_comma (hread (by simp [peek, hc, endsValue])) hlt hc ho
            fun o hcl => not_closer_of_opensValue ho (hclosers o hcl)]
        rw [← List.cons_append, hnext]
        rfl

end

/-- Arguments without parentheses. -/
theorem arguments_bare {vs : List Value} (h : ListTokens vs ts) (hne : vs ≠ [])
    (hrest : endsValue (peek rest) = true) (hcomma : peek rest ≠ .op .comma) :
    arguments interpret none (ts ++ rest) = .ok (exprs vs, rest) := by
  rw [arguments, argumentItems_values vs hne h hrest hcomma (by simp) (by simp)]
  simp [Except.map, collectArguments_values]

/-- Arguments in parentheses. -/
theorem arguments_tight {vs : List Value} {p : Token} (h : ListTokens vs ts)
    (hp : p.lexeme = .op .parenR) :
    arguments interpret (some .parenR) (ts ++ p :: rest) = .ok (exprs vs, p :: rest) := by
  refine arguments_closed h rfl hp fun hne => ?_
  exact argumentItems_values vs hne h (by simp [peek, hp, endsValue]) (by simp [peek, hp])
    (by simp [Operator.isCloser]) (by simp [peek, hp, Lexeme.isSeparator])

end Expressions

/-! ## Commands -/

/-- Can stand behind a call. -/
def endsCall : Lexeme → Bool
  | .newline | .keyword .doWord | .op .braceL => true
  | _ => false

theorem endsValue_of_endsCall {x : Lexeme} (h : endsCall x = true) :
    endsValue x = true ∧ x ≠ .op .comma ∧ endsCommand x = true := by
  unfold endsCall at h
  split at h
  case h_4 => cases h
  all_goals exact ⟨rfl, by simp, rfl⟩

theorem not_paren_of_opensValue {x : Lexeme} (h : opensValue x = true) : x ≠ .op .parenL := by
  rintro rfl
  cases h

theorem endsCommand_of_opensValue {x : Lexeme} (h : opensValue x = true) :
    endsCommand x = false := by
  unfold opensValue at h
  split at h
  case h_9 => cases h
  all_goals rfl

namespace Plain.Call.Tokens

variable {n : Nat} {c : Call} {ts rest : List Token}

theorem head (h : c.Tokens n ts) :
    ∃ t us, ts = t :: us ∧ t.lexeme = .ident c.name.text ∧ t.line = n := by
  cases h with
  | alone ht hn _ => exact ⟨_, _, rfl, ht, hn⟩
  | bare ht hn _ _ => exact ⟨_, _, rfl, ht, hn⟩
  | tight ht hn _ _ _ _ => exact ⟨_, _, rfl, ht, hn⟩

end Plain.Call.Tokens

theorem Plain.Name.not_startsWith (n : Name) {c : Char} (s : String) (hs : s.toList = [c])
    (hc : isNameStart c = false) : n.text.startsWith s = false := by
  rw [String.startsWith_string_eq_false_iff, hs]
  rintro ⟨more, hmore⟩
  have hfirst : c = n.first := by
    simp [Ident.text, Ident.chars] at hmore
    exact hmore.1
  rw [hfirst, n.isNameStart_first] at hc
  cases hc

/-- A name has no sigil. -/
theorem Plain.Name.no_sigil (n : Name) :
    (n.text.startsWith "@" || n.text.startsWith "$") = false := by
  rw [n.not_startsWith "@" rfl (by decide), n.not_startsWith "$" rfl (by decide)]
  rfl

section Commands

variable {t : Token} {n : Name} {rest : List Token}

theorem startsCommand_of_endsCall (ht : t.lexeme = .ident n.text)
    (hrest : endsCall (peek rest) = true) : startsCommand (t :: rest) = true := by
  obtain ⟨x, line, start, stop, spaced⟩ := t
  cases ht
  generalize hx : peek rest = x at hrest
  unfold endsCall at hrest
  split at hrest
  case h_4 => cases hrest
  all_goals simp [startsCommand, n.no_sigil, hx]

theorem startsCommand_tight {o : Token} (ht : t.lexeme = .ident n.text)
    (ho : o.lexeme = .op .parenL) : startsCommand (t :: o :: rest) = true := by
  obtain ⟨x, line, start, stop, spaced⟩ := t
  cases ht
  simp [startsCommand, n.no_sigil, peek, ho]

theorem lexeme?_ne_minus {v : Value} : v.lexeme? ≠ some (.op .minus) := by
  cases v with
  | number d => simp only [Value.lexeme?]; split <;> simp
  | _ => simp [Value.lexeme?]

/-- A value behind a blank is the argument of the name before it. -/
theorem startsCommand_bare {v : Value} {ts : List Token} (ht : t.lexeme = .ident n.text)
    (h : v.Tokens ts) (hs : ∀ u, ts.head? = some u → u.spaced = true) :
    startsCommand (t :: (ts ++ rest)) = true := by
  obtain ⟨x, line, start, stop, spaced⟩ := t
  cases ht
  cases h with
  | @atom _ u h =>
    have hopens := opensValue_of_lexeme? h
    have hspaced := hs u rfl
    generalize hx : u.lexeme = x at hopens
    unfold opensValue at hopens
    split at hopens
    case h_9 => cases hopens
    case h_7 => exact absurd (hx ▸ h) lexeme?_ne_minus
    all_goals simp [startsCommand, n.no_sigil, peek, hx, hspaced]
  | @negative d m u _ hm _ hu =>
    simp [startsCommand, n.no_sigil, peek, hm, hs m rfl, hu]
  | @array items o c ts ho _ _ =>
    simp [startsCommand, n.no_sigil, peek, ho, hs o rfl]

end Commands

namespace BlockSource

variable {b : BlockSource} {n : Nat} {c : Call} {t : Token} {ts rest : List Token}

/-- The tokens of a call start a command, are read as its name and arguments, and give it the line
that its name stands on. -/
theorem commandHead_call (h : c.Tokens n ts) (hrest : endsCall (peek rest) = true) :
    startsCommand (ts ++ rest) = true ∧
      b.commandHead (ts ++ rest) = .ok ((c.name.text, exprs c.args), rest) ∧
      b.lineInFile (ts ++ rest) = b.lines.lineInFile n := by
  obtain ⟨hvalue, hcomma, hcommand⟩ := endsValue_of_endsCall hrest
  have hlookup : c.name.text ≠ "resources" := c.name.not_lookup
  cases h with
  | @alone t ht hn hargs =>
    refine ⟨startsCommand_of_endsCall ht hrest, ?_, by simp [lineInFile, hn]⟩
    have htight : atTightOp .parenL rest = false := by
      cases rest with
      | nil => rfl
      | cons u us =>
        have hparen : u.lexeme ≠ .op .parenL := by
          intro hx
          simp [peek, hx, endsCall] at hrest
        simp [atTightOp, hparen]
    simp [commandHead, ht, Lexeme.value, htight, hcommand, hlookup, hargs, exprs, bind,
      Except.bind, pure, Except.pure]
  | @bare t u us ht hn hs hlist =>
    obtain ⟨v, more, ts, us', hargs, heq, hv⟩ := hlist.first (by simp)
    obtain ⟨w, ws, rfl, hopens⟩ := hv.opens
    obtain ⟨rfl, rfl⟩ : u = w ∧ us = ws ++ us' := by simpa using heq
    have hstart : startsCommand (t :: (u :: ws ++ (us' ++ rest))) = true :=
      startsCommand_bare ht hv (by simpa using hs)
    refine ⟨by simpa using hstart, ?_, by simp [lineInFile, hn]⟩
    have hread : arguments b.interpret none (u :: (ws ++ us') ++ rest) =
        .ok (exprs c.args, rest) := arguments_bare hlist (by simp [hargs]) hvalue hcomma
    have htight : atTightOp .parenL (u :: (ws ++ us') ++ rest) = false := by
      simp [atTightOp, not_paren_of_opensValue hopens]
    have hcommand : endsCommand u.lexeme = false := endsCommand_of_opensValue hopens
    simp only [List.cons_append, List.append_assoc] at hread htight ⊢
    simp [commandHead, ht, Lexeme.value, htight, hcommand, hread, hlookup, bind, Except.bind, pure,
      Except.pure]
  | @tight t o p ts ht hn ho hs hlist hp =>
    refine ⟨startsCommand_tight ht ho, ?_, by simp [lineInFile, hn]⟩
    have htight : atTightOp .parenL (o :: (ts ++ p :: rest)) = true := by
      simp [atTightOp, ho, hs]
    have hargs : arguments b.interpret (some .parenR) (ts ++ p :: rest) =
        .ok (exprs c.args, p :: rest) := arguments_tight hlist hp
    have hpast : pastOp .parenR (p :: rest) = .ok rest := by
      simp [pastOp, atEnd, atOp, peek, hp]
    simp [commandHead, ht, Lexeme.value, htight, hargs, hpast, hlookup, bind, Except.bind, pure,
      Except.pure]

/-- A call is read as a declaration or a property, with the block that may follow it. -/
theorem supported_call (closer : Option Closer) (h : c.Tokens n ts)
    (hrest : endsCall (peek rest) = true) :
    b.supported closer (ts ++ rest) = (b.commandBlock rest).map fun (block, rest) =>
      match closer with
      | none => (.resource c.name.text (exprs c.args).head? (block.getD []) block.isSome
          (b.lines.lineInFile n), rest)
      | some _ => (.property c.name.text (exprs c.args) block (b.lines.lineInFile n), rest) := by
  obtain ⟨hstart, hhead, hline⟩ := commandHead_call (b := b) h hrest
  obtain ⟨u, us, rfl, hu, -⟩ := h.head
  have hopens : opensBlock (peek (u :: us ++ rest)) = false := by
    simp [hu, opensBlock]
  have hlt : rest.length < (u :: us ++ rest).length := length_lt_cons_append u us rest
  rw [supported.eq_def, hstart, hhead, goOn_ok _ _ _ hlt, hline, hopens]
  rfl

theorem commandBlock_newline (ht : t.lexeme = .newline) :
    b.commandBlock (t :: rest) = .ok (none, t :: rest) := by
  rw [commandBlock.eq_def]
  simp [ht]

/-- A call that its line ends is read as a property inside a block. -/
theorem statement_call {k : Closer} (h : c.Tokens n ts) (ht : t.lexeme = .newline) :
    b.statement (some k) (ts ++ t :: rest) =
      .ok (.property c.name.text (exprs c.args) none (b.lines.lineInFile n), t :: rest) := by
  rw [statement, supported_call (some k) h (by simp [ht, endsCall]), commandBlock_newline ht]
  simp [Except.map, endsStatement, ht, Lexeme.isSeparator]

/-! ## Blocks -/

variable {k : Closer} {indent : Nat}

theorem afterBreaks_separator (h : t.lexeme.isSeparator = true) :
    afterBreaks (t :: rest) = afterBreaks rest := by
  simp [afterBreaks, h]

theorem blockItems_congr {us : List Token} (h : afterBreaks ts = afterBreaks us) :
    b.blockItems k ts = b.blockItems k us := by
  rw [blockItems.eq_def, blockItems.eq_def b k us, h]

theorem blockItems_newline (ht : t.lexeme = .newline) :
    b.blockItems k (t :: rest) = b.blockItems k rest := by
  apply blockItems_congr
  simp [afterBreaks_separator, ht, Lexeme.isSeparator]

theorem blockItems_closed (ht : t.lexeme = closerLexeme k) :
    b.blockItems k (t :: rest) = .ok ([], rest) := by
  have hafter : afterBreaks (t :: rest) = t :: rest := by
    apply afterBreaks_cons
    cases k <;> simp [ht, closerLexeme, Lexeme.isSeparator]
  rw [blockItems.eq_def, hafter]
  cases k <;> simp [ht, closerLexeme, Closer.isAt]

theorem blockItems_eof (ht : t.lexeme = .eof) :
    b.blockItems k (t :: rest) = .error .endOfBlock := by
  have hafter : afterBreaks (t :: rest) = t :: rest := by
    apply afterBreaks_cons
    simp [ht, Lexeme.isSeparator]
  rw [blockItems.eq_def, hafter]
  simp [ht]

/-- The statement on one line of a block is read, and then what follows the line. -/
theorem blockItems_statement {s : Statement} {u : Token} {x : String} (hu : u.lexeme = .ident x)
    (ht : t.lexeme = .newline) (hlt : (t :: rest).length < (u :: ts).length)
    (hread : b.statement (some k) (u :: ts) = .ok (s, t :: rest)) :
    b.blockItems k (u :: ts) = (b.blockItems k rest).map fun (items, rest) =>
      (s :: items, rest) := by
  have hafter : afterBreaks (u :: ts) = u :: ts :=
    afterBreaks_cons _ (by simp [hu, Lexeme.isSeparator])
  have heof : u.lexeme ≠ .eof := by simp [hu]
  have hcloser : k.isAt u.lexeme = false := by cases k <;> simp [hu, Closer.isAt]
  rw [blockItems.eq_def, hafter]
  simp only [heof, hcloser, if_false, Bool.false_eq_true]
  rw [hread, goOn_ok _ _ _ hlt, blockItems_newline ht]

/-- The calls of a block are read one after the other, and then what follows them. -/
theorem blockItems_calls {calls : List Call} (h : CallsTokens indent n calls ts) :
    b.blockItems k (ts ++ rest) = (b.blockItems k rest).map fun (items, rest) =>
      (properties b.lines indent n calls ++ items, rest) := by
  induction h with
  | nil =>
    simp only [List.nil_append, properties]
    cases b.blockItems k rest <;> rfl
  | @cons n c more ts us t h ht _ ih =>
    have hread : b.statement (some k) (ts ++ t :: (us ++ rest)) = _ := statement_call h ht
    obtain ⟨u, ws, rfl, hu, -⟩ := h.head
    rw [List.append_assoc, List.cons_append, List.cons_append,
      blockItems_statement hu ht (length_lt_cons_append u ws _) hread, ih]
    cases b.blockItems k rest <;> rfl

/-- A block whose first token is no bar has no parameters. -/
theorem block_eq_blockItems (h : peek (afterBreaks ts) ≠ .op .bar) :
    b.block k ts = b.blockItems k ts := by
  have hskip : skipParameters (afterBreaks ts) = .ok (afterBreaks ts) := by
    simp [skipParameters, atOp, h]
  rw [block.eq_def, hskip]
  apply blockItems_congr
  exact List.dropWhile_idempotent _ _

theorem commandBlock_open {o : Token} (ho : o.lexeme = openerLexeme k) :
    b.commandBlock (o :: rest) =
      (b.block k rest).map fun (body, rest) => (some body, rest) := by
  rw [commandBlock.eq_def]
  cases k <;> simp [ho, openerLexeme]

theorem peek_calls {calls : List Call} (h : CallsTokens indent n calls ts) :
    peek (afterBreaks (ts ++ rest)) = peek (afterBreaks rest) ∨
      ∃ name, peek (afterBreaks (ts ++ rest)) = .ident name := by
  cases h with
  | nil => exact .inl rfl
  | cons h ht hm =>
    obtain ⟨u, ws, rfl, hu, -⟩ := h.head
    right
    rw [List.cons_append, List.cons_append,
      afterBreaks_cons _ (by simp [hu, Lexeme.isSeparator])]
    exact ⟨_, hu⟩

/-- A call with a block is read up to the end of its calls, and then as what follows has it. -/
theorem supported_open {head : Call} {block : Block} (h : OpenTokens indent n head block ts)
    (hbar : peek (afterBreaks rest) ≠ .op .bar) :
    b.supported none (ts ++ rest) = (b.blockItems block.closer rest).map fun (items, rest) =>
      (.resource head.name.text (exprs head.args).head?
        (properties b.lines indent (lineAfter n (openingChars head block.closer)) block.calls ++
          items) true (b.lines.lineInFile n), rest) := by
  cases h with
  | @intro ts us o t h ho ht hc =>
    have hend : endsCall (peek (o :: (t :: us ++ rest))) = true := by
      cases hk : block.closer <;> simp [ho, hk, openerLexeme, endsCall]
    have hnobar : peek (afterBreaks (t :: us ++ rest)) ≠ .op .bar := by
      rw [List.cons_append, afterBreaks_separator (by simp [ht, Lexeme.isSeparator])]
      rcases peek_calls hc with hp | ⟨name, hp⟩ <;> rw [hp]
      · exact hbar
      · simp
    rw [List.append_assoc, List.cons_append, supported_call none h hend, commandBlock_open ho,
      block_eq_blockItems hnobar, List.cons_append, blockItems_newline ht, blockItems_calls hc]
    cases b.blockItems block.closer rest <;> rfl

/-- A declaration is read as its statement, up to the end of its last line. -/
theorem statement_declaration {d : Declaration} (h : d.Tokens indent n ts) :
    ∃ t, t.lexeme = .newline ∧
      b.statement none (ts ++ rest) = .ok (d.statement b.lines indent n, t :: rest) := by
  cases h with
  | @plain ts t hd h ht =>
    refine ⟨t, ht, ?_⟩
    rw [List.append_assoc, List.singleton_append, statement,
      supported_call none h (by simp [ht, endsCall]), commandBlock_newline ht]
    simp [Except.map, endsStatement, ht, Lexeme.isSeparator, Declaration.statement, hd,
      Declaration.head, exprs, Value.expr]
  | @block body ts c t hd h hc ht =>
    have hbar : peek (afterBreaks (c :: t :: rest)) ≠ .op .bar := by
      rw [afterBreaks_cons] <;>
        cases hk : body.closer <;> simp [hc, hk, closerLexeme, Lexeme.isSeparator]
    refine ⟨t, ht, ?_⟩
    rw [List.append_assoc, List.cons_append, List.singleton_append, statement,
      supported_open h hbar, blockItems_closed hc]
    simp [Except.map, endsStatement, ht, Lexeme.isSeparator, Declaration.statement, hd,
      Declaration.head, exprs, Value.expr]

theorem afterBreaks_newlines (hts : ∀ t ∈ ts, t.lexeme = .newline) :
    afterBreaks (ts ++ rest) = afterBreaks rest := by
  apply List.dropWhile_append_of_pos
  intro t ht
  simp [hts t ht, Lexeme.isSeparator]

/-- Where the text ends in a block, the statement does not end. -/
theorem statement_open {head : Call} {block : Block} {us : List Token}
    (h : OpenTokens indent n head block ts) (hus : ∀ t ∈ us, t.lexeme = .newline)
    (ht : t.lexeme = .eof) : b.statement none (ts ++ (us ++ [t])) = .error .endOfBlock := by
  have hafter : afterBreaks (us ++ [t]) = afterBreaks [t] := afterBreaks_newlines hus
  have hbar : peek (afterBreaks (us ++ [t])) ≠ .op .bar := by
    rw [hafter, afterBreaks_cons _ (by simp [ht, Lexeme.isSeparator])]
    simp [ht]
  rw [statement, supported_open h hbar, blockItems_congr hafter, blockItems_eof ht]
  rfl

/-! ## Whole texts -/

theorem statements_congr {us : List Token} (h : afterBreaks ts = afterBreaks us) :
    b.statements ts = b.statements us := by
  rw [statements.eq_def, statements.eq_def b us, h]

theorem statements_newline (ht : t.lexeme = .newline) :
    b.statements (t :: rest) = b.statements rest := by
  apply statements_congr
  simp [afterBreaks_separator, ht, Lexeme.isSeparator]

theorem head_open {head : Call} {block : Block} (h : OpenTokens indent n head block ts) :
    ∃ t us, ts = t :: us ∧ t.lexeme = .ident head.name.text ∧ t.line = n := by
  cases h with
  | intro h _ _ _ =>
    obtain ⟨t, us, rfl, ht, hn⟩ := h.head
    exact ⟨t, _, rfl, ht, hn⟩

theorem head_declaration {d : Declaration} (h : d.Tokens indent n ts) :
    ∃ t us, ts = t :: us ∧ us ≠ [] ∧ t.lexeme = .ident d.type.text := by
  cases h with
  | plain _ h _ =>
    obtain ⟨t, us, rfl, ht, -⟩ := h.head
    exact ⟨t, _, rfl, by simp, ht⟩
  | block _ h _ _ =>
    obtain ⟨t, us, rfl, ht, -⟩ := head_open h
    exact ⟨t, _, rfl, by simp, ht⟩

/-- The first statement of a text is read, and then what follows the line it ends on. -/
theorem statements_statement {s : Statement} {u : Token} (hsep : u.lexeme.isSeparator = false)
    (heof : u.lexeme ≠ .eof) (ht : t.lexeme = .newline)
    (hlt : (t :: rest).length < (u :: ts).length)
    (hread : b.statement none (u :: ts) = .ok (s, t :: rest)) :
    b.statements (u :: ts) = (b.statements rest).map fun (items, line) => (s :: items, line) := by
  rw [statements.eq_def, afterBreaks_cons ts hsep]
  simp only [heof, if_false, hread]
  rw [dif_pos hlt, statements_newline ht]

/-- Declarations are read one after the other, and then what follows them. -/
theorem statements_print {ds : List Declaration} (h : PrintTokens indent n ds ts) :
    b.statements (ts ++ rest) = (b.statements rest).map fun (items, line) =>
      (Plain.statements b.lines indent n ds ++ items, line) := by
  induction h with
  | nil =>
    simp only [List.nil_append, Plain.statements]
    cases b.statements rest <;> rfl
  | @cons n d more ts us h _ ih =>
    obtain ⟨t, ht, hread⟩ : ∃ t, t.lexeme = .newline ∧
        b.statement none (ts ++ (us ++ rest)) =
          .ok (d.statement b.lines indent n, t :: (us ++ rest)) :=
      statement_declaration h
    obtain ⟨u, ws, rfl, hne, hu⟩ := head_declaration h
    have hlt : (t :: (us ++ rest)).length < (u :: (ws ++ (us ++ rest))).length := by
      have := List.length_pos_iff.2 hne
      simp only [List.length_cons, List.length_append]
      omega
    rw [List.append_assoc, List.cons_append,
      statements_statement (by simp [hu, Lexeme.isSeparator]) (by simp [hu]) ht hlt hread, ih]
    cases b.statements rest <;> rfl

theorem statements_open {head : Call} {block : Block} {us : List Token}
    (h : OpenTokens indent n head block ts) (hus : ∀ t ∈ us, t.lexeme = .newline)
    (ht : t.lexeme = .eof) :
    b.statements (ts ++ (us ++ [t])) = .ok ([], some (b.lines.lineInFile n)) := by
  have hread := statement_open (b := b) h hus ht
  obtain ⟨u, ws, rfl, hu, hn⟩ := head_open h
  have hafter : afterBreaks (u :: (ws ++ (us ++ [t]))) = _ :=
    afterBreaks_cons _ (by simp [hu, Lexeme.isSeparator])
  have heof : u.lexeme ≠ .eof := by simp [hu]
  rw [List.cons_append] at hread ⊢
  rw [statements.eq_def, hafter]
  simp [heof, hread, lineInFile, hn]

theorem statements_eof (ht : t.lexeme = .eof) : b.statements [t] = .ok ([], none) := by
  have hafter : afterBreaks [t] = [t] := afterBreaks_cons _ (by simp [ht, Lexeme.isSeparator])
  rw [statements.eq_def, hafter]
  simp [ht]

end BlockSource

/-- A text that is read to its end has the tokens that were made, and the mark for the end. -/
theorem tokenize_of_scans {source : List Char} {ts : List Token} {l : Lexer} (lines : LineMap)
    (h : Lexer.Scans (Lexer.start source) source ts l) :
    ∃ e : Token, e.lexeme = .eof ∧ tokenize lines source = .ok (ts ++ [e]) := by
  have hrest : l.rest = [] := h.rest_eq (List.append_nil source).symm
  refine ⟨⟨.eof, l.line, l.pos, l.pos, false⟩, rfl, tokenize_eq_ok.2 ?_⟩
  rw [Lexer.run_of_reads h.reads, Lexer.run_nil hrest]
  rfl

theorem read_of_statements {lines : LineMap} {source : List Char} {tokens : List Token}
    {items : List Statement} {line : Option Int} (ht : tokenize lines source = .ok tokens)
    (hs : (BlockSource.mk source lines).statements tokens = .ok (items, line)) :
    BlockContent.read lines source = .ok ⟨items, line⟩ := by
  simp [BlockContent.read, ht, hs, bind, Except.bind, pure, Except.pure]

/-- Plain declarations that are printed are read back as what they mean, each on the line where it
stands. If one more declaration is printed but for what closes its block, those before it are read,
and the line where that one starts is reported. -/
theorem read_print (lines : LineMap) (indent : Nat) (ds : List Declaration) :
    BlockContent.read lines (print indent ds) =
        .ok ⟨Plain.statements lines indent 1 ds, none⟩ ∧
      ∀ (d : Declaration) (b : Block) (cs : List Char) (m : Nat), d.block = some b →
        d.chars indent = cs ++ closerChars b.closer ++ ['\n'] →
        BlockContent.read lines (print indent ds ++ cs ++ List.replicate m '\n') =
          .ok ⟨Plain.statements lines indent 1 ds,
            some (lines.lineInFile (lineAfter 1 (print indent ds)))⟩ := by
  constructor
  · obtain ⟨ts, l, hscan, htokens⟩ :=
      Lexer.scans_print ds (Lexer.settled_start (print indent ds)) (List.append_nil _).symm
    obtain ⟨e, he, htokenize⟩ := tokenize_of_scans lines hscan
    refine read_of_statements htokenize ?_
    rw [BlockSource.statements_print htokens, BlockSource.statements_eof he]
    simp [Except.map, Lexer.start]
  · intro d b cs m hd hcs
    obtain rfl : openChars indent d.head b = cs := by
      simpa [Declaration.chars, hd] using hcs
    generalize hsource :
      print indent ds ++ openChars indent d.head b ++ List.replicate m '\n' = source
    have hstart : (Lexer.start source).rest =
        print indent ds ++ (openChars indent d.head b ++ (List.replicate m '\n' ++ [])) := by
      simp [Lexer.start, ← hsource]
    obtain ⟨ts, l, hscan, htokens⟩ := Lexer.scans_print ds (Lexer.settled_start source) hstart
    have hrest := hscan.rest_eq hstart
    obtain ⟨us, l₁, hopen, hblock⟩ := Lexer.scans_open d.head b hscan.settled hrest
    obtain ⟨ws, l₂, hbreaks, hws⟩ :=
      Lexer.scans_newlines m hopen.settled (hopen.rest_eq hrest)
    have hall : Lexer.Scans (Lexer.start source) source (ts ++ (us ++ ws)) l₂ := by
      simpa [← hsource] using hscan.trans (hopen.trans hbreaks)
    obtain ⟨e, he, htokenize⟩ := tokenize_of_scans lines hall
    refine read_of_statements htokenize ?_
    rw [List.append_assoc, List.append_assoc, BlockSource.statements_print htokens,
      BlockSource.statements_open hblock hws he, hscan.line]
    simp [Except.map, Lexer.start]

/-- Two declarations, with blocks of both kinds and calls of both kinds, and the second of them
left open. -/
theorem read_print_both_ways :
    let file : Name := ⟨⟨'f', "ile".toList, by decide, by decide⟩, by decide, by decide⟩
    let mode : Name := ⟨⟨'m', "ode".toList, by decide, by decide⟩, by decide, by decide⟩
    let only : Ident := ⟨'e', "nd".toList, by decide, by decide⟩
    let half : Decimal := ⟨true, '0', [], ['5'], by decide, by decide, by decide⟩
    let calls : List Call := [⟨mode, [.array [.symbol only, .number half], .nil], false⟩,
      ⟨mode, [.bool true, .array []], true⟩, ⟨mode, [], false⟩]
    let first : Declaration := ⟨file, "it's \\", true, some ⟨.brace, calls⟩⟩
    let last : Declaration := ⟨file, "a", false, some ⟨.endWord, calls⟩⟩
    let bodyText := " mode [:end, -0.5], nil\n mode(true, [])\n mode\n"
    let firstText := "file('it\\'s \\\\') \x7b\n" ++ bodyText ++ "\x7d\n"
    let openText := "file 'a' do\n" ++ bodyText
    let body (n : Int) : List Statement := [
      .property "mode" [.array [.literal .symbol "end", .literal .number "-0.5"],
        .literal .nil ""] none n,
      .property "mode" [.literal .bool "true", .array []] none (n + 1),
      .property "mode" [] none (n + 2)]
    let read : Statement := .resource "file" (some (.literal .string "it's \\")) (body 2) true 1
    print 1 [first] = firstText.toList ∧ last.block = some ⟨.endWord, calls⟩ ∧
      last.chars 1 = openText.toList ++ closerChars .endWord ++ ['\n'] ∧
      BlockContent.read [] firstText.toList = .ok ⟨[read], none⟩ ∧
      BlockContent.read [] (firstText.toList ++ openText.toList ++ List.replicate 0 '\n') =
        .ok ⟨[read], some 6⟩ := by
  intro file mode only half calls first last bodyText firstText openText body read
  have hfirst : print 1 [first] = firstText.toList := by decide
  have hlast : last.chars 1 = openText.toList ++ closerChars .endWord ++ ['\n'] := by decide
  have hopened : lineAfter 1 (openingChars first.head .brace) = 2 := by decide
  have hbody : properties [] 1 2 calls = body 2 := by
    have hlines : ∀ c ∈ calls, (c.lineChars 1).count '\n' = 1 := by decide
    simp only [calls, List.forall_mem_cons] at hlines
    simp only [calls, properties, lineAfter, hlines.1, hlines.2.1]
    rfl
  have hstatements : Plain.statements [] 1 1 [first] = [read] := by
    show [Statement.resource "file" (some (.literal .string "it's \\"))
      (properties [] 1 (lineAfter 1 (openingChars first.head .brace)) calls) true 1] = [read]
    rw [hopened, hbody]
  have hline : LineMap.lineInFile [] (lineAfter 1 (print 1 [first])) = 6 := by
    rw [hfirst]
    decide
  obtain ⟨hread, hopen⟩ := read_print [] 1 [first]
  have hopen := hopen last ⟨.endWord, calls⟩ openText.toList 0 rfl hlast
  rw [hstatements, hfirst] at hread
  rw [hstatements, hline, hfirst] at hopen
  exact ⟨hfirst, rfl, hlast, hread, hopen⟩

end RecipeManifest

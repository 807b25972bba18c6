import RecipeManifest.Proofs.PlainReading

/-!
Formulas: literals, negations and binary operators between them.

`Formula.Spells f ts` says that the tokens write the formula with no more parentheses than its
grouping needs. Reading climbs the precedences of the operators: where a formula binds tighter than
the floor and no looser than the operator behind it, reading it comes to going on behind it
(`Formula.ReadsBack`). Main statement (`expression_formula`): a formula that is written down is read
back, and a chain of operands without parentheses is read as the one tree of its operands and
operators in their order in which no left operand binds looser, and each right operand tighter, than
the operator beside it.
-/

namespace RecipeManifest

/-! ## Formulas -/

/-- A mark between two values, and how tightly it binds. -/
structure Connective where
  mark : Operator
  precedence : Nat
  binds : mark.precedence? = some precedence

inductive Atom where
  | number (negative : Bool) (digits : String)
  | string (text : String)
  | symbol (name : String)
  | bool (value : Bool)
  deriving DecidableEq, Repr

def Atom.expr : Atom → Expr
  | number negative digits => .literal .number (if negative then "-" ++ digits else digits)
  | string text => .literal .string text
  | symbol name => .literal .symbol name
  | bool value => .literal .bool (if value then "true" else "false")

inductive Formula where
  | atom (value : Atom)
  | not (operand : Formula)
  | binary (joint : Connective) (left right : Formula)

namespace Formula

def expr : Formula → Expr
  | atom value => value.expr
  | not operand => .not operand.expr
  | binary joint left right => .binary joint.mark.spelling left.expr right.expr

/-- The formula is two formulas with an operator between them. -/
def isJoined : Formula → Bool
  | binary _ _ _ => true
  | _ => false

/-- The operator between the two halves of the formula binds looser than that. -/
def isBelow (precedence : Nat) : Formula → Bool
  | binary joint _ _ => joint.precedence < precedence
  | _ => false

/-- A literal, maybe negated: what needs no parentheses anywhere. -/
def isOperand : Formula → Bool
  | atom _ => true
  | not operand => operand.isOperand
  | binary _ _ _ => false

end Formula

/-! ## Tokens -/

/-- The tokens write the literal. The sign of a number stands right before it. -/
inductive Atom.Spells : Atom → List Token → Prop
  | number {t : Token} {digits : String} (ht : t.lexeme = .number digits) :
      Atom.Spells (.number false digits) [t]
  | negative {m t : Token} {digits : String} (hm : m.lexeme = .op .minus)
      (ht : t.lexeme = .number digits) (hs : t.spaced = false) :
      Atom.Spells (.number true digits) [m, t]
  | string {t : Token} {parts : List Part} (ht : t.lexeme = .string parts)
      (hparts : parts.any Part.isCode = false) : Atom.Spells (.string t.lexeme.value) [t]
  | symbol {t : Token} {name : String} (ht : t.lexeme = .symbol name) :
      Atom.Spells (.symbol name) [t]
  | bool {t : Token} {value : Bool}
      (ht : t.lexeme = .keyword (if value then .trueWord else .falseWord)) :
      Atom.Spells (.bool value) [t]

/-- Line ends and semicolons alone. -/
def AreBreaks (ts : List Token) : Prop :=
  ∀ t ∈ ts, t.lexeme.isSeparator = true

mutual

/-- The tokens write the formula with the fewest parentheses. Lines may be broken behind operators
and behind opening parentheses. -/
inductive Formula.Spells : Formula → List Token → Prop
  | atom {value : Atom} {ts : List Token} (h : value.Spells ts) : Formula.Spells (.atom value) ts
  | not {operand : Formula} {b : Token} {ts : List Token} (hb : b.lexeme = .op .bang)
      (h : Formula.SpellsIn operand.isJoined operand ts) : Formula.Spells (.not operand) (b :: ts)
  | binary {joint : Connective} {left right : Formula} {o : Token} {ts breaks us : List Token}
      (hl : Formula.SpellsIn (left.isBelow joint.precedence) left ts)
      (ho : o.lexeme = .op joint.mark) (hbreaks : AreBreaks breaks)
      (hr : Formula.SpellsIn (right.isBelow (joint.precedence + 1)) right us) :
      Formula.Spells (.binary joint left right) (ts ++ o :: (breaks ++ us))

/-- The tokens write the formula, in parentheses or not. -/
inductive Formula.SpellsIn : Bool → Formula → List Token → Prop
  | bare {f : Formula} {ts : List Token} (h : Formula.Spells f ts) : Formula.SpellsIn false f ts
  | enclosed {f : Formula} {o c : Token} {breaks ts : List Token} (ho : o.lexeme = .op .parenL)
      (hbreaks : AreBreaks breaks) (h : Formula.Spells f ts) (hc : c.lexeme = .op .parenR) :
      Formula.SpellsIn true f (o :: (breaks ++ ts ++ [c]))

end

/-- The token selects a member or an item of the value before it. -/
def opensSelection (t : Token) : Bool :=
  t.lexeme == .op .dot ||
    !t.spaced && (t.lexeme == .op .scope || t.lexeme == .op .bracketL)

/-- No selection follows. -/
def NoSelection (rest : List Token) : Prop :=
  ∀ t, rest.head? = some t → opensSelection t = false

/-- A formula ends here: neither a selection nor an operator follows. -/
def EndsFormula (rest : List Token) : Prop :=
  ∀ t, rest.head? = some t → opensSelection t = false ∧ binaryOperator? t.lexeme = none

/-! ## Reading -/

theorem afterBreaks_append {breaks : List Token} (h : AreBreaks breaks) (rest : List Token) :
    afterBreaks (breaks ++ rest) = afterBreaks rest :=
  List.dropWhile_append_of_pos h

theorem Connective.binaryOperator? {joint : Connective} {o : Token}
    (ho : o.lexeme = .op joint.mark) :
    RecipeManifest.binaryOperator? o.lexeme = some (joint.mark.spelling, joint.precedence) := by
  rw [ho]
  simp [RecipeManifest.binaryOperator?, joint.binds]

/-- An operator that joins values selects nothing. -/
theorem Connective.opensSelection {joint : Connective} {o : Token}
    (ho : o.lexeme = .op joint.mark) : RecipeManifest.opensSelection o = false := by
  have hbinds := joint.binds
  unfold RecipeManifest.opensSelection
  rw [ho]
  cases hmark : joint.mark <;> simp_all [Operator.precedence?]

namespace Formula

theorem isBelow_mono {f : Formula} {p q : Nat} (h : f.isBelow q = false) (hle : p ≤ q) :
    f.isBelow p = false := by
  cases f with
  | binary joint left right =>
    simp only [isBelow, decide_eq_false_iff_not] at h ⊢
    omega
  | atom _ | not _ => rfl

/-- No operator binds as loosely as nothing at all. -/
theorem isBelow_one (f : Formula) : f.isBelow 1 = false := by
  cases f with
  | binary joint left right =>
    have hbinds := joint.binds
    simp only [isBelow, decide_eq_false_iff_not, Nat.lt_one_iff]
    intro hzero
    rw [hzero] at hbinds
    cases hmark : joint.mark <;> simp [hmark, Operator.precedence?] at hbinds
  | atom _ | not _ => rfl

theorem isBelow_of_not_isJoined {f : Formula} (h : f.isJoined = false) (p : Nat) :
    f.isBelow p = false := by
  cases f with
  | binary joint left right => cases h
  | atom _ | not _ => rfl

end Formula

/-- A formula starts with no line end. -/
theorem Atom.Spells.opens {a : Atom} {ts : List Token} (h : a.Spells ts) :
    ∃ t us, ts = t :: us ∧ t.lexeme.isSeparator = false := by
  cases h with
  | number ht | string ht _ | symbol ht => exact ⟨_, _, rfl, by rw [ht]; rfl⟩
  | negative hm _ _ => exact ⟨_, _, rfl, by rw [hm]; rfl⟩
  | bool ht => exact ⟨_, _, rfl, by rw [ht]; rfl⟩

theorem Formula.Spells.opens {f : Formula} {ts : List Token} (h : f.Spells ts) :
    ∃ t us, ts = t :: us ∧ t.lexeme.isSeparator = false := by
  induction f generalizing ts with
  | atom value =>
    cases h with
    | atom h => exact h.opens
  | not operand =>
    cases h with
    | not hb _ => exact ⟨_, _, rfl, by rw [hb]; rfl⟩
  | binary joint left right ihl _ =>
    cases h with
    | @binary _ _ _ _ ts _ _ hl _ _ _ =>
      generalize left.isBelow joint.precedence = inside at hl
      cases hl with
      | bare h =>
        obtain ⟨t, us, rfl, ht⟩ := ihl h
        exact ⟨t, _, rfl, ht⟩
      | enclosed ho _ _ _ => exact ⟨_, _, rfl, by rw [ho]; rfl⟩

theorem Formula.SpellsIn.opens {f : Formula} {inside : Bool} {ts : List Token}
    (h : f.SpellsIn inside ts) : ∃ t us, ts = t :: us ∧ t.lexeme.isSeparator = false := by
  cases h with
  | bare h => exact h.opens
  | enclosed ho _ _ _ => exact ⟨_, _, rfl, by rw [ho]; rfl⟩

section Reading

variable {interpret : List Char → Except LexFault Expr} {e : Expr} {t : Token}
  {ts us rest : List Token} {floor : Nat}

theorem selections_of_noSelection (h : NoSelection rest) :
    selections interpret e rest = .ok (e, rest) := by
  cases rest with
  | nil => rw [selections]
  | cons t more =>
    have ht := h t rfl
    simp only [opensSelection, Bool.or_eq_false_iff, Bool.and_eq_false_iff, Bool.not_eq_false',
      beq_eq_false_iff_ne] at ht
    obtain ⟨hdot, hspaced | ⟨hscope, hbracket⟩⟩ := ht
    · rw [selections]
      simp [hdot, hspaced]
    · rw [selections]
      simp [hdot, hscope, hbracket]

/-- An operator that does not bind tighter than the floor is left where it is. -/
theorem climb_of_le (h : ∀ t op p, rest.head? = some t →
    binaryOperator? t.lexeme = some (op, p) → p ≤ floor) :
    climb interpret floor e rest = .ok (e, rest) := by
  cases rest with
  | nil => rw [climb]
  | cons t more =>
    rw [climb.eq_def]
    dsimp only
    split
    · rfl
    · next op p hop => rw [if_pos (h t op p rfl hop)]

/-- Behind a value that is no formula of two halves, reading goes on with the operators. -/
theorem expression_eq_climb (h : unary interpret (ts ++ rest) = .ok (e, rest)) (hne : ts ≠ []) :
    expression interpret floor (ts ++ rest) = climb interpret floor e rest := by
  have hlt : rest.length < (ts ++ rest).length := by
    have := List.length_pos_iff.2 hne
    rw [List.length_append]
    omega
  rw [expression, h, goOn_ok _ _ _ hlt]

/-- A token that starts a value and is no sign of it. -/
def startsPrimary (x : Lexeme) : Prop :=
  x ≠ .op .bang ∧ x ≠ .keyword .notWord ∧ x ≠ .op .minus

theorem unary_eq_primary {more : List Token} (ht : startsPrimary t.lexeme)
    (h : primary interpret (t :: more) = .ok (e, rest)) (hlt : rest.length < (t :: more).length)
    (hrest : NoSelection rest) : unary interpret (t :: more) = .ok (e, rest) := by
  obtain ⟨hbang, hnot, hminus⟩ := ht
  have hneg : negativeNumber? (t :: more) = none := by
    generalize hts : t :: more = ts
    unfold negativeNumber?
    split
    · cases hts
      exact absurd rfl hminus
    · rfl
  rw [unary]
  simp only [hbang, hnot, or_self, if_false, hneg, h]
  rw [goOn_ok _ _ _ hlt]
  exact selections_of_noSelection hrest

theorem unary_of_atom? (hatom : atom? interpret t.lexeme = some (.ok e)) (h : NoSelection rest) :
    unary interpret (t :: rest) = .ok (e, rest) := by
  have hstarts : startsPrimary t.lexeme := by
    refine ⟨?_, ?_, ?_⟩ <;>
      · intro hx
        rw [hx] at hatom
        cases hatom
  have hprimary : primary interpret (t :: rest) = .ok (e, rest) := by
    rw [primary.eq_def]
    simp only [hatom, Except.map]
  exact unary_eq_primary hstarts hprimary (Nat.lt_succ_self _) h

theorem Atom.Spells.unary {a : Atom} (h : a.Spells ts) (hrest : NoSelection rest) :
    unary interpret (ts ++ rest) = .ok (a.expr, rest) := by
  cases h with
  | number ht => exact unary_of_atom? (by rw [ht]; rfl) hrest
  | @negative m t digits hm ht hs =>
    have hneg : negativeNumber? (m :: t :: rest) =
        some (.literal .number ("-" ++ digits), rest) := by
      cases m
      cases t
      cases hm
      cases ht
      cases hs
      rfl
    show RecipeManifest.unary interpret (m :: t :: rest) = _
    rw [RecipeManifest.unary]
    simp [hm, hneg, Atom.expr]
  | string ht hparts =>
    refine unary_of_atom? ?_ hrest
    rw [ht]
    simp [atom?, stringExpr, hparts, Atom.expr]
  | symbol ht => exact unary_of_atom? (by rw [ht]; rfl) hrest
  | @bool t value ht =>
    refine unary_of_atom? ?_ hrest
    rw [ht]
    cases value <;> rfl

variable (interpret) in
/-- Reading what writes the formula comes to going on behind it: with the operators that follow, if
the formula binds tighter than the floor and no looser than what follows, and at once, if it is no
formula of two halves. -/
structure Formula.ReadsBack (f : Formula) : Prop where
  climbs : ∀ {ts rest : List Token} {floor : Nat}, f.Spells ts → f.isBelow (floor + 1) = false →
    (∀ t op p, rest.head? = some t → binaryOperator? t.lexeme = some (op, p) →
      f.isBelow p = false) →
    NoSelection rest →
    expression interpret floor (ts ++ rest) = climb interpret floor f.expr rest
  unary : ∀ {ts rest : List Token}, f.isJoined = false → f.Spells ts → NoSelection rest →
    unary interpret (ts ++ rest) = .ok (f.expr, rest)

/-- Where a formula is no formula of two halves, it is enough to read it by itself. -/
theorem Formula.readsBack_of_unary {f : Formula}
    (h : ∀ {ts rest : List Token}, f.Spells ts → NoSelection rest →
      RecipeManifest.unary interpret (ts ++ rest) = .ok (f.expr, rest)) :
    f.ReadsBack interpret where
  climbs := by
    intro ts rest floor hts _ _ hrest
    obtain ⟨t, us, heq, -⟩ := hts.opens
    exact expression_eq_climb (h hts hrest) (by simp [heq])
  unary := fun _ hts hrest => h hts hrest

namespace Formula.ReadsBack

variable {f : Formula}

/-- A formula is read up to where it ends. -/
theorem whole (hf : f.ReadsBack interpret) (h : f.Spells ts) (hrest : EndsFormula rest) :
    expression interpret 0 (ts ++ rest) = .ok (f.expr, rest) := by
  have hnone : ∀ t op p, rest.head? = some t → binaryOperator? t.lexeme ≠ some (op, p) := by
    intro t op p ht hop
    rw [(hrest t ht).2] at hop
    cases hop
  rw [hf.climbs h f.isBelow_one (fun t op p ht hop => absurd hop (hnone t op p ht))
    fun t ht => (hrest t ht).1]
  exact climb_of_le fun t op p ht hop => absurd hop (hnone t op p ht)

/-- A formula in parentheses is read like a literal. -/
theorem enclosed (hf : f.ReadsBack interpret) (h : f.SpellsIn true ts) (hrest : NoSelection rest) :
    RecipeManifest.unary interpret (ts ++ rest) = .ok (f.expr, rest) := by
  cases h with
  | @enclosed _ o c breaks ts ho hbreaks h hc =>
    -- the closing parenthesis ends what is inside
    have hinside : expression interpret 0 (ts ++ c :: rest) = .ok (f.expr, c :: rest) := by
      refine hf.whole h ?_
      rintro t ⟨⟩
      rw [hc]
      exact ⟨by simp [opensSelection, hc], rfl⟩
    have hafter : afterBreaks (breaks ++ (ts ++ c :: rest)) = ts ++ c :: rest := by
      obtain ⟨t, us, rfl, ht⟩ := h.opens
      rw [afterBreaks_append hbreaks, List.cons_append, afterBreaks_cons _ ht]
    have hclose : pastOp .parenR (afterBreaks (c :: rest)) = .ok rest := by
      rw [afterBreaks_cons rest (by rw [hc]; rfl)]
      simp [pastOp, atEnd, atOp, hc]
    have hprimary : primary interpret (o :: (breaks ++ (ts ++ c :: rest))) =
        .ok (f.expr, rest) := by
      rw [primary.eq_def]
      simp only [ho, show atom? interpret (.op .parenL) = none from rfl, hafter, hinside, bind,
        Except.bind, hclose, pure, Except.pure]
    have hlt : rest.length < (o :: (breaks ++ (ts ++ c :: rest))).length := by
      simp only [List.length_cons, List.length_append]
      omega
    rw [List.cons_append, List.append_assoc, List.append_assoc, List.singleton_append]
    exact unary_eq_primary (by simp [startsPrimary, ho]) hprimary hlt hrest

/-- An operand with the parentheses it needs. -/
theorem climbs_in (hf : f.ReadsBack interpret) {inside : Bool} (h : f.SpellsIn inside ts)
    (hfloor : inside = false → f.isBelow (floor + 1) = false)
    (hnext : inside = false → ∀ t op p, rest.head? = some t →
      binaryOperator? t.lexeme = some (op, p) → f.isBelow p = false)
    (hrest : NoSelection rest) :
    expression interpret floor (ts ++ rest) = climb interpret floor f.expr rest := by
  cases inside with
  | false =>
    cases h with
    | bare h => exact hf.climbs h (hfloor rfl) (hnext rfl) hrest
  | true =>
    obtain ⟨t, us, heq, -⟩ := h.opens
    exact expression_eq_climb (hf.enclosed h hrest) (by simp [heq])

end Formula.ReadsBack

/-- Every formula is read back, by induction on it. Of two halves, the left one is read with the
floor of the whole, up to the operator, and the right one with the operator's precedence as its
floor. -/
theorem Formula.readsBack (f : Formula) : f.ReadsBack interpret := by
  induction f with
  | atom value =>
    refine readsBack_of_unary ?_
    intro ts rest h hrest
    cases h with
    | atom h => exact h.unary hrest
  | not operand ih =>
    refine readsBack_of_unary ?_
    intro ts rest h hrest
    cases h with
    | @not _ b ts hb h =>
      have hoperand : RecipeManifest.unary interpret (ts ++ rest) = .ok (operand.expr, rest) := by
        cases hj : operand.isJoined with
        | true => exact ih.enclosed (hj ▸ h) hrest
        | false =>
          rw [hj] at h
          cases h with
          | bare h => exact ih.unary hj h hrest
      rw [List.cons_append, RecipeManifest.unary]
      simp [hb, hoperand, Except.map, expr]
  | binary joint left right ihl ihr =>
    refine ⟨?_, by rintro ts rest ⟨⟩⟩
    intro ts rest floor h hfloor hnext hrest
    cases h with
    | @binary _ _ _ o ts breaks us hl ho hbreaks hr =>
      have hop := Connective.binaryOperator? ho
      have hprec : floor < joint.precedence := by
        simp only [isBelow, decide_eq_false_iff_not] at hfloor
        omega
      -- the left half ends at the operator
      have hleft : expression interpret floor (ts ++ o :: (breaks ++ us ++ rest)) =
          climb interpret floor left.expr (o :: (breaks ++ us ++ rest)) := by
        refine ihl.climbs_in hl (fun hbare => isBelow_mono hbare hprec) ?_ ?_
        · rintro hbare t op p ⟨⟩ hop'
          rw [hop] at hop'
          cases hop'
          exact hbare
        · rintro t ⟨⟩
          exact Connective.opensSelection ho
      -- what follows the right half binds no tighter than the operator
      have hbehind : ∀ t op p, rest.head? = some t → binaryOperator? t.lexeme = some (op, p) →
          p ≤ joint.precedence := by
        intro t op p ht hop'
        have := hnext t op p ht hop'
        simpa only [isBelow, decide_eq_false_iff_not, Nat.not_lt] using this
      have hright : expression interpret joint.precedence (us ++ rest) =
          .ok (right.expr, rest) := by
        rw [ihr.climbs_in hr (fun hbare => hbare) ?_ hrest, climb_of_le hbehind]
        intro hbare t op p ht hop'
        exact isBelow_mono hbare (Nat.le_succ_of_le (hbehind t op p ht hop'))
      have hafter : afterBreaks (breaks ++ (us ++ rest)) = us ++ rest := by
        obtain ⟨t, vs, rfl, ht⟩ := hr.opens
        rw [afterBreaks_append hbreaks, List.cons_append, afterBreaks_cons _ ht]
      have hlt : rest.length < (us ++ rest).length := by
        obtain ⟨t, vs, rfl, -⟩ := hr.opens
        simp only [List.length_append, List.length_cons]
        omega
      rw [List.append_assoc] at hleft
      rw [List.append_assoc, List.cons_append, List.append_assoc, hleft, climb.eq_def]
      simp only [hop, Nat.not_le.2 hprec, if_false]
      rw [hafter, hright, goOn_ok _ _ _ hlt]
      rfl

end Reading

/-! ## Chains -/

/-- The tokens write the operands with the operators between them, and no parentheses. Lines may be
broken behind operators. -/
inductive ChainSpells : Formula → List (Connective × Formula) → List Token → Prop
  | last {f : Formula} {ts : List Token} (hf : f.isOperand = true) (h : f.Spells ts) :
      ChainSpells f [] ts
  | more {f g : Formula} {joint : Connective} {more : List (Connective × Formula)} {o : Token}
      {ts breaks us : List Token} (hf : f.isOperand = true) (h : f.Spells ts)
      (ho : o.lexeme = .op joint.mark) (hbreaks : AreBreaks breaks) (hm : ChainSpells g more us) :
      ChainSpells f ((joint, g) :: more) (ts ++ o :: (breaks ++ us))

namespace Formula

/-- The operands of the formula in their order, each but the first with the operator before it. -/
def reading : Formula → Formula × List (Connective × Formula)
  | binary joint left right =>
    (left.reading.1, left.reading.2 ++ (joint, right.reading.1) :: right.reading.2)
  | f => (f, [])

/-- No left operand binds looser than the operator behind it, and each right operand binds tighter
than the operator before it. -/
def isGrouped : Formula → Bool
  | binary joint left right =>
    !left.isBelow joint.precedence && !right.isBelow (joint.precedence + 1) &&
      left.isGrouped && right.isGrouped
  | _ => true

/-- The formula with one more operator and operand behind it, which go to the right as far down as
operators bind looser. -/
def attach (f : Formula) (item : Connective × Formula) : Formula :=
  match f with
  | binary joint left right =>
    if joint.precedence < item.1.precedence then binary joint left (right.attach item)
    else binary item.1 (binary joint left right) item.2
  | f => binary item.1 f item.2

/-- A chain as one tree. -/
def group (first : Formula) (more : List (Connective × Formula)) : Formula :=
  more.foldl attach first

theorem isGrouped_binary {joint : Connective} {left right : Formula} :
    (binary joint left right).isGrouped = true ↔
      left.isBelow joint.precedence = false ∧ right.isBelow (joint.precedence + 1) = false ∧
        left.isGrouped = true ∧ right.isGrouped = true := by
  simp [isGrouped, and_assoc]

theorem isOperand_cases {f : Formula} (h : f.isOperand = true) :
    f.reading = (f, []) ∧ f.isGrouped = true ∧ f.isJoined = false := by
  cases f with
  | binary _ _ _ => cases h
  | atom _ | not _ => exact ⟨rfl, rfl, rfl⟩

theorem isBelow_attach {f : Formula} {item : Connective × Formula} {p : Nat}
    (hf : f.isBelow p = false) (hitem : p ≤ item.1.precedence) :
    (f.attach item).isBelow p = false := by
  cases f with
  | binary joint left right =>
    unfold attach
    split
    · exact hf
    · simpa [isBelow] using hitem
  | atom _ | not _ => simpa [attach, isBelow] using hitem

theorem isGrouped_attach {f : Formula} {item : Connective × Formula} (hf : f.isGrouped = true)
    (hitem : item.2.isOperand = true) : (f.attach item).isGrouped = true := by
  obtain ⟨-, hgrouped, hjoined⟩ := isOperand_cases hitem
  have hbelow := isBelow_of_not_isJoined hjoined (item.1.precedence + 1)
  induction f with
  | binary joint left right _ ih =>
    obtain ⟨hleft, hright, hl, hr⟩ := isGrouped_binary.1 hf
    unfold attach
    split
    · next hlt => exact isGrouped_binary.2 ⟨hleft, isBelow_attach hright hlt, hl, ih hr⟩
    · next hlt =>
      refine isGrouped_binary.2 ⟨?_, hbelow, hf, hgrouped⟩
      simpa [isBelow] using hlt
  | atom _ | not _ => exact isGrouped_binary.2 ⟨rfl, hbelow, rfl, hgrouped⟩

theorem reading_attach {item : Connective × Formula} (hitem : item.2.isOperand = true)
    (f : Formula) : (f.attach item).reading = (f.reading.1, f.reading.2 ++ [item]) := by
  have hread := (isOperand_cases hitem).1
  induction f with
  | binary joint left right _ ih =>
    unfold attach
    split
    · simp [reading, ih]
    · simp [reading, hread]
  | atom _ | not _ => simp [attach, reading, hread]

/-- The tree of a chain is grouped and has the chain's operands and operators in their order. -/
theorem group_spec {first : Formula} {more : List (Connective × Formula)}
    (hfirst : first.isGrouped = true) (hmore : ∀ item ∈ more, item.2.isOperand = true) :
    (group first more).isGrouped = true ∧
      (group first more).reading = (first.reading.1, first.reading.2 ++ more) := by
  unfold group
  induction more generalizing first with
  | nil => simp [hfirst]
  | cons item more ih =>
    have hitem := hmore item List.mem_cons_self
    obtain ⟨hgrouped, hreading⟩ := ih (isGrouped_attach hfirst hitem)
      fun i hi => hmore i (List.mem_cons_of_mem _ hi)
    refine ⟨hgrouped, ?_⟩
    rw [List.foldl_cons, hreading, reading_attach hitem]
    simp

/-- Operators that bind tighter go to the right half. -/
theorem group_binary {joint : Connective} {left right : Formula}
    {more : List (Connective × Formula)}
    (h : ∀ item ∈ more, joint.precedence < item.1.precedence) :
    group (binary joint left right) more = binary joint left (group right more) := by
  unfold group
  induction more generalizing right with
  | nil => rfl
  | cons item more ih =>
    rw [List.foldl_cons, List.foldl_cons, attach, if_pos (h item List.mem_cons_self),
      ih fun i hi => h i (List.mem_cons_of_mem _ hi)]

theorem le_precedence_of_mem_reading {f : Formula} {p : Nat} (hf : f.isGrouped = true)
    (hbelow : f.isBelow p = false) : ∀ item ∈ f.reading.2, p ≤ item.1.precedence := by
  induction f generalizing p with
  | binary joint left right ihl ihr =>
    obtain ⟨hleft, hright, hl, hr⟩ := isGrouped_binary.1 hf
    have hp : p ≤ joint.precedence := by
      simpa [isBelow] using hbelow
    intro item hitem
    rw [reading, List.mem_append, List.mem_cons] at hitem
    rcases hitem with hitem | rfl | hitem
    · exact ihl hl (isBelow_mono hleft hp) item hitem
    · exact hp
    · exact ihr hr (isBelow_mono hright (by omega)) item hitem
  | atom _ | not _ => simp [reading]

/-- A grouped formula is the tree of its reading, so it is the only one with that reading. -/
theorem group_reading {f : Formula} (hf : f.isGrouped = true) :
    group f.reading.1 f.reading.2 = f := by
  induction f with
  | binary joint left right ihl ihr =>
    obtain ⟨hleft, hright, hl, hr⟩ := isGrouped_binary.1 hf
    -- what stands before the operator makes the left half, which the operator takes whole
    have hattach : left.attach (joint, right.reading.1) = binary joint left right.reading.1 := by
      cases left with
      | binary inner a b =>
        have : ¬ inner.precedence < joint.precedence := by simpa [isBelow] using hleft
        rw [attach, if_neg this]
      | atom _ | not _ => rfl
    have htighter : ∀ item ∈ right.reading.2, joint.precedence < item.1.precedence :=
      le_precedence_of_mem_reading hr hright
    calc group (binary joint left right).reading.1 (binary joint left right).reading.2
        = group ((group left.reading.1 left.reading.2).attach (joint, right.reading.1))
            right.reading.2 := by simp [reading, group]
      _ = group (binary joint left right.reading.1) right.reading.2 := by rw [ihl hl, hattach]
      _ = binary joint left (group right.reading.1 right.reading.2) := group_binary htighter
      _ = binary joint left right := by rw [ihr hr]
  | atom _ | not _ => rfl

end Formula

namespace ChainSpells

variable {f g : Formula} {joint : Connective} {xs ys : List (Connective × Formula)}
  {ts : List Token}

theorem isOperand (h : ChainSpells f xs ts) :
    f.isOperand = true ∧ ∀ item ∈ xs, item.2.isOperand = true := by
  induction h with
  | last hf _ => exact ⟨hf, by simp⟩
  | more hf _ _ _ _ ih =>
    refine ⟨hf, ?_⟩
    intro item hitem
    rcases List.mem_cons.1 hitem with rfl | hitem
    · exact ih.1
    · exact ih.2 item hitem

/-- The tokens of a chain fall apart at any of its operators. -/
theorem split (h : ChainSpells f (xs ++ (joint, g) :: ys) ts) :
    ∃ us o breaks vs, ts = us ++ o :: (breaks ++ vs) ∧ ChainSpells f xs us ∧
      o.lexeme = .op joint.mark ∧ AreBreaks breaks ∧ ChainSpells g ys vs := by
  induction xs generalizing f ts with
  | nil =>
    cases h with
    | more hf h ho hbreaks hm => exact ⟨_, _, _, _, rfl, .last hf h, ho, hbreaks, hm⟩
  | cons item xs ih =>
    cases h with
    | @more _ _ _ _ o ts breaks us hf h ho hbreaks hm =>
      obtain ⟨us, o', breaks', vs, rfl, hfirst, hrest⟩ := ih hm
      exact ⟨ts ++ o :: (breaks ++ us), o', breaks', vs, by simp, .more hf h ho hbreaks hfirst,
        hrest⟩

/-- A grouped formula is written as its operands and operators are, without parentheses. -/
theorem spells (hf : f.isGrouped = true) (h : ChainSpells f.reading.1 f.reading.2 ts) :
    f.Spells ts := by
  induction f generalizing ts with
  | binary joint left right ihl ihr =>
    obtain ⟨hleft, hright, hl, hr⟩ := Formula.isGrouped_binary.1 hf
    obtain ⟨us, o, breaks, vs, rfl, hus, ho, hbreaks, hvs⟩ := h.split
    refine .binary ?_ ho hbreaks ?_
    · rw [hleft]
      exact .bare (ihl hl hus)
    · rw [hright]
      exact .bare (ihr hr hvs)
  | atom _ | not _ =>
    cases h with
    | last _ h => exact h

end ChainSpells

/-! ## Formulas and chains read back -/

/-- A formula that is written with the fewest parentheses is read whole and gives its tree. A chain
of operands without parentheses is read whole, too, as the only grouped tree that has its operands
and operators in their order. -/
theorem expression_formula (interpret : List Char → Except LexFault Expr) :
    (∀ (f : Formula) (ts rest : List Token), f.Spells ts → EndsFormula rest →
      expression interpret 0 (ts ++ rest) = .ok (f.expr, rest)) ∧
    ∀ (first : Formula) (more : List (Connective × Formula)) (ts rest : List Token),
      ChainSpells first more ts → EndsFormula rest →
      ∃ f : Formula, expression interpret 0 (ts ++ rest) = .ok (f.expr, rest) ∧
        f.isGrouped = true ∧ f.reading = (first, more) ∧
        ∀ g : Formula, g.isGrouped = true → g.reading = (first, more) → g = f := by
  refine ⟨fun f ts rest => f.readsBack.whole, ?_⟩
  intro first more ts rest h hrest
  obtain ⟨hfirst, hmore⟩ := h.isOperand
  obtain ⟨hread, hgrouped, -⟩ := Formula.isOperand_cases hfirst
  obtain ⟨htree, hreading⟩ := Formula.group_spec hgrouped hmore
  rw [hread, List.nil_append] at hreading
  refine ⟨Formula.group first more, ?_, htree, hreading, ?_⟩
  · refine (Formula.readsBack _).whole (ChainSpells.spells htree ?_) hrest
    rw [hreading]
    exact h
  · intro g hg hsame
    have := Formula.group_reading hg
    rw [hsame] at this
    exact this.symm

/-- `!(1 - (2 - -3))` with two broken lines, and the chain `1 - 2 - 3 * 4`. -/
theorem expression_formula_nested :
    let minus : Connective := ⟨.minus, 10, rfl⟩
    let star : Connective := ⟨.star, 11, rfl⟩
    let number (digits : String) : Formula := .atom (.number false digits)
    let tok (x : Lexeme) : Token := ⟨x, 1, 0, 1, false⟩
    let formula : Formula :=
      .not (.binary minus (number "1") (.binary minus (number "2") (.atom (.number true "3"))))
    let tokens := [tok (.op .bang), tok (.op .parenL), tok .newline, tok (.number "1"),
      tok (.op .minus), tok .newline, tok (.op .parenL), tok (.number "2"), tok (.op .minus),
      tok (.op .minus), tok (.number "3"), tok (.op .parenR), tok (.op .parenR)]
    let chain := [(minus, number "2"), (minus, number "3"), (star, number "4")]
    let chainTokens := [tok (.number "1"), tok (.op .minus), tok (.number "2"), tok (.op .minus),
      tok (.number "3"), tok (.op .star), tok .newline, tok (.number "4")]
    formula.Spells tokens ∧ ChainSpells (number "1") chain chainTokens ∧
      EndsFormula [tok .eof] ∧
      expression (codeValue 0) 0 (tokens ++ [tok .eof]) = .ok (formula.expr, [tok .eof]) ∧
      expression (codeValue 0) 0 (chainTokens ++ [tok .eof]) =
        .ok (.binary "-" (.binary "-" (.literal .number "1") (.literal .number "2"))
          (.binary "*" (.literal .number "3") (.literal .number "4")), [tok .eof]) := by
  intro minus star number tok formula tokens chain chainTokens
  have hno : AreBreaks [] := by rintro t ⟨⟩
  have hone : AreBreaks [tok .newline] := by
    intro t ht
    rw [List.mem_singleton.1 ht]
    rfl
  have hnumber (digits : String) : (number digits).Spells [tok (.number digits)] :=
    .atom (.number rfl)
  have hformula : formula.Spells tokens := by
    have hinner : Formula.Spells (.binary minus (number "2") (.atom (.number true "3")))
        ([tok (.number "2")] ++ tok (.op .minus) :: ([] ++ [tok (.op .minus), tok (.number "3")])) :=
      .binary (.bare (hnumber "2")) rfl hno (.bare (.atom (.negative rfl rfl rfl)))
    have houter : Formula.Spells
        (.binary minus (number "1") (.binary minus (number "2") (.atom (.number true "3"))))
        ([tok (.number "1")] ++ tok (.op .minus) :: ([tok .newline] ++ (tok (.op .parenL) ::
          ([] ++ ([tok (.number "2")] ++ tok (.op .minus) ::
            ([] ++ [tok (.op .minus), tok (.number "3")])) ++ [tok (.op .parenR)])))) :=
      .binary (.bare (hnumber "1")) rfl hone (.enclosed rfl hno hinner rfl)
    exact @Formula.Spells.not _ (tok (.op .bang)) _ rfl
      (@Formula.SpellsIn.enclosed _ (tok (.op .parenL)) (tok (.op .parenR)) [tok .newline] _ rfl
        hone houter rfl)
  have hchain : ChainSpells (number "1") chain chainTokens := by
    have hlast : ChainSpells (number "3") [(star, number "4")]
        ([tok (.number "3")] ++ tok (.op .star) :: ([tok .newline] ++ [tok (.number "4")])) :=
      .more rfl (hnumber "3") rfl hone (.last rfl (hnumber "4"))
    have hsecond : ChainSpells (number "2") [(minus, number "3"), (star, number "4")]
        ([tok (.number "2")] ++ tok (.op .minus) :: ([] ++ ([tok (.number "3")] ++
          tok (.op .star) :: ([tok .newline] ++ [tok (.number "4")])))) :=
      .more rfl (hnumber "2") rfl hno hlast
    exact @ChainSpells.more _ _ minus _ (tok (.op .minus)) _ [] _ rfl (hnumber "1") rfl hno hsecond
  have hend : EndsFormula [tok .eof] := by
    rintro t ⟨⟩
    exact ⟨rfl, rfl⟩
  obtain ⟨hformulas, hchains⟩ := expression_formula (codeValue 0)
  refine ⟨hformula, hchain, hend, hformulas formula tokens _ hformula hend, ?_⟩
  obtain ⟨f, hread, -, -, honly⟩ := hchains (number "1") chain chainTokens _ hchain hend
  rw [hread, ← honly (.binary minus (.binary minus (number "1") (number "2"))
    (.binary star (number "3") (number "4"))) rfl rfl]
  rfl

end RecipeManifest

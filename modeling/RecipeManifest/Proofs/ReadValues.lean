import RecipeManifest.Statement.Expression

/-!
What the readers of expressions make.

An expression that is read is made of values alone (`Expr.isValue`): no statement and no block
stands in it where a value is expected. A reader that makes nothing has met the end of the grammar
or of the tokens, or a fault in the code inside a string. `Outcome` says this of one reader, and the
lemmas `readsValue_…` say it of each, by the recursion of the readers.
-/

namespace RecipeManifest

/-! ## Values -/

namespace Expr

mutual

/-- The expression is made of values alone. -/
def isValue : Expr → Bool
  | absent | statement _ | block _ => false
  | literal _ _ | nodeRef _ | resources _ => true
  | interpolated parts => arePieces parts
  | fileTest _ path => isValue path
  | not operand => isValue operand
  | binary _ left right => isValue left && isValue right
  | array items => areValues items
  | hash pairs => arePairs pairs
  | call receiver _ args => isMaybeValue receiver && areValues args

def areValues : List Expr → Bool
  | [] => true
  | e :: rest => isValue e && areValues rest

def arePieces : List Piece → Bool
  | [] => true
  | .text _ :: rest => arePieces rest
  | .value e :: rest => isValue e && arePieces rest

def arePairs : List (Expr × Expr) → Bool
  | [] => true
  | (key, value) :: rest => isValue key && isValue value && arePairs rest

/-- There is no expression, or one of values. -/
def isMaybeValue : Option Expr → Bool
  | none => true
  | some e => isValue e

end

theorem areValues_iff {items : List Expr} :
    areValues items = true ↔ ∀ e ∈ items, e.isValue = true := by
  induction items with
  | nil => simp [areValues]
  | cons e rest ih => simp [areValues, ih]

theorem arePairs_iff {pairs : List (Expr × Expr)} :
    arePairs pairs = true ↔ ∀ p ∈ pairs, p.1.isValue = true ∧ p.2.isValue = true := by
  induction pairs with
  | nil => simp [arePairs]
  | cons p rest ih => simp [arePairs, ih]

end Expr

/-! ## Outcomes of readers -/

section Outcome

variable (allowed : LexFault → Prop) (interpret : List Char → Except LexFault Expr)

/-- Code is read as a value, or has an allowed fault. -/
def Interpreted : Except LexFault Expr → Prop
  | .ok e => e.isValue = true
  | .error f => allowed f

/-- The code inside the strings among the tokens is interpreted. -/
def Readable (ts : List Token) : Prop :=
  ∀ t ∈ ts, ∀ parts, t.lexeme = .string parts → ∀ code, Part.code code ∈ parts →
    Interpreted allowed (interpret code)

/-- What is made has the property, and what is left can be read. A fault is an allowed one. -/
def Outcome {α : Type} (P : α → Prop) : Except Stop (α × List Token) → Prop
  | .ok (a, rest) => P a ∧ Readable allowed interpret rest
  | .error (.fault f) => allowed f
  | .error _ => True

variable {allowed interpret}

namespace Readable

variable {ts rest : List Token} {t : Token}

theorem of_suffix (h : Readable allowed interpret ts) (hs : rest <:+ ts) :
    Readable allowed interpret rest :=
  fun t ht => h t (hs.subset ht)

theorem tail (h : Readable allowed interpret ts) : Readable allowed interpret ts.tail :=
  h.of_suffix (List.tail_suffix ts)

theorem more (h : Readable allowed interpret (t :: rest)) : Readable allowed interpret rest :=
  h.tail

theorem afterBreaks (h : Readable allowed interpret ts) :
    Readable allowed interpret (afterBreaks ts) :=
  h.of_suffix (List.dropWhile_suffix _)

end Readable

namespace Outcome

variable {α β : Type} {P : α → Prop} {Q : β → Prop} {r : Except Stop (α × List Token)}

theorem map (h : Outcome allowed interpret P r) {f : α → β} (hf : ∀ a, P a → Q (f a)) :
    Outcome allowed interpret Q (r.map fun (a, rest) => (f a, rest)) := by
  cases r with
  | error e => cases e <;> exact h
  | ok x => exact ⟨hf x.1 h.1, h.2⟩

theorem bind (h : Outcome allowed interpret P r)
    {k : α × List Token → Except Stop (β × List Token)}
    (hk : ∀ a rest, P a → Readable allowed interpret rest →
      Outcome allowed interpret Q (k (a, rest))) :
    Outcome allowed interpret Q (r >>= k) := by
  cases r with
  | error e => cases e <;> exact h
  | ok x => exact hk x.1 x.2 h.1 h.2

theorem goOn (h : Outcome allowed interpret P r) {before : List Token}
    {next : α → (rest : List Token) → rest.length < before.length →
      Except Stop (β × List Token)}
    (hnext : ∀ a rest hlt, P a → Readable allowed interpret rest →
      Outcome allowed interpret Q (next a rest hlt)) :
    Outcome allowed interpret Q (RecipeManifest.goOn before .mismatch r next) := by
  cases r with
  | error e => cases e <;> exact h
  | ok x =>
    obtain ⟨a, rest⟩ := x
    unfold RecipeManifest.goOn
    dsimp only
    split
    · next hlt => exact hnext a rest hlt h.1 h.2
    · trivial

/-- A mark that has to stand here is passed. -/
theorem pastOp {o : Operator} {ts : List Token} (hts : Readable allowed interpret ts)
    {k : List Token → Except Stop (β × List Token)}
    (hk : ∀ rest, Readable allowed interpret rest → Outcome allowed interpret Q (k rest)) :
    Outcome allowed interpret Q (RecipeManifest.pastOp o ts >>= k) := by
  unfold RecipeManifest.pastOp
  split
  · trivial
  · split
    · exact hk ts.tail hts.tail
    · trivial

end Outcome

/-! ## Expressions -/

variable (allowed interpret) in
/-- The outcome of a reader of expressions. -/
abbrev ReadsValue (r : Except Stop (Expr × List Token)) : Prop :=
  Outcome allowed interpret (fun e => e.isValue = true) r

variable (allowed interpret) in
abbrev ReadsValues (r : Except Stop (List Expr × List Token)) : Prop :=
  Outcome allowed interpret (fun items => Expr.areValues items = true) r

/-- What an argument holds is a value. -/
def Argument.isValue : Argument → Bool
  | .value expr => expr.isValue
  | .pair key item => key.isValue && item.isValue

theorem areValues_collectArguments {items : List Argument}
    (h : ∀ item ∈ items, item.isValue = true) :
    Expr.areValues (collectArguments items) = true := by
  have hvalues : ∀ e ∈ items.filterMap (fun
      | .value expr => some expr
      | .pair _ _ => none), e.isValue = true := by
    intro e he
    obtain ⟨item, hitem, heq⟩ := List.mem_filterMap.1 he
    cases item with
    | value expr =>
      cases heq
      exact h _ hitem
    | pair key item => cases heq
  have hpairs : ∀ p ∈ items.filterMap (fun
      | .value _ => none
      | .pair key value => some (key, value)), p.1.isValue = true ∧ p.2.isValue = true := by
    intro p hp
    obtain ⟨item, hitem, heq⟩ := List.mem_filterMap.1 hp
    cases item with
    | value expr => cases heq
    | pair key item =>
      cases heq
      simpa [Argument.isValue] using h _ hitem
  unfold collectArguments
  dsimp only
  rw [Expr.areValues_iff]
  split
  · exact hvalues
  · intro e he
    rcases List.mem_append.1 he with he | he
    · exact hvalues e he
    · rw [List.mem_singleton] at he
      rw [he, Expr.isValue, Expr.arePairs_iff]
      exact hpairs

theorem isValue_selectedCall {receiver : Option Expr} (name : String) {args : List Expr}
    (hreceiver : Expr.isMaybeValue receiver = true) (hargs : Expr.areValues args = true) :
    (selectedCall receiver name args).isValue = true := by
  have hcall : (Expr.call receiver name args).isValue = true := by
    simp [Expr.isValue, hreceiver, hargs]
  unfold selectedCall
  split
  · next path =>
    split
    · simpa [Expr.areValues, Expr.isValue] using hargs
    · exact hcall
  · exact hcall

/-- The pieces of a string are values, or reading them has an allowed fault. -/
theorem pieces_interpreted (parts : List Part)
    (hparts : ∀ code, Part.code code ∈ parts → Interpreted allowed (interpret code)) :
    match parts.mapM (pieceOf interpret) with
    | .ok pieces => Expr.arePieces pieces = true
    | .error f => allowed f := by
  induction parts with
  | nil => rfl
  | cons part rest ih =>
    have hrest := ih fun code hcode => hparts code (List.mem_cons_of_mem _ hcode)
    rw [List.mapM_cons]
    cases part with
    | text chars =>
      cases htail : rest.mapM (pieceOf interpret) with
      | error f =>
        rw [htail] at hrest
        exact hrest
      | ok pieces =>
        rw [htail] at hrest
        exact hrest
    | code code =>
      have hcode := hparts code List.mem_cons_self
      rw [pieceOf]
      cases hvalue : interpret code with
      | error f =>
        rw [hvalue] at hcode
        exact hcode
      | ok e =>
        rw [hvalue] at hcode
        cases htail : rest.mapM (pieceOf interpret) with
        | error f =>
          rw [htail] at hrest
          exact hrest
        | ok pieces =>
          rw [htail] at hrest
          show (e.isValue && Expr.arePieces pieces) = true
          rw [Bool.and_eq_true]
          exact ⟨hcode, hrest⟩

theorem readsValue_stringExpr {parts : List Part} {rest : List Token}
    (hparts : ∀ code, Part.code code ∈ parts → Interpreted allowed (interpret code))
    (hrest : Readable allowed interpret rest) :
    ReadsValue allowed interpret ((stringExpr interpret parts).map fun e => (e, rest)) := by
  unfold stringExpr
  split
  · have hpieces := pieces_interpreted (parts.filter fun p => p != .text [])
      fun code hcode => hparts code (List.mem_filter.1 hcode).1
    split
    · next pieces hok =>
      rw [hok] at hpieces
      exact ⟨hpieces, hrest⟩
    · next f herror =>
      rw [herror] at hpieces
      exact hpieces
  · exact ⟨rfl, hrest⟩

theorem isValue_of_literal? {x : Lexeme} {e : Expr} (h : x.literal? = some e) :
    e.isValue = true := by
  unfold Lexeme.literal? at h
  split at h
  case h_4 =>
    cases h
    show Expr.areValues _ = true
    rw [Expr.areValues_iff]
    intro e he
    obtain ⟨w, _, rfl⟩ := List.mem_map.1 he
    rfl
  all_goals cases h <;> rfl

theorem readsValue_atom {t : Token} {more : List Token} {value : Except Stop Expr}
    (hts : Readable allowed interpret (t :: more)) (h : atom? interpret t.lexeme = some value) :
    ReadsValue allowed interpret (value.map fun e => (e, more)) := by
  have hmore := hts.more
  unfold atom? at h
  split at h
  · next parts hlexeme =>
    cases h
    exact readsValue_stringExpr (hts t List.mem_cons_self parts hlexeme) hmore
  · obtain ⟨e, he, rfl⟩ := Option.map_eq_some_iff.1 h
    exact ⟨isValue_of_literal? he, hmore⟩

/-- What follows the keys of a lookup is an end of the tokens. -/
theorem nodePath_suffix (ts : List Token) : (nodePath ts).2 <:+ ts := by
  fun_induction nodePath ts with
  | case1 bracket key close rest _ _ path rest' hpath ih =>
    rw [hpath] at ih
    exact ih.trans (List.suffix_append [bracket, key, close] rest)
  | case4 bracket key close rest _ name _ _ _ path rest' hpath ih =>
    rw [hpath] at ih
    exact ih.trans (List.suffix_append [bracket, key] (close :: rest))
  | case2 | case3 | case5 | case6 => exact List.suffix_refl _

theorem readsValue_nodeLookup {ts : List Token} (hts : Readable allowed interpret ts) :
    ReadsValue allowed interpret (.ok (nodeLookup ts)) := by
  have hsuffix := nodePath_suffix ts
  unfold nodeLookup
  split
  · next rest hpath =>
    rw [hpath] at hsuffix
    exact ⟨rfl, hts.of_suffix hsuffix⟩
  · next path rest _ hpath =>
    rw [hpath] at hsuffix
    exact ⟨rfl, hts.of_suffix hsuffix⟩

theorem readsValue_negativeNumber {ts : List Token} {result : Expr × List Token}
    (hts : Readable allowed interpret ts) (h : negativeNumber? ts = some result) :
    ReadsValue allowed interpret (.ok result) := by
  unfold negativeNumber? at h
  split at h
  · cases h
    exact ⟨rfl, hts.more.more⟩
  · cases h

theorem readsValue_braceValue {items : List Expr} {rest : List Token}
    (hitems : Expr.areValues items = true) (hrest : Readable allowed interpret rest) :
    ReadsValue allowed interpret (do return (← braceValue items, rest)) := by
  unfold braceValue
  split
  · exact ⟨rfl, hrest⟩
  · next pairs =>
    refine ⟨?_, hrest⟩
    simpa [Expr.areValues] using hitems
  · trivial

mutual

theorem readsValue_expression (floor : Nat) (ts : List Token)
    (hts : Readable allowed interpret ts) :
    ReadsValue allowed interpret (expression interpret floor ts) := by
  rw [expression]
  apply (readsValue_unary ts hts).goOn
  intro left rest hlt hleft hrest
  exact readsValue_climb floor left rest hleft hrest
termination_by 8 * ts.length + 3
decreasing_by all_goals omega

theorem readsValue_climb (floor : Nat) (left : Expr) (ts : List Token)
    (hleft : left.isValue = true) (hts : Readable allowed interpret ts) :
    ReadsValue allowed interpret (climb interpret floor left ts) := by
  rw [climb.eq_def]
  match ts, hts with
  | [], hts => exact ⟨hleft, hts⟩
  | t :: more, hts =>
    dsimp only
    split
    · exact ⟨hleft, hts⟩
    · next op precedence _ =>
      split
      · exact ⟨hleft, hts⟩
      · apply (readsValue_expression precedence (afterBreaks more) hts.more.afterBreaks).goOn
        intro right rest hlt hright hrest
        apply readsValue_climb floor (.binary op left right) rest _ hrest
        simp [Expr.isValue, hleft, hright]
termination_by 8 * ts.length
decreasing_by
  all_goals
    have := length_afterBreaks_le more
    simp only [List.length_cons]
    omega

theorem readsValue_unary (ts : List Token) (hts : Readable allowed interpret ts) :
    ReadsValue allowed interpret (unary interpret ts) := by
  rw [unary.eq_def]
  match ts, hts with
  | [], _ => trivial
  | t :: more, hts =>
    dsimp only
    split
    · apply (readsValue_unary more hts.more).map
      intro e he
      simpa [Expr.isValue] using he
    · split
      · next result hresult => exact readsValue_negativeNumber hts hresult
      · apply (readsValue_primary (t :: more) hts).goOn
        intro e rest hlt he hrest
        exact readsValue_selections e rest he hrest
termination_by 8 * ts.length + 2
decreasing_by
  all_goals
    simp only [List.length_cons] at *
    omega

theorem readsValue_primary (ts : List Token) (hts : Readable allowed interpret ts) :
    ReadsValue allowed interpret (primary interpret ts) := by
  rw [primary.eq_def]
  match ts, hts with
  | [], _ => trivial
  | t :: more, hts =>
    dsimp only
    split
    · next value hvalue => exact readsValue_atom hts hvalue
    · split
      · trivial
      · apply (readsValue_expression 0 (afterBreaks more) hts.more.afterBreaks).bind
        intro inner rest hinner hrest
        apply Outcome.pastOp hrest.afterBreaks
        intro rest hrest
        exact ⟨hinner, hrest⟩
      · apply (readsValues_arguments (some .bracketR) more hts.more).bind
        intro items rest hitems hrest
        apply Outcome.pastOp hrest
        intro rest hrest
        exact ⟨by simpa [Expr.isValue] using hitems, hrest⟩
      · apply (readsValues_arguments (some .braceR) more hts.more).bind
        intro items rest hitems hrest
        apply Outcome.pastOp hrest
        intro rest hrest
        exact readsValue_braceValue hitems hrest
      · split
        · next name _ _ _ _ rest => exact ⟨rfl, hts.more.more⟩
        · trivial
      · next name _ =>
        split
        · exact readsValue_nodeLookup hts.more
        · exact readsValue_method none (t :: more) rfl hts
      · trivial
termination_by 8 * ts.length + 1
decreasing_by
  · have := length_afterBreaks_le more
    simp only [List.length_cons]
    omega
  all_goals simp only [List.length_cons]; omega

theorem readsValue_method (receiver : Option Expr) (ts : List Token)
    (hreceiver : Expr.isMaybeValue receiver = true) (hts : Readable allowed interpret ts) :
    ReadsValue allowed interpret (method interpret receiver ts) := by
  rw [method.eq_def]
  match ts, hts with
  | [], _ => trivial
  | t :: more, hts =>
    have hcall : ∀ args rest, Expr.areValues args = true → Readable allowed interpret rest →
        ReadsValue allowed interpret
          (if receiver.isNone && t.lexeme.value == "resources" then
            pure (.resources (lookupTargets args), rest)
          else pure (selectedCall receiver t.lexeme.value args, rest)) := by
      intro args rest hargs hrest
      split
      · exact ⟨rfl, hrest⟩
      · exact ⟨isValue_selectedCall _ hreceiver hargs, hrest⟩
    dsimp only
    split
    · apply (readsValues_arguments (some .parenR) more.tail hts.more.tail).bind
      intro args rest hargs hrest
      apply Outcome.pastOp hrest
      intro rest hrest
      exact hcall args rest hargs hrest
    · split
      · apply (readsValues_arguments none more hts.more).bind
        intro args rest hargs hrest
        exact hcall args rest hargs hrest
      · exact hcall [] more rfl hts.more
termination_by 8 * ts.length
decreasing_by
  all_goals
    simp only [List.length_cons, List.length_tail]
    omega

theorem readsValue_selections (value : Expr) (ts : List Token) (hvalue : value.isValue = true)
    (hts : Readable allowed interpret ts) :
    ReadsValue allowed interpret (selections interpret value ts) := by
  rw [selections.eq_def]
  match ts, hts with
  | [], hts => exact ⟨hvalue, hts⟩
  | t :: more, hts =>
    dsimp only
    split
    · split
      · apply (readsValue_method (some value) more hvalue hts.more).goOn
        intro e rest hlt he hrest
        exact readsValue_selections e rest he hrest
      · trivial
    · split
      · apply Outcome.goOn (P := fun index => Expr.areValues index = true)
        · apply (readsValues_arguments (some .bracketR) more hts.more).bind
          intro index rest hindex hrest
          apply Outcome.pastOp hrest
          intro rest hrest
          exact ⟨hindex, hrest⟩
        · intro index rest hlt hindex hrest
          apply readsValue_selections _ rest _ hrest
          simp [Expr.isValue, Expr.isMaybeValue, hvalue, hindex]
      · exact ⟨hvalue, hts⟩
termination_by 8 * ts.length
decreasing_by
  all_goals
    simp only [List.length_cons] at *
    omega

theorem readsValues_arguments (closer : Option Operator) (ts : List Token)
    (hts : Readable allowed interpret ts) :
    ReadsValues allowed interpret (arguments interpret closer ts) := by
  rw [arguments.eq_def]
  cases closer with
  | none =>
    apply (readsArguments_items none ts hts).map
    intro items hitems
    exact areValues_collectArguments hitems
  | some o =>
    dsimp only
    split
    · exact ⟨rfl, hts.afterBreaks⟩
    · apply (readsArguments_items (some o) (afterBreaks ts) hts.afterBreaks).map
      intro items hitems
      exact areValues_collectArguments hitems
termination_by 8 * ts.length + 6
decreasing_by
  · omega
  · have := length_afterBreaks_le ts
    omega

theorem readsArguments_items (closer : Option Operator) (ts : List Token)
    (hts : Readable allowed interpret ts) :
    Outcome allowed interpret (fun items => ∀ item ∈ items, item.isValue = true)
      (argumentItems interpret closer ts) := by
  rw [argumentItems.eq_def]
  apply (readsArgument ts hts).goOn
  intro item rest hlt hitem hrest
  have hone : ∀ x ∈ [item], x.isValue = true := by
    intro x hx
    rw [List.mem_singleton] at hx
    exact hx ▸ hitem
  dsimp only
  have hrest' : Readable allowed interpret
      (if closer.isSome = true then afterBreaks rest else rest) := by
    split
    · exact hrest.afterBreaks
    · exact hrest
  have hle : (if closer.isSome = true then afterBreaks rest else rest).length ≤ rest.length := by
    have := length_afterBreaks_le rest
    split <;> omega
  split
  · next heq => exact ⟨hone, heq ▸ hrest'⟩
  · next t more heq =>
    rw [heq] at hrest' hle
    split
    · split
      · exact ⟨hone, hrest'.more.afterBreaks⟩
      · have hmore : (afterBreaks more).length < ts.length := by
          have := length_afterBreaks_le more
          simp only [List.length_cons] at hle
          omega
        apply (readsArguments_items closer (afterBreaks more) hrest'.more.afterBreaks).map
        intro items hitems x hx
        rcases List.mem_cons.1 hx with rfl | hx
        · exact hitem
        · exact hitems x hx
    · exact ⟨hone, hrest'⟩
termination_by 8 * ts.length + 5
decreasing_by all_goals omega

theorem readsArgument (ts : List Token) (hts : Readable allowed interpret ts) :
    Outcome allowed interpret (fun item => item.isValue = true) (argument interpret ts) := by
  rw [argument.eq_def]
  match ts, hts with
  | [], _ => trivial
  | t :: more, hts =>
    -- a value behind a splat mark
    have hsplat : Outcome allowed interpret (fun item => item.isValue = true)
        ((expression interpret 0 more).map fun (value, rest) => (Argument.value value, rest)) := by
      apply (readsValue_expression 0 more hts.more).map
      intro value hvalue
      exact hvalue
    dsimp only
    split
    · apply (readsValue_expression 0 (afterBreaks more) hts.more.afterBreaks).map
      intro value hvalue
      simpa [Argument.isValue, Expr.isValue] using hvalue
    · exact hsplat
    · exact hsplat
    · exact hsplat
    · apply (readsValue_expression 0 (t :: more) hts).goOn
      intro key rest hlt hkey hrest
      split
      · apply (readsValue_expression 0 (afterBreaks rest.tail) hrest.tail.afterBreaks).map
        intro value hvalue
        simp [Argument.isValue, hkey, hvalue]
      · exact ⟨hkey, hrest⟩
termination_by 8 * ts.length + 4
decreasing_by
  all_goals
    first
      | have := length_afterBreaks_le more
        simp only [List.length_cons]
        omega
      | have := length_afterBreaks_le rest.tail
        simp only [List.length_tail, List.length_cons] at *
        omega

end

end Outcome

/-! ## Code inside strings -/

/-- Texts of a kind that gives tokens or an allowed fault, and code of that kind in the strings
among its tokens. Such code has no place of its own in the file. -/
structure Lexable (fits : LineMap → List Char → Prop) (allowed : LexFault → Prop) : Prop where
  fault : ∀ {lines : LineMap} {text : List Char} {f : LexFault}, fits lines text →
    tokenize lines text = .error f → allowed f
  code : ∀ {lines : LineMap} {text : List Char} {tokens : List Token}, fits lines text →
    tokenize lines text = .ok tokens → ∀ t ∈ tokens, ∀ parts, t.lexeme = .string parts →
      ∀ code, Part.code code ∈ parts → fits [] code

section Text

variable {fits : LineMap → List Char → Prop} {allowed : LexFault → Prop}

theorem Lexable.readable (h : Lexable fits allowed) {lines : LineMap} {text : List Char}
    {tokens : List Token} {interpret : List Char → Except LexFault Expr}
    (hinterpret : ∀ code, fits [] code → Interpreted allowed (interpret code))
    (hfits : fits lines text) (htokens : tokenize lines text = .ok tokens) :
    Readable allowed interpret tokens :=
  fun t ht parts hparts code hcode =>
    hinterpret code (h.code hfits htokens t ht parts hparts code hcode)

/-- Code is a value at any depth of strings in each other. -/
theorem Lexable.interpreted (h : Lexable fits allowed) (depth : Nat) {code : List Char}
    (hcode : fits [] code) : Interpreted allowed (codeValue depth code) := by
  induction depth generalizing code with
  | zero => rfl
  | succ depth ih =>
    rw [codeValue]
    cases htokens : tokenize [] code with
    | error f => exact h.fault hcode htokens
    | ok tokens =>
      have hread := readsValue_expression 0 (afterBreaks tokens)
        (h.readable (fun code hcode => ih hcode) hcode htokens).afterBreaks
      dsimp only
      split
      · next f hfault =>
        rw [hfault] at hread
        exact hread
      · rfl
      · next e rest hvalue =>
        rw [hvalue] at hread
        split
        · exact hread.1
        · rfl

end Text

end RecipeManifest

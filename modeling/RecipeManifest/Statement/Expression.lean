import RecipeManifest.Statement.Reference
import RecipeManifest.Text.Basic
import RecipeManifest.Token.Lexer

/-!
Reading expressions from tokens.

Binary operators are read by climbing their precedences: an operand takes all operators behind it
that bind tighter than the one before it, so that operators of one precedence group to the left.
Reading stops with a mismatch where the grammar ends, and apart from that where the tokens end
inside something open.
-/

namespace RecipeManifest

/-- Why reading stopped without a result. -/
inductive Stop where
  /-- The tokens are outside the grammar. -/
  | mismatch
  /-- The tokens end inside an open block or bracket. -/
  | endOfBlock
  /-- The code inside a string is malformed. -/
  | fault (fault : LexFault)
  deriving DecidableEq, Repr

namespace Operator

/-- How tightly a binary operator binds. -/
def precedence? : Operator → Option Nat
  | orElse => some 2
  | andAlso => some 3
  | range | rangeOpen => some 4
  | eq | ne | matching | notMatching | caseEq | spaceship => some 5
  | lt | gt | le | ge => some 6
  | bar | caret => some 7
  | amp => some 8
  | shiftLeft | shiftRight => some 9
  | plus | minus => some 10
  | star | slash | percent => some 11
  | pow => some 12
  | _ => none

end Operator

/-- A binary operator by the name it has in expressions, and how tightly it binds. The words bind
loosest and equally, and become the marks of the same meaning. -/
def binaryOperator? : Lexeme → Option (String × Nat)
  | .op o => o.precedence?.map fun p => (o.spelling, p)
  | .keyword .orWord => some ("||", 1)
  | .keyword .andWord => some ("&&", 1)
  | _ => none

def afterBreaks (ts : List Token) : List Token :=
  ts.dropWhile fun t => t.lexeme.isSeparator

theorem length_afterBreaks_le (ts : List Token) : (afterBreaks ts).length ≤ ts.length :=
  (List.dropWhile_sublist _).length_le

/-- What the first token says. -/
def peek : List Token → Lexeme
  | [] => .eof
  | t :: _ => t.lexeme

def atEnd (ts : List Token) : Bool :=
  peek ts == .eof

/-- The first token is this mark. -/
def atOp (o : Operator) (ts : List Token) : Bool :=
  peek ts == .op o

/-- The first token is this mark and no blank stands before it. -/
def atTightOp (o : Operator) : List Token → Bool
  | [] => false
  | t :: _ => t.lexeme == .op o && !t.spaced

/-- Goes past a mark that has to stand here. -/
def pastOp (o : Operator) (ts : List Token) : Except Stop (List Token) :=
  if atEnd ts then .error .endOfBlock
  else if atOp o ts then .ok ts.tail
  else .error .mismatch

/-- A key that is known without running any code. -/
def isLiteralKey : Lexeme → Bool
  | .symbol _ => true
  | .string parts => !parts.any Part.isCode
  | _ => false

/-- The keys of a node lookup, in brackets or after points, and what follows them. -/
def nodePath : List Token → List String × List Token
  | bracket :: key :: close :: rest =>
    if bracket.lexeme = .op .bracketL ∧ bracket.spaced = false then
      if isLiteralKey key.lexeme ∧ close.lexeme = .op .bracketR then
        let (path, rest) := nodePath rest
        (key.lexeme.value :: path, rest)
      else ([], bracket :: key :: close :: rest)
    else
      match bracket.lexeme, key.lexeme with
      | .op .dot, .ident name =>
        if close.lexeme = .op .parenL then ([], bracket :: key :: close :: rest)
        else
          let (path, rest) := nodePath (close :: rest)
          (name :: path, rest)
      | _, _ => ([], bracket :: key :: close :: rest)
  | ts => ([], ts)

/-- A node lookup after the word that starts it. -/
def nodeLookup (ts : List Token) : Expr × List Token :=
  match nodePath ts with
  | ([], rest) => (.call none "node" [], rest)
  | (path, rest) => (.nodeRef path, rest)

/-- One argument of a call: a value, or a pair that belongs to a hash. -/
inductive Argument where
  | value (expr : Expr)
  | pair (key value : Expr)

/-- The arguments with their pairs made into one hash behind the values. -/
def collectArguments (items : List Argument) : List Expr :=
  let values := items.filterMap fun
    | .value expr => some expr
    | .pair _ _ => none
  let pairs := items.filterMap fun
    | .value _ => none
    | .pair key value => some (key, value)
  if pairs.isEmpty then values else values ++ [.hash pairs]

/-- The tokens after a method's name start an argument that needs no parentheses. -/
def startsBareArgument (name : String) : List Token → Bool
  | [] => false
  | t :: _ =>
    t.spaced &&
      match t.lexeme with
      | .string _ | .symbol _ | .number _ | .words _ | .label _ => true
      | .ident _ | .const _ => name.endsWith "?"
      | _ => false

/-- A name that can be selected as a member. -/
def isMemberName : Lexeme → Bool
  | .ident _ | .const _ | .keyword _ => true
  | _ => false

/-- A part of a string literal, with its code read by `interpret`. -/
def pieceOf (interpret : List Char → Except LexFault Expr) : Part → Except LexFault Piece
  | .text chars => .ok (.text (String.ofList chars))
  | .code chars => (interpret chars).map .value

/-- A string literal. Without code in it, it is the text of its parts. -/
def stringExpr (interpret : List Char → Except LexFault Expr) (parts : List Part) :
    Except Stop Expr :=
  if parts.any Part.isCode then
    match (parts.filter fun p => p != .text []).mapM (pieceOf interpret) with
    | .ok pieces => .ok (.interpolated pieces)
    | .error f => .error (.fault f)
  else .ok (.literal .string (Lexeme.string parts).value)

/-- The value of a token that is an expression by itself, and no string. -/
def Lexeme.literal? : Lexeme → Option Expr
  | symbol name => some (.literal .symbol name)
  | number text => some (.literal .number text)
  | regex text => some (.literal .regex text)
  | words body =>
    some (.array ((Text.words body).map fun w => .literal .string (String.ofList w)))
  | keyword .trueWord => some (.literal .bool "true")
  | keyword .falseWord => some (.literal .bool "false")
  | keyword .nilWord => some (.literal .nil "")
  | const name => some (.call none name [])
  | _ => none

/-- The value of a token that is an expression by itself. -/
def atom? (interpret : List Char → Except LexFault Expr) : Lexeme → Option (Except Stop Expr)
  | .string parts => some (stringExpr interpret parts)
  | x => x.literal?.map .ok

theorem atom?_of_literal? (interpret : List Char → Except LexFault Expr) {x : Lexeme} {e : Expr}
    (h : x.literal? = some e) : atom? interpret x = some (.ok e) := by
  unfold atom?
  split
  · cases h
  · rw [h]
    rfl

theorem atom?_of_literal?_eq_none (interpret : List Char → Except LexFault Expr) {x : Lexeme}
    (h : x.literal? = none) (hx : ∀ parts, x ≠ .string parts) : atom? interpret x = none := by
  unfold atom?
  split
  · next parts => exact absurd rfl (hx parts)
  · rw [h]
    rfl

/-- Items in braces are a hash, if they are pairs or there are none. -/
def braceValue : List Expr → Except Stop Expr
  | [] => .ok (.hash [])
  | [.hash pairs] => .ok (.hash pairs)
  | _ => .error .mismatch

/-- The negative number that a minus sign and the number right behind it make. -/
def negativeNumber? : List Token → Option (Expr × List Token)
  | ⟨.op .minus, _, _, _, _⟩ :: ⟨.number text, _, _, _, false⟩ :: rest =>
    some (.literal .number ("-" ++ text), rest)
  | _ => none

section

variable (interpret : List Char → Except LexFault Expr)

mutual

/-- An expression of operators that bind tighter than `floor`. -/
def expression (floor : Nat) (ts : List Token) : Except Stop (Expr × List Token) :=
  goOn ts .mismatch (unary ts) fun left rest _ => climb floor left rest
termination_by 8 * ts.length + 3
decreasing_by all_goals omega

/-- Takes the operators that bind tighter than `floor`, with their operands. -/
def climb (floor : Nat) (left : Expr) (ts : List Token) : Except Stop (Expr × List Token) :=
  match ts with
  | [] => .ok (left, [])
  | t :: more =>
    match binaryOperator? t.lexeme with
    | none => .ok (left, t :: more)
    | some (op, precedence) =>
      if precedence ≤ floor then .ok (left, t :: more)
      else
        goOn (afterBreaks more) .mismatch (expression precedence (afterBreaks more))
          fun right rest _h => climb floor (.binary op left right) rest
termination_by 8 * ts.length
decreasing_by
  all_goals
    have := length_afterBreaks_le more
    simp only [List.length_cons]
    omega

/-- A negation, a negative number, or a value with its selections. -/
def unary (ts : List Token) : Except Stop (Expr × List Token) :=
  match ts with
  | [] => .error .endOfBlock
  | t :: more =>
    if t.lexeme = .op .bang ∨ t.lexeme = .keyword .notWord then
      (unary more).map fun (e, rest) => (.not e, rest)
    else
      match negativeNumber? (t :: more) with
      | some result => .ok result
      | none => goOn (t :: more) .mismatch (primary (t :: more)) fun e rest _ => selections e rest
termination_by 8 * ts.length + 2
decreasing_by
  all_goals
    simp only [List.length_cons] at *
    omega

/-- A value without selections. -/
def primary (ts : List Token) : Except Stop (Expr × List Token) :=
  match ts with
  | [] => .error .endOfBlock
  | t :: more =>
    match atom? interpret t.lexeme with
    | some value => value.map fun e => (e, more)
    | none =>
      match t.lexeme with
      | .eof => .error .endOfBlock
      | .op .parenL => do
        let (inner, rest) ← expression 0 (afterBreaks more)
        let rest ← pastOp .parenR (afterBreaks rest)
        return (inner, rest)
      | .op .bracketL => do
        let (items, rest) ← arguments (some .bracketR) more
        let rest ← pastOp .bracketR rest
        return (.array items, rest)
      | .op .braceL => do
        let (items, rest) ← arguments (some .braceR) more
        let rest ← pastOp .braceR rest
        return (← braceValue items, rest)
      | .op .scope =>
        match more with
        | ⟨.const name, _, _, _, _⟩ :: rest => .ok (.call none name [], rest)
        | _ => .error .mismatch
      | .ident name =>
        if name = "node" then .ok (nodeLookup more) else method none (t :: more)
      | _ => .error .mismatch
termination_by 8 * ts.length + 1
decreasing_by
  · have := length_afterBreaks_le more
    simp only [List.length_cons]
    omega
  all_goals simp only [List.length_cons]; omega

/-- A method's name and its arguments. -/
def method (receiver : Option Expr) (ts : List Token) : Except Stop (Expr × List Token) :=
  match ts with
  | [] => .error .mismatch
  | t :: more => do
    let name := t.lexeme.value
    let (args, rest) ←
      if atTightOp .parenL more then do
        let (args, rest) ← arguments (some .parenR) more.tail
        let rest ← pastOp .parenR rest
        pure (args, rest)
      else if startsBareArgument name more then arguments none more
      else pure ([], more)
    if receiver.isNone && name == "resources" then return (.resources (lookupTargets args), rest)
    else return (selectedCall receiver name args, rest)
termination_by 8 * ts.length
decreasing_by
  all_goals
    simp only [List.length_cons, List.length_tail]
    omega

/-- Members and items selected from a value. -/
def selections (value : Expr) (ts : List Token) : Except Stop (Expr × List Token) :=
  match ts with
  | [] => .ok (value, [])
  | t :: more =>
    if t.lexeme = .op .dot ∨ (t.lexeme = .op .scope ∧ t.spaced = false) then
      if isMemberName (peek more) then
        goOn (t :: more) .mismatch (method (some value) more) fun e rest _ => selections e rest
      else .error .mismatch
    else if t.lexeme = .op .bracketL ∧ t.spaced = false then
      goOn (t :: more) .mismatch
        (do
          let (index, rest) ← arguments (some .bracketR) more
          return (index, ← pastOp .bracketR rest))
        fun index rest _h => selections (.call (some value) "[]" index) rest
    else .ok (value, t :: more)
termination_by 8 * ts.length
decreasing_by
  all_goals
    simp_all
    try omega

/-- The arguments of a call, up to the mark that closes them or to where no comma follows. -/
def arguments (closer : Option Operator) (ts : List Token) :
    Except Stop (List Expr × List Token) :=
  match closer with
  | none => (argumentItems none ts).map fun (items, rest) => (collectArguments items, rest)
  | some o =>
    if atOp o (afterBreaks ts) then .ok ([], afterBreaks ts)
    else
      (argumentItems (some o) (afterBreaks ts)).map fun (items, rest) =>
        (collectArguments items, rest)
termination_by 8 * ts.length + 6
decreasing_by
  · omega
  · have := length_afterBreaks_le ts
    omega

def argumentItems (closer : Option Operator) (ts : List Token) :
    Except Stop (List Argument × List Token) :=
  goOn ts .mismatch (argument ts) fun item rest _ =>
    let rest' := if closer.isSome then afterBreaks rest else rest
    match _hr : rest' with
    | [] => .ok ([item], [])
    | t :: more =>
      if t.lexeme = .op .comma then
        if closer.any fun o => atOp o (afterBreaks more) then .ok ([item], afterBreaks more)
        else
          (argumentItems closer (afterBreaks more)).map fun (items, rest) => (item :: items, rest)
      else .ok ([item], t :: more)
termination_by 8 * ts.length + 5
decreasing_by
  · omega
  · have h1 := length_afterBreaks_le rest
    have h2 := length_afterBreaks_le more
    have h3 : more.length < rest.length := by
      have : (t :: more).length ≤ rest.length := by
        rw [← _hr]
        show (if closer.isSome = true then afterBreaks rest else rest).length ≤ rest.length
        split <;> omega
      simp only [List.length_cons] at this
      omega
    omega

def argument (ts : List Token) : Except Stop (Argument × List Token) :=
  match ts with
  | [] => .error .endOfBlock
  | t :: more =>
    match t.lexeme with
    | .label name =>
      (expression 0 (afterBreaks more)).map fun (value, rest) =>
        (.pair (.literal .symbol name) value, rest)
    | .op .star | .op .amp | .op .pow =>
      (expression 0 more).map fun (value, rest) => (.value value, rest)
    | _ =>
      goOn (t :: more) .mismatch (expression 0 (t :: more)) fun key rest _ =>
        if atOp .rocket rest then
          (expression 0 (afterBreaks rest.tail)).map fun (value, rest) => (.pair key value, rest)
        else .ok (.value key, rest)
termination_by 8 * ts.length + 4
decreasing_by
  all_goals
    first
      | have := length_afterBreaks_le more
        simp only [List.length_cons]
        omega
      | have := length_afterBreaks_le rest.tail
        simp only [List.length_tail, List.length_cons] at *
        omega

end

end

/-- The value of the code inside a string. Code that is no expression is kept as text. The depth
bounds how far strings with code nest in each other. -/
def codeValue : Nat → List Char → Except LexFault Expr
  | 0, code => .ok (.literal .code (String.ofList (Text.trim code)))
  | depth + 1, code =>
    match tokenize [] code with
    | .error f => .error f
    | .ok tokens =>
      match expression (codeValue depth) 0 (afterBreaks tokens) with
      | .error (.fault f) => .error f
      | .error _ => .ok (.literal .code (String.ofList (Text.trim code)))
      | .ok (e, rest) =>
        if atEnd (afterBreaks rest) then .ok e
        else .ok (.literal .code (String.ofList (Text.trim code)))

end RecipeManifest

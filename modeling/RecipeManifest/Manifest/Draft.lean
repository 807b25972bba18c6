import RecipeManifest.Fault
import RecipeManifest.Statement.Basic
import RecipeManifest.Text.Basic

/-!
The texts that a manifest is made of. A draft is written piece by piece. Expressions become text as
attribute values, titles and commands, and as the shell conditions that guards become.
-/

namespace RecipeManifest

/-- The pieces of a text, in the order of writing. -/
structure Draft where
  pieces : List String := []
  deriving DecidableEq, Repr

namespace Draft

def write (d : Draft) (piece : String) : Draft :=
  ⟨d.pieces ++ [piece]⟩

/-- Throws away what has been written. -/
def reset (_ : Draft) : Draft :=
  {}

def text (d : Draft) : String :=
  String.join d.pieces

end Draft

/-- Wraps a text in single quotes. Quotes in it are escaped, and nothing else. -/
def quoted (text : String) : String :=
  "'" ++ String.ofList (text.toList.flatMap fun c => if c = '\'' then ['\\', '\''] else [c]) ++ "'"

/-- The place of the parenthesis that brings the depth back to zero, counted from `index`. -/
def closingParen? (depth index : Nat) : List Char → Option Nat
  | [] => none
  | '(' :: rest => closingParen? (depth + 1) (index + 1) rest
  | ')' :: rest =>
    if depth = 1 then some index else closingParen? (depth - 1) (index + 1) rest
  | _ :: rest => closingParen? depth (index + 1) rest

/-- One pair of parentheses encloses the whole text. -/
def isWrapped (cs : List Char) : Bool :=
  cs.head? == some '(' && closingParen? 0 0 cs == some (cs.length - 1)

theorem length_trimBy_le (p : Char → Bool) (cs : List Char) :
    (Text.trimBy p cs).length ≤ cs.length := by
  have h1 := (List.dropWhile_sublist p (l := cs)).length_le
  have h2 := (List.dropWhile_sublist p (l := (cs.dropWhile p).reverse)).length_le
  simp only [Text.trimBy, Text.trimEndBy, List.length_reverse] at *
  omega

/-- Takes off the parentheses that enclose the whole text, with the white space inside them. -/
def withoutParens (cs : List Char) : List Char :=
  if isWrapped cs then withoutParens (Text.trim (cs.drop 1).dropLast) else cs
termination_by cs.length
decreasing_by
  have h := length_trimBy_le Text.isBlank (cs.drop 1).dropLast
  have hne : cs ≠ [] := by
    rintro rfl
    simp [isWrapped] at *
  have := List.length_pos_iff.mpr hne
  simp only [Text.trim, List.length_dropLast, List.length_drop] at *
  omega

namespace Statement

/-- What a statement is called where a value is expected. -/
def nodeName : Statement → String
  | resource .. => "ResourceCall"
  | property .. => "AttributeCall"
  | expression .. => "ExpressionStatement"
  | unsupported .. => "UnsupportedStatement"

end Statement

namespace Expr

/-- A call, of which the receiver and the arguments are given as text. In a condition the
arguments stand as words of a command line. -/
def callText (condition : Bool) (receiver name : String) (args : List String) : String :=
  let listed := ", ".intercalate args
  let full := if receiver = "" then name else s!"{receiver}.{name}"
  if name = "[]" then s!"{receiver}[{listed}]"
  else if args.isEmpty then full
  else if condition then full ++ " " ++ " ".intercalate args
  else s!"{full}({listed})"

mutual

/-- An expression as text, which may be meant for a shell condition. -/
def render (condition : Bool) : Expr → Except Fault String
  | absent => .ok ""
  | literal _ value => .ok value
  | interpolated parts => renderPieces condition parts
  | nodeRef path => .ok (nodeVariable path)
  | fileTest flag path => do
    let path ← render condition path
    return s!"test {flag} {path}"
  | not operand => do
    let operand ← render condition operand
    return s!"! {operand}"
  | binary op left right => do
    let left ← render condition left
    let right ← render condition right
    return s!"{left} {op} {right}"
  | array items => do return " ".intercalate (← renderAll condition items)
  | hash pairs => do return ", ".intercalate (← renderPairs condition pairs)
  | resources _ => .ok ""
  | call receiver name args => do
    let args ← renderAll condition args
    let receiver ← renderReceiver condition receiver
    return callText condition receiver name args
  | statement node => .error (.noValue node.nodeName)
  | block _ => .error (.noValue "NestedBlock")

def renderAll (condition : Bool) : List Expr → Except Fault (List String)
  | [] => .ok []
  | e :: rest => do return (← render condition e) :: (← renderAll condition rest)

def renderPieces (condition : Bool) : List Piece → Except Fault String
  | [] => .ok ""
  | .text chars :: rest => do return chars ++ (← renderPieces condition rest)
  | .value e :: rest => do return (← render condition e) ++ (← renderPieces condition rest)

def renderPairs (condition : Bool) : List (Expr × Expr) → Except Fault (List String)
  | [] => .ok []
  | (key, value) :: rest => do
    let key ← render condition key
    let value ← render condition value
    return s!"{key} => {value}" :: (← renderPairs condition rest)

def renderReceiver (condition : Bool) : Option Expr → Except Fault String
  | none => .ok ""
  | some e => render condition e

end

/-- The text of a value that may be missing. -/
def valueText (condition : Bool) (e : Option Expr) : Except Fault String :=
  renderReceiver condition e

/-- A text without white space around it and without parentheses around the whole. -/
def bare (text : String) : String :=
  String.ofList (withoutParens (Text.trim text.toList))

/-- A guard as a shell condition. -/
def conditionText (e : Option Expr) : Except Fault String :=
  (valueText true e).map bare

/-- A command to run. -/
def commandText (e : Option Expr) : Except Fault String :=
  (valueText false e).map bare

/-- A resource's title, or the list of its titles. -/
def titleText (name : Option Expr) : Except Fault String :=
  match name with
  | some (array items) => do
    let titles := ", ".intercalate ((← renderAll false items).map quoted)
    return s!"[{titles}]"
  | _ => (valueText false name).map quoted

end Expr

end RecipeManifest

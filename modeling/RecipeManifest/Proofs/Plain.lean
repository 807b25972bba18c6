import RecipeManifest.Statement.Reader

/-!
Plain declarations: what is declared, how it is written down, and the statements that it means.

A plain declaration has a type, a string for a name and maybe a block of property calls, whose
arguments are strings, symbols, decimal numbers, truth values, `nil` and arrays of these. It can be
written in several ways: each call with its arguments bare or in parentheses, each block between
words or braces. `Plain.print` writes declarations down, one declaration or property a line, and
`Plain.statements` says what they mean.

Between the two stand the tokens. `Value.Tokens`, `Call.Tokens` and `Declaration.Tokens` say which
tokens spell a value, a call and a declaration; nothing is said of where in the text they are.
-/

namespace RecipeManifest.Plain

/-! ## Declarations -/

/-- A lower-case letter or an underscore, and then letters, digits and underscores. -/
structure Ident where
  first : Char
  more : List Char
  first_ok : (first.isLower || first == '_') = true
  more_ok : (more.all fun c => c.isAlphanum || c == '_') = true

def Ident.chars (n : Ident) : List Char :=
  n.first :: n.more

def Ident.text (n : Ident) : String :=
  String.ofList n.chars

/-- An identifier that can name a call: neither a reserved word nor the word that looks up
resources. -/
structure Name extends Ident where
  not_keyword : Keyword.ofSpelling? (String.ofList (first :: more)) = none
  not_lookup : String.ofList (first :: more) ≠ "resources"

/-- Digits, maybe with a point and more digits, and maybe a minus sign before them. -/
structure Decimal where
  negative : Bool
  first : Char
  more : List Char
  fraction : List Char
  first_ok : first.isDigit = true
  more_ok : more.all Char.isDigit = true
  fraction_ok : fraction.all Char.isDigit = true

/-- The fraction with the point before it, if there is one. -/
def Decimal.point (d : Decimal) : List Char :=
  if d.fraction = [] then [] else '.' :: d.fraction

/-- The number without its sign. -/
def Decimal.digits (d : Decimal) : List Char :=
  d.first :: (d.more ++ d.point)

def Decimal.chars (d : Decimal) : List Char :=
  if d.negative then '-' :: d.digits else d.digits

inductive Value where
  | string (text : String)
  | symbol (name : Ident)
  | number (value : Decimal)
  | bool (value : Bool)
  | nil
  | array (items : List Value)

/-- A name and its arguments. -/
structure Call where
  name : Name
  args : List Value
  /-- The arguments are written in parentheses right behind the name. -/
  tight : Bool

structure Block where
  closer : Closer
  calls : List Call

structure Declaration where
  type : Name
  title : String
  /-- The title is written in parentheses right behind the type. -/
  tight : Bool
  block : Option Block

/-- The type and the title, as a call. -/
def Declaration.head (d : Declaration) : Call :=
  ⟨d.type, [.string d.title], d.tight⟩

/-! ## Writing -/

/-- A character as it stands in a single-quoted string. -/
def escape (c : Char) : List Char :=
  if c = '\'' ∨ c = '\\' then ['\\', c] else [c]

mutual

def Value.chars : Value → List Char
  | .string text => '\'' :: text.toList.flatMap escape ++ ['\'']
  | .symbol name => ':' :: name.chars
  | .number value => value.chars
  | .bool value => (if value then "true" else "false").toList
  | .nil => "nil".toList
  | .array items => '[' :: listChars items ++ [']']

/-- Values with commas between them. -/
def listChars : List Value → List Char
  | [] => []
  | v :: more => v.chars ++ tailChars more

/-- Values with a comma before each. -/
def tailChars : List Value → List Char
  | [] => []
  | v :: more => ',' :: ' ' :: v.chars ++ tailChars more

end

def Call.chars (c : Call) : List Char :=
  c.name.chars ++
    if c.tight then '(' :: listChars c.args ++ [')']
    else if c.args.isEmpty then [] else ' ' :: listChars c.args

def Call.lineChars (indent : Nat) (c : Call) : List Char :=
  List.replicate indent ' ' ++ c.chars ++ ['\n']

/-- What opens a block that the closer ends. -/
def openerChars : Closer → List Char
  | .endWord => "do".toList
  | .brace => ['{']

def closerChars : Closer → List Char
  | .endWord => "end".toList
  | .brace => ['}']

/-- The line that opens a block. -/
def openingChars (head : Call) (closer : Closer) : List Char :=
  head.chars ++ ' ' :: openerChars closer ++ ['\n']

def callsChars (indent : Nat) (calls : List Call) : List Char :=
  calls.flatMap (Call.lineChars indent)

/-- A call with a block that is not closed. -/
def openChars (indent : Nat) (head : Call) (b : Block) : List Char :=
  openingChars head b.closer ++ callsChars indent b.calls

def Declaration.chars (indent : Nat) (d : Declaration) : List Char :=
  match d.block with
  | none => d.head.chars ++ ['\n']
  | some b => openChars indent d.head b ++ closerChars b.closer ++ ['\n']

/-- Declarations as text, with the calls in their blocks indented by that many blanks. -/
def print (indent : Nat) (ds : List Declaration) : List Char :=
  ds.flatMap (Declaration.chars indent)

/-! ## Meaning -/

mutual

def Value.expr : Value → Expr
  | .string text => .literal .string text
  | .symbol name => .literal .symbol name.text
  | .number value => .literal .number (String.ofList value.chars)
  | .bool value => .literal .bool (if value then "true" else "false")
  | .nil => .literal .nil ""
  | .array items => .array (exprs items)

def exprs : List Value → List Expr
  | [] => []
  | v :: more => v.expr :: exprs more

end

/-- The line after a text that starts on line `n`. -/
def lineAfter (n : Nat) (cs : List Char) : Nat :=
  n + cs.count '\n'

section

variable (lines : LineMap) (indent : Nat)

/-- Calls as properties, the first of them written on line `n`. -/
def properties : Nat → List Call → List Statement
  | _, [] => []
  | n, c :: more =>
    .property c.name.text (exprs c.args) none (lines.lineInFile n) ::
      properties (lineAfter n (c.lineChars indent)) more

/-- A declaration written on line `n`, as a statement. -/
def Declaration.statement (n : Nat) (d : Declaration) : Statement :=
  let body := d.block.elim [] fun b =>
    properties lines indent (lineAfter n (openingChars d.head b.closer)) b.calls
  .resource d.type.text (some (.literal .string d.title)) body d.block.isSome (lines.lineInFile n)

/-- Declarations as statements, the first of them written on line `n`. -/
def statements : Nat → List Declaration → List Statement
  | _, [] => []
  | n, d :: more =>
    d.statement lines indent n :: statements (lineAfter n (d.chars indent)) more

end

/-! ## Tokens -/

/-- The one lexeme that spells a value, if there is one. -/
def Value.lexeme? : Value → Option Lexeme
  | .string text => some (.string [.text text.toList])
  | .symbol name => some (.symbol name.text)
  | .number value => if value.negative then none else some (.number (String.ofList value.digits))
  | .bool value => some (.keyword (if value then .trueWord else .falseWord))
  | .nil => some (.keyword .nilWord)
  | .array _ => none

mutual

/-- The tokens spell the value. -/
inductive Value.Tokens : Value → List Token → Prop
  | atom {v : Value} {t : Token} (h : v.lexeme? = some t.lexeme) : Value.Tokens v [t]
  | negative {d : Decimal} {m t : Token} (hd : d.negative = true) (hm : m.lexeme = .op .minus)
      (ht : t.lexeme = .number (String.ofList d.digits)) (hs : t.spaced = false) :
      Value.Tokens (.number d) [m, t]
  | array {items : List Value} {o c : Token} {ts : List Token} (ho : o.lexeme = .op .bracketL)
      (h : ListTokens items ts) (hc : c.lexeme = .op .bracketR) :
      Value.Tokens (.array items) (o :: ts ++ [c])

/-- The tokens spell the values, with commas between them. -/
inductive ListTokens : List Value → List Token → Prop
  | nil : ListTokens [] []
  | cons {v : Value} {more : List Value} {ts us : List Token} (h : v.Tokens ts)
      (hm : TailTokens more us) : ListTokens (v :: more) (ts ++ us)

/-- The tokens spell the values, with a comma before each. -/
inductive TailTokens : List Value → List Token → Prop
  | nil : TailTokens [] []
  | cons {v : Value} {more : List Value} {c : Token} {ts us : List Token}
      (hc : c.lexeme = .op .comma) (h : v.Tokens ts) (hm : TailTokens more us) :
      TailTokens (v :: more) (c :: ts ++ us)

end

theorem Value.Tokens.ne_nil {v : Value} {ts : List Token} (h : v.Tokens ts) : ts ≠ [] := by
  cases h <;> simp

theorem ListTokens.ne_nil {v : Value} {more : List Value} {ts : List Token}
    (h : ListTokens (v :: more) ts) : ts ≠ [] := by
  cases h with
  | cons h hm => simp [h.ne_nil]

theorem ListTokens.first {vs : List Value} {ts : List Token} (h : ListTokens vs ts)
    (hne : ts ≠ []) :
    ∃ v more us ws, vs = v :: more ∧ ts = us ++ ws ∧ Value.Tokens v us := by
  cases h with
  | nil => exact absurd rfl hne
  | cons h hm => exact ⟨_, _, _, _, rfl, rfl, h⟩

/-- The tokens spell the call, whose name stands on line `n`. -/
inductive Call.Tokens (n : Nat) (c : Call) : List Token → Prop
  | alone {t : Token} (ht : t.lexeme = .ident c.name.text) (hn : t.line = n) (ha : c.args = []) :
      Call.Tokens n c [t]
  | bare {t u : Token} {us : List Token} (ht : t.lexeme = .ident c.name.text) (hn : t.line = n)
      (hs : u.spaced = true) (h : ListTokens c.args (u :: us)) : Call.Tokens n c (t :: u :: us)
  | tight {t o p : Token} {ts : List Token} (ht : t.lexeme = .ident c.name.text) (hn : t.line = n)
      (ho : o.lexeme = .op .parenL) (hs : o.spaced = false) (h : ListTokens c.args ts)
      (hp : p.lexeme = .op .parenR) : Call.Tokens n c (t :: o :: ts ++ [p])

/-- The tokens spell the calls, each on a line of its own, the first on line `n`. -/
inductive CallsTokens (indent : Nat) : Nat → List Call → List Token → Prop
  | nil {n : Nat} : CallsTokens indent n [] []
  | cons {n : Nat} {c : Call} {more : List Call} {ts us : List Token} {t : Token}
      (h : c.Tokens n ts) (ht : t.lexeme = .newline)
      (hm : CallsTokens indent (lineAfter n (c.lineChars indent)) more us) :
      CallsTokens indent n (c :: more) (ts ++ t :: us)

def openerLexeme : Closer → Lexeme
  | .endWord => .keyword .doWord
  | .brace => .op .braceL

def closerLexeme : Closer → Lexeme
  | .endWord => .keyword .endWord
  | .brace => .op .braceR

/-- The tokens spell a call on line `n` with a block that is not closed. -/
inductive OpenTokens (indent n : Nat) (head : Call) (b : Block) : List Token → Prop
  | intro {ts us : List Token} {o t : Token} (h : head.Tokens n ts)
      (ho : o.lexeme = openerLexeme b.closer) (ht : t.lexeme = .newline)
      (hc : CallsTokens indent (lineAfter n (openingChars head b.closer)) b.calls us) :
      OpenTokens indent n head b (ts ++ o :: t :: us)

/-- The tokens spell the declaration, which starts on line `n`. -/
inductive Declaration.Tokens (indent n : Nat) (d : Declaration) : List Token → Prop
  | plain {ts : List Token} {t : Token} (hd : d.block = none) (h : d.head.Tokens n ts)
      (ht : t.lexeme = .newline) : Declaration.Tokens indent n d (ts ++ [t])
  | block {b : Block} {ts : List Token} {c t : Token} (hd : d.block = some b)
      (h : OpenTokens indent n d.head b ts) (hc : c.lexeme = closerLexeme b.closer)
      (ht : t.lexeme = .newline) : Declaration.Tokens indent n d (ts ++ [c, t])

/-- The tokens spell the declarations, the first of which starts on line `n`. -/
inductive PrintTokens (indent : Nat) : Nat → List Declaration → List Token → Prop
  | nil {n : Nat} : PrintTokens indent n [] []
  | cons {n : Nat} {d : Declaration} {more : List Declaration} {ts us : List Token}
      (h : d.Tokens indent n ts) (hm : PrintTokens indent (lineAfter n (d.chars indent)) more us) :
      PrintTokens indent n (d :: more) (ts ++ us)

end RecipeManifest.Plain

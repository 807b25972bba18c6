import RecipeManifest.Text.Digit
import RecipeManifest.Token.Basic

/-!
Reading the literals of the recipe language from the front of a text.

Each reader starts after the opening mark and returns what it read, how many characters it used,
closing mark included, and how many line ends the line count grows by.
-/

namespace RecipeManifest

/-- What was read from the front of a text. -/
structure Reading (α : Type) where
  value : α
  used : Nat
  lines : Nat
  deriving DecidableEq, Repr

namespace Reading

def map {α β : Type} (f : α → β) (r : Reading α) : Reading β :=
  ⟨f r.value, r.used, r.lines⟩

/-- The reading of a text with `used` more characters in front, of which `lines` are counted as
line ends. -/
def after {α β : Type} (r : Reading α) (f : α → β) (used lines : Nat) : Reading β :=
  ⟨f r.value, used + r.used, lines + r.lines⟩

end Reading

/-- One for a newline, none for another character. -/
def lineEnds (c : Char) : Nat :=
  if c = '\n' then 1 else 0

/-- A single-quoted body. Only a quote and a backslash can be escaped; before any other character
a backslash stands for itself. -/
def readSingleQuoted : List Char → Option (Reading (List Char))
  | [] => none
  | '\\' :: '\'' :: rest => (readSingleQuoted rest).map fun r => r.after ('\'' :: ·) 2 0
  | '\\' :: '\\' :: rest => (readSingleQuoted rest).map fun r => r.after ('\\' :: ·) 2 0
  | '\'' :: _ => some ⟨[], 1, 0⟩
  | c :: rest => (readSingleQuoted rest).map fun r => r.after (c :: ·) 1 (lineEnds c)

/-- The marks that delimit a literal. A literal with two different marks can hold pairs of them. -/
structure Delimiters where
  opener : Option Char
  closer : Char
  deriving DecidableEq, Repr

namespace Delimiters

/-- The same mark on both sides. -/
def same (c : Char) : Delimiters :=
  ⟨none, c⟩

/-- The marks of a percent literal that opens with `c`. -/
def ofOpener (c : Char) : Delimiters :=
  match c with
  | '(' => ⟨some '(', ')'⟩
  | '[' => ⟨some '[', ']'⟩
  | '{' => ⟨some '{', '}'⟩
  | '<' => ⟨some '<', '>'⟩
  | _ => same c

end Delimiters

/-- A percent literal's body with nothing replaced in it: a backslash keeps itself and hides the
character after it, which is not counted as a line end either. -/
def readRaw (marks : Delimiters) : Nat → List Char → Option (Reading (List Char))
  | _, [] => none
  | _, ['\\'] => none
  | depth, '\\' :: c :: rest =>
    (readRaw marks depth rest).map fun r => r.after ('\\' :: c :: ·) 2 0
  | depth, c :: rest =>
    if marks.opener = some c then
      (readRaw marks (depth + 1) rest).map fun r => r.after (c :: ·) 1 (lineEnds c)
    else if c = marks.closer then
      match depth with
      | 0 => some ⟨[], 1, 0⟩
      | outer + 1 => (readRaw marks outer rest).map fun r => r.after (c :: ·) 1 (lineEnds c)
    else (readRaw marks depth rest).map fun r => r.after (c :: ·) 1 (lineEnds c)

/-- What a backslash and this character stand for in an interpolated literal. -/
def unescape : Char → Char
  | 'n' => '\n'
  | 't' => '\t'
  | 's' => ' '
  | '0' => '\x00'
  | 'e' => '\x1b'
  | c => c

/-- Puts a character of text in front of the parts. -/
def consText (c : Char) : List Part → List Part
  | .text chars :: parts => .text (c :: chars) :: parts
  | parts => .text [c] :: parts

/-- Puts a character in front of the code that the parts start with. -/
def consCode (c : Char) : List Part → List Part
  | .code chars :: parts => .code (c :: chars) :: parts
  | parts => .code [c] :: parts

/-- Where the reader of an interpolated literal stands: in the text, inside some pairs of its
marks; or in code, inside some braces and maybe a quoted string, within such a text. -/
inductive Inside where
  | text (pairs : Nat)
  | code (pairs : Nat) (braces : Nat) (quote : Option Char)
  deriving DecidableEq, Repr

/-- An interpolated body as its parts, empty for an empty body. Line ends inside code are not
counted. -/
def readParts (marks : Delimiters) : Inside → List Char → Except Malformed (Reading (List Part))
  | .text _, [] => .error .unterminatedString
  | .text pairs, '\\' :: c :: rest =>
    (readParts marks (.text pairs) rest).map fun r => r.after (consText (unescape c)) 2 (lineEnds c)
  | .text pairs, '#' :: '{' :: rest =>
    (readParts marks (.code pairs 0 none) rest).map fun r => r.after id 2 0
  | .text pairs, c :: rest =>
    if marks.opener = some c then
      (readParts marks (.text (pairs + 1)) rest).map fun r => r.after (consText c) 1 (lineEnds c)
    else if c = marks.closer then
      match pairs with
      | 0 => .ok ⟨[], 1, 0⟩
      | outer + 1 =>
        (readParts marks (.text outer) rest).map fun r => r.after (consText c) 1 (lineEnds c)
    else (readParts marks (.text pairs) rest).map fun r => r.after (consText c) 1 (lineEnds c)
  | .code _ _ _, [] => .error .unterminatedInterpolation
  | .code _ _ (some _), ['\\'] => .error .unterminatedInterpolation
  | .code pairs braces (some quote), '\\' :: c :: rest =>
    (readParts marks (.code pairs braces (some quote)) rest).map fun r =>
      r.after (consCode '\\' ∘ consCode c) 2 0
  | .code pairs braces (some quote), c :: rest =>
    (readParts marks (.code pairs braces (if c = quote then none else some quote)) rest).map
      fun r => r.after (consCode c) 1 0
  | .code pairs braces none, c :: rest =>
    match c, braces with
    | '}', 0 => (readParts marks (.text pairs) rest).map fun r => r.after (.code [] :: ·) 1 0
    | '}', outer + 1 =>
      (readParts marks (.code pairs outer none) rest).map fun r => r.after (consCode c) 1 0
    | '{', _ =>
      (readParts marks (.code pairs (braces + 1) none) rest).map fun r => r.after (consCode c) 1 0
    | _, _ =>
      let quote := if c = '\'' ∨ c = '"' then some c else none
      (readParts marks (.code pairs braces quote) rest).map fun r => r.after (consCode c) 1 0

/-- An interpolated body. It has at least one part, and no two texts in a row. -/
def readDelimited (marks : Delimiters) (cs : List Char) :
    Except Malformed (Reading (List Part)) :=
  (readParts marks (.text 0) cs).map fun r =>
    r.map fun parts => if parts.isEmpty then [.text []] else parts

/-- Can start a name. -/
def isNameStart (c : Char) : Bool :=
  c.isAlpha || c == '_'

/-- Can go on in a name. -/
def isNameChar (c : Char) : Bool :=
  c.isAlphanum || c == '_'

/-- The name at the front of a text, empty if there is none. -/
def frontName (cs : List Char) : List Char :=
  match cs with
  | [] => []
  | c :: _ => if isNameStart c then cs.takeWhile isNameChar else []

/-- A digit of a hexadecimal number or the mark that groups digits. -/
def isHexChar (c : Char) : Bool :=
  c.isDigit || ('a' ≤ c && c ≤ 'f') || ('A' ≤ c && c ≤ 'F') || c == '_'

/-- A decimal digit or the mark that groups digits. -/
def isDigitChar (c : Char) : Bool :=
  Text.isDecimalDigit c || c == '_'

/-- The fraction at the front of a text: a point and digits. -/
def frontFraction : List Char → List Char
  | '.' :: d :: rest =>
    if Text.isDecimalDigit d then '.' :: d :: rest.takeWhile isDigitChar else []
  | _ => []

/-- The exponent at the front of a text: its mark, a sign perhaps, and digits. -/
def frontExponent : List Char → List Char
  | [] => []
  | e :: rest =>
    let sign := (rest.take 1).filter fun c => c == '+' || c == '-'
    let digits := (rest.drop sign.length).takeWhile Text.isDecimalDigit
    if (e = 'e' ∨ e = 'E') ∧ digits ≠ [] then e :: sign ++ digits else []

/-- The decimal number at the front of a text. -/
def frontDecimal (cs : List Char) : List Char :=
  let whole := cs.takeWhile isDigitChar
  let fraction := frontFraction (cs.drop whole.length)
  let exponent := frontExponent (cs.drop (whole.length + fraction.length))
  whole ++ fraction ++ exponent

/-- The hexadecimal number at the front of a text. -/
def frontHex : List Char → List Char
  | '0' :: x :: rest =>
    let digits := rest.takeWhile isHexChar
    if (x = 'x' ∨ x = 'X') ∧ digits ≠ [] then '0' :: x :: digits else []
  | _ => []

/-- The number at the front of a text, empty if its first character is no decimal digit. -/
def frontNumber (cs : List Char) : List Char :=
  match frontHex cs with
  | [] => if cs.head?.any Text.isDecimalDigit then frontDecimal cs else []
  | hex => hex

end RecipeManifest

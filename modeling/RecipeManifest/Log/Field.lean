import RecipeManifest.Log.Fault
import RecipeManifest.Log.Value

/-!
Fields of a pattern: flags, a width, a precision, and a letter for the kind of text that a value
becomes.
-/

namespace RecipeManifest

structure Field where
  flags : List Char
  width : Option Nat
  precision : Option Nat
  kind : Char
  deriving DecidableEq, Repr

namespace Field

/-- To the left; with a sign; with a blank for a sign; in the other form; filled with zeros. -/
def isFlag (c : Char) : Bool :=
  c == '-' || c == '+' || c == ' ' || c == '#' || c == '0'

variable (f : Field)

def has (flag : Char) : Bool :=
  f.flags.contains flag

/-- The widest field that fits into the memory. -/
def widest : Nat := Nat.pow 2 36

/-- Fills a text up to the width. Zeros come between what leads a number and its digits. -/
def place (lead body : List Char) (numeric : Bool) : Except LogFault (List Char) :=
  let width := f.width.getD 0
  let missing := width - lead.length - body.length
  if widest < width then .error .outOfMemory
  else if f.has '-' then .ok (lead ++ body ++ List.replicate missing ' ')
  else if numeric && f.has '0' then .ok (lead ++ List.replicate missing '0' ++ body)
  else .ok (List.replicate missing ' ' ++ lead ++ body)

/-- A text, cut to the precision. -/
def plain (text : String) : Except LogFault (List Char) :=
  let chars := text.toList
  f.place [] (match f.precision with
    | some n => chars.take n
    | none => chars) false

/-- The sign of a number. -/
def sign (negative : Bool) : List Char :=
  if negative then ['-'] else if f.has '+' then ['+'] else if f.has ' ' then [' '] else []

/-- The most digits that can be asked for in a whole number. -/
def mostDigits : Nat := 2147483644

/-- A whole number in a base, with the mark of the base if the other form is asked for. -/
def wholeText (base : Nat) (mark : List Char) (n : Int) : Except LogFault (List Char) :=
  let digits := Nat.toDigits base n.natAbs
  let precision := f.precision.getD 0
  if mostDigits < precision then .error .precisionTooLarge
  else
    f.place (f.sign (n < 0) ++ if f.has '#' then mark else [])
      (List.replicate (precision - digits.length) '0' ++ digits) true

def decimal (value : LogValue) : Except LogFault (List Char) :=
  match value.amount? with
  | some (.whole n) => f.wholeText 10 [] n
  | some (.real (.infinite _)) => .error .infinityAsWhole
  | some (.real x) =>
    match x.truncate? with
    | some n => f.wholeText 10 [] n
    | none => .error .notNumberAsWhole
  | none => .error (.notNumber f.kind value.typeName)

def inBase (base : Nat) (mark : List Char) (value : LogValue) : Except LogFault (List Char) :=
  match value.amount? with
  | some (.whole n) => f.wholeText base mark n
  | _ => .error (.notWhole f.kind value.typeName)

/-- The floating point number that a value counts as. -/
def realOf (value : LogValue) : Except LogFault Double :=
  match value.amount? with
  | some (.real x) => .ok x
  | some (.whole n) =>
    match Double.ofInt n with
    | .infinite _ => .error .tooLargeForReal
    | x => .ok x
  | none => .error (.notReal value.typeName)

/-- A number in floating point, by the letter of its notation. -/
def realText (letter : Char) (x : Double) : List Char :=
  let places := f.precision.getD 6
  match x with
  | .finite _ mantissa exponent =>
    let (num, den) := Double.fraction mantissa exponent
    match letter with
    | 'e' => Double.exponentialText (f.has '#') places num den
    | 'f' => Double.fixedText (f.has '#') places num den
    | _ => Double.generalText (f.has '#') (max places 1) num den
  | .infinite _ => ['i', 'n', 'f']
  | .notNumber => ['n', 'a', 'n']

def real (value : LogValue) : Except LogFault (List Char) := do
  let x ← realOf value
  let body := f.realText f.kind.toLower x
  f.place (f.sign x.isNegative) (if f.kind.isUpper then body.map Char.toUpper else body) true

def character (value : LogValue) : Except LogFault (List Char) :=
  match value, value.amount? with
  | .data (.string s), _ =>
    match s.toList with
    | [c] => f.place [] [c] false
    | _ => .error .notCharacter
  | _, some (.whole n) =>
    if 0 ≤ n ∧ n < 0x110000 then f.place [] [Char.ofNat n.toNat] false
    else .error .characterOutOfRange
  | _, _ => .error .notCharacter

/-- The text of a value in the field, if the field is of a kind that there is. -/
def text? (value : LogValue) : Option (Except LogFault (List Char)) :=
  match f.kind with
  | 's' => some (f.plain value.displayText)
  | 'r' => some (f.plain value.quotedText)
  | 'a' => some (f.plain (String.ofList (Text.asciiOnly value.quotedText.toList)))
  | 'd' | 'i' | 'u' => some (f.decimal value)
  | 'o' => some (f.inBase 8 ['0', 'o'] value)
  | 'x' => some (f.inBase 16 ['0', 'x'] value)
  | 'X' => some ((f.inBase 16 ['0', 'x'] value).map fun cs => cs.map Char.toUpper)
  | 'e' | 'E' | 'f' | 'F' | 'g' | 'G' => some (f.real value)
  | 'c' => some (f.character value)
  | _ => none

end Field

end RecipeManifest

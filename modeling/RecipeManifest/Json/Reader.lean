import RecipeManifest.Json.Basic
import RecipeManifest.Text.Basic

/-!
Reading JSON text. Besides the standard's numbers, `NaN` and the two infinities are read. A fault
says what is wrong and where: by line, column and character.
-/

namespace RecipeManifest

inductive JsonProblem where
  | byteOrderMark
  | expectingValue
  | expectingName
  | expectingColon
  | expectingComma
  | extraData
  | unterminatedString
  | controlCharacter
  | invalidEscape
  | invalidUnicodeEscape
  | tooManyDigits (count : Nat)
  deriving DecidableEq, Repr

def JsonProblem.text : JsonProblem → String
  | byteOrderMark => "Unexpected UTF-8 BOM (decode using utf-8-sig)"
  | expectingValue => "Expecting value"
  | expectingName => "Expecting property name enclosed in double quotes"
  | expectingColon => "Expecting ':' delimiter"
  | expectingComma => "Expecting ',' delimiter"
  | extraData => "Extra data"
  | unterminatedString => "Unterminated string starting at"
  | controlCharacter => "Invalid control character at"
  | invalidEscape => "Invalid \\escape"
  | invalidUnicodeEscape => "Invalid \\uXXXX escape"
  | tooManyDigits count =>
    s!"Exceeds the limit (4300 digits) for integer string conversion: value has {count} digits; " ++
      "use sys.set_int_max_str_digits() to increase the limit"

/-- What is wrong, and how many characters of the text are left at that place. -/
structure JsonFault where
  problem : JsonProblem
  left : Nat
  deriving DecidableEq, Repr

namespace JsonFault

/-- The fault in the text where it was found. Lines and columns count from one, characters from
zero. -/
def message (text : List Char) (f : JsonFault) : String :=
  let read := text.take (text.length - f.left)
  let line := read.count '\n' + 1
  let column := (read.reverse.takeWhile (· != '\n')).length + 1
  s!"{f.problem.text}: line {line} column {column} (char {read.length})"

end JsonFault

namespace Json

def isSpace (c : Char) : Bool :=
  c == ' ' || c == '\t' || c == '\n' || c == '\r'

def skipSpace (cs : List Char) : List Char :=
  cs.dropWhile isSpace

def hexDigit? (c : Char) : Option Nat :=
  if '0' ≤ c ∧ c ≤ '9' then some (c.toNat - 48)
  else if 'a' ≤ c ∧ c ≤ 'f' then some (c.toNat - 87)
  else if 'A' ≤ c ∧ c ≤ 'F' then some (c.toNat - 55)
  else none

/-- The number that four hexadecimal digits at the front of the text give. -/
def hexFour? : List Char → Option Nat
  | a :: b :: c :: d :: _ => do
    return (((← hexDigit? a) * 16 + (← hexDigit? b)) * 16 + (← hexDigit? c)) * 16 + (← hexDigit? d)
  | _ => none

/-- The number of the character after the letter of a Unicode escape, and how much of the text it
takes. Two escapes in a row that form a surrogate pair are one character. -/
def unicodeEscape (cs : List Char) : Except JsonFault (Nat × Nat) :=
  if cs.length ≤ 4 then .error ⟨.invalidUnicodeEscape, cs.length + 1⟩
  else
    match hexFour? cs with
    | none => .error ⟨.invalidUnicodeEscape, cs.length + 1⟩
    | some high =>
      if 0xD800 ≤ high ∧ high < 0xDC00 ∧ 10 < cs.length ∧ (cs.drop 4).take 2 = ['\\', 'u'] then
        match hexFour? (cs.drop 6) with
        | none => .error ⟨.invalidUnicodeEscape, cs.length - 5⟩
        | some low =>
          if 0xDC00 ≤ low ∧ low < 0xE000 then
            .ok (0x10000 + (high - 0xD800) * 0x400 + (low - 0xDC00), 10)
          else .ok (high, 4)
      else .ok (high, 4)

/-- What a backslash and this character stand for. -/
def simpleEscape? : Char → Option Char
  | '"' => some '"'
  | '\\' => some '\\'
  | '/' => some '/'
  | 'b' => some '\x08'
  | 'f' => some '\x0c'
  | 'n' => some '\n'
  | 'r' => some '\r'
  | 't' => some '\t'
  | _ => none

/-- The numbers of the characters in the rest of a string whose opening quote has `opened`
characters left from it on. -/
def readCodes (opened : Nat) (cs : List Char) : Except JsonFault (List Nat × List Char) :=
  match cs with
  | [] | ['\\'] => .error ⟨.unterminatedString, opened⟩
  | '"' :: rest => .ok ([], rest)
  | '\\' :: 'u' :: rest =>
    match unicodeEscape rest with
    | .error f => .error f
    | .ok (n, used) => (readCodes opened (rest.drop used)).map fun (ns, rest) => (n :: ns, rest)
  | '\\' :: e :: rest =>
    match simpleEscape? e with
    | none => .error ⟨.invalidEscape, rest.length + 2⟩
    | some c => (readCodes opened rest).map fun (ns, rest) => (c.toNat :: ns, rest)
  | c :: rest =>
    if c < ' ' then .error ⟨.controlCharacter, rest.length + 1⟩
    else (readCodes opened rest).map fun (ns, rest) => (c.toNat :: ns, rest)
termination_by cs.length
decreasing_by all_goals simp <;> omega

/-- A string, after its opening quote. -/
def readString (cs : List Char) : Except JsonFault (List Nat × List Char) :=
  readCodes (cs.length + 1) cs

/-- The whole part of a number: a zero alone, or digits that start with another one. -/
def frontWhole : List Char → List Char
  | [] => []
  | c :: rest =>
    if c = '0' then [c] else if c.isDigit then c :: rest.takeWhile Char.isDigit else []

/-- A point and digits. -/
def frontFraction (cs : List Char) : List Char :=
  match cs with
  | '.' :: d :: rest => if d.isDigit then '.' :: d :: rest.takeWhile Char.isDigit else []
  | _ => []

/-- An exponent with its mark and sign. -/
def frontExponent (cs : List Char) : List Char :=
  match cs with
  | [] => []
  | e :: rest =>
    let sign := (rest.take 1).filter fun c => c == '+' || c == '-'
    let digits := (rest.drop sign.length).takeWhile Char.isDigit
    if (e = 'e' ∨ e = 'E') ∧ digits ≠ [] then e :: sign ++ digits else []

/-- The number at the front of a text, empty if there is none. -/
def frontNumber (cs : List Char) : List Char :=
  let sign := (cs.take 1).filter (· == '-')
  let whole := frontWhole (cs.drop sign.length)
  if whole = [] then []
  else
    let integer := sign ++ whole
    let fraction := frontFraction (cs.drop integer.length)
    let exponent := frontExponent (cs.drop (integer.length + fraction.length))
    integer ++ fraction ++ exponent

/-- The words that are values by themselves. -/
def constants : List (String × Json) := [
  ("null", null), ("true", bool true), ("false", bool false), ("NaN", number "NaN"),
  ("Infinity", number "Infinity"), ("-Infinity", number "-Infinity")]

/-- The most digits that a whole number can have. -/
def mostDigits : Nat := 4300

/-- A number as it is written. -/
def readNumber (left : Nat) (text : List Char) : Except JsonFault Json :=
  let digits := text.filter Char.isDigit
  if text.all (fun c => c.isDigit || c == '-') && mostDigits < digits.length then
    .error ⟨.tooManyDigits digits.length, left⟩
  else .ok (number (String.ofList text))

/-- A number or one of the constants. -/
def readPlain (cs : List Char) : Except JsonFault (Json × List Char) :=
  match constants.find? fun (word, _) => word.toList.isPrefixOf cs with
  | some (word, value) => .ok (value, cs.drop word.length)
  | none =>
    match frontNumber cs with
    | [] => .error ⟨.expectingValue, cs.length⟩
    | text => (readNumber cs.length text).map fun value => (value, cs.drop text.length)

/-- The name of a member and the colon behind it. -/
def readName (cs : List Char) : Except JsonFault (String × List Char) :=
  match cs with
  | '"' :: rest =>
    match readString rest with
    | .error f => .error f
    | .ok (codes, rest) =>
      match skipSpace rest with
      | ':' :: rest => .ok (String.ofList (codes.map charOf), skipSpace rest)
      | rest => .error ⟨.expectingColon, rest.length⟩
  | _ => .error ⟨.expectingName, cs.length⟩

theorem length_skipSpace_le (cs : List Char) : (skipSpace cs).length ≤ cs.length :=
  (List.dropWhile_sublist _).length_le

mutual

def readValue (cs : List Char) : Except JsonFault (Json × List Char) :=
  match cs with
  | '"' :: rest => (readString rest).map fun (codes, rest) => (ofCodes codes, rest)
  | '[' :: rest =>
    match _h : skipSpace rest with
    | ']' :: rest => .ok (array [], rest)
    | items => (readItems items).map fun (items, rest) => (array items, rest)
  | '{' :: rest =>
    match _h : skipSpace rest with
    | '}' :: rest => .ok (object [], rest)
    | members => (readMembers members).map fun (members, rest) => (object members, rest)
  | _ => readPlain cs
termination_by 2 * cs.length
decreasing_by
  all_goals
    have := length_skipSpace_le rest
    simp_all
    omega

/-- The items of an array from here on, and the bracket behind them. -/
def readItems (cs : List Char) : Except JsonFault (List Json × List Char) :=
  goOn cs ⟨.expectingValue, cs.length⟩ (readValue cs) fun item rest _ =>
    match _h : skipSpace rest with
    | ']' :: rest => .ok ([item], rest)
    | ',' :: more => (readItems (skipSpace more)).map fun (items, rest) => (item :: items, rest)
    | rest => .error ⟨.expectingComma, rest.length⟩
termination_by 2 * cs.length + 1
decreasing_by
  · omega
  · have h1 := length_skipSpace_le rest
    have h2 := length_skipSpace_le more
    simp [_h] at h1
    omega

/-- The members of an object from here on, and the brace behind them. -/
def readMembers (cs : List Char) : Except JsonFault (List (String × Json) × List Char) :=
  goOn cs ⟨.expectingName, cs.length⟩ (readName cs) fun name value _ =>
    goOn value ⟨.expectingValue, value.length⟩ (readValue value) fun item rest _ =>
      match _h : skipSpace rest with
      | '}' :: rest => .ok ([(name, item)], rest)
      | ',' :: more =>
        (readMembers (skipSpace more)).map fun (members, rest) => ((name, item) :: members, rest)
      | rest => .error ⟨.expectingComma, rest.length⟩
termination_by 2 * cs.length + 1
decreasing_by
  · omega
  · have h1 := length_skipSpace_le rest
    have h2 := length_skipSpace_le more
    simp [_h] at h1
    omega

end

/-- Reads a text that is one JSON value. -/
def parse (text : List Char) : Except JsonFault Json :=
  if text.head? = some '\ufeff' then .error ⟨.byteOrderMark, text.length⟩
  else
    match readValue (skipSpace text) with
    | .error f => .error f
    | .ok (value, rest) =>
      match skipSpace rest with
      | [] => .ok value
      | extra => .error ⟨.extraData, extra.length⟩

end Json

end RecipeManifest

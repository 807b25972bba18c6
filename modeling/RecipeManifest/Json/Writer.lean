import RecipeManifest.Json.Amount
import RecipeManifest.Text.Printable

/-!
Writing JSON on one line: a blank after each comma and colon, and only printable ASCII characters,
all others as escapes of their UTF-16 units.
-/

namespace RecipeManifest.Json

def unitEscape (n : Nat) : List Char :=
  '\\' :: 'u' :: Text.paddedHex 4 n

/-- A character inside a string. -/
def writeChar (c : Char) : List Char :=
  match c with
  | '"' => ['\\', '"']
  | '\\' => ['\\', '\\']
  | '\n' => ['\\', 'n']
  | '\r' => ['\\', 'r']
  | '\t' => ['\\', 't']
  | '\x08' => ['\\', 'b']
  | '\x0c' => ['\\', 'f']
  | _ =>
    if ' ' ≤ c ∧ c ≤ '~' then [c]
    else if c.toNat < 0x10000 then unitEscape c.toNat
    else
      let n := c.toNat - 0x10000
      unitEscape (0xD800 + n / 0x400) ++ unitEscape (0xDC00 + n % 0x400)

/-- The character with this number inside a string, or half of a surrogate pair. -/
def writeCode (n : Nat) : List Char :=
  if n.isValidChar then writeChar (charOf n) else unitEscape n

def writeString (s : String) : String :=
  "\"" ++ String.ofList (s.toList.flatMap writeChar) ++ "\""

mutual

def write : Json → String
  | null => "null"
  | bool true => "true"
  | bool false => "false"
  | number text => (Amount.ofText text).text "Infinity" "NaN"
  | string s => writeString s
  | unpaired codes => "\"" ++ String.ofList (codes.flatMap writeCode) ++ "\""
  | array items => "[" ++ ", ".intercalate (writeItems items) ++ "]"
  | object members => "\x7b" ++ ", ".intercalate (writeMembers members) ++ "\x7d"

def writeItems : List Json → List String
  | [] => []
  | item :: rest => write item :: writeItems rest

def writeMembers : List (String × Json) → List String
  | [] => []
  | (name, value) :: rest => (writeString name ++ ": " ++ write value) :: writeMembers rest

end

end RecipeManifest.Json

import RecipeManifest.Json.Amount
import RecipeManifest.Text.Printable

/-!
The text of a value in a message. A string stands there as it is, but in quotes inside another
value.
-/

namespace RecipeManifest.Json

mutual

/-- A value with its strings in quotes. -/
def quotedText : Json → String
  | null => "None"
  | bool true => "True"
  | bool false => "False"
  | number text => (Amount.ofText text).text "inf" "nan"
  | string s => String.ofList (Text.shown s.toList)
  | unpaired codes => String.ofList (Text.shown (codes.map charOf))
  | array items => "[" ++ ", ".intercalate (quotedItems items) ++ "]"
  | object members => "\x7b" ++ ", ".intercalate (quotedMembers members) ++ "\x7d"

def quotedItems : List Json → List String
  | [] => []
  | item :: rest => quotedText item :: quotedItems rest

def quotedMembers : List (String × Json) → List String
  | [] => []
  | (name, value) :: rest =>
    (String.ofList (Text.shown name.toList) ++ ": " ++ quotedText value) :: quotedMembers rest

end

def displayText : Json → String
  | string s => s
  | unpaired codes => String.ofList (codes.map charOf)
  | value => quotedText value

/-- A value that counts as one: neither null nor false nor empty nor zero. -/
def isSet : Json → Bool
  | null | bool false => false
  | bool true => true
  | number text => !(Amount.ofText text).isZero
  | string s => s != ""
  | unpaired codes => !codes.isEmpty
  | array items => !items.isEmpty
  | object members => !members.isEmpty

/-- How the type of a value is called. -/
def typeName : Json → String
  | null => "NoneType"
  | bool _ => "bool"
  | number text =>
    match Amount.ofText text with
    | .whole _ => "int"
    | .real _ => "float"
  | string _ | unpaired _ => "str"
  | array _ => "list"
  | object _ => "dict"

end RecipeManifest.Json

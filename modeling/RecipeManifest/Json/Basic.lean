/-!
JSON values. Numbers are kept as they are written, and the members of an object in their order.
-/

namespace RecipeManifest

inductive Json where
  | null
  | bool (value : Bool)
  | number (text : String)
  | string (value : String)
  /-- A string with half of a surrogate pair in it, which is no text: the numbers of its
  characters. -/
  | unpaired (codes : List Nat)
  | array (items : List Json)
  | object (members : List (String × Json))
  deriving Inhabited

namespace Json

/-- The character with this number. Half of a surrogate pair is shown by the mark for what is no
character. -/
def charOf (n : Nat) : Char :=
  if n.isValidChar then Char.ofNat n else '\ufffd'

/-- The string of the characters with these numbers. -/
def ofCodes (codes : List Nat) : Json :=
  if codes.all fun n => n.isValidChar then string (String.ofList (codes.map charOf))
  else unpaired codes

/-- The member of that name. Of several the last one counts. -/
def member? (name : String) : Json → Option Json
  | object members => members.reverse.lookup name
  | _ => none

def string? : Json → Option String
  | string s => some s
  | _ => none

/-- The members with one of that name: in the place of the first of that name, or at the end. -/
def setMember {α : Type} (name : String) (value : α) : List (String × α) → List (String × α)
  | [] => [(name, value)]
  | (n, v) :: rest =>
    if n = name then (n, value) :: rest else (n, v) :: setMember name value rest

end Json

end RecipeManifest

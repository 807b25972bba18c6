import RecipeManifest.Log.Field
import RecipeManifest.Text.Basic
import RecipeManifest.Text.Digit
import RecipeManifest.Text.WordChar

/-!
Patterns for messages and log lines. A percent sign starts a field, two stand for one of them. A
field has maybe a name in parentheses, then flags, a width, a precision after a point, and a letter
for its kind. A star for the width or the precision takes it from the values.

A pattern is filled from left to right, so that the first fault in it is the one that counts.
-/

namespace RecipeManifest

/-- What the fields of a pattern take their values from. -/
structure Supply where
  /-- The values that the next fields take, one after the other. -/
  next : List LogValue
  /-- The values by name, if they have names. -/
  named? : Option (String → Except LogFault LogValue) := none

namespace Supply

/-- A row gives its values one after the other. An object gives its members by name, and itself to a
field without one. A list has no names, but is not missed if it is not used. -/
def ofValue : LogValue → Supply
  | .row values => ⟨values.map .data, none⟩
  | .data (.object members) =>
    ⟨[.data (.object members)], some fun name =>
      match (Json.object members).member? name with
      | some value => .ok (.data value)
      | none => .error (.missingKey name)⟩
  | .data (.array items) => ⟨[.data (.array items)], some fun _ => .error .namedItem⟩
  | value => ⟨[value], none⟩

/-- Values without names have to be used up. -/
def isUsedUp (s : Supply) : Bool :=
  s.next.isEmpty || s.named?.isSome

end Supply

namespace Pattern

/-- What is left while a pattern is filled. -/
structure Unfilled where
  supply : Supply
  text : List Char

abbrev Filling := StateT Unfilled (Except LogFault)

def take : Filling LogValue := do
  let s ← get
  match s.supply.next with
  | [] => throw .notEnough
  | value :: next =>
    set { s with supply := { s.supply with next := next } }
    return value

/-- The characters at the front that are of a class. -/
def run (p : Char → Bool) : Filling (List Char) := do
  let s ← get
  set { s with text := s.text.dropWhile p }
  return s.text.takeWhile p

/-- Steps over a character, if it comes next. -/
def pass (c : Char) : Filling Bool := do
  let s ← get
  match s.text with
  | d :: rest =>
    if d = c then
      set { s with text := rest }
      return true
    else return false
  | [] => return false

/-- A name up to the parenthesis that closes it, with `depth` others open in it, and the rest. -/
def nameAndRest? : Nat → List Char → Option (List Char × List Char)
  | _, [] => none
  | 0, ')' :: rest => some ([], rest)
  | depth, c :: rest =>
    let depth := if c = '(' then depth + 1 else if c = ')' then depth - 1 else depth
    (nameAndRest? depth rest).map fun (name, after) => (c :: name, after)

/-- The name of a field, if it has one. The value of that name comes next, and nothing after it. -/
def name : Filling Unit := do
  if ← pass '(' then
    let s ← get
    match s.supply.named? with
    | none => throw .notMapping
    | some value? =>
      match nameAndRest? 0 s.text with
      | none => throw .incompleteKey
      | some (name, rest) =>
        let value ← value? (String.ofList name)
        set ({ supply := { s.supply with next := [value] }, text := rest } : Unfilled)

/-- A whole number among the values, which has to fit into so many bits. -/
def star (bits : Nat) (type : String) : Filling Int := do
  match (← take).amount? with
  | some (.whole n) =>
    let limit : Int := Nat.pow 2 (bits - 1)
    if n < -limit ∨ limit ≤ n then throw (.outOfRange type) else return n
  | _ => throw .starWantsWhole

/-- A number in digits, if there are some. -/
def digits (bits : Nat) (tooBig : LogFault) : Filling (Option Nat) := do
  let ds ← run Char.isDigit
  let n := Double.naturalOf ds
  if ds.isEmpty then return none
  else if Nat.pow 2 (bits - 1) ≤ n then throw tooBig
  else return some n

def width : Filling (Option Int) := do
  if ← pass '*' then return some (← star 64 "ssize_t")
  else return (← digits 64 .widthTooBig).map Int.ofNat

/-- The precision after a point. None behind it means zero. -/
def precision : Filling (Option Nat) := do
  if ← pass '.' then
    if ← pass '*' then return some (← star 32 "int").toNat
    else return some ((← digits 32 .precisionTooBig).getD 0)
  else return none

/-- The letter for the kind. A mark for the size of a number may stand before it. -/
def letter : Filling Char := do
  let s ← get
  let text :=
    match s.text with
    | 'h' :: rest | 'l' :: rest | 'L' :: rest => rest
    | text => text
  match text with
  | [] => throw .incomplete
  | c :: rest =>
    set { s with text := rest }
    return c

/-- The text of the field after a percent sign, in a pattern of `total` characters. -/
def field (total : Nat) : Filling (List Char) := do
  name
  let flags ← run Field.isFlag
  let width ← width
  let precision ← precision
  let kind ← letter
  let value ← take
  let left := if width.any (· < 0) then ['-'] else []
  match Field.text? ⟨flags ++ left, width.map Int.natAbs, precision, kind⟩ value with
  | some text => text
  | none => throw (.badKind kind (total - (← get).text.length - 1))

/-- The text of a field, and what is left after it. -/
def fieldAndRest (total : Nat) (supply : Supply) (cs : List Char) :
    Except LogFault ((List Char × Supply) × List Char) := do
  let (text, left) ← (field total).run ⟨supply, cs⟩
  return ((text, left.supply), left.text)

/-- Fills what is left of a pattern of `total` characters. -/
def fillFrom (total : Nat) (supply : Supply) (cs : List Char) : Except LogFault (List Char) :=
  match cs with
  | [] => if supply.isUsedUp then .ok [] else .error .notAll
  | '%' :: '%' :: rest => do return '%' :: (← fillFrom total supply rest)
  | '%' :: rest =>
    goOn rest .incomplete (fieldAndRest total supply rest) fun (text, supply) after _ => do
      return text ++ (← fillFrom total supply after)
  | c :: rest => do return c :: (← fillFrom total supply rest)
termination_by cs.length
decreasing_by
  all_goals simp only [List.length_cons]; omega

/-- The text of a pattern filled with values. -/
def fill (pattern : String) (supply : Supply) : Except LogFault String := do
  return String.ofList (← fillFrom pattern.length supply pattern.toList)

/-- The letters that a field of a log line may have, in either case. The last three are other cases
of an `i` and an `s`. -/
def isLineKind (c : Char) : Bool :=
  "diouxefgcrsa%".toList.contains c.toLower || c == 'İ' || c == 'ı' || c == 'ſ'

/-- What is behind a width or a precision, given by a star or in digits of any script. -/
def afterAmount? : List Char → Option (List Char)
  | '*' :: rest => some rest
  | cs =>
    if (cs.takeWhile Text.isDecimalDigit).isEmpty then none
    else some (cs.dropWhile Text.isDecimalDigit)

/-- A field with a name of word characters is at the front, after its parenthesis. -/
def startsWithField (cs : List Char) : Bool :=
  !(cs.takeWhile Text.isWordChar).isEmpty &&
    match cs.dropWhile Text.isWordChar with
    | ')' :: rest =>
      let rest := rest.dropWhile Field.isFlag
      let rest := (afterAmount? rest).getD rest
      let rest :=
        match rest with
        | '.' :: more => (afterAmount? more).getD rest
        | _ => rest
      rest.head?.any isLineKind
    | _ => false

/-- A field with a name stands somewhere in the pattern. -/
def hasField : List Char → Bool
  | [] => false
  | '%' :: '(' :: rest => startsWithField rest || hasField rest
  | _ :: rest => hasField rest

end Pattern

end RecipeManifest

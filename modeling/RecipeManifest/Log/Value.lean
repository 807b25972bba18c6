import RecipeManifest.Json.Display

/-!
Values that log entries show: data, the row of values of a message, a failure, and the attributes of
the entry itself.
-/

namespace RecipeManifest

inductive LogValue where
  | data (value : Json)
  | row (values : List Json)
  /-- A failure of a kind. -/
  | failure (kind message : String)
  /-- All attributes of an entry, as they are written. -/
  | attributes (text : String)
  deriving Inhabited

namespace LogValue

/-- Some values in parentheses. One alone has a comma behind it. -/
def rowText : List Json → String
  | [value] => "(" ++ value.quotedText ++ ",)"
  | values => "(" ++ ", ".intercalate (values.map Json.quotedText) ++ ")"

def quotedText : LogValue → String
  | data value => value.quotedText
  | row values => rowText values
  | failure kind message =>
    s!"(<class '{kind}'>, {kind}(" ++ (Json.string message).quotedText ++ "), None)"
  | attributes text => text

def displayText : LogValue → String
  | data value => value.displayText
  | value => value.quotedText

/-- The value counts as one. -/
def isSet : LogValue → Bool
  | data value => value.isSet
  | row values => !values.isEmpty
  | failure _ _ | attributes _ => true

def typeName : LogValue → String
  | data value => value.typeName
  | row _ | failure _ _ => "tuple"
  | attributes _ => "dict"

def amount? : LogValue → Option Amount
  | data value => value.amount?
  | _ => none

/-- The value as JSON. What is none is written as text. -/
def toJson : LogValue → Json
  | data value => value
  | row values => .array values
  | value => .string value.quotedText

end LogValue

end RecipeManifest

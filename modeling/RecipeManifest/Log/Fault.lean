import RecipeManifest.Text.Printable

/-!
What can be wrong with a log entry: its message or its line cannot be filled with values, or what it
brings with it does not fit.
-/

namespace RecipeManifest

inductive LogFault where
  /-- A pattern for log lines has no field. -/
  | noField (pattern : String)
  | unknownField (name : String)
  | incomplete
  | incompleteKey
  /-- No value has the name of a field. -/
  | missingKey (name : String)
  /-- A field has a name, and the values stand in a list. -/
  | namedItem
  | notMapping
  | badKind (kind : Char) (index : Nat)
  | notEnough
  | notAll
  | widthTooBig
  | precisionTooBig
  | precisionTooLarge
  /-- A width or precision is to be taken from a value that is no whole number. -/
  | starWantsWhole
  /-- A width or precision is out of the range of that type. -/
  | outOfRange (type : String)
  /-- A line would not fit into the memory. -/
  | outOfMemory
  | notNumber (kind : Char) (type : String)
  | notWhole (kind : Char) (type : String)
  | notReal (type : String)
  | tooLargeForReal
  | notNumberAsWhole
  | infinityAsWhole
  | notCharacter
  | characterOutOfRange
  /-- Something is to be put behind a text that is no text. -/
  | notText (type : String)
  /-- The time is no number. -/
  | timeNotNumber (type : String)
  | timeOutOfRange
  | timeUndefined
  | yearOutOfSystem
  | yearOutOfRange
  /-- An extra attribute has the name of one that every entry has. -/
  | overwrites (name : String)
  | notCallable (type : String)
  | notSubscriptable (type : String)
  | noSuchAttribute (type name : String)
  | missingIndex
  /-- The name of a level stands for something else. -/
  | unknownLevel (text : String)
  | badLevel (text : String)
  deriving DecidableEq, Repr

namespace LogFault

/-- The name under which the fault is reported. -/
def kind : LogFault → String
  | noField _ | unknownField _ | incomplete | incompleteKey | badKind _ _ | widthTooBig
  | precisionTooBig | notNumberAsWhole | timeUndefined | unknownLevel _ => "ValueError"
  | missingKey _ | missingIndex | overwrites _ => "KeyError"
  | namedItem | notMapping | notEnough | notAll | starWantsWhole | notNumber _ _ | notWhole _ _
  | notReal _ | notCharacter | notText _ | timeNotNumber _ | notCallable _ | notSubscriptable _
  | badLevel _ => "TypeError"
  | precisionTooLarge | outOfRange _ | tooLargeForReal | infinityAsWhole | characterOutOfRange
  | timeOutOfRange | yearOutOfRange => "OverflowError"
  | outOfMemory => "MemoryError"
  | yearOutOfSystem => "OSError"
  | noSuchAttribute _ _ => "AttributeError"

/-- A text in quotes. -/
def inQuotes (text : String) : String :=
  String.ofList (Text.shown text.toList)

def message : LogFault → String
  | noField pattern => s!"Invalid format '{pattern}' for '%' style"
  | unknownField name => s!"Formatting field not found in record: {inQuotes name}"
  | incomplete => "incomplete format"
  | incompleteKey => "incomplete format key"
  | missingKey name => inQuotes name
  | missingIndex => "0"
  | namedItem => "list indices must be integers or slices, not str"
  | notMapping => "format requires a mapping"
  | badKind kind index =>
    let code := String.ofList (Nat.toDigits 16 kind.toNat)
    let shown := if 31 ≤ kind.toNat ∧ kind.toNat ≤ 126 then kind else '?'
    s!"unsupported format character '{shown}' (0x{code}) at index {index}"
  | notEnough => "not enough arguments for format string"
  | notAll => "not all arguments converted during string formatting"
  | widthTooBig => "width too big"
  | precisionTooBig => "precision too big"
  | precisionTooLarge => "precision too large"
  | starWantsWhole => "* wants int"
  | outOfRange type => s!"Python int too large to convert to C {type}"
  | outOfMemory => ""
  | notNumber kind type => s!"%{kind} format: a real number is required, not {type}"
  | notWhole kind type => s!"%{kind} format: an integer is required, not {type}"
  | notReal type => s!"must be real number, not {type}"
  | tooLargeForReal => "int too large to convert to float"
  | notNumberAsWhole => "cannot convert float NaN to integer"
  | infinityAsWhole => "cannot convert float infinity to integer"
  | notCharacter => "%c requires int or char"
  | characterOutOfRange => "%c arg not in range(0x110000)"
  | notText type => s!"can only concatenate str (not \"{type}\") to str"
  | timeNotNumber type => s!"'{type}' object cannot be interpreted as an integer"
  | timeOutOfRange => "timestamp out of range for platform time_t"
  | timeUndefined => "Invalid value NaN (not a number)"
  | yearOutOfSystem => "[Errno 75] Value too large for defined data type"
  | yearOutOfRange => "signed integer is greater than maximum"
  | overwrites name => inQuotes s!"Attempt to overwrite {inQuotes name} in LogRecord"
  | notCallable type => s!"'{type}' object is not callable"
  | notSubscriptable type => s!"'{type}' object is not subscriptable"
  | noSuchAttribute type name => s!"'{type}' object has no attribute '{name}'"
  | unknownLevel text => s!"Unknown level: {inQuotes text}"
  | badLevel text => s!"Level not an integer or a valid string: {text}"

end LogFault

end RecipeManifest

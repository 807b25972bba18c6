import RecipeManifest.Log.Level
import RecipeManifest.Log.Pattern
import RecipeManifest.Log.Time

/-!
Log entries: a message with its level and logger, and the context in which it was logged.

The message is a pattern if values for it are given. Other values come with an entry as extra
attributes, and may take the place of the attributes that every entry has.
-/

namespace RecipeManifest

/-- What is being worked on while a message is logged. -/
structure Context where
  operation : Option String := none
  cookbook : Option String := none
  recipe : Option String := none
  deriving DecidableEq, Repr, Inhabited

namespace Context

/-- The context with the fields that `change` sets. -/
def update (c change : Context) : Context :=
  ⟨change.operation <|> c.operation, change.cookbook <|> c.cookbook, change.recipe <|> c.recipe⟩

/-- The fields by their names, whether they are set or not. -/
def fields (c : Context) : List (String × Option String) :=
  [("operation", c.operation), ("cookbook", c.cookbook), ("recipe", c.recipe)]

/-- The fields that are shown: those with a text in them. -/
def shownFields (c : Context) : List (String × String) :=
  c.fields.filterMap fun (name, value) =>
    match value with
    | some text => if text = "" then none else some (name, text)
    | none => none

end Context

/-- A failure that is logged. -/
structure LoggedFailure where
  kind : String
  message : String
  deriving DecidableEq, Repr

structure LogEntry where
  level : Level
  logger : String
  message : String
  values : List Json := []
  extra : List (String × Json) := []
  failure : Option LoggedFailure := none
  context : Context := {}

/-- The attributes of an entry by their names, in their order. -/
abbrev Attributes := List (String × LogValue)

namespace LogEntry

/-- A number in floating point, given in thousandths. -/
def thousandths (n : Int) : LogValue :=
  .data (.number ((Amount.real (.ofFraction (n < 0) n.natAbs 1000)).text "inf" "nan"))

/-- The values for the message. A single object with members stands for itself. -/
def given : List Json → LogValue
  | [.object (m :: ms)] => .data (.object (m :: ms))
  | values => .row values

/-- The attributes that every entry has, in their order, for an entry that is logged at a time. -/
def ownAttributes (e : LogEntry) (time : Timestamp) : Attributes :=
  let text (s : String) : LogValue := .data (.string s)
  let whole (n : Nat) : LogValue := .data (.number (toString n))
  [("name", text e.logger), ("msg", text e.message), ("args", given e.values),
    ("levelname", text e.level.name), ("levelno", whole e.level.weight),
    ("pathname", text "-"), ("filename", text "-"), ("module", text "-"),
    ("exc_info", match e.failure with
      | some f => .failure f.kind f.message
      | none => .data .null),
    ("exc_text", .data .null), ("stack_info", .data .null), ("lineno", whole 0),
    ("funcName", text "-"), ("created", thousandths (1000 * time.seconds + time.milliseconds)),
    ("msecs", thousandths (1000 * time.milliseconds)), ("relativeCreated", thousandths 0),
    ("thread", whole 0), ("threadName", text "MainThread"), ("processName", text "MainProcess"),
    ("process", whole 0)]

/-- The attributes of an entry. Extra ones come last, or take the place of one of their name; the
fields of the context are always those of the moment. -/
def attributes (e : LogEntry) (time : Timestamp) : Attributes :=
  let withExtra := e.extra.foldl (fun l (name, value) => Json.setMember name (.data value) l)
    (e.ownAttributes time)
  e.context.fields.foldl (fun l (name, value) =>
    Json.setMember name (.data (match value with
      | some text => .string text
      | none => .null)) l) withExtra

/-- The first extra attribute that no entry can take, because it would hide one of its own. -/
def overwriting? (e : LogEntry) : Option String :=
  let own := "message" :: "asctime" :: (e.ownAttributes ⟨0, 0⟩).map (·.1)
  (e.extra.map (·.1)).find? own.contains

end LogEntry

namespace Attributes

/-- An attribute, null if there is none. -/
def value (a : Attributes) (name : String) : LogValue :=
  (a.lookup name).getD (.data .null)

/-- The attributes as one value. -/
def listing (a : Attributes) : LogValue :=
  let member : String × LogValue → String := fun (name, value) =>
    LogFault.inQuotes name ++ ": " ++ value.quotedText
  .attributes ("\x7b" ++ ", ".intercalate (a.map member) ++ "\x7d")

/-- The message with the values put in, if there are some. -/
def message (a : Attributes) : Except LogFault String :=
  match a.lookup "getMessage" with
  | some hidden => .error (.notCallable hidden.typeName)
  | none =>
    let pattern := (a.value "msg").displayText
    let given := a.value "args"
    if given.isSet then Pattern.fill pattern (.ofValue given) else .ok pattern

/-- The seconds at which the entry was created. -/
def seconds (a : Attributes) (time : Timestamp) : Except LogFault Int :=
  let created := a.value "created"
  match created, created.amount? with
  | .data .null, _ => .ok time.seconds
  | _, some (.whole n) => .ok n
  | _, some (.real x) =>
    match x.floor? with
    | some n => .ok n
    | none => .error (if x = .notNumber then .timeUndefined else .timeOutOfRange)
  | value, none => .error (.timeNotNumber value.typeName)

/-- The time of an entry to the second. -/
def timeText (a : Attributes) (time : Timestamp) : Except LogFault String := do
  Timestamp.text ⟨← a.seconds time, 0⟩

/-- The time of an entry to the millisecond. -/
def fullTimeText (a : Attributes) (time : Timestamp) : Except LogFault String := do
  let seconds ← a.timeText time
  let milliseconds ← Field.decimal ⟨['0'], some 3, none, 'd'⟩ (a.value "msecs")
  return seconds ++ "," ++ String.ofList milliseconds

end Attributes

end RecipeManifest

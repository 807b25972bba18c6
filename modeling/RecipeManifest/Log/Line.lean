import RecipeManifest.Json.Writer
import RecipeManifest.Log.Entry

/-!
Log entries as text: filled into a pattern with the context after it, or as a JSON object.
-/

namespace RecipeManifest

/-- How log entries are written. -/
inductive LineForm where
  /-- By a pattern. Times in it may be given to the second or to the millisecond. -/
  | pattern (text : String) (milliseconds : Bool)
  | json
  deriving DecidableEq, Repr

namespace LineForm

/-- The pattern of a line that has only the message. -/
def messageOnly : String := "%(message)s"

/-- A form by a pattern given by the user. The pattern has to have a field; an empty one stands for
the message alone. -/
def ofPattern (pattern : String) : Except LogFault LineForm :=
  if pattern = "" then .ok (.pattern messageOnly true)
  else if Pattern.hasField pattern.toList then .ok (.pattern pattern true)
  else .error (.noField pattern)

/-- The form of plain log lines. -/
def plain : LineForm :=
  .pattern "%(asctime)s - %(name)s - %(levelname)s - %(message)s" false

end LineForm

namespace Attributes

/-- A value on a new line after a text. A value that is none is left out. -/
def below (text : String) (value : LogValue) : Except LogFault String :=
  if !value.isSet then .ok text
  else
    match value with
    | .data (.string more) =>
      .ok (if text.endsWith "\n" then text ++ more else text ++ "\n" ++ more)
    | value => .error (.notText value.typeName)

/-- How a failure is shown, if there is one. -/
def failureText? (a : Attributes) : Except LogFault (Option String) :=
  match a.value "exc_info" with
  | .failure kind message => .ok (some s!"{kind}: {message}")
  | value =>
    if !value.isSet then .ok none
    else
      match value with
      | .data (.string _) => .error (.noSuchAttribute "str" "__name__")
      | .data (.array (first :: _)) => .error (.noSuchAttribute first.typeName "__name__")
      | .data (.object _) => .error .missingIndex
      | value => .error (.notSubscriptable value.typeName)

/-- What is shown of a failure below a line: the text that is given for it, or its own. -/
def shownFailure (a : Attributes) : Except LogFault LogValue := do
  let given := a.value "exc_text"
  if given.isSet then return given
  else
    match ← a.failureText? with
    | some text => return .data (.string text)
    | none => return given

/-- The attributes by a pattern. -/
def patternLine (a : Attributes) (pattern : String) (time : Except LogFault String) :
    Except LogFault String := do
  let a : Attributes := Json.setMember "message" (.data (.string (← a.message))) a
  let a : Attributes ←
    if (pattern.splitOn "%(asctime)").length = 1 then pure a
    else pure (Json.setMember "asctime" (.data (.string (← time))) a)
  let named (name : String) : Except LogFault LogValue :=
    match a.lookup name with
    | some value => .ok value
    | none => .error (.unknownField name)
  let line ← Pattern.fill pattern ⟨[a.listing], some named⟩
  below (← below line (← a.shownFailure)) (a.value "stack_info")

end Attributes

namespace LogEntry

/-- The names of the attributes that are no extra ones, whoever sets them. -/
def reservedNames : List String :=
  ["name", "msg", "args", "created", "msecs", "levelname", "levelno", "pathname", "filename",
    "module", "exc_info", "exc_text", "stack_info", "lineno", "funcName", "processName", "process",
    "threadName", "thread", "taskName", "message", "asctime", "relativeCreated", "operation",
    "cookbook", "recipe"]

/-- The context after a line, if something is set. -/
def contextSuffix (e : LogEntry) : String :=
  match e.context.shownFields with
  | [] => ""
  | fields => " [" ++ ", ".intercalate (fields.map fun (name, text) => name ++ "=" ++ text) ++ "]"

/-- The entry as a JSON object. Extra attributes come last, or take the place of a member of their
name. -/
def jsonLine (e : LogEntry) (time : Timestamp) : Except LogFault String := do
  let a := e.attributes time
  let own (name : String) : Json := (a.value name).toJson
  let timestamp ← a.fullTimeText time
  let message ← a.message
  let members := [("timestamp", .string timestamp), ("level", own "levelname"),
    ("logger", own "name"), ("message", .string message), ("module", own "module"),
    ("function", own "funcName"), ("line", own "lineno")]
  let context := e.context.shownFields.map fun (name, text) => (name, Json.string text)
  let failure :=
    match ← a.failureText? with
    | some text => [("exception", Json.string text)]
    | none => []
  let extra := e.extra.filter fun (name, _) =>
    !reservedNames.contains name && !name.startsWith "_"
  let all := extra.foldl (fun members (name, value) => Json.setMember name value members)
    (members ++ context ++ failure)
  return (Json.object all).write

/-- The entry in a form. -/
def line (e : LogEntry) (form : LineForm) (time : Timestamp) : Except LogFault String := do
  let a := e.attributes time
  match form with
  | .pattern pattern milliseconds =>
    let line ← a.patternLine pattern
      (if milliseconds then a.fullTimeText time else a.timeText time)
    return line ++ e.contextSuffix
  | .json => e.jsonLine time

end LogEntry

end RecipeManifest

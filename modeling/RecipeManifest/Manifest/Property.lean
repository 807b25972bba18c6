import RecipeManifest.Log.Note
import RecipeManifest.Manifest.Draft
import RecipeManifest.Settings
import RecipeManifest.Tables
import RecipeManifest.Text.Casing

/-!
Properties of a declaration as attribute statements of a manifest.

A few properties have rules of their own; all others keep their name and give their arguments as a
quoted value, or bare if it is a number. References to other resources among the arguments become
subscriptions, which stand first.
-/

namespace RecipeManifest

/-- One `name => value` of a resource. -/
structure Assignment where
  name : String
  value : String
  deriving DecidableEq, Repr

def Assignment.text (s : Assignment) : String :=
  s!"{s.name} => {s.value}"

/-- What conversion goes by. -/
structure Style where
  tables : Tables := {}
  settings : Settings := {}
  deriving DecidableEq, Repr

/-- A value of ASCII digits alone, maybe with a newline behind them. -/
def isNumeral (value : String) : Bool :=
  let cs := value.toList
  let digits := cs.takeWhile Char.isDigit
  !digits.isEmpty && (cs.drop digits.length == [] || cs.drop digits.length == ['\n'])

def isReference : Expr → Bool
  | .resources _ => true
  | _ => false

/-- The guard of a manifest that a guard of a recipe becomes. -/
def guardName? : String → Option String
  | "not_if" => some "unless"
  | "only_if" => some "onlyif"
  | _ => none

namespace Property

variable (style : Style) (p : Property) (resourceType : String)

/-- The subscriptions to the resources that an argument refers to. -/
def subscriptionsTo : Expr → List Assignment
  | .resources targets =>
    targets.map fun (type, name) =>
      let shownType := String.ofList (Text.capitalized (style.tables.typeName type).toList)
      ⟨"subscribe", s!"{shownType}[{quoted name}]"⟩
  | _ => []

/-- The arguments that are no references, as one text. -/
def argumentText : Except Fault String := do
  return " ".intercalate (← Expr.renderAll false (p.args.filter fun a => !isReference a))

/-- The property under its own name. -/
def plainStatement : Except Fault (List Assignment) := do
  let value ← p.argumentText
  return [⟨p.name, if isNumeral value then value else quoted value⟩]

/-- Where a file's content comes from, by the type of resource. -/
def sourceStatement : Except Fault (List Assignment) :=
  match resourceType with
  | "template" => do
    let template := quoted (← p.argumentText)
    return [⟨"content", s!"template({template})"⟩]
  | "file" | "remote_file" | "cookbook_file" => do
    return [⟨"source", quoted (style.settings.fileSourcePrefix ++ (← p.argumentText))⟩]
  | _ => p.plainStatement

/-- The items of an array, or the argument itself. -/
def actionItems : Expr → List Expr
  | .array items => items
  | e => [e]

/-- The states that the actions bring about. -/
def actionStatements : Except Fault (List Assignment) := do
  let actions ← Expr.renderAll false (p.args.flatMap actionItems)
  return actions.map fun action => ⟨"ensure", quoted (style.tables.stateOf action)⟩

/-- A guard with a block. Without one, a guard with arguments is noted and left out. -/
def guardStatement (name : String) : Noted (List Assignment) := do
  match p.block with
  | none =>
    if !p.args.isEmpty then
      Noted.note .warning .property
        (s!"Skipping '{p.name}' without a block in {resourceType} " ++
          s!"resource (line {p.line}); only block guards are translated")
    return []
  | some body =>
    let condition ← Noted.lift (Expr.conditionText (blockValue body))
    return if condition = "" then [] else [⟨name, quoted condition⟩]

/-- The statements that a property itself gives. -/
def ownStatements : Noted (List Assignment) :=
  match p.name with
  | "source" => Noted.lift (p.sourceStatement style resourceType)
  | "backup" => Noted.lift do return [⟨"backup", ← p.argumentText⟩]
  | "to" => Noted.lift do return [⟨"ensure", quoted (← p.argumentText)⟩]
  | "running" => pure [⟨"ensure", "running"⟩]
  | "action" => Noted.lift (p.actionStatements style)
  | "resources" | "command" | "subscribes" | "notifies" => pure []
  | name =>
    match guardName? name with
    | some guardName => p.guardStatement resourceType guardName
    | none => Noted.lift p.plainStatement

/-- The statements for a property of a resource of that type. -/
def statements : Noted (List Assignment) := do
  let own ← p.ownStatements style resourceType
  if p.block.isSome && (guardName? p.name).isNone then
    Noted.note .warning .property
      (s!"Ignoring nested block of '{p.name}' in {resourceType} " ++
        s!"resource (line {p.line})")
  return p.args.flatMap (subscriptionsTo style) ++ own

end Property

end RecipeManifest

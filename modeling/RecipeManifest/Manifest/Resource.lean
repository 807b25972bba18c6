import RecipeManifest.Manifest.Property

/-!
Declarations as resources of a manifest.

The state that goes without saying for a type is added to a resource that does not set it. A
command is known by what it runs, and its label becomes a comment.
-/

namespace RecipeManifest

/-- One resource of a manifest. -/
structure ResourceBlock where
  type : String
  title : String
  statements : List Assignment
  comment : Option String
  deriving DecidableEq, Repr

namespace ResourceBlock

/-- Some statement starts with the text. -/
def anyStartsWith (b : ResourceBlock) (text : String) : Bool :=
  b.statements.any fun s => text.toList.isPrefixOf s.text.toList

/-- The resource as it stands in a manifest, with an empty line behind it. -/
def text (settings : Settings) (indent : String) (b : ResourceBlock) : String :=
  let comment :=
    match b.comment with
    | some c => s!"{indent}# {c}\n"
    | none => ""
  let body := settings.separator.intercalate (b.statements.map Assignment.text)
  comment ++ s!"{indent}{b.type} \x7b {b.title}:\n" ++
    s!"{settings.bodyIndent}{body};\n{indent}\x7d\n\n"

end ResourceBlock

namespace Resource

variable (style : Style) (r : Resource)

/-- The command of an `execute` declaration. -/
def command : Except Fault String :=
  match (r.find? "command").bind fun p => p.args.head? with
  | some e => Expr.commandText (some e)
  | none => Expr.commandText r.name

/-- The title, and the comment above it. -/
def heading : Except Fault (String × Option String) := do
  let title ← Expr.titleText r.name
  if r.type = "execute" then
    let command ← r.command
    let label ← Expr.valueText false r.name
    let comment := label.map fun c => if c = '-' ∨ c = '_' then ' ' else c
    return (quoted command, some comment)
  else return (title, none)

/-- The statements of a declaration's block, in order. -/
def bodyStatements : List Statement → Noted (List Assignment)
  | [] => pure []
  | s :: rest => do
    let own ←
      match s.property? with
      | some p => p.statements style r.type
      | none => do
        Noted.note .warning .resource
          (s!"Ignoring statement in {r.type} resource " ++
            s!"(line {s.line}): not an attribute call")
        pure []
    return own ++ (← bodyStatements rest)

/-- Adds the state that goes without saying, unless it is set. -/
def withDefaultState (b : ResourceBlock) : ResourceBlock :=
  match style.tables.defaultState? r.type with
  | none | some "" => b
  | some state =>
    let s : Assignment := ⟨"ensure", quoted state⟩
    if b.anyStartsWith s.text then b else { b with statements := b.statements ++ [s] }

/-- The resource that a declaration becomes. -/
def toBlock : Noted ResourceBlock := do
  let (title, comment) ← Noted.lift r.heading
  let statements ← r.bodyStatements style r.body
  return r.withDefaultState style ⟨style.tables.typeName r.type, title, statements, comment⟩

end Resource

end RecipeManifest

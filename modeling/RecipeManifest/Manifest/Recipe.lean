import RecipeManifest.Files.Path
import RecipeManifest.Manifest.Resource
import RecipeManifest.Recipe.Block
import RecipeManifest.Statement.Reader

/-!
Whole recipes as manifests.

The class opens before the first block of statements and closes at the end; a recipe of comments
alone has none. Comments keep their place. Code that is no declaration becomes a comment.
-/

namespace RecipeManifest

/-- A recipe's manifest. -/
structure Manifest where
  className : String
  text : String
  classOpened : Bool
  deriving DecidableEq, Repr, Inhabited

/-- Code as a comment, line by line. -/
def commentedOut (indent source : String) : String :=
  String.join ((Text.splitLines source.toList).map fun line =>
    indent ++ "# " ++ String.ofList (Text.trimEnd line) ++ "\n")

namespace Statement

/-- A statement of a recipe as it stands in the manifest. -/
def toManifest (style : Style) (source : String) (s : Statement) : Noted String := do
  let indent := style.settings.headerIndent
  match s with
  | unsupported code line =>
    Noted.note .warning .manifest
      (s!"Passing through unsupported code in {source} at line " ++
        s!"{line} as a comment")
    return commentedOut indent code
  | resource type name body hasBlock line =>
    Noted.note .debug .manifest s!"Translating {type} resource at line {line}"
    if type = "include_recipe" then
      let name ← Noted.lift (Expr.valueText false name)
      return s!"{indent}include {name}\n\n"
    else
      let block ← Resource.toBlock style ⟨type, name, body, hasBlock, line⟩
      return block.text style.settings indent
  | _ =>
    Noted.note .warning .manifest s!"Ignoring top-level statement in {source} at line {s.line}"
    return ""

/-- The statements of a block, one after the other. -/
def allToManifest (style : Style) (source : String) : List Statement → Noted String
  | [] => pure ""
  | s :: rest => do
    let text ← s.toManifest style source
    return text ++ (← allToManifest style source rest)

end Statement

namespace Section

/-- The statements of a block of a recipe. A statement that the block ends in is noted. -/
def blockToManifest (style : Style) (source : String) (text : List Char) (lines : LineMap) :
    Noted String := do
  let parsed ←
    match BlockContent.read lines text with
    | .ok parsed => pure parsed
    | .error f => Noted.lift (.error (.ofLex source f))
  if let some line := parsed.unterminatedLine then
    Noted.note .warning .manifest
      (s!"Dropping unterminated statement block in {source} " ++ s!"starting at line {line}")
  Statement.allToManifest style source parsed.statements

/-- The manifest of the sections from here on, and whether the class is open at its end. -/
def allToManifest (style : Style) (className source : String) (opened : Bool) :
    List Section → Noted (String × Bool)
  | [] => pure (if opened then "\x7d\n" else "", opened)
  | .comment text _ :: rest => do
    let (more, opened') ← allToManifest style className source opened rest
    return ((if opened then style.settings.headerIndent else "") ++ text ++ "\n" ++ more, opened')
  | .block text lines _ :: rest => do
    let body ← blockToManifest style source text lines
    let header := if opened then "" else s!"class {className} \x7b\n"
    let (more, opened') ← allToManifest style className source true rest
    return (header ++ body ++ more, opened')

end Section

/-- The manifest of a recipe. The source's name is used in notes and faults. -/
def Manifest.ofRecipe (style : Style) (className source : String) (content : String) :
    Noted Manifest := do
  let sections := Section.scan (Text.splitLines content.toList)
  let (text, opened) ← Section.allToManifest style className source false sections
  return ⟨className, text, opened⟩

/-- The class of a recipe file: its name without the suffix of recipes. An empty suffix leaves
nothing of the name. -/
def recipeClass (settings : Settings) (p : Path) : String :=
  let name := p.name
  if settings.recipeSuffix = "" then ""
  else if name.endsWith settings.recipeSuffix then
    String.ofList (name.toList.take (name.length - settings.recipeSuffix.length))
  else name

end RecipeManifest

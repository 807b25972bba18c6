import RecipeManifest.Statement.Basic
import RecipeManifest.Text.Basic
import RecipeManifest.Text.WordChar

/-!
Calls that are read as more than calls: references to resources and tests of files.
-/

namespace RecipeManifest

/-- A resource named in one text, `type[name]`. White space around it and quotes around the name
do not count, and the name keeps to one line. -/
def reference? (text : String) : Option (String × String) :=
  let cs := text.toList.dropWhile Text.isBlank
  let type := cs.takeWhile fun c => Text.isWordChar c || c == ':'
  match cs.drop type.length with
  | '[' :: rest =>
    match (Text.trimEnd rest).reverse with
    | ']' :: name =>
      if type = [] ∨ '\n' ∈ name then none
      else
        let bare := Text.trimBy (fun c => c == '\'' || c == '"') name.reverse
        some (String.ofList type, String.ofList bare)
    | _ => none
  | _ => none

/-- The resources that the arguments of a lookup name: by pairs of type and name, or by texts. -/
def lookupTargets (args : List Expr) : List (String × String) :=
  args.flatMap fun
    | .hash pairs => pairs.map fun (type, name) => (type.namingText, name.namingText)
    | .literal _ value => (reference? value).toList
    | _ => []

/-- Calls that test what a path is, with the flag that the shell's test command has for it. -/
def fileTests : List ((String × String) × String) := [
  (("File", "exist?"), "-f"), (("File", "exists?"), "-f"), (("File", "file?"), "-f"),
  (("File", "directory?"), "-d"), (("Dir", "exist?"), "-d"), (("Dir", "exists?"), "-d")]

/-- A method call, read as a file test where it is one. -/
def selectedCall (receiver : Option Expr) (name : String) (args : List Expr) : Expr :=
  match receiver, args with
  | some (.call none type []), [path] =>
    match fileTests.lookup (type, name) with
    | some flag => .fileTest flag path
    | none => .call receiver name args
  | _, _ => .call receiver name args

end RecipeManifest

import RecipeManifest.Cookbook.Structure
import RecipeManifest.Files.Guarded
import RecipeManifest.Json.Reader

/-!
The name of a cookbook, from its metadata: the member `name` of the JSON file, or without one the
line of the script that declares it.
-/

namespace RecipeManifest

namespace Metadata

def isQuote (c : Char) : Bool :=
  c == '\'' || c == '"'

/-- The name that a declaration at this place gives: the word, blanks, and the name in quotes of
either kind. -/
def nameHere? (cs : List Char) : Option (List Char) :=
  match cs.dropWhile Text.isBlank with
  | 'n' :: 'a' :: 'm' :: 'e' :: blank :: rest =>
    if !Text.isBlank blank then none
    else
      match rest.dropWhile Text.isBlank with
      | quote :: body =>
        let name := body.takeWhile fun c => !isQuote c
        let closed := (body.dropWhile fun c => !isQuote c) != []
        if isQuote quote && name != [] && closed then some name else none
      | [] => none
  | _ => none

/-- The name that the first declaration at the start of a line gives. -/
def declaredName? (lineStart : Bool) : List Char → Option (List Char)
  | [] => none
  | c :: rest =>
    match if lineStart then nameHere? (c :: rest) else none with
    | some name => some name
    | none => declaredName? (c == '\n') rest

/-- The name in a metadata script. -/
def scriptName? (content : String) : Option String :=
  (declaredName? true content.toList).map String.ofList

end Metadata

namespace FileSystem

variable (fs : FileSystem)

/-- The text of a metadata file of the cookbook at `root`. -/
def metadataText (file root : Path) : Except Fault String :=
  match fs.readTextWithin file root with
  | .error (.system e path) => refused (.system e path)
  | .error (.undecodable f) => refused (.undecodable f)
  | result => result
where
  refused (f : Fault) : Except Fault String :=
    .error (.report (.invalidCookbook root.text
      s!"cannot read {file.name}: {f.text fs.display}"))

/-- The member `name` of a metadata file in JSON. A string that is no text names no directory. -/
def jsonName? (file root : Path) : Except Fault (Option String) := do
  let content ← fs.metadataText file root
  let refused (reason : String) : Except Fault (Option String) :=
    .error (.report (.invalidCookbook root.text s!"{file.name} is not {reason}"))
  match Json.parse content.toList with
  | .error ⟨.tooManyDigits count, _⟩ => .error (.tooManyDigits count)
  | .error f => refused s!"valid JSON: {f.message content.toList}"
  | .ok (.object members) =>
    match (Json.object members).member? "name" with
    | some (.unpaired codes) => .error (.path (.ofUnpaired codes))
    | value => return value.bind Json.string?
  | .ok _ => refused "a JSON object"

/-- The name that the metadata of the cookbook at `root` gives. The script is looked at only if
there is no JSON file. -/
def metadataName? (json script root : Path) : Except Fault (Option String) := do
  let isJson ← Errno.at json (fs.tree.leadsToFile json)
  if isJson then fs.jsonName? json root
  else
    let isScript ← Errno.at script (fs.tree.leadsToFile script)
    if isScript then (fs.metadataText script root).map Metadata.scriptName?
    else .error (.report (.missing json.text "metadata"))

/-- The name of the cookbook at an absolute path. -/
def cookbookNameAt (root : Path) : Except Fault String := do
  let json ← fs.join root [metadataJson]
  let script ← fs.join root [metadataScript]
  let name ← fs.metadataName? json script root
  let name := String.ofList (Text.trim (name.getD "").toList)
  if name = "" then
    .error (.report (.invalidCookbook root.text "metadata does not declare a name"))
  else return name

/-- The name of the cookbook that a path leads to. -/
def cookbookName (path : String) : Except Fault String := do
  let root ← (fs.normalizeText path).mapError .path
  fs.cookbookNameAt root

end FileSystem

end RecipeManifest

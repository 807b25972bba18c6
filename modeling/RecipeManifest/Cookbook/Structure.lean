import RecipeManifest.Fault

/-!
What a directory must hold to be a cookbook: metadata and a directory of recipes.
-/

namespace RecipeManifest

def metadataJson : String := "metadata.json"

def metadataScript : String := "metadata.rb"

def recipesDirectory : String := "recipes"

namespace FileSystem

variable (fs : FileSystem)

/-- The entry that a path leads to, if there is one. Only a name that is too long keeps this from
being known. A path that no system could take leads nowhere. -/
def found? (p : Path) : Except Fault (Option Entry) :=
  if p.parts.any fun part => part.contains '\x00' then .ok none
  else
    match fs.status p with
    | .ok e => .ok (some e)
    | .error .nameTooLong => .error (.system .nameTooLong p.text)
    | .error _ => .ok none

/-- The report of a missing path. A loop of links cannot be shown in it and is a failure of its
own. -/
def missing (path kind : String) : Fault :=
  match fs.locate (Path.ofString path) with
  | .ok place =>
    if fs.isLoop place then .failure s!"Symlink loop from {shownText place.text}"
    else .report (.missing path kind)
  | .error _ => .report (.missing path kind)

/-- The path of a directory that has to be there. -/
def requireDirectory (path kind : String) : Except Fault Path := do
  let p := Path.ofString path
  match ← fs.found? p with
  | some .directory => return p
  | some _ => .error (.report (.notDirectory (fs.display path) kind))
  | none => .error (fs.missing path kind)

/-- The path of a cookbook, which has to have metadata and recipes. -/
def requireCookbook (path : String) : Except Fault Path := do
  let p ← fs.requireDirectory path "cookbook"
  let json ← fs.found? (p.child metadataJson)
  let metadata ← if json.isSome then pure json else fs.found? (p.child metadataScript)
  if metadata.isNone then
    .error (.report (.invalidCookbook path
      "No metadata.json or metadata.rb found in cookbook root"))
  else
    let _ ← fs.requireDirectory (p.child recipesDirectory).text "recipes directory"
    return p

end FileSystem

end RecipeManifest

import RecipeManifest.Cookbook.Metadata

/-!
Where a cookbook is read from and where its module is written to.
-/

namespace RecipeManifest

structure Layout where
  cookbookName : String
  cookbookPath : Path
  recipesPath : Path
  outputRoot : Path
  outputPath : Path
  /-- The manifests that have been written. -/
  manifests : List Path := []
  deriving DecidableEq, Repr

def manifestsDirectory : String := "manifests"

namespace FileSystem

variable (fs : FileSystem)

/-- The layout of the module for a cookbook, which is checked first. -/
def plan (cookbook output : String) : Except Fault Layout := do
  let root ← (fs.normalize (← fs.requireCookbook cookbook)).mapError .path
  let name ← fs.cookbookNameAt (← (fs.normalize root).mapError .path)
  let outputRoot ← (fs.normalizeText output).mapError .path
  let recipes ← fs.join root [recipesDirectory]
  let outputPath ← fs.join outputRoot [name]
  return ⟨name, root, recipes, outputRoot, outputPath, []⟩

/-- The directory of the manifests. -/
def manifestsPath (layout : Layout) : Except Fault Path :=
  fs.join layout.outputPath [manifestsDirectory]

/-- The files among some places in the cookbook. -/
def filesAmong (base : Path) : List Path → Except Fault (List Path)
  | [] => .ok []
  | place :: rest => do
    let isFile ← fs.isFileWithin place base
    let more ← filesAmong base rest
    return if isFile then place :: more else more

/-- The recipes of the cookbook, in order of their names. -/
def recipes (layout : Layout) : Except Fault (List Path) := do
  fs.filesAmong layout.cookbookPath
    (← fs.listWithin layout.recipesPath layout.cookbookPath)

end FileSystem

end RecipeManifest

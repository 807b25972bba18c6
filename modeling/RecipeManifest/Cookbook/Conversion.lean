import RecipeManifest.Cookbook.Work
import RecipeManifest.Manifest.Recipe

/-!
Converting a cookbook into a module: its directories are made, and each recipe becomes a manifest.
The first failure ends the conversion.
-/

namespace RecipeManifest

namespace Layout

/-- Makes a directory of the module, and those on the way to it. -/
def makeDirectory (layout : Layout) (directory : String) : Work Unit := do
  let pieces := (Text.pieces (· == '/') directory.toList).map String.ofList
  let target ← Work.look fun fs => fs.join layout.outputPath pieces
  Work.attempt fun fs => fs.makeDirectoryWithin target layout.outputRoot true true

/-- Makes the directories that every module has. -/
def makeDirectories (settings : Settings) (layout : Layout) : Work Unit := do
  Work.attempt fun fs =>
    fs.makeDirectoryWithin layout.outputRoot layout.outputRoot.parent true true
  settings.moduleDirectories.forM layout.makeDirectory

end Layout

/-- The manifest of a recipe file, which has to be inside the base. -/
def Manifest.ofFile (style : Style) (recipe base : Path) : Work Manifest :=
  Work.inContext { recipe := some recipe.name } do
    let content ← Work.look fun fs => fs.readTextWithin recipe base
    Work.noting (Manifest.ofRecipe style (recipeClass style.settings recipe) recipe.text content)

namespace Layout

/-- Writes the manifest of a recipe. -/
def writeManifest (style : Style) (layout : Layout) (manifests recipe : Path) : Work Unit := do
  Work.tell (.starting recipe)
  let converted ← Manifest.ofFile style recipe layout.cookbookPath
  let name := recipeClass style.settings recipe ++ style.settings.manifestSuffix
  let manifest ← Work.look fun fs => fs.join manifests [name]
  Work.write manifest layout.outputRoot converted.text
  Work.log { level := .info, logger := Channel.module.name, message := s!"Wrote {manifest.text}" }
  modify fun w => { w with manifests := w.manifests ++ [manifest] }

/-- Writes the manifests of all recipes, in order of their names. -/
def writeManifests (style : Style) (layout : Layout) : Work Unit := do
  let manifests ← Work.look fun fs => fs.manifestsPath layout
  let recipes ← Work.look fun fs => fs.recipes layout
  recipes.forM (layout.writeManifest style manifests)

end Layout

/-- Converts the cookbook at a path into a module in the output directory. -/
def makeModule (style : Style) (cookbook output : String) : Work Layout :=
  Work.operation "convert_cookbook" "convert_cookbook" Channel.module.name do
    let layout ← Work.look fun fs => fs.plan cookbook output
    Work.tell (.planned layout)
    Work.inContext { cookbook := some layout.cookbookName } do
      layout.makeDirectories style.settings
      layout.writeManifests style
    return { layout with manifests := (← get).manifests }

end RecipeManifest

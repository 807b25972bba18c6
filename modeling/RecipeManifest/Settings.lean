import RecipeManifest.Fault

/-!
What can be set: how manifests are laid out and which directories a module has.
-/

namespace RecipeManifest

structure Settings where
  /-- Indents what stands directly in a class. -/
  headerIndent : String := "  "
  /-- Indents the statements of a resource. -/
  bodyIndent : String := "    "
  recipeSuffix : String := ".rb"
  manifestSuffix : String := ".pp"
  /-- Stands before the source of a file. -/
  fileSourcePrefix : String := "puppet:///"
  moduleDirectories : List String := ["files", "manifests", "lib", "lib/puppet",
    "lib/puppet/parser", "lib/puppet/provider", "lib/puppet/type", "lib/facter", "templates"]
  deriving DecidableEq, Repr

namespace Settings

/-- Stands between the statements of a resource. -/
def separator (s : Settings) : String :=
  ",\n" ++ s.bodyIndent

/-- The settings with one of them changed. -/
def set (s : Settings) (name : String) (value : Json) : Except Fault Settings :=
  let text := value.string?.getD ""
  match name with
  | "header_indent" => .ok { s with headerIndent := text }
  | "body_indent" => .ok { s with bodyIndent := text }
  | "recipe_suffix" => .ok { s with recipeSuffix := text }
  | "manifest_suffix" => .ok { s with manifestSuffix := text }
  | "file_source_prefix" => .ok { s with fileSourcePrefix := text }
  | "module_directories" =>
    match value with
    | .array items => .ok { s with moduleDirectories := items.filterMap Json.string? }
    | _ => .ok { s with moduleDirectories := [] }
  | "self" => .error (.takenSetting name)
  | _ => .error (.unknownSetting name)

/-- The default settings with some of them changed, one after the other. -/
def ofOverrides (overrides : List (String × Json)) : Except Fault Settings :=
  overrides.foldlM (fun s (name, value) => s.set name value) {}

end Settings

end RecipeManifest

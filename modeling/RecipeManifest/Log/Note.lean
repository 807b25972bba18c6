import RecipeManifest.Fault
import RecipeManifest.Log.Level

/-!
Notes written while a recipe is converted, and work that writes them.
-/

namespace RecipeManifest

/-- The parts of the program that write notes. -/
inductive Channel where
  | manifest | resource | property | module
  deriving DecidableEq, Repr

/-- The name under which the notes of a channel are logged. -/
def Channel.name : Channel → String
  | manifest => "chef2puppet.converters.manifest"
  | resource => "chef2puppet.converters.resource"
  | property => "chef2puppet.converters.attribute"
  | module => "chef2puppet.generators.module"

structure Note where
  level : Level
  channel : Channel
  message : String
  deriving DecidableEq, Repr

/-- Work that writes notes and may fail. What was noted before a failure is kept. -/
structure Noted (α : Type) where
  notes : List Note
  result : Except Fault α

namespace Noted

instance : Monad Noted where
  pure a := ⟨[], .ok a⟩
  bind x f :=
    match x.result with
    | .error e => ⟨x.notes, .error e⟩
    | .ok a => ⟨x.notes ++ (f a).notes, (f a).result⟩

def note (level : Level) (channel : Channel) (message : String) : Noted Unit :=
  ⟨[⟨level, channel, message⟩], .ok ()⟩

/-- Work that writes nothing. -/
def lift {α : Type} (result : Except Fault α) : Noted α :=
  ⟨[], result⟩

end Noted

end RecipeManifest

import RecipeManifest.Json.Basic
import RecipeManifest.Number.Notation

/-!
The numbers among JSON values. A number without point and exponent is a whole number, any other is
in floating point.
-/

namespace RecipeManifest

inductive Amount where
  | whole (n : Int)
  | real (x : Double)
  deriving DecidableEq, Repr

namespace Amount

def ofText (text : String) : Amount :=
  match text.toInt? with
  | some n => whole n
  | none => real (Double.ofText text)

def isZero : Amount → Bool
  | whole n => n == 0
  | real x => x.isZero

/-- The number as text, with these words for what is no finite number. -/
def text (infinity notNumber : String) : Amount → String
  | whole n => toString n
  | real (.finite negative mantissa exponent) =>
    (if negative then "-" else "") ++ String.ofList (Double.shortestText mantissa exponent)
  | real (.infinite negative) => (if negative then "-" else "") ++ infinity
  | real .notNumber => notNumber

end Amount

/-- The number that a value counts as. The truth values count as one and zero. -/
def Json.amount? : Json → Option Amount
  | .bool b => some (.whole (if b then 1 else 0))
  | .number text => some (.ofText text)
  | _ => none

end RecipeManifest

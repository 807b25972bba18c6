/-!
Numbers in binary floating point with 53 significant bits.

A finite number is its mantissa times a power of two. A fraction is rounded to the nearest number,
and to an even mantissa if two are equally near. All arithmetic is on whole numbers.
-/

namespace RecipeManifest

/-- The quotient rounded to the nearest whole number, a half to the even one. -/
def roundedQuotient (num den : Nat) : Nat :=
  let low := num / den
  let twice := 2 * (num % den)
  if den < twice ∨ (den = twice ∧ low % 2 = 1) then low + 1 else low

/-- A fraction times a power of the base, which may be negative. -/
def scaled (base : Nat) (exponent : Int) (num den : Nat) : Nat × Nat :=
  (num * Nat.pow base exponent.toNat, den * Nat.pow base (-exponent).toNat)

inductive Double where
  | finite (negative : Bool) (mantissa : Nat) (exponent : Int)
  | infinite (negative : Bool)
  | notNumber
  deriving DecidableEq, Repr

namespace Double

/-- The exponent of the smallest number. -/
def leastExponent : Int := -1074

/-- The exponent of the largest numbers. -/
def largestExponent : Int := 971

def isZero : Double → Bool
  | finite _ mantissa _ => mantissa == 0
  | _ => false

def isNegative : Double → Bool
  | finite negative _ _ | infinite negative => negative
  | notNumber => false

/-- The exponent for which a fraction has a mantissa of 53 bits, or the least one. -/
def exponentFor (num den : Nat) : Int :=
  let size : Int := num.log2 - den.log2
  let (n, d) := scaled 2 (-size) num den
  max (if d ≤ n then size - 52 else size - 53) leastExponent

/-- The number nearest to a fraction. -/
def ofFraction (negative : Bool) (num den : Nat) : Double :=
  if num = 0 then finite negative 0 0
  else
    let exponent := exponentFor num den
    let (n, d) := scaled 2 (-exponent) num den
    let mantissa := roundedQuotient n d
    let (mantissa, exponent) :=
      if mantissa = Nat.pow 2 53 then (Nat.pow 2 52, exponent + 1) else (mantissa, exponent)
    if largestExponent < exponent then infinite negative else finite negative mantissa exponent

def ofInt (n : Int) : Double :=
  ofFraction (n < 0) n.natAbs 1

/-- The number nearest to `digits` times a power of ten. What is far out of range is not computed
with. -/
def ofDecimal (negative : Bool) (digits : Nat) (exponent : Int) : Double :=
  let size : Int := (Nat.toDigits 10 digits).length + exponent
  if digits = 0 ∨ size < -330 then finite negative 0 0
  else if 310 < size then infinite negative
  else
    let (num, den) := scaled 10 exponent digits 1
    ofFraction negative num den

/-- The number in decimal digits. -/
def naturalOf (digits : List Char) : Nat :=
  digits.foldl (fun n d => 10 * n + (d.toNat - 48)) 0

/-- The exponent after its mark, zero if there is none. -/
def exponentOf : List Char → Int
  | _ :: '-' :: digits => -naturalOf digits
  | _ :: '+' :: digits => naturalOf digits
  | _ :: digits => naturalOf digits
  | [] => 0

/-- The number that a text means: a sign, digits with a point, and an exponent, or one of the words
for what is no finite number. -/
def ofText (text : String) : Double :=
  let cs := text.toList
  let negative := cs.head? == some '-'
  match if negative then cs.tail else cs with
  | 'N' :: _ => notNumber
  | 'I' :: _ => infinite negative
  | cs =>
    let whole := cs.takeWhile Char.isDigit
    let rest := cs.dropWhile Char.isDigit
    let fraction := if rest.head? = some '.' then rest.tail.takeWhile Char.isDigit else []
    let rest := if rest.head? = some '.' then rest.tail.dropWhile Char.isDigit else rest
    ofDecimal negative (naturalOf (whole ++ fraction)) (exponentOf rest - fraction.length)

/-- The size of a finite number as a fraction. -/
def fraction (mantissa : Nat) (exponent : Int) : Nat × Nat :=
  scaled 2 exponent mantissa 1

/-- The whole part of a finite number. -/
def truncate? : Double → Option Int
  | finite negative mantissa exponent =>
    let (num, den) := fraction mantissa exponent
    some (if negative then -(num / den : Nat) else (num / den : Nat))
  | _ => none

/-- The largest whole number that is no larger than a finite number. -/
def floor? : Double → Option Int
  | finite negative mantissa exponent =>
    let (num, den) := fraction mantissa exponent
    some (if negative then -((num + den - 1) / den : Nat) else (num / den : Nat))
  | _ => none

end Double

end RecipeManifest

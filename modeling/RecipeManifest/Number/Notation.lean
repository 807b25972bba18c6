import RecipeManifest.Number.Double

/-!
Floating point numbers in decimal notation, without their sign: with a fixed number of places, with
an exponent, in the shorter of both, or in the fewest digits that are read back as the number.
-/

namespace RecipeManifest.Double

/-- The largest exponent for which the power of ten is no larger than the fraction. -/
def decade (num den : Nat) : Int :=
  let size : Int := (Nat.toDigits 10 num).length - (Nat.toDigits 10 den).length
  let (n, d) := scaled 10 (-size) num den
  if d ≤ n then size else size - 1

/-- The fraction in `places + 1` digits, and the exponent of the first one. -/
def leadingDigits (places : Nat) (num den : Nat) : Nat × Int :=
  if num = 0 then (0, 0)
  else
    let first := decade num den
    let (n, d) := scaled 10 (places - first) num den
    let digits := roundedQuotient n d
    if digits = Nat.pow 10 (places + 1) then (Nat.pow 10 places, first + 1) else (digits, first)

/-- Digits filled up with zeros before them. -/
def filled (width n : Nat) : List Char :=
  let digits := Nat.toDigits 10 n
  List.replicate (width - digits.length) '0' ++ digits

/-- Digits with a point before the last `places` of them. Without places the point is left out,
unless it is asked for. -/
def pointed (point : Bool) (places n : Nat) : List Char :=
  let digits := filled (places + 1) n
  let whole := digits.take (digits.length - places)
  if places = 0 then whole ++ (if point then ['.'] else [])
  else whole ++ '.' :: digits.drop (digits.length - places)

/-- An exponent of at least two digits. -/
def exponentText (exponent : Int) : List Char :=
  'e' :: (if exponent < 0 then '-' else '+') :: filled 2 exponent.natAbs

/-- Takes off the zeros at the end of a fraction, and the point if nothing is behind it. -/
def withoutZeros (cs : List Char) : List Char :=
  if cs.contains '.' then
    let kept := (cs.reverse.dropWhile (· == '0')).reverse
    if kept.getLast? = some '.' then kept.dropLast else kept
  else cs

def fixedText (point : Bool) (places num den : Nat) : List Char :=
  pointed point places (roundedQuotient (num * Nat.pow 10 places) den)

def exponentialText (point : Bool) (places num den : Nat) : List Char :=
  let (digits, exponent) := leadingDigits places num den
  pointed point places digits ++ exponentText exponent

/-- The notation in so many digits: with an exponent only if it is small or needs more digits. Zeros
at the end are kept only with a point that is asked for. -/
def generalText (point : Bool) (precision num den : Nat) : List Char :=
  let places := precision - 1
  let (digits, exponent) := leadingDigits places num den
  let trim (cs : List Char) : List Char := if point then cs else withoutZeros cs
  if -4 ≤ exponent ∧ exponent ≤ places then trim (pointed point (places - exponent).toNat digits)
  else trim (pointed point places digits) ++ exponentText exponent

/-- The digits on both sides of a fraction that are read back as the number, the nearer first. -/
def candidates (mantissa : Nat) (exponent : Int) (places : Nat) : List (Nat × Int) :=
  let (num, den) := fraction mantissa exponent
  let first := decade num den
  let (n, d) := scaled 10 (places - first) num den
  let low := n / d
  let near := roundedQuotient n d
  let far := if near = low then low + 1 else low
  [near, far].filterMap fun digits =>
    if ofDecimal false digits (first - places) = finite false mantissa exponent then
      some (digits, first - places)
    else none

/-- The fewest digits that are read back as the number, with the exponent of the last one. Of
`places + 1` digits at most, 17 are always enough. -/
def fewestDigits (mantissa : Nat) (exponent : Int) : Nat × Int :=
  ((List.range 17).findSome? fun places =>
    (candidates mantissa exponent places).head?).getD (mantissa, 0)

/-- The fewest digits that are read back as the number: with a point between the exponents -4 and
15, else with an exponent. -/
def shortestText (mantissa : Nat) (exponent : Int) : List Char :=
  if mantissa = 0 then ['0', '.', '0']
  else
    let (digits, last) := fewestDigits mantissa exponent
    let length := (Nat.toDigits 10 digits).length
    let first : Int := last + length - 1
    if -4 ≤ first ∧ first < 16 then
      if 0 ≤ last then pointed true 0 (digits * Nat.pow 10 last.toNat) ++ ['0']
      else pointed true (-last).toNat digits
    else withoutZeros (pointed true (length - 1) digits) ++ exponentText first

end RecipeManifest.Double

import RecipeManifest.Log.Fault

/-!
Points in time, and how they are written: year, month and day, then hours, minutes and seconds.
-/

namespace RecipeManifest

/-- A time before or after the start of the year 1970, in universal time. -/
structure Timestamp where
  seconds : Int
  milliseconds : Nat := 0
  deriving DecidableEq, Repr

namespace Timestamp

/-- A number of two digits. -/
def twoDigits (n : Nat) : String :=
  if n < 10 then s!"0{n}" else toString n

/-- Year, month and day of a day, counted from the first of March of the year 0. A year runs from
March to February, so that the day in question is the last one of a leap year. -/
def civil (day : Int) : Int × Nat × Nat :=
  let era := day / 146097
  let dayOfEra := (day % 146097).toNat
  let yearOfEra := (dayOfEra - dayOfEra / 1460 + dayOfEra / 36524 - dayOfEra / 146096) / 365
  let dayOfYear := dayOfEra - (365 * yearOfEra + yearOfEra / 4 - yearOfEra / 100)
  let month := (5 * dayOfYear + 2) / 153
  let year := era * 400 + yearOfEra + (month / 10 : Nat)
  (year, (month + 2) % 12 + 1, dayOfYear - (153 * month + 2) / 5 + 1)

/-- The days from the first of March of the year 0 to the start of the year 1970. -/
def epochDay : Int := 719468

/-- The system counts seconds up to here, and as far into the past. -/
def secondsLimit : Int := Nat.pow 2 63

/-- The years that the system can count. -/
def isSystemYear (year : Int) : Bool :=
  -2147481748 ≤ year && year ≤ 2147485547

/-- The last year that can be written. -/
def lastYear : Int := 2147483647

/-- The time to the second. -/
def text (t : Timestamp) : Except LogFault String :=
  let (year, month, day) := civil (epochDay + t.seconds / 86400)
  let clock := (t.seconds % 86400).toNat
  if t.seconds < -secondsLimit ∨ secondsLimit ≤ t.seconds then .error .timeOutOfRange
  else if !isSystemYear year then .error .yearOutOfSystem
  else if lastYear < year then .error .yearOutOfRange
  else
    .ok (s!"{year}-{twoDigits month}-{twoDigits day} {twoDigits (clock / 3600)}:" ++
      s!"{twoDigits (clock / 60 % 60)}:{twoDigits (clock % 60)}")

end Timestamp

end RecipeManifest

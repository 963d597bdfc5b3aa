/-!
# Instants

Points in time as seconds and nanoseconds since the start of 1970, and their text. The last second of a
minute may be followed by a leap second, which has no number of its own: an instant in it has the number
of the second before and a thousand million nanoseconds or more.

## Main definitions

- `Instant`: a point in time
- `Instant.ofParts?`: the instant with given seconds and nanoseconds
- `Date.ofDays`: the date of a day
- `Instant.text`: date and time of day in universal time
- `Instant.secondsUntil`: the whole seconds from one instant to another
-/

namespace DelayTuning

/-- A point in time. -/
structure Instant where
  /-- The whole seconds since the start of 1970, leap seconds not counted; negative before it. -/
  seconds : Int
  nanoseconds : Nat
  /-- A leap second follows only the last second of a minute. -/
  valid : nanoseconds < 1000000000 ∨ seconds % 60 = 59 ∧ nanoseconds < 2000000000
  deriving DecidableEq, Repr

/-- A date of the Gregorian calendar. -/
structure Date where
  year : Int
  month : Nat
  day : Nat
  deriving DecidableEq, Repr

namespace Date

/-- The day of a cycle of four hundred years, which starts on the first of March, as a date; the year is
    counted from the start of the cycle. -/
def ofDayOfCycle (day : Nat) : Date :=
  let year := (day - day / 1460 + day / 36524 - day / 146096) / 365
  let dayOfYear := day - (365 * year + year / 4 - year / 100)
  let shifted := (5 * dayOfYear + 2) / 153
  let month := if shifted < 10 then shifted + 3 else shifted - 9
  { year := year + (if month ≤ 2 then 1 else 0)
    month := month
    day := dayOfYear - (153 * shifted + 2) / 5 + 1 }

/-- The date of a day, counted from the first of January 1970. -/
def ofDays (days : Int) : Date :=
  let shifted := days + 719468
  let date := ofDayOfCycle (shifted % 146097).toNat
  { date with year := date.year + 400 * (shifted / 146097) }

end Date

/-- A number with at least `width` digits. -/
def paddedNumber (width n : Nat) : String :=
  let digits := Nat.toDigits 10 n
  String.ofList (List.replicate (width - digits.length) '0' ++ digits)

/-- A year: four digits from 0 to 9999, otherwise with a sign. -/
def yearText (year : Int) : String :=
  if year < 0 then "-" ++ paddedNumber 4 year.natAbs
  else if 9999 < year then "+" ++ paddedNumber 4 year.natAbs
  else paddedNumber 4 year.natAbs

/-- The fraction of a second with three, six or nine digits, as few as are needed; nothing for a whole
    second. -/
def fractionText (nanoseconds : Nat) : String :=
  if nanoseconds = 0 then ""
  else if nanoseconds % 1000000 = 0 then "." ++ paddedNumber 3 (nanoseconds / 1000000)
  else if nanoseconds % 1000 = 0 then "." ++ paddedNumber 6 (nanoseconds / 1000)
  else "." ++ paddedNumber 9 nanoseconds

namespace Instant

def epoch : Instant := ⟨0, 0, .inl (by decide)⟩

/-- The instant with the given seconds and nanoseconds; `none` if there is no such instant. -/
def ofParts? (seconds : Int) (nanoseconds : Nat) : Option Instant :=
  if h : nanoseconds < 1000000000 ∨ seconds % 60 = 59 ∧ nanoseconds < 2000000000 then
    some ⟨seconds, nanoseconds, h⟩
  else none

/-- Whether an instant lies in a leap second. -/
def inLeapSecond (t : Instant) : Bool :=
  1000000000 ≤ t.nanoseconds

/-- The seconds since the start of the day, without the leap second. -/
def secondOfDay (t : Instant) : Nat :=
  (t.seconds % 86400).toNat

/-- The second of the minute; a leap second has the number 60. -/
def secondOfMinute (t : Instant) : Nat :=
  t.secondOfDay % 60 + t.nanoseconds / 1000000000

theorem secondOfMinute_of_inLeapSecond {t : Instant} (h : t.inLeapSecond = true) :
    t.secondOfMinute = 60 := by
  have valid := t.valid
  simp only [inLeapSecond, decide_eq_true_eq] at h
  unfold secondOfMinute secondOfDay
  omega

def text (t : Instant) : String :=
  let date := Date.ofDays (t.seconds / 86400)
  yearText date.year ++ "-" ++ paddedNumber 2 date.month ++ "-" ++ paddedNumber 2 date.day ++ "T"
    ++ paddedNumber 2 (t.secondOfDay / 3600) ++ ":" ++ paddedNumber 2 (t.secondOfDay / 60 % 60) ++ ":"
    ++ paddedNumber 2 t.secondOfMinute ++ fractionText (t.nanoseconds % 1000000000) ++ "Z"

/-- The number of leap seconds between two instants as far as the instants themselves show them. The
    times of day are compared, not the dates: the leap second of the earlier time of day is over at the
    later one. -/
def leapSecondsUntil (start finish : Instant) : Int :=
  if start.secondOfDay < finish.secondOfDay && start.inLeapSecond then 1
  else if finish.secondOfDay < start.secondOfDay && finish.inLeapSecond then -1
  else 0

/-- The whole seconds from one instant to another, without the fraction of a second. -/
def secondsUntil (start finish : Instant) : Int :=
  ((finish.seconds - start.seconds + leapSecondsUntil start finish) * 1000000000
    + ((finish.nanoseconds : Int) - start.nanoseconds)).tdiv 1000000000

end Instant

end DelayTuning

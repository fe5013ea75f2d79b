import LineShell.Text.Basic
/-!
# Moments

A moment is a number of seconds since the start of 1970 in universal time, together with the
distance of the local clock from universal time. Its written form gives the local date and time in
the proleptic Gregorian calendar.
-/

namespace LineShell

structure Moment where
  /-- Seconds since the start of 1970 in universal time. -/
  seconds : Int
  /-- Minutes by which the local clock is ahead of universal time. -/
  ahead : Int
  deriving DecidableEq, Repr

structure CivilDay where
  year : Int
  month : Nat
  day : Nat
  deriving DecidableEq, Repr

/-- The calendar day that is a number of days after the first of January 1970. Years are counted
from March in eras of 400 years, which all have the same number of days. -/
def CivilDay.ofDays (days : Int) : CivilDay :=
  let fromMarch := days + 719468
  let era := fromMarch / 146097
  let dayOfEra := (fromMarch % 146097).toNat
  let yearOfEra := (dayOfEra - dayOfEra / 1460 + dayOfEra / 36524 - dayOfEra / 146096) / 365
  let dayOfYear := dayOfEra - (365 * yearOfEra + yearOfEra / 4 - yearOfEra / 100)
  let monthFromMarch := (5 * dayOfYear + 2) / 153
  let day := dayOfYear - (153 * monthFromMarch + 2) / 5 + 1
  let month := if monthFromMarch < 10 then monthFromMarch + 3 else monthFromMarch - 9
  let year := (yearOfEra : Int) + era * 400 + (if month ≤ 2 then 1 else 0)
  ⟨year, month, day⟩

namespace Moment

def padded (width n : Nat) : String :=
  let digits := toString n
  String.ofList (List.replicate (width - digits.length) '0') ++ digits

/-- The names of the days of the week; the first of January 1970 was a Thursday. -/
def weekdays : List String := ["Thu", "Fri", "Sat", "Sun", "Mon", "Tue", "Wed"]

def months : List String :=
  ["Jan", "Feb", "Mar", "Apr", "May", "Jun", "Jul", "Aug", "Sep", "Oct", "Nov", "Dec"]

/-- The distance from universal time in hours and minutes. -/
def zone (ahead : Int) : String :=
  let minutes := ahead.natAbs
  (if ahead < 0 then "-" else "+") ++ padded 2 (minutes / 60) ++ ":" ++ padded 2 (minutes % 60)

/-- The local date and time, such as `Thu Jan 01 00:00:00 +00:00 1970`. -/
def render (moment : Moment) : Text :=
  let seconds := moment.seconds + moment.ahead * 60
  let days := seconds / 86400
  let time := (seconds % 86400).toNat
  let civil := CivilDay.ofDays days
  let weekday := weekdays.getD (days % 7).toNat ""
  let month := months.getD (civil.month - 1) ""
  let clock := padded 2 (time / 3600) ++ ":" ++ padded 2 (time / 60 % 60) ++ ":" ++
    padded 2 (time % 60)
  let year := (if civil.year < 0 then "-" else "") ++ padded 4 civil.year.natAbs
  (s!"{weekday} {month} {padded 2 civil.day} {clock} {zone moment.ahead} {year}").toList

end Moment

end LineShell

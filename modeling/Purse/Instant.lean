/-!
# Instants and the civil calendar

An instant counts seconds from the start of 1970 in UTC, with nanoseconds, over
the years -262143 to 262142 of the proleptic Gregorian calendar. A leap second is
the last second of its minute with a further thousand million nanoseconds.

A civil date and its day number determine each other: `Civil.ofDay` and
`Civil.day` count in eras of 400 years, which all have 146097 days, and in years
that start in March, so that a leap day comes last.
-/

namespace Purse

/-- A date of the proleptic Gregorian calendar; year 0 comes before year 1. -/
structure Civil where
  year : Int
  month : Int
  date : Int
  deriving DecidableEq, Repr

namespace Civil

def isLeapYear (year : Int) : Bool :=
  year % 4 = 0 && (year % 100 ≠ 0 || year % 400 = 0)

def monthLength (year month : Int) : Int :=
  if month = 2 then (if isLeapYear year then 29 else 28)
  else if month = 4 ∨ month = 6 ∨ month = 9 ∨ month = 11 then 30
  else 31

/-- Whether the calendar has this date. -/
def exists? (c : Civil) : Bool :=
  1 ≤ c.month && c.month ≤ 12 && 1 ≤ c.date && c.date ≤ monthLength c.year c.month

/-- Days from 1970-01-01 to the date. -/
def day (c : Civil) : Int :=
  let year := if c.month ≤ 2 then c.year - 1 else c.year
  let era := year / 400
  let yearOfEra := year % 400
  let month := if c.month ≤ 2 then c.month + 9 else c.month - 3
  let dayOfYear := (153 * month + 2) / 5 + c.date - 1
  era * 146097 + (yearOfEra * 365 + yearOfEra / 4 - yearOfEra / 100 + dayOfYear) - 719468

/-- The date that lies `day` days after 1970-01-01. -/
def ofDay (day : Int) : Civil :=
  let shifted := day + 719468
  let era := shifted / 146097
  let dayOfEra := shifted % 146097
  let yearOfEra := (dayOfEra - dayOfEra / 1460 + dayOfEra / 36524 - dayOfEra / 146096) / 365
  let dayOfYear := dayOfEra - (365 * yearOfEra + yearOfEra / 4 - yearOfEra / 100)
  let month := (5 * dayOfYear + 2) / 153
  let date := dayOfYear - (153 * month + 2) / 5 + 1
  let year := yearOfEra + era * 400
  if month < 10 then ⟨year, month + 3, date⟩ else ⟨year + 1, month - 9, date⟩

end Civil

/-- The first second of year -262143. -/
def Instant.first : Int := -8334601228800

/-- The last second of year 262142. -/
def Instant.last : Int := 8210266876799

/-- A moment in UTC. -/
structure Instant where
  seconds : Int
  nanos : Nat
  inCalendar : Instant.first ≤ seconds ∧ seconds ≤ Instant.last
  nanos_lt : nanos < 1000000000 ∨ (nanos < 2000000000 ∧ seconds % 60 = 59)
  deriving DecidableEq, Repr

namespace Instant

instance : Inhabited Instant := ⟨⟨0, 0, by decide, by decide⟩⟩

/-- The instant at a second and nanosecond, if the calendar has it. -/
def ofUnix? (seconds : Int) (nanos : Nat) : Option Instant :=
  if h : (first ≤ seconds ∧ seconds ≤ last) ∧
      (nanos < 1000000000 ∨ (nanos < 2000000000 ∧ seconds % 60 = 59)) then
    some ⟨seconds, nanos, h.1, h.2⟩
  else none

/-- By second, then by nanosecond. -/
instance : Ord Instant :=
  ⟨fun a b => (compare a.seconds b.seconds).then (compare a.nanos b.nanos)⟩

/-- The civil date in UTC. -/
def civil (t : Instant) : Civil :=
  Civil.ofDay (t.seconds / 86400)

/-- The second within the day. -/
def secondOfDay (t : Instant) : Int :=
  t.seconds % 86400

end Instant

end Purse

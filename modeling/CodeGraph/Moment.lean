import CodeGraph.Text.Blank
import CodeGraph.Text.Digits
/-! # Moments — points in time, as text

    When a snapshot was made.  Nothing is computed from it, so a moment is kept
    as the text that says it, and that text names a day that exists.

    * A moment has a date, a time of day and a distance from universal time:
      `2024-05-01T12:00:00Z`, `2024-05-01 12:00:00.5+02:00`.
    * Blanks may stand in front of each number and at the end.
    * A minute has room for a leap second. -/

namespace CodeGraph

namespace Moment

/-! ## Parts -/

/-- A text without the blanks at its front. -/
def skipBlanks (s : List Char) : List Char := s.dropWhile Text.isBlank

/-- A number of one to `width` digits, blanks in front of it skipped. -/
def number? (width : Nat) (s : List Char) : Option (Nat × List Char) :=
  let t := skipBlanks s
  let ds := (t.takeWhile Char.isDigit).take width
  if ds.isEmpty then none else some (Text.natOfDigits ds, t.drop ds.length)

/-- A number that is at least `least` and at most `greatest`. -/
def within? (least greatest : Nat) (s : List Char) : Option (Nat × List Char) :=
  (number? 2 s).bind fun r => if least ≤ r.1 ∧ r.1 ≤ greatest then some r else none

/-- A given character, blanks in front of it skipped. -/
def mark? (c : Char) (s : List Char) : Option (List Char) :=
  match skipBlanks s with
  | d :: rest => if d = c then some rest else none
  | [] => none

/-- A year: four digits at most, or any number of them behind a sign. -/
def year? (s : List Char) : Option (Int × List Char) :=
  let long := fun (t : List Char) =>
    let ds := t.takeWhile Char.isDigit
    if ds.isEmpty then none else some (Text.natOfDigits ds, t.drop ds.length)
  match skipBlanks s with
  | '-' :: t => (long t).map fun r => (-(r.1 : Int), r.2)
  | '+' :: t => (long t).map fun r => ((r.1 : Int), r.2)
  | t => (number? 4 t).map fun r => ((r.1 : Int), r.2)

/-! ## The calendar -/

/-- Whether a year has a day more. -/
def isLeap (year : Int) : Bool := year % 4 = 0 ∧ (year % 100 ≠ 0 ∨ year % 400 = 0)

/-- The number of days in a month. -/
def daysIn (year : Int) (month : Nat) : Nat :=
  match month with
  | 2 => if isLeap year then 29 else 28
  | 4 | 6 | 9 | 11 => 30
  | _ => 31

/-- A day of the calendar. -/
structure Day where
  year : Int
  month : Nat
  day : Nat
deriving DecidableEq, Repr

/-- The first day that a moment may lie in. -/
def firstDay : Day := ⟨-262143, 1, 1⟩

/-- The last day that a moment may lie in. -/
def lastDay : Day := ⟨262142, 12, 31⟩

/-- Whether a day exists and lies between the first and the last. -/
def Day.isValid (d : Day) : Bool :=
  firstDay.year ≤ d.year && d.year ≤ lastDay.year && d.day ≤ daysIn d.year d.month

/-- Whether a minute of a day is in range by universal time, from which the day
    is `distance` minutes ahead. -/
def inRange (d : Day) (minute : Nat) (distance : Int) : Bool :=
  !(minute < distance && d = firstDay) && !(1440 + distance ≤ minute && d = lastDay)

/-! ## The whole -/

/-- A date, and what follows it. -/
def date? (s : List Char) : Option (Day × List Char) := do
  let (year, s) ← year? s
  let s ← mark? '-' s
  let (month, s) ← within? 1 12 s
  let s ← mark? '-' s
  let (day, s) ← within? 1 31 s
  if Day.isValid ⟨year, month, day⟩ then some (⟨year, month, day⟩, s) else none

/-- The mark between a date and a time. -/
def separator? : List Char → Option (List Char)
  | c :: s => if c = 'T' ∨ c = 't' ∨ c = ' ' then some s else none
  | [] => none

/-- A fraction of a second, if there is a point for it: its digits, and what
    follows them. -/
def fraction? : List Char → Option (List Char × List Char)
  | '.' :: s => if (s.takeWhile Char.isDigit).isEmpty then none
      else some (s.takeWhile Char.isDigit, s.dropWhile Char.isDigit)
  | s => some ([], s)

/-- A time of day as the minutes before it, and what follows it. -/
def time? (s : List Char) : Option (Nat × List Char) := do
  let (hour, s) ← within? 0 23 s
  let s ← mark? ':' s
  let (minute, s) ← within? 0 59 s
  let s ← mark? ':' s
  let (_, s) ← within? 0 60 s
  let (_, s) ← fraction? s
  return (hour * 60 + minute, s)

/-- Hours and minutes of two digits each, as minutes; colons and blanks may
    stand between them.  They stay below a day. -/
def distance? : List Char → Option (Nat × List Char)
  | a :: b :: s =>
      match s.dropWhile fun c => c = ':' ∨ Text.isBlank c with
      | c :: d :: rest =>
          let hours := Text.natOfDigits [a, b]
          let minutes := Text.natOfDigits [c, d]
          if a.isDigit ∧ b.isDigit ∧ c.isDigit ∧ d.isDigit ∧ hours < 24 ∧ minutes < 60
          then some (hours * 60 + minutes, rest)
          else none
      | _ => none
  | _ => none

/-- How many minutes a time is ahead of universal time, and what follows. -/
def zone? (s : List Char) : Option (Int × List Char) :=
  match skipBlanks s with
  | c :: rest =>
      if "utc".toList.isPrefixOf ((c :: rest).map Char.toLower) then some (0, rest.drop 2)
      else if c = 'Z' ∨ c = 'z' then some (0, rest)
      else if c = '+' then (distance? rest).map fun r => ((r.1 : Int), r.2)
      else if c = '-' ∨ c = '\u2212' then
        (distance? rest).map fun r => (-(r.1 : Int), r.2)
      else none
  | [] => none

/-- Whether a text says a moment. -/
def isMoment (s : String) : Bool :=
  let read := do
    let (day, s) ← date? s.toList
    let (minute, s) ← time? (← separator? s)
    let (distance, s) ← zone? s
    return (skipBlanks s).isEmpty && inRange day minute distance
  read.getD false

end Moment

/-- A point in time. -/
structure Moment where
  text : String
  valid : Moment.isMoment text = true
deriving DecidableEq

namespace Moment

/-- The moment that a text says. -/
def ofText? (s : String) : Option Moment :=
  if h : isMoment s = true then some ⟨s, h⟩ else none

/-! ## The clock -/

/-- The year, month and day with a number of days since the first of January
    1970.  Years are counted from March, so that a leap day is the last day of
    its year. -/
def civil (days : Nat) : Nat × Nat × Nat :=
  let z := days + 719468
  let era := z / 146097
  let dayOfEra := z % 146097
  let leapDays := dayOfEra / 1460 - dayOfEra / 36524 + dayOfEra / 146096
  let yearOfEra := (dayOfEra - leapDays) / 365
  let dayOfYear := dayOfEra - (365 * yearOfEra + yearOfEra / 4 - yearOfEra / 100)
  let m := (5 * dayOfYear + 2) / 153
  let month := if m < 10 then m + 3 else m - 9
  (yearOfEra + era * 400 + (if month ≤ 2 then 1 else 0), month,
    dayOfYear - (153 * m + 2) / 5 + 1)

/-- A number with zeros in front up to a width. -/
def padded (width n : Nat) : String :=
  let ds := Nat.toDigits 10 n
  String.ofList (List.replicate (width - ds.length) '0' ++ ds)

/-- A fraction of a second in thousands, millions or billions. -/
def fractionText (nanoseconds : Nat) : String :=
  if nanoseconds = 0 then ""
  else if nanoseconds % 1000000 = 0 then "." ++ padded 3 (nanoseconds / 1000000)
  else if nanoseconds % 1000 = 0 then "." ++ padded 6 (nanoseconds / 1000)
  else "." ++ padded 9 nanoseconds

/-- The text of what a clock shows: the seconds since 1970 and a fraction. -/
def clockText (seconds nanoseconds : Nat) : String :=
  let (year, month, day) := civil (seconds / 86400)
  let time := seconds % 86400
  padded 4 year ++ "-" ++ padded 2 month ++ "-" ++ padded 2 day ++ "T"
    ++ padded 2 (time / 3600) ++ ":" ++ padded 2 (time / 60 % 60) ++ ":"
    ++ padded 2 (time % 60) ++ fractionText nanoseconds ++ "Z"

/-- The first moment that a clock shows. -/
def epoch : Moment := ⟨"1970-01-01T00:00:00Z", by decide +kernel⟩

/-- What a clock shows. -/
def ofClock (seconds nanoseconds : Nat) : Moment :=
  (ofText? (clockText seconds nanoseconds)).getD epoch

theorem ofText?_text (m : Moment) : ofText? m.text = some m := by
  simp [ofText?, m.valid]

example : isMoment "2024-05-01T12:00:00.123456789Z" = true := by decide +kernel
example : isMoment "2024-02-29 23:59:60 +02:00" = true := by decide +kernel
example : isMoment "2023-02-29T00:00:00Z" = false := by decide +kernel
example : clockText 0 0 = epoch.text := by decide +kernel
example : clockText 1714564800 5000000 = "2024-05-01T12:00:00.005Z" := by decide +kernel
example : clockText 951782400 1 = "2000-02-29T00:00:00.000000001Z" := by decide +kernel
example : isMoment "2024-05-01" = false := by decide +kernel
example : isMoment "+262142-12-31T23:59:59+00:01" = true := by decide +kernel
example : isMoment "+262142-12-31T23:59:59-00:01" = false := by decide +kernel
example : isMoment "-262143-01-01T00:00:00+00:01" = false := by decide +kernel

end Moment

end CodeGraph

import CodeGraph.Json.Basic
import CodeGraph.Moment
import CodeGraph.Text.Digits
/-! # Dates and times — the calendar in TOML

    A date, a time of day, or both, with the distance from universal time if
    both are there.

    * The calendar is checked: months have their days, and a minute has room
      for a leap second.
    * Settings have no use for a time, so what is read is its text in one
      standard form, as the only field of a record under a reserved name.
    * In the standard form `T` stands between date and time, a fraction has
      nine digits at most and no zero at its end, and universal time is `Z`. -/

namespace CodeGraph.Toml

/-! ## Parts -/

/-- Digits of exactly `width` places that spell a number between two bounds,
    and what follows them. -/
def fixed? (width least greatest : Nat) (s : List Char) :
    Option (List Char × List Char) :=
  let ds := s.take width
  let n := Text.natOfDigits ds
  if ds.length = width ∧ ds.all Char.isDigit ∧ least ≤ n ∧ n ≤ greatest then
    some (ds, s.drop width)
  else none

/-- What follows a given character. -/
def after? (c : Char) : List Char → Option (List Char)
  | d :: s => if d = c then some s else none
  | [] => none

/-- A date, and what follows it. -/
def date? (s : List Char) : Option (List Char × List Char) := do
  let (year, s) ← fixed? 4 0 9999 s
  let (month, s) ← fixed? 2 1 12 (← after? '-' s)
  let days := Moment.daysIn (Text.natOfDigits year) (Text.natOfDigits month)
  let (day, s) ← fixed? 2 1 days (← after? '-' s)
  return (year ++ '-' :: month ++ '-' :: day, s)

/-- Digits without the zeros at their end. -/
def dropZeros (ds : List Char) : List Char := (ds.reverse.dropWhile (· = '0')).reverse

/-- The digits of a fraction in the standard form, behind a point. -/
def fractionText (ds : List Char) : List Char :=
  match dropZeros (ds.take 9) with
  | [] => []
  | ds => '.' :: ds

/-- A time of day, and what follows it. -/
def time? (s : List Char) : Option (List Char × List Char) := do
  let (hour, s) ← fixed? 2 0 23 s
  let (minute, s) ← fixed? 2 0 59 (← after? ':' s)
  let (second, s) ← fixed? 2 0 60 (← after? ':' s)
  let (fraction, s) ← Moment.fraction? s
  return (hour ++ ':' :: minute ++ ':' :: second ++ fractionText fraction, s)

/-- Hours and minutes behind a sign, and nothing else; no distance has a plus
    sign. -/
def distance? (sign : Char) (s : List Char) : Option (List Char) := do
  let (hour, s) ← fixed? 2 0 23 s
  let (minute, s) ← fixed? 2 0 59 (← after? ':' s)
  let text := hour ++ ':' :: minute
  let sign := if text = "00:00".toList then '+' else sign
  if s.isEmpty then some (sign :: text) else none

/-- A distance from universal time, which may be missing. -/
def zone? : List Char → Option (List Char)
  | [] => some []
  | ['Z'] | ['z'] => some ['Z']
  | c :: s => if c = '+' ∨ c = '-' then distance? c s else none

/-! ## The whole -/

/-- A time of day and perhaps a distance from universal time, behind a date. -/
def zonedTime? (date s : List Char) : Option (List Char) := do
  let (time, s) ← time? s
  return date ++ 'T' :: time ++ (← zone? s)

/-- The standard form of a word that is a date, a time of day, or both with a
    letter between them. -/
def dateTime? (s : List Char) : Option (List Char) :=
  match date? s with
  | some (date, []) => some date
  | some (date, c :: t) => if c = 'T' ∨ c = 't' then zonedTime? date t else none
  | none =>
      match time? s with
      | some (time, []) => some time
      | _ => none

/-- The name of the only field of a time. -/
def timeField : String := "$__toml_private_datetime"

/-- The record of a time in the standard form. -/
def ofTime (text : List Char) : Json :=
  .object [(timeField, .string (String.ofList text))]

example : (dateTime? "1979-05-27t07:32:00.500z".toList).map String.ofList =
    some "1979-05-27T07:32:00.5Z" := by decide +kernel

example : (dateTime? "07:32:60.0000000001".toList).map String.ofList =
    some "07:32:60" := by decide +kernel

example : dateTime? "1979-02-29".toList = none := by decide +kernel

end CodeGraph.Toml

import CodeGraph.Text.Reader
import CodeGraph.Text.Split
import CodeGraph.Toml.DateTime
/-! # Scalars — numbers, truth values and dates of TOML

    Values that are one word, or two for a date and a time with a space between
    them.

    * Whole numbers have 64 bits and a sign; they may be written in base 2, 8,
      10 or 16, with underscores between digits.
    * A floating-point number must not be too large, but may be too small for
      one that is finite. -/

namespace CodeGraph.Toml

open Text (Read Reader)

/-! ## Digits -/

/-- Digits without the underscores between them; none if anything else is
    there. -/
def plainDigits? (isDigit : Char → Bool) (s : List Char) : Option (List Char) :=
  let groups := Text.pieces (· = '_') s
  if groups.all fun g => !g.isEmpty && g.all isDigit then some groups.flatten else none

/-- The value of digits in a base. -/
def valueOf (base : Nat) (ds : List Char) : Nat :=
  ds.foldl (fun n d => n * base + (Text.hexValue? d).getD 0) 0

/-- Decimal digits that do not begin with a zero, unless zero is all there
    is. -/
def decimal? (s : List Char) : Option (List Char) :=
  match plainDigits? Char.isDigit s with
  | some ['0'] => some ['0']
  | some ('0' :: _) => none
  | ds => ds

/-- A sign, true for a minus, and what follows it. -/
def sign : List Char → Bool × List Char
  | '+' :: s => (false, s)
  | '-' :: s => (true, s)
  | s => (false, s)

/-! ## Whole numbers -/

/-- A whole number of 64 bits with a sign. -/
def bounded? (n : Int) : Option Json :=
  if h : -9223372036854775808 ≤ n ∧ n < 9223372036854775808 then
    some (.number (.integer ⟨n, by omega, by omega⟩))
  else none

/-- Digits in a base as a whole number. -/
def inBase? (base : Nat) (s : List Char) : Option Json :=
  (plainDigits? (fun c => ((Text.hexValue? c).getD base) < base) s).bind fun ds =>
    bounded? (valueOf base ds)

/-- A whole number. -/
def integer? : List Char → Option Json
  | '0' :: 'x' :: s => inBase? 16 s
  | '0' :: 'o' :: s => inBase? 8 s
  | '0' :: 'b' :: s => inBase? 2 s
  | s =>
      let (negative, t) := sign s
      (decimal? t).bind fun ds =>
        bounded? (if negative then -(valueOf 10 ds : Int) else valueOf 10 ds)

/-! ## Floating-point numbers -/

/-- The parts of a numeral: the digits before the point, those behind it, and
    the exponent. -/
def cutNumeral (s : List Char) : List Char × Option (List Char) × Option (List Char) :=
  let isMark := fun (c : Char) => c = 'e' || c = 'E'
  let mantissa := s.takeWhile fun c => !isMark c
  let exponent := (s.drop mantissa.length).tail?
  let whole := mantissa.takeWhile (· ≠ '.')
  (whole, (mantissa.drop whole.length).tail?, exponent)

/-- The number that is too large. -/
def infinity : Float := 1.0 / 0.0

/-- The nearest number to digits times a power of ten.  Numbers with hundreds of
    digits before or behind the point are known without a computation. -/
def nearest (digits : List Char) (exponent : Int) : Float :=
  let ds := digits.dropWhile (· = '0')
  let size := ds.length + exponent
  if ds.isEmpty ∨ size < -400 then 0.0
  else if 400 < size then infinity
  else Float.ofScientific (valueOf 10 ds) (exponent < 0) exponent.natAbs

/-- The number with the given parts, as long as it does not overflow above. -/
def floatOf? (negative : Bool) (whole fraction : List Char) (exponent : Int) :
    Option Json :=
  let size := nearest (whole ++ fraction) (exponent - fraction.length)
  let x := if negative then -size else size
  if x == infinity then none else some (.number (.double x))

/-- A floating-point number: a fraction, an exponent or both, or a word for what
    is no number. -/
def float? (s : List Char) : Option Json :=
  let (negative, t) := sign s
  if t = "inf".toList then
    some (.number (.double (if negative then -infinity else infinity)))
  else if t = "nan".toList then some (.number (.double (0.0 / 0.0)))
  else
    match cutNumeral t with
    | (_, none, none) => none
    | (whole, fraction, exponent) => do
        let whole ← decimal? whole
        let fraction ← match fraction with
          | some f => plainDigits? Char.isDigit f
          | none => some []
        let exponent ← match exponent with
          | some e =>
              let (down, digits) := sign e
              (plainDigits? Char.isDigit digits).map fun ds =>
                if down then -(valueOf 10 ds : Int) else (valueOf 10 ds : Int)
          | none => some 0
        floatOf? negative whole fraction exponent

/-! ## The value of a word -/

/-- The characters of words. -/
def isWord (c : Char) : Bool :=
  c.isAlphanum || c = '_' || c = '+' || c = '-' || c = '.' || c = ':'

/-- The value of a word. -/
def wordValue? (w : List Char) : Option Json :=
  if w = "true".toList then some (.bool true)
  else if w = "false".toList then some (.bool false)
  else
    match dateTime? w with
    | some text => some (ofTime text)
    | none => (float? w).or (integer? w)

/-- The second word of a date and a time with a space between them. -/
def secondWord (rest : List Char) : List Char :=
  match rest with
  | ' ' :: c :: s => if c.isDigit then (c :: s).takeWhile isWord else []
  | _ => []

/-- The value of two words with a space between them. -/
def pairValue? (w more : List Char) : Option Json :=
  match date? w with
  | some (date, []) => (zonedTime? date more).map ofTime
  | _ => none

/-- A value that is a word, or two of a date and a time. -/
def scalar : Reader Json := fun s =>
  match s with
  | [] => none
  | c :: s' =>
      if isWord c then
        let w := c :: s'.takeWhile isWord
        let rest := s'.dropWhile isWord
        let more := secondWord rest
        have h : rest.length < (c :: s').length :=
          Nat.lt_succ_of_le (List.dropWhile_sublist isWord).length_le
        if more = [] then (wordValue? w).map fun v => ⟨v, rest, h⟩
        else
          (pairValue? w more).map fun v => ⟨v, rest.drop (more.length + 1),
            Nat.lt_of_le_of_lt (List.drop_sublist _ _).length_le h⟩
      else none

example : wordValue? "1_000".toList = bounded? 1000 := by decide +kernel
example : wordValue? "0xFF".toList = bounded? 255 := by decide +kernel
example : wordValue? "-0x1".toList = none := by decide +kernel
example : wordValue? "012".toList = none := by decide +kernel
example : wordValue? "1979-05-27T07:32:00-00:00".toList =
    some (ofTime "1979-05-27T07:32:00+00:00".toList) := by decide +kernel
example : (wordValue? "1e999".toList).isNone = true := by decide +kernel
example : (wordValue? "-1e999".toList).isSome = true := by decide +kernel

end CodeGraph.Toml

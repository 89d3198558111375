import CodeGraph.Json.Basic
import CodeGraph.Text.Digits
/-! # Numerals — the value that a number's digits stand for

    A whole number that fits in 64 bits is kept exactly.  Every other numeral
    becomes a floating-point number in one pass over its digits:

    * digits are collected while they fit in 64 bits, and the rest only count
      as powers of ten;
    * the collected digits are rounded once, and the power of ten is applied by
      one multiplication or division, each of which may round again.

    So the result can be a neighbour of the nearest floating-point number. -/

namespace CodeGraph.Json

/-- A numeral taken apart: sign, digits before and after the point, and the
    power of ten. -/
structure Numeral where
  negative : Bool
  whole : List Char
  fraction : Option (List Char)
  exponent : Option (Bool × List Char)
deriving DecidableEq, Repr

/-- Digits collected so far, and the power of ten they are to be multiplied
    by. -/
structure Significand where
  value : Nat
  scale : Int
deriving DecidableEq, Repr

namespace Significand

/-- Whether one more digit still fits in 64 bits. -/
def fits (s : Significand) (d : Char) : Bool :=
  s.value * 10 + Text.digitValue d < 18446744073709551616

/-- Collects digits before the point; from the first that does not fit, each
    digit only raises the power of ten. -/
def takeWhole (s : Significand) : List Char → Significand
  | [] => s
  | d :: ds =>
      if s.fits d then takeWhole { s with value := s.value * 10 + Text.digitValue d } ds
      else { s with scale := s.scale + (ds.length + 1) }

/-- Collects digits after the point; from the first that does not fit, the
    digits are ignored. -/
def takeFraction (s : Significand) : List Char → Significand
  | [] => s
  | d :: ds =>
      if s.fits d then takeFraction ⟨s.value * 10 + Text.digitValue d, s.scale - 1⟩ ds
      else s

end Significand

/-- The power of ten with the given exponent, which is at most 308. -/
def powerOfTen (n : Nat) : Float := Float.ofScientific 1 false n

/-- A number times a power of ten; none if it leaves the range. -/
def scaleByTen? (x : Float) (e : Int) : Option Float :=
  if e.natAbs ≤ 308 then
    if 0 ≤ e then
      let y := x * powerOfTen e.natAbs
      if y.isInf then none else some y
    else some (x / powerOfTen e.natAbs)
  else if x == 0 then some x
  else if 0 ≤ e then none
  else scaleByTen? (x / powerOfTen 308) (e + 308)
termination_by e.natAbs
decreasing_by omega

namespace Numeral

/-- The digits before the point, collected. -/
def wholePart (n : Numeral) : Significand := Significand.takeWhole ⟨0, 0⟩ n.whole

/-- Gives a number its sign. -/
def withSign (n : Numeral) (x : Float) : Float := if n.negative then -x else x

/-- The floating-point number that collected digits stand for. -/
def double? (n : Numeral) (s : Significand) : Option Float :=
  let x := s.value.toUInt64.toFloat
  match n.exponent with
  | none => (scaleByTen? x s.scale).map n.withSign
  | some (down, ds) =>
      let e := Text.natOfDigits ds
      if e < 2147483648 then
        (scaleByTen? x (if down then s.scale - e else s.scale + e)).map n.withSign
      else if s.value ≠ 0 ∧ !down then none
      else some (n.withSign 0)

/-- The number; none if it is too large for a floating-point number. -/
def toNumber? (n : Numeral) : Option Number :=
  match n.fraction, n.exponent with
  | none, none =>
      if n.wholePart.scale = 0 then
        let m := n.wholePart.value
        if n.negative then
          if h : 0 < m ∧ m ≤ 9223372036854775808 then
            some (.integer ⟨-m, by omega, by omega⟩)
          else some (.double (-m.toUInt64.toFloat))
        else some (.ofNat m)
      else (n.double? n.wholePart).map .double
  | none, some _ => (n.double? n.wholePart).map .double
  | some ds, _ => (n.double? (n.wholePart.takeFraction ds)).map .double

end Numeral

end CodeGraph.Json

import CodeGraph.Decimal.Shortest
/-! # Layout — where the point and the exponent of a number stand

    How the digits chosen for a floating-point number are laid out as text.

    * Numbers of middling size are written positionally and always show a
      point; the others have one leading digit and a signed exponent.
    * The two precisions differ only in which exponents are positional. -/

namespace CodeGraph.Decimal

/-- The exponents of the leading digit that are written positionally. -/
structure Layout where
  least : Int
  greatest : Int
deriving DecidableEq, Repr

/-- Double precision is positional from `0.00001` to below `1e+16`. -/
def Layout.double : Layout := ⟨-5, 15⟩

/-- Single precision is positional from `0.000001` to below `1e+13`. -/
def Layout.single : Layout := ⟨-6, 12⟩

/-- The digits of a natural number. -/
def digitsOf (n : Nat) : List Char := Nat.toDigits 10 n

namespace Layout

/-- Digits with the point after the first `whole` of them, `whole` positive;
    zeros fill the places that have no digit. -/
def pointAfter (whole : Nat) (ds : List Char) : List Char :=
  let fraction := ds.drop whole
  ds.take whole ++ List.replicate (whole - ds.length) '0' ++ '.' ::
    (if fraction.isEmpty then ['0'] else fraction)

/-- One leading digit, the others after a point, and the exponent. -/
def scientific (ds : List Char) (leading : Int) : List Char :=
  let mantissa := match ds with
    | [] => []
    | [d] => [d]
    | d :: rest => d :: '.' :: rest
  mantissa ++ 'e' :: (if leading < 0 then '-' else '+') :: digitsOf leading.natAbs

/-- The text of a positive decimal. -/
def render (layout : Layout) (d : Scaled) : List Char :=
  let ds := digitsOf d.digits
  let leading := d.exponent + (ds.length - 1 : Nat)
  if layout.least ≤ leading ∧ leading ≤ layout.greatest then
    if leading < 0 then '0' :: '.' :: List.replicate (-leading - 1).toNat '0' ++ ds
    else pointAfter (leading.toNat + 1) ds
  else scientific ds leading

/-- The text of a number given by its sign and its parts. -/
def signed (layout : Layout) (negative : Bool) (b : Binary) : List Char :=
  (if negative then ['-'] else []) ++
    if b.mantissa = 0 then ['0', '.', '0'] else layout.render b.shortest

end Layout

/-- The text of a number of double precision; only finite ones have any. -/
def doubleText? (x : Float) : Option (List Char) :=
  if x.isFinite then
    some (Layout.double.signed (x.toBits ≥ 0x8000000000000000) (ofDouble x.toBits))
  else none

/-- The text of a number of single precision; only finite ones have any. -/
def singleText? (x : Float32) : Option (List Char) :=
  if x.isFinite then
    some (Layout.single.signed (x.toBits ≥ 0x80000000) (ofSingle x.toBits))
  else none

example : Layout.double.render ⟨1, 5⟩ = "100000.0".toList := by decide +kernel
example : Layout.double.render ⟨1, 20⟩ = "1e+20".toList := by decide +kernel
example : Layout.single.render ⟨4472136, -7⟩ = "0.4472136".toList := by decide +kernel
example : Layout.double.render ⟨125, -2⟩ = "1.25".toList := by decide +kernel

end CodeGraph.Decimal

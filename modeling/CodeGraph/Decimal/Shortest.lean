/-! # Shortest decimals — the fewest digits that read back

    A binary floating-point number stands for every real that rounds to it.
    The decimal chosen for it is the one with the fewest digits among these
    reals, and of those the nearest.

    * `Binary` holds a positive number as `mantissa · 2 ^ exponent`.
    * A grid is the set of multiples of a power of ten.  If any point of a
      grid rounds to the number, one of the number's two neighbours on the
      grid does, so only these two are tested.
    * `shortest` tries the grids from coarse to fine; a coarser grid means
      fewer digits. -/

namespace CodeGraph.Decimal

/-- The decimal number `digits · 10 ^ exponent`. -/
structure Scaled where
  digits : Nat
  exponent : Int
deriving DecidableEq, Repr

/-- The positive number `mantissa · 2 ^ exponent`.  It is `narrow` if the
    next smaller number is only half as far away as the next larger one. -/
structure Binary where
  mantissa : Nat
  exponent : Int
  narrow : Bool
deriving DecidableEq, Repr

namespace Binary

/-- The number as numerator and denominator, in quarters of the distance to
    the next larger number. -/
def scale (b : Binary) : Nat × Nat :=
  (1 <<< b.exponent.toNat, 4 <<< (-b.exponent).toNat)

/-- Four times the mantissa. -/
def centre (b : Binary) : Nat := 4 * b.mantissa

/-- The least real that rounds to the number, in the unit of `centre`. -/
def low (b : Binary) : Nat := b.centre - if b.narrow then 1 else 2

/-- The greatest real that rounds to the number, in the unit of `centre`. -/
def high (b : Binary) : Nat := b.centre + 2

/-- Ties go to the even mantissa, so the ends belong to an even number. -/
def closed (b : Binary) : Bool := b.mantissa % 2 = 0

/-- Whether `n` units, each `unit`, round to the number, where `parts` is the
    number of units that one quarter is worth. -/
def rounds (b : Binary) (parts unit n : Nat) : Bool :=
  if b.closed then b.low * parts ≤ n * unit ∧ n * unit ≤ b.high * parts
  else b.low * parts < n * unit ∧ n * unit < b.high * parts

/-- The multiple of `10 ^ e` that rounds to the number, the nearer one if
    both neighbours do, the even one if they are equally near. -/
def onGrid? (b : Binary) (e : Int) : Option Nat :=
  let parts := b.scale.1 * Nat.pow 10 (-e).toNat
  let unit := b.scale.2 * Nat.pow 10 e.toNat
  let below := b.centre * parts / unit
  let above := below + 1
  match b.rounds parts unit below, b.rounds parts unit above with
  | true, false => some below
  | false, true => some above
  | false, false => none
  | true, true =>
      match compare (2 * (b.centre * parts)) ((below + above) * unit) with
      | .lt => some below
      | .gt => some above
      | .eq => some (if below % 2 = 0 then below else above)

/-- A power of ten above the number: `30103 / 100000` is a little more than
    the decimal logarithm of two. -/
def coarsest (b : Binary) : Int :=
  ((b.mantissa.log2 + 1 + b.exponent) * 30103).fdiv 100000 + 1

/-- The exact value. -/
def exact (b : Binary) : Scaled :=
  if 0 ≤ b.exponent then ⟨b.mantissa <<< b.exponent.toNat, 0⟩
  else ⟨b.mantissa * Nat.pow 5 (-b.exponent).toNat, b.exponent⟩

/-- The decimal with the fewest digits that rounds to the number.  Seventeen
    digits always suffice, so twenty grids are enough. -/
def shortest (b : Binary) : Scaled :=
  ((List.range 20).findSome? fun (i : Nat) =>
    (b.onGrid? (b.coarsest - i)).map fun n => Scaled.mk n (b.coarsest - i)).getD b.exact

/-- The number with the given exponent field and fraction field of a format
    with `width` fraction bits whose least exponent is `least`. -/
def ofFields (width : Nat) (least : Int) (exponent fraction : Nat) : Binary :=
  if exponent = 0 then ⟨fraction, least, false⟩
  else ⟨1 <<< width + fraction, least + (exponent - 1), fraction = 0 && exponent != 1⟩

end Binary

/-- The parts of a binary number of 64 bits without its sign. -/
def ofDouble (bits : UInt64) : Binary :=
  let unit := 4503599627370496
  .ofFields 52 (-1074) (bits.toNat / unit % 2048) (bits.toNat % unit)

/-- The parts of a binary number of 32 bits without its sign. -/
def ofSingle (bits : UInt32) : Binary :=
  let unit := 8388608
  .ofFields 23 (-149) (bits.toNat / unit % 256) (bits.toNat % unit)

example : (ofDouble 0x3FB999999999999A).shortest = ⟨1, -1⟩ := by decide +kernel
example : (ofDouble 1).shortest = ⟨5, -324⟩ := by decide +kernel
example : (ofSingle 0x7F7FFFFF).shortest = ⟨34028235, 31⟩ := by decide +kernel

end CodeGraph.Decimal

import CodeGraph.Text.Digits
import CodeGraph.Text.Split
/-! # Identifiers of graphs — 128-bit numbers as text

    A number of 128 bits, written as 32 hexadecimal digits in five groups.

    * Reading takes the groups with hyphens between them, bare, in braces or
      behind `urn:uuid:`, and it takes 32 digits without hyphens.
    * Digits are read in either case and written in lower case. -/

namespace CodeGraph

/-- An identifier of 128 bits. -/
structure Uuid where
  bits : BitVec 128
deriving DecidableEq, Repr

namespace Uuid

/-- The lengths of the five groups of digits. -/
def groups : List Nat := [8, 4, 4, 4, 12]

/-! ## Writing -/

/-- The digits of a number below `16 ^ width`. -/
def hexDigits : (width : Nat) → Nat → List Char
  | 0, _ => []
  | width + 1, n =>
      Text.hexDigit (n / Nat.pow 16 width) :: hexDigits width (n % Nat.pow 16 width)

/-- Digits cut into groups, hyphens between them. -/
def hyphenate : List Nat → List Char → List Char
  | [], _ => []
  | [n], ds => ds.take n
  | n :: ns, ds => ds.take n ++ '-' :: hyphenate ns (ds.drop n)

/-- The written form. -/
def toText (u : Uuid) : String :=
  String.ofList (hyphenate groups (hexDigits 32 u.bits.toNat))

/-! ## Reading -/

/-- The identifier with the given digits. -/
def ofDigits? (ds : List Char) : Option Uuid :=
  if ds.length = 32 then
    (Text.hexNumber? ds).map fun n => ⟨BitVec.ofNat 128 n⟩
  else none

/-- Groups of digits with hyphens between them. -/
def ofGroups? (s : List Char) : Option Uuid :=
  let parts := Text.pieces (· = '-') s
  if parts.map List.length = groups then ofDigits? parts.flatten else none

/-- A text without the braces around it. -/
def unbrace? : List Char → Option (List Char)
  | '\x7b' :: s => if s.getLast? = some '\x7d' then some s.dropLast else none
  | _ => none

/-- A text without the mark of an identifier as a resource name, whose letters
    may be of either case. -/
def unmark? (s : List Char) : Option (List Char) :=
  let mark := "urn:uuid:".toList
  if mark.isPrefixOf (s.map Char.toLower) then some (s.drop mark.length) else none

/-- Reads an identifier. -/
def ofText? (s : String) : Option Uuid :=
  let cs := s.toList
  if cs.length = 32 then ofDigits? cs
  else ofGroups? (((unbrace? cs).or (unmark? cs)).getD cs)

/-! ## Fresh identifiers -/

/-- An identifier of random bytes, marked as such in the six bits that say how
    an identifier was made. -/
def ofRandom (bytes : List UInt8) : Uuid :=
  let random := BitVec.ofNat 128 (bytes.foldl (fun n b => n * 256 + b.toNat) 0)
  let mask := (0xF : BitVec 128) <<< 76 ||| (0x3 : BitVec 128) <<< 62
  let mark := (0x4 : BitVec 128) <<< 76 ||| (0x2 : BitVec 128) <<< 62
  ⟨(random &&& ~~~ mask) ||| mark⟩

example : (ofRandom (List.replicate 16 255)).toText =
    "ffffffff-ffff-4fff-bfff-ffffffffffff" := by decide +kernel

example : (ofText? "urn:uuid:01234567-89AB-4def-8123-456789abcdef").map toText =
    some "01234567-89ab-4def-8123-456789abcdef" := by decide +kernel

end Uuid

end CodeGraph

/-! # Blank characters — the white space of Unicode

    The property `White_Space` as a table, and the text left when blanks are
    taken off both ends.

    * `isBlank` decides the property; the byte order mark and the zero-width
      spaces do not have it.
    * `trim` works on characters, so it never cuts inside one. -/

namespace CodeGraph.Text

/-- The code points with the property `White_Space`, as inclusive ranges. -/
def blankRanges : List (Nat × Nat) :=
  [(0x9, 0xD), (0x20, 0x20), (0x85, 0x85), (0xA0, 0xA0), (0x1680, 0x1680),
   (0x2000, 0x200A), (0x2028, 0x2029), (0x202F, 0x202F), (0x205F, 0x205F),
   (0x3000, 0x3000)]

/-- A blank is a character with the property `White_Space`. -/
def isBlank (c : Char) : Bool :=
  blankRanges.any fun r => r.1 ≤ c.toNat && c.toNat ≤ r.2

/-- Characters without the longest run of `p` at either end. -/
def trimEnds (p : Char → Bool) (cs : List Char) : List Char :=
  ((cs.dropWhile p).reverse.dropWhile p).reverse

/-- Text without the blanks at either end. -/
def trim (s : String) : String :=
  String.ofList (trimEnds isBlank s.toList)

/-- ASCII letters in lower case, all else as it stands. -/
def lowerAscii (s : String) : String :=
  String.ofList (s.toList.map Char.toLower)

example : blankRanges.length = 10 := rfl

example : (blankRanges.map fun r => r.2 + 1 - r.1).sum = 25 := rfl

end CodeGraph.Text

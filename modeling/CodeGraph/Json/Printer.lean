import CodeGraph.Json.Parser
/-! # Writing JSON — value to text

    The fields of an object in the order they have, without any spaces, or on
    several lines with a line for each item and each field.

    * A quote, a backslash and the control characters are escaped, all other
      characters stand for themselves.
    * A floating-point number is written with the fewest digits that read back
      at its precision; one that is not finite is written `null`. -/

namespace CodeGraph.Json

/-- How a character stands in a string. -/
def escapeChar (c : Char) : List Char :=
  match c with
  | '"' => ['\\', '"']
  | '\\' => ['\\', '\\']
  | '\x08' => ['\\', 'b']
  | '\x0c' => ['\\', 'f']
  | '\n' => ['\\', 'n']
  | '\r' => ['\\', 'r']
  | '\t' => ['\\', 't']
  | c =>
      if c.toNat < 0x20 then
        ['\\', 'u', '0', '0', Text.hexDigit (c.toNat / 16), Text.hexDigit (c.toNat % 16)]
      else [c]

/-- A string with its quotes. -/
def printString (s : String) : List Char :=
  '"' :: s.toList.flatMap escapeChar ++ ['"']

/-- A number. -/
def Number.print : Number → List Char
  | .integer n =>
      if n.val < 0 then '-' :: Decimal.digitsOf n.val.natAbs
      else Decimal.digitsOf n.val.natAbs
  | .double x => (Decimal.doubleText? x).getD ['n', 'u', 'l', 'l']
  | .single x => (Decimal.singleText? x).getD ['n', 'u', 'l', 'l']

mutual

/-- The text of a value. -/
def print : Json → List Char
  | .null => ['n', 'u', 'l', 'l']
  | .bool true => ['t', 'r', 'u', 'e']
  | .bool false => ['f', 'a', 'l', 's', 'e']
  | .number n => n.print
  | .string s => printString s
  | .array [] => ['[', ']']
  | .array (x :: xs) => '[' :: print x ++ printItems xs
  | .object [] => ['\x7b', '\x7d']
  | .object ((k, x) :: xs) =>
      '\x7b' :: printString k ++ ':' :: print x ++ printFields xs

/-- The items behind the first one, and the end of the array. -/
def printItems : List Json → List Char
  | [] => [']']
  | x :: xs => ',' :: print x ++ printItems xs

/-- The fields behind the first one, and the end of the object. -/
def printFields : List (String × Json) → List Char
  | [] => ['\x7d']
  | (k, x) :: xs => ',' :: printString k ++ ':' :: print x ++ printFields xs

end

/-! ## On several lines -/

/-- A new line with two spaces for each level. -/
def newLine (level : Nat) : List Char := '\n' :: List.replicate (2 * level) ' '

mutual

/-- The text of a value with a line for each item and each field. -/
def printLines (level : Nat) : Json → List Char
  | .array (x :: xs) =>
      '[' :: newLine (level + 1) ++ printLines (level + 1) x ++ printItemLines level xs
  | .object ((k, x) :: xs) =>
      '\x7b' :: newLine (level + 1) ++ printString k ++ ':' :: ' ' ::
        printLines (level + 1) x ++ printFieldLines level xs
  | v => print v

/-- The items behind the first one, and the end of the array. -/
def printItemLines (level : Nat) : List Json → List Char
  | [] => newLine level ++ [']']
  | x :: xs =>
      ',' :: newLine (level + 1) ++ printLines (level + 1) x ++ printItemLines level xs

/-- The fields behind the first one, and the end of the object. -/
def printFieldLines (level : Nat) : List (String × Json) → List Char
  | [] => newLine level ++ ['\x7d']
  | (k, x) :: xs =>
      ',' :: newLine (level + 1) ++ printString k ++ ':' :: ' ' ::
        printLines (level + 1) x ++ printFieldLines level xs

end

/-- The text of a value on several lines. -/
def renderLines (v : Json) : String := String.ofList (printLines 0 v)

/-- The text of a value. -/
def render (v : Json) : String := String.ofList (print v)

end CodeGraph.Json

import CodeGraph.Text.Utf8
/-! # Lines — bytes between newlines

    Bytes cut behind every newline.

    * A line keeps the newline that ends it; only the last line may lack one.
    * `dropLineEnd` takes off the newline, and a carriage return in front of
      it. -/

namespace CodeGraph.Text

/-- The byte that ends a line. -/
def lineFeed : UInt8 := 10

/-- The lines of some bytes, each with the newline that ends it. -/
def lines (bytes : List UInt8) : List (List UInt8) :=
  match _h : bytes.dropWhile (· ≠ lineFeed) with
  | [] => if bytes.isEmpty then [] else [bytes]
  | b :: rest => (bytes.takeWhile (· ≠ lineFeed) ++ [b]) :: lines rest
termination_by bytes.length
decreasing_by
  have := (List.dropWhile_sublist (· ≠ lineFeed) (l := bytes)).length_le
  rw [_h] at this
  simp only [List.length_cons] at this
  omega

/-- A line without its end. -/
def dropLineEnd (line : List Char) : List Char :=
  match line.reverse with
  | '\n' :: '\r' :: rest => rest.reverse
  | '\n' :: rest => rest.reverse
  | _ => line

end CodeGraph.Text

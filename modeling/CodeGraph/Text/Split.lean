/-! # Pieces of text — cutting at separators

    A text cut at every character of a class, and put together again.

    * A text with `n` separators has `n + 1` pieces, some of them perhaps
      empty.
    * The cut at the last separator splits off a final piece. -/

namespace CodeGraph.Text

/-- The pieces between the characters that `p` picks out. -/
def pieces (p : Char → Bool) : List Char → List (List Char)
  | [] => [[]]
  | c :: cs =>
      if p c then [] :: pieces p cs
      else match pieces p cs with
        | [] => [[c]]
        | w :: ws => (c :: w) :: ws

/-- The pieces of a text between the characters that `p` picks out. -/
def split (p : Char → Bool) (s : String) : List String :=
  (pieces p s.toList).map String.ofList

/-- Pieces with a separator between them. -/
def join (separator : String) : List String → String
  | [] => ""
  | [s] => s
  | s :: rest => s ++ separator ++ join separator rest

/-- A text without a prefix; none if it does not begin with it. -/
def stripPrefix? (front s : List Char) : Option (List Char) :=
  if front.isPrefixOf s then some (s.drop front.length) else none

theorem pieces_ne_nil (p : Char → Bool) (cs : List Char) : pieces p cs ≠ [] := by
  cases cs with
  | nil => simp [pieces]
  | cons c cs =>
      rw [pieces]
      split
      · simp
      · split <;> simp

end CodeGraph.Text

/-! # Tokens — the words inside identifiers and prose

    Text cut into lower-case words, so that `authenticateUser`,
    `authenticate_user` and `authenticate user` have the same ones.

    * A token is a run of capitals and the small letters and digits behind it,
      or a run of small letters and digits.
    * Only ASCII letters and digits belong to tokens; everything else
      separates them. -/

namespace CodeGraph.Retrieval

/-- An ASCII capital. -/
def isCapital (c : Char) : Bool := 'A' ≤ c && c ≤ 'Z'

/-- An ASCII small letter or a digit. -/
def isSmall (c : Char) : Bool := ('a' ≤ c && c ≤ 'z') || ('0' ≤ c && c ≤ '9')

/-- The tokens of some characters. -/
def tokensOf : List Char → List (List Char)
  | [] => []
  | c :: cs =>
      if isCapital c then
        let rest := cs.dropWhile isCapital
        (c :: cs.takeWhile isCapital ++ rest.takeWhile isSmall).map Char.toLower
          :: tokensOf (rest.dropWhile isSmall)
      else if isSmall c then
        (c :: cs.takeWhile isSmall) :: tokensOf (cs.dropWhile isSmall)
      else tokensOf cs
termination_by cs => cs.length
decreasing_by
  · have h1 : (cs.dropWhile isCapital).length ≤ cs.length :=
      (List.dropWhile_sublist _).length_le
    have h2 : ((cs.dropWhile isCapital).dropWhile isSmall).length ≤
        (cs.dropWhile isCapital).length := (List.dropWhile_sublist _).length_le
    simp only [List.length_cons]
    omega
  · have h1 : (cs.dropWhile isSmall).length ≤ cs.length :=
      (List.dropWhile_sublist _).length_le
    simp only [List.length_cons]
    omega
  · simp

/-- The tokens of a text. -/
def tokenize (s : String) : List String := (tokensOf s.toList).map String.ofList

end CodeGraph.Retrieval

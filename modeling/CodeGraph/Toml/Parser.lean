import CodeGraph.Toml.Quoted
import CodeGraph.Toml.Scalar
import CodeGraph.Toml.Table
/-! # Reading TOML — text to value

    A text is read statement by statement, and the statements are put together
    to one object.

    * An array may go over several lines, with comments, and a comma may stand
      behind its last item; braces stay on one line.
    * Arrays and braces are nested less deep than eighty, and no key has eighty
      names. -/

namespace CodeGraph.Toml

open Text (Gap Read Reader)

/-- The number of levels that are too many. -/
def tooDeep : Nat := 80

/-! ## Ends of lines -/

/-- A text without the comment at its front. -/
def skipComment : List Char → List Char
  | '#' :: s => s.dropWhile isPlain
  | s => s

/-- What follows the end of a line, which may hold blanks and a comment. -/
def endLine? (s : List Char) : Option (List Char) :=
  match skipComment (blanks.skip s) with
  | [] => some []
  | t => (newline t).map (·.rest)

theorem skipComment_length (s : List Char) : (skipComment s).length ≤ s.length := by
  unfold skipComment
  split
  · rename_i t
    have := (List.dropWhile_sublist isPlain (l := t)).length_le
    simp only [List.length_cons]
    omega
  · exact Nat.le_refl _

theorem endLine?_length {s t : List Char} (h : endLine? s = some t) :
    t.length ≤ s.length := by
  have h1 := skipComment_length (blanks.skip s)
  have h2 := blanks.skip_length s
  unfold endLine? at h
  split at h
  · cases h
    simp
  · obtain ⟨r, -, rfl⟩ := Option.map_eq_some_iff.mp h
    have := r.shorter
    omega

/-- A comment with the newline behind it. -/
def comment : Reader Unit
  | '#' :: s => ((Gap.ofClass isPlain).before newline s).map (·.behind '#')
  | _ => none

/-- A text without the blanks, newlines and comments at its front. -/
def skipTrivia (s : List Char) : List Char :=
  match lines.before comment s with
  | some c =>
      have := c.shorter
      skipTrivia c.rest
  | none => lines.skip s
termination_by s.length

theorem skipTrivia_length (s : List Char) : (skipTrivia s).length ≤ s.length := by
  fun_induction skipTrivia s with
  | case1 s c _ _ ih => omega
  | case2 s _ => exact lines.skip_length s

/-- The blanks, newlines and comments between the parts of an array. -/
def trivia : Gap := ⟨skipTrivia, skipTrivia_length⟩

/-! ## Values -/

/-- A path that is not too deep. -/
def path : Reader (List String) := fun s =>
  (key s).bind fun r => if tooDeep ≤ r.value.length then none else some r

/-- A path, an equals sign and a value. -/
def assignment (item : Reader Json) : Reader (List String × Json) := fun s =>
  match path s with
  | none => none
  | some p =>
      match blanks.mark '=' p.rest with
      | none => none
      | some equals =>
          (blanks.before item equals.rest).map fun r =>
            p.andThen (equals.andThen (r.map (p.value, ·)))

/-- A value in which at most `depth` arrays and braces are nested. -/
def value : (depth : Nat) → Reader Json
  | depth + 1, '[' :: s =>
      (trivia.list (value depth) ']' true s).map fun r => (r.map .array).behind '['
  | depth + 1, '\x7b' :: s =>
      (blanks.list (assignment (value depth)) '\x7d' false s).bind fun r =>
        (r.mapOption inline?).map (·.behind '\x7b')
  | _, s =>
      match string s with
      | some r => some (r.map .string)
      | none => scalar s

/-! ## Statements -/

/-- The path in a header, behind its opening bracket and up to its closing
    one. -/
def header : Reader (List String) := fun s =>
  match blanks.before path s with
  | none => none
  | some p => (blanks.mark ']' p.rest).map fun r => p.andThen (r.map fun _ => p.value)

/-- A header or an assignment, without the end of its line. -/
def command : Reader Statement
  | '[' :: '[' :: s =>
      match header s with
      | none => none
      | some p =>
          (Gap.empty.mark ']' p.rest).map fun r =>
            ((p.andThen (r.map fun _ => .openElement p.value)).behind '[').behind '['
  | '[' :: s => (header s).map fun r => (r.map .openTable).behind '['
  | s => (assignment (value (tooDeep - 1)) s).map (·.map fun a => .assign a.1 a.2)

/-- The end of a line that holds no statement; it is not the end of the text. -/
def emptyLine : Reader Statement := fun s =>
  match endLine? s with
  | none => none
  | some rest => if h : rest.length < s.length then some ⟨.nothing, rest, h⟩ else none

/-- A statement with the end of its line; a line may hold none. -/
def statement : Reader Statement := fun s =>
  match emptyLine s with
  | some r => some r
  | none =>
      match blanks.before command s with
      | none => none
      | some x =>
          match h : endLine? x.rest with
          | none => none
          | some rest =>
              some ⟨x.value, rest, Nat.lt_of_le_of_lt (endLine?_length h) x.shorter⟩

/-- A text without the byte order mark at its front. -/
def skipMark : List Char → List Char
  | '\ufeff' :: s => s
  | s => s

/-- The object that a text stands for. -/
def parse? (text : String) : Option Json :=
  (Text.readAll statement (skipMark text.toList)).bind assemble?

example : parse? "a.b = 1\n[c]\nd = [ 'x', # y\n]\n" = some (.object
    [("a", .object [("b", .ofNat 1)]),
     ("c", .object [("d", .array [.string "x"])])]) := by
  decide +kernel

example : (parse? "[a]\n[a]\n").isNone = true := by decide +kernel

end CodeGraph.Toml

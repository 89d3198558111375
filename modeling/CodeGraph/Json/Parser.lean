import CodeGraph.Json.Numeral
import CodeGraph.Text.Digits
import CodeGraph.Text.Reader
/-! # Reading JSON — text to value

    Readers for the parts of a value, each of which takes something off the
    front of a text.

    * `value` reads one value in which at most the given number of arrays and
      objects are nested.
    * `Json.read?` takes one value and the text behind it; `Json.parse?`
      admits only blanks behind it.
    * A string holds whole characters only: an escaped half of a surrogate
      pair without its other half is refused, and so is a control character
      that is not escaped. -/

namespace CodeGraph.Json

open Text (Gap Read Reader)

namespace Reader

/-! ## Blanks -/

/-- The characters that may stand between the parts of a value. -/
def isSpace (c : Char) : Bool :=
  c == ' ' || c == '\n' || c == '\t' || c == '\r'

/-- The spaces between the parts of a value. -/
def spaces : Gap := .ofClass isSpace

/-- A text without the spaces at its front. -/
def skipSpace (s : List Char) : List Char := spaces.skip s

/-! ## Strings -/

/-- The character that a letter behind a backslash stands for. -/
def escapedChar? : Char → Option Char
  | '"' => some '"'
  | '\\' => some '\\'
  | '/' => some '/'
  | 'b' => some '\x08'
  | 'f' => some '\x0c'
  | 'n' => some '\n'
  | 'r' => some '\r'
  | 't' => some '\t'
  | _ => none

/-- The code point that a pair of surrogates stands for. -/
def joinSurrogates (high low : Nat) : Nat :=
  0x10000 + (high - 0xD800) * 0x400 + (low - 0xDC00)

/-- The number that four hexadecimal digits spell. -/
def fourDigits : Reader Nat := fun s =>
  (Text.characters 3 s).bind (·.mapOption Text.hexNumber?)

/-- The second half of a surrogate pair, itself escaped. -/
def lowSurrogate (high : Nat) : Reader Char
  | '\\' :: 'u' :: s =>
      (fourDigits s).bind fun r =>
        if 0xDC00 ≤ r.value ∧ r.value ≤ 0xDFFF then
          let c := r.map fun low => Char.ofNat (joinSurrogates high low)
          some ((c.behind 'u').behind '\\')
        else none
  | _ => none

/-- The character of a code point in four digits; the first half of a surrogate
    pair needs its other half. -/
def codePoint : Reader Char := fun s =>
  match fourDigits s with
  | none => none
  | some r =>
      if 0xD800 ≤ r.value ∧ r.value ≤ 0xDBFF then
        (lowSurrogate r.value r.rest).map r.andThen
      else if 0xDC00 ≤ r.value ∧ r.value ≤ 0xDFFF then none
      else some (r.map Char.ofNat)

/-- The character that an escape stands for, read from behind its
    backslash. -/
def escape : Reader Char
  | 'u' :: s => (codePoint s).map (·.behind 'u')
  | c :: s => (escapedChar? c).map fun e => .first e c s
  | [] => none

/-- Whether a character may stand in a string as itself. -/
def isPlain (c : Char) : Bool := 0x20 ≤ c.toNat

/-- The characters of a string up to its closing quote, read from behind the
    opening one. -/
def stringBody : Reader (List Char) := Text.quoted '"' escape isPlain

/-! ## Numbers -/

/-- The digits at the front of a text. -/
def digitsOff (s : List Char) : List Char × List Char :=
  (s.takeWhile Char.isDigit, s.dropWhile Char.isDigit)

/-- Taking digits off splits a text and loses none of it. -/
theorem digitsOff_length (s : List Char) :
    (digitsOff s).1.length + (digitsOff s).2.length = s.length := by
  simp only [digitsOff, ← List.length_append, List.takeWhile_append_dropWhile]

/-- Digits behind the point, at least one if there is a point. -/
def fractionOff? : List Char → Option (Option (List Char) × List Char)
  | '.' :: s =>
      if (digitsOff s).1.isEmpty then none
      else some (some (digitsOff s).1, (digitsOff s).2)
  | s => some (none, s)

/-- A sign, true if it is a minus. -/
def signOff : List Char → Bool × List Char
  | '+' :: s => (false, s)
  | '-' :: s => (true, s)
  | s => (false, s)

/-- The power of ten, with at least one digit if there is a mark for it. -/
def exponentOff? : List Char → Option (Option (Bool × List Char) × List Char)
  | c :: s =>
      if c = 'e' ∨ c = 'E' then
        let (down, t) := signOff s
        if (digitsOff t).1.isEmpty then none
        else some (some (down, (digitsOff t).1), (digitsOff t).2)
      else some (none, c :: s)
  | [] => some (none, [])

/-- A fraction that is taken off makes a text no longer. -/
theorem fractionOff?_length {s rest : List Char} {f : Option (List Char)}
    (h : fractionOff? s = some (f, rest)) : rest.length ≤ s.length := by
  unfold fractionOff? at h
  split at h
  · rename_i t
    split at h
    · cases h
    · have := digitsOff_length t
      cases h
      simp only [List.length_cons]
      omega
  · cases h
    exact Nat.le_refl _

theorem signOff_length (s : List Char) : (signOff s).2.length ≤ s.length := by
  unfold signOff
  split <;> simp

/-- An exponent that is taken off, with or without a sign, makes a text no longer. -/
theorem exponentOff?_length {s rest : List Char} {e : Option (Bool × List Char)}
    (h : exponentOff? s = some (e, rest)) : rest.length ≤ s.length := by
  unfold exponentOff? at h
  split at h
  · rename_i c t
    split at h
    · dsimp only at h
      split at h
      · cases h
      · have h1 := digitsOff_length (signOff t).2
        have h2 := signOff_length t
        cases h
        simp only [List.length_cons]
        omega
    · cases h
      exact Nat.le_refl _
  · cases h
    exact Nat.le_refl _

/-- A numeral behind its sign: no zero stands in front of another digit. -/
def unsigned (negative : Bool) : Reader Numeral := fun s =>
  let whole := (digitsOff s).1
  if hw : whole = [] ∨ (whole.head? = some '0' ∧ whole.length ≠ 1) then none
  else
    match hf : fractionOff? (digitsOff s).2 with
    | none => none
    | some (fraction, s₂) =>
        match he : exponentOff? s₂ with
        | none => none
        | some (exponent, rest) =>
            some ⟨⟨negative, whole, fraction, exponent⟩, rest, by
              have h1 := fractionOff?_length hf
              have h2 := exponentOff?_length he
              have h3 := digitsOff_length s
              have h4 : (digitsOff s).1.length ≠ 0 := by
                intro h0
                exact hw (Or.inl (List.length_eq_zero_iff.mp h0))
              omega⟩

/-- A numeral. -/
def numeral : Reader Numeral
  | '-' :: s => (unsigned true s).map (·.behind '-')
  | s => unsigned false s

/-- A number. -/
def number : Reader Number := fun s =>
  (numeral s).bind (·.mapOption Numeral.toNumber?)

/-! ## Values -/

/-- A key, a colon and a value, which is read as the key says.  The reader of
    the key begins behind its opening quote. -/
def member {α : Type} (key : Reader (List Char)) (item : String → Reader α) :
    Reader (String × α)
  | '"' :: s =>
      match key s with
      | none => none
      | some k =>
          match spaces.mark ':' k.rest with
          | none => none
          | some colon =>
              let name := String.ofList k.value
              (spaces.before (item name) colon.rest).map fun r =>
                (k.andThen (colon.andThen (r.map (name, ·)))).behind '"'
  | _ => none

/-- A word that stands for a value. -/
def word : Reader Json
  | 'n' :: 'u' :: 'l' :: 'l' :: s =>
      some ((((Read.first .null 'l' s).behind 'l').behind 'u').behind 'n')
  | 't' :: 'r' :: 'u' :: 'e' :: s =>
      some ((((Read.first (.bool true) 'e' s).behind 'u').behind 'r').behind 't')
  | 'f' :: 'a' :: 'l' :: 's' :: 'e' :: s =>
      let r : Read Json ('e' :: s) := .first (.bool false) 'e' s
      some ((((r.behind 's').behind 'l').behind 'a').behind 'f')
  | _ => none

/-- A value in which at most `depth` arrays and objects are nested. -/
def value : (depth : Nat) → Reader Json
  | _, '"' :: s =>
      (stringBody s).map fun r => (r.map (.string <| String.ofList ·)).behind '"'
  | depth + 1, '[' :: s =>
      (spaces.list (value depth) ']' false s).map fun r => (r.map .array).behind '['
  | depth + 1, '\x7b' :: s =>
      (spaces.list (member stringBody fun _ => value depth) '\x7d' false s).map fun r =>
        (r.map .object).behind '\x7b'
  | _, s =>
      match word s with
      | some r => some r
      | none => (number s).map (·.map .number)

end Reader

open Reader

/-- The number of arrays and objects that may be nested. -/
def maxDepth : Nat := 127

/-- A value off the front of a text, and the text behind it. -/
def read? (s : List Char) : Option (Json × List Char) :=
  (value maxDepth (skipSpace s)).map fun r => (r.value, r.rest)

/-- The value that a whole text is. -/
def parse? (s : List Char) : Option Json :=
  match read? s with
  | some (v, rest) => if (skipSpace rest).isEmpty then some v else none
  | none => none

end CodeGraph.Json

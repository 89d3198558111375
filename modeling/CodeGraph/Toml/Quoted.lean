import CodeGraph.Text.Digits
import CodeGraph.Text.Reader
/-! # Strings and keys of TOML

    Strings have four forms: with double quotes, where a backslash starts an
    escape, or with single quotes, where it does not; on one line, or between
    triple quotes on several.

    * A newline directly behind opening triple quotes does not count, and all
      newlines in a string are line feeds.
    * Before closing triple quotes two more quotes may stand; they belong to the
      string.
    * A key is made of names with points between them; a name is bare or a
      string on one line. -/

namespace CodeGraph.Toml

open Text (Gap Read Reader)

/-! ## Blanks and newlines -/

/-- The characters that may stand between the parts of a line. -/
def isBlank (c : Char) : Bool := c = ' ' || c = '\t'

/-- The characters that may stand in a string or a comment. -/
def isPlain (c : Char) : Bool := c = '\t' || (0x20 ≤ c.toNat && c.toNat ≠ 0x7F)

/-- The blanks between the parts of a line. -/
def blanks : Gap := .ofClass isBlank

/-- A newline. -/
def newline : Reader Unit
  | '\n' :: s => some (.first () '\n' s)
  | '\r' :: '\n' :: s => some ((Read.first () '\n' s).behind '\r')
  | _ => none

/-- A text without the blanks and newlines at its front. -/
def skipLines : List Char → List Char
  | '\r' :: '\n' :: s => skipLines s
  | c :: s => if isBlank c || c = '\n' then skipLines s else c :: s
  | [] => []

theorem skipLines_length (s : List Char) : (skipLines s).length ≤ s.length := by
  fun_induction skipLines s with
  | case1 s ih => simp only [List.length_cons]; omega
  | case2 c s _ _ ih => simp only [List.length_cons]; omega
  | case3 => exact Nat.le_refl _
  | case4 => exact Nat.le_refl _

/-- The blanks and newlines between the parts of a string or an array. -/
def lines : Gap := ⟨skipLines, skipLines_length⟩

/-! ## Escapes -/

/-- The character that a letter behind a backslash stands for. -/
def escapedChar? : Char → Option Char
  | 'b' => some '\x08'
  | 't' => some '\t'
  | 'n' => some '\n'
  | 'f' => some '\x0c'
  | 'r' => some '\r'
  | '"' => some '"'
  | '\\' => some '\\'
  | _ => none

/-- The character with the code point that digits spell. -/
def codePoint? (ds : List Char) : Option Char :=
  (Text.hexNumber? ds).bind fun n => if n.isValidChar then some (Char.ofNat n) else none

/-- The character that an escape stands for, read from behind its
    backslash. -/
def escape : Reader Char
  | [] => none
  | c :: s =>
      if c = 'u' then
        (Text.characters 3 s).bind fun r => (r.mapOption codePoint?).map (·.behind c)
      else if c = 'U' then
        (Text.characters 7 s).bind fun r => (r.mapOption codePoint?).map (·.behind c)
      else (escapedChar? c).map fun x => .first x c s

/-! ## Strings -/

/-- The rest of a string with double quotes. -/
def basic : Reader (List Char) := Text.quoted '"' escape isPlain

/-- The rest of a string with single quotes. -/
def literal : Reader (List Char)
  | [] => none
  | c :: s =>
      if c = '\'' then some (.first [] c s)
      else if isPlain c then (literal s).map fun r => (r.map (c :: ·)).behind c
      else none

/-- A quote three times. -/
def triple (quote : Char) : Reader Unit
  | a :: b :: c :: s =>
      if a = quote ∧ b = quote ∧ c = quote then
        some (((Read.first () c s).behind b).behind a)
      else none
  | _ => none

/-- The end of a string between triple quotes, with the quotes that belong to the
    string, at most two. -/
def closing (quote : Char) : Reader (List Char) := fun s =>
  (triple quote s).map fun r =>
    match h : r.rest with
    | d :: e :: t =>
        if d = quote ∧ e = quote then
          r.andThen (h ▸ ((Read.first [d, e] e t).behind d))
        else if d = quote then r.andThen (h ▸ Read.first [d] d (e :: t))
        else r.map fun _ => []
    | [d] => if d = quote then r.andThen (h ▸ Read.first [d] d []) else r.map fun _ => []
    | [] => r.map fun _ => []

/-- The rest of a string between triple double quotes. -/
def basicLines (s : List Char) : Option (Read (List Char) s) :=
  match closing '"' s with
  | some r => some r
  | none =>
      match s with
      | [] => none
      | '\\' :: t =>
          match (blanks.before newline t).map lines.after with
          | some r =>
              have := r.shorter
              (basicLines r.rest).map fun q => (r.andThen q).behind '\\'
          | none =>
              match escape t with
              | none => none
              | some c =>
                  have := c.shorter
                  (basicLines c.rest).map fun r =>
                    (c.andThen (r.map (c.value :: ·))).behind '\\'
      | '\r' :: '\n' :: t =>
          (basicLines t).map fun r => ((r.map ('\n' :: ·)).behind '\n').behind '\r'
      | c :: t =>
          if isPlain c || c = '\n' then
            (basicLines t).map fun r => (r.map (c :: ·)).behind c
          else none
termination_by s.length
decreasing_by
  all_goals
    simp only [List.length_cons] at *
    omega

/-- The rest of a string between triple single quotes. -/
def literalLines (s : List Char) : Option (Read (List Char) s) :=
  match closing '\'' s with
  | some r => some r
  | none =>
      match s with
      | [] => none
      | '\r' :: '\n' :: t =>
          (literalLines t).map fun r => ((r.map ('\n' :: ·)).behind '\n').behind '\r'
      | c :: t =>
          if isPlain c || c = '\n' then
            (literalLines t).map fun r => (r.map (c :: ·)).behind c
          else none

/-- Behind opening triple quotes: a newline there does not count. -/
def opened (read : Reader (List Char)) : Reader (List Char) := fun s =>
  match newline s with
  | some r => (read r.rest).map r.andThen
  | none => read s

/-- The characters of a string on one line. -/
def line : Reader (List Char)
  | '"' :: s => (basic s).map (·.behind '"')
  | '\'' :: s => (literal s).map (·.behind '\'')
  | _ => none

/-- The characters of a string. -/
def quoted : Reader (List Char) := fun s =>
  match triple '"' s with
  | some r => (opened basicLines r.rest).map r.andThen
  | none =>
      match triple '\'' s with
      | some r => (opened literalLines r.rest).map r.andThen
      | none => line s

/-- A string. -/
def string : Reader String := fun s => (quoted s).map (·.map String.ofList)

/-! ## Keys -/

/-- The characters of bare names. -/
def isBare (c : Char) : Bool := c.isAlphanum || c = '_' || c = '-'

/-- A bare name. -/
def bareName : Reader (List Char)
  | c :: s =>
      if isBare c then
        some ((Gap.ofClass isBare).after (.first (c :: s.takeWhile isBare) c s))
      else none
  | [] => none

/-- A name. -/
def name : Reader String := fun s =>
  match bareName s with
  | some r => some (r.map String.ofList)
  | none => (line s).map (·.map String.ofList)

/-- Names with points between them; blanks may stand around the points. -/
def key (s : List Char) : Option (Read (List String) s) :=
  match name s with
  | none => none
  | some n =>
      match blanks.mark '.' n.rest with
      | none => some (n.map ([·]))
      | some point =>
          have := n.shorter
          have := point.shorter
          have := blanks.skip_length point.rest
          (key (blanks.skip point.rest)).map fun r =>
            n.andThen (point.andThen
              ((r.map (n.value :: ·)).widen (blanks.skip_length point.rest)))
termination_by s.length

end CodeGraph.Toml

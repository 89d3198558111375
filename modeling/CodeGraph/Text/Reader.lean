/-! # Readers — something off the front of a text

    A reader takes a value off the front of a text and leaves the rest.  The
    rest is shorter, and that is why whatever is made of readers ends.

    * `Read` carries the rest together with the reason that it is shorter.
    * A gap is what may stand between the parts of something and means nothing.
    * `quoted` and `Gap.list` read what most formats have: text between quotes,
      and items between brackets. -/

namespace CodeGraph.Text

/-- What was read off the front of `s`, and the rest of `s`. -/
structure Read (α : Type) (s : List Char) where
  value : α
  rest : List Char
  shorter : rest.length < s.length

/-- A way to read a value off the front of a text. -/
abbrev Reader (α : Type) := (s : List Char) → Option (Read α s)

namespace Read

variable {α β : Type} {s : List Char}

/-- The same rest with another value. -/
def map (f : α → β) (r : Read α s) : Read β s := ⟨f r.value, r.rest, r.shorter⟩

/-- What was read off a shorter text, as read off a longer one. -/
def widen {t : List Char} (r : Read α t) (h : t.length ≤ s.length) : Read α s :=
  ⟨r.value, r.rest, Nat.lt_of_lt_of_le r.shorter h⟩

/-- A value that the first character stands for. -/
def first (x : α) (c : Char) (s : List Char) : Read α (c :: s) :=
  ⟨x, s, Nat.lt_succ_self _⟩

/-- What was read behind a first character. -/
def behind (c : Char) (r : Read α s) : Read α (c :: s) := r.widen (Nat.le_succ _)

/-- What was read behind something else. -/
def andThen (r : Read α s) (q : Read β r.rest) : Read β s :=
  q.widen (Nat.le_of_lt r.shorter)

/-- The same rest with what a function makes of the value. -/
def mapOption (f : α → Option β) (r : Read α s) : Option (Read β s) :=
  (f r.value).map fun y => r.map fun _ => y

end Read

/-- A character and `more` others behind it. -/
def characters : (more : Nat) → Reader (List Char)
  | 0, c :: s => some (.first [c] c s)
  | more + 1, c :: s => (characters more s).map fun r => (r.map (c :: ·)).behind c
  | _, [] => none

/-- Reads everything that a reader finds, one thing behind the other up to the
    end. -/
def readAll {α : Type} (read : Reader α) (s : List Char) : Option (List α) :=
  if s = [] then some []
  else
    match read s with
    | none => none
    | some ⟨x, rest, _⟩ => (readAll read rest).map (x :: ·)
termination_by s.length

/-- The characters up to a closing quote.  A backslash begins an escape, and all
    other characters have to be plain. -/
def quoted (quote : Char) (escape : Reader Char) (plain : Char → Bool) :
    (s : List Char) → Option (Read (List Char) s)
  | [] => none
  | c :: s =>
      if c = quote then some (.first [] c s)
      else if c = '\\' then
        match escape s with
        | none => none
        | some e =>
            have := e.shorter
            (quoted quote escape plain e.rest).map fun r =>
              (e.andThen (r.map (e.value :: ·))).behind c
      else if plain c then
        (quoted quote escape plain s).map fun r => (r.map (c :: ·)).behind c
      else none
termination_by s => s.length
decreasing_by
  all_goals
    simp only [List.length_cons]
    omega

/-! ## Gaps -/

/-- A way to skip what means nothing. -/
structure Gap where
  skip : List Char → List Char
  skip_length : ∀ s, (skip s).length ≤ s.length

namespace Gap

/-- The gap of the longest run of some characters. -/
def ofClass (p : Char → Bool) : Gap where
  skip := List.dropWhile p
  skip_length _ := (List.dropWhile_sublist p).length_le

/-- The gap of nothing. -/
def empty : Gap := ⟨id, fun _ => Nat.le_refl _⟩

/-- Reads behind a gap. -/
def before {α : Type} (gap : Gap) (read : Reader α) : Reader α := fun s =>
  (read (gap.skip s)).map (·.widen (gap.skip_length s))

/-- Reads a given character behind a gap. -/
def mark (gap : Gap) (c : Char) : Reader Unit :=
  gap.before fun
    | d :: s => if d = c then some (.first () d s) else none
    | [] => none

/-- What was read, with the gap behind it. -/
def after {α : Type} {s : List Char} (gap : Gap) (r : Read α s) : Read α s :=
  ⟨r.value, gap.skip r.rest, Nat.lt_of_le_of_lt (gap.skip_length r.rest) r.shorter⟩

/-- Items up to a closing mark, with commas between them; `trailing` says
    whether a comma may stand behind the last one. -/
def items {α : Type} (gap : Gap) (item : Reader α) (close : Char) (trailing : Bool)
    (s : List Char) : Option (Read (List α) s) :=
  match item s with
  | none => none
  | some x =>
      match gap.mark close x.rest with
      | some e => some (x.andThen (e.map fun _ => [x.value]))
      | none =>
          match gap.mark ',' x.rest with
          | none => none
          | some comma =>
              let last := if trailing then gap.mark close comma.rest else none
              match last with
              | some e => some (x.andThen (comma.andThen (e.map fun _ => [x.value])))
              | none =>
                  have := x.shorter
                  have := comma.shorter
                  have := gap.skip_length comma.rest
                  (items gap item close trailing (gap.skip comma.rest)).map fun r =>
                    x.andThen (comma.andThen
                      ((r.map (x.value :: ·)).widen (gap.skip_length comma.rest)))
termination_by s.length

/-- Items behind an opening mark, perhaps none. -/
def list {α : Type} (gap : Gap) (item : Reader α) (close : Char) (trailing : Bool) :
    Reader (List α) := fun s =>
  match gap.mark close s with
  | some e => some (e.map fun _ => [])
  | none => gap.before (gap.items item close trailing) s

end Gap

end CodeGraph.Text

import CodeGraph.Json.Parser
/-! # Shapes — reading only what is asked for

    A shape says which parts of a value are looked at.  The rest has to be well
    formed, and that is all.

    * A part that is not looked at may be nested as deep as it likes, its
      numbers may be out of range, and its strings may hold halves of surrogate
      pairs.
    * A field that is not looked at is read as `null`, under its key. -/

namespace CodeGraph.Json

open Text (Read Reader)

/-- What is looked at in a value. -/
inductive Shape where
  /-- All of it. -/
  | whole
  /-- The fields of an object with the given names. -/
  | record (fields : List (String × Shape))
  /-- The items of an array. -/
  | items (item : Shape)

/-- A record whose fields are looked at as a whole. -/
def Shape.ofNames (names : List String) : Shape := .record (names.map (·, .whole))

namespace Reader

/-! ## Skipping -/

/-- An escape in a string that is not looked at. -/
def skippedEscape : Reader Char
  | 'u' :: s => (fourDigits s).map fun r => (r.map fun _ => '\ufffd').behind 'u'
  | c :: s => (escapedChar? c).map fun e => .first e c s
  | [] => none

/-- A string that is not looked at, from behind its opening quote. -/
def skippedString : Reader (List Char) := Text.quoted '"' skippedEscape isPlain

/-- A value that is not looked at, with at most `depth` arrays and objects
    nested in it. -/
def skippedValue : (depth : Nat) → Reader Unit
  | _, '"' :: s => (skippedString s).map fun r => (r.map fun _ => ()).behind '"'
  | depth + 1, '[' :: s =>
      (spaces.list (skippedValue depth) ']' false s).map fun r =>
        (r.map fun _ => ()).behind '['
  | depth + 1, '\x7b' :: s =>
      (spaces.list (member skippedString fun _ => skippedValue depth) '\x7d' false s).map
        fun r => (r.map fun _ => ()).behind '\x7b'
  | _, s =>
      match word s with
      | some r => some (r.map fun _ => ())
      | none => (numeral s).map (·.map fun _ => ())

/-- A value that is not looked at.  No text nests deeper than it is long. -/
def skipped : Reader Json := fun s =>
  (skippedValue s.length s).map (·.map fun _ => .null)

/-! ## Looking -/

/-- A value of a shape, with at most `depth` arrays and objects nested in what
    is looked at. -/
def shaped : (depth : Nat) → Shape → Reader Json
  | depth + 1, .items item, '[' :: s =>
      (spaces.list (shaped depth item) ']' false s).map fun r => (r.map .array).behind '['
  | depth + 1, .record fields, '\x7b' :: s =>
      let field := fun key =>
        match fields.lookup key with
        | some shape => shaped depth shape
        | none => skipped
      (spaces.list (member stringBody field) '\x7d' false s).map fun r =>
        (r.map .object).behind '\x7b'
  | depth, _, s => value depth s

end Reader

open Reader

/-- The value of a shape that a whole text is. -/
def parseAs? (shape : Shape) (s : List Char) : Option Json :=
  match shaped maxDepth shape (skipSpace s) with
  | some r => if (skipSpace r.rest).isEmpty then some r.value else none
  | none => none

example : parseAs? (.ofNames ["a"]) "\x7b\"a\":1,\"b\":[1e999,\"\\ud800\"]\x7d".toList =
    some (.object [("a", .ofNat 1), ("b", .null)]) := by decide +kernel

example : parseAs? (.ofNames ["a"]) "\x7b\"a\":1,\"b\":[1,]\x7d".toList = none := by
  decide +kernel

end CodeGraph.Json

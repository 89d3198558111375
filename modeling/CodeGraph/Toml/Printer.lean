import CodeGraph.Json.Printer
import CodeGraph.Text.Split
import CodeGraph.Toml.Quoted
/-! # Writing TOML — records of settings as text

    The layout that people edit: a table for every record, its header in front
    of its keys, a blank line between tables.

    * A list with more than one item has a line for each, indented by four
      spaces, and a comma behind the last.
    * The tables inside a table follow it, under their whole path. -/

namespace CodeGraph.Toml

/-- How a character stands between double quotes. -/
def escapeChar (c : Char) : List Char :=
  match c with
  | '"' => ['\\', '"']
  | '\\' => ['\\', '\\']
  | '\x08' => ['\\', 'b']
  | '\x0c' => ['\\', 'f']
  | '\n' => ['\\', 'n']
  | '\r' => ['\\', 'r']
  | '\t' => ['\\', 't']
  | c =>
      if c.toNat < 0x20 ∨ c.toNat = 0x7F then
        ['\\', 'u', '0', '0', Text.hexDigit (c.toNat / 16), Text.hexDigit (c.toNat % 16)]
      else [c]

/-- A string between double quotes. -/
def printString (s : String) : String :=
  "\"" ++ String.ofList (s.toList.flatMap escapeChar) ++ "\""

/-- A key: bare if it can be. -/
def printKey (key : String) : String :=
  if key ≠ "" ∧ key.toList.all isBare then key else printString key

mutual

/-- The text of a value that is not a record. -/
def printValue : Json → String
  | .string s => printString s
  | .array [] => "[]"
  | .array [x] => "[" ++ printValue x ++ "]"
  | .array (x :: xs) => "[\n" ++ printItems (x :: xs) ++ "]"
  | v => v.render

/-- The lines of the items of a list. -/
def printItems : List Json → String
  | [] => ""
  | x :: xs => "    " ++ printValue x ++ ",\n" ++ printItems xs

end

/-- The lines of the keys of a record whose values are not records. -/
def printFields : List (String × Json) → String
  | [] => ""
  | (_, .object _) :: rest => printFields rest
  | (k, v) :: rest => printKey k ++ " = " ++ printValue v ++ "\n" ++ printFields rest

/-- A table under its header. -/
def printTable (path : List String) (fields : List (String × Json)) : String :=
  "[" ++ Text.join "." (path.map printKey) ++ "]\n" ++ printFields fields

/-- The tables inside a record, each followed by those inside it. -/
def printTables (path : List String) : List (String × Json) → List String
  | [] => []
  | (k, .object fields) :: rest =>
      printTable (path ++ [k]) fields ::
        (printTables (path ++ [k]) fields ++ printTables path rest)
  | _ :: rest => printTables path rest

/-- The text of a record. -/
def render (fields : List (String × Json)) : String :=
  let own := printFields fields
  Text.join "\n" ((if own = "" then [] else [own]) ++ printTables [] fields)

end CodeGraph.Toml

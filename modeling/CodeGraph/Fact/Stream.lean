import CodeGraph.Fact.Record
import CodeGraph.Json.Printer
import CodeGraph.Text.Blank
import CodeGraph.Text.Lines
/-! # Fact streams — one fact a line

    Bytes cut into lines, and each line read for itself.

    * A line ends with its newline, and the last one may lack it.  Lines are
      counted from one, whatever is on them.
    * Blank lines and lines that begin with `#` say nothing.
    * A line that cannot be read is reported with its number, and reading goes
      on; only a stream that breaks off is lost as a whole. -/

namespace CodeGraph

/-- A stream of facts: its name, its bytes, and the fault that it breaks off
    with, if it does. -/
structure FactStream where
  name : String
  bytes : List UInt8
  fault : Option String := none
deriving DecidableEq, Repr

/-- A stream that broke off. -/
structure StreamError where
  name : String
  reason : String
deriving DecidableEq, Repr

/-- The wording of a broken stream. -/
def StreamError.message (e : StreamError) : String :=
  "Fact stream '" ++ e.name ++ "' is unreadable: " ++ e.reason

namespace FactStream

/-- What a line says. -/
inductive Reading where
  /-- Nothing. -/
  | blank
  | fact (f : Fact)
  | failure (f : ParseFailure)
  | defect (d : Defect)
deriving DecidableEq, Repr

/-- What a value says, if nothing but spaces stands behind it. -/
def readValue (v : Json) (rest : List Char) : Reading :=
  let whole := fun (r : Reading) =>
    if (Json.Reader.skipSpace rest).isEmpty then r else .defect .json
  match ParseFailure.ofJson? v, Fact.ofJson? v with
  | none, none => .defect .shape
  | some f, _ => whole (.failure f)
  | none, some f => whole (.fact f)

/-- What the characters of a line say. -/
def readText (cs : List Char) : Reading :=
  match Text.trimEnds Text.isBlank cs with
  | [] => .blank
  | '#' :: _ => .blank
  | text =>
      match Json.read? text with
      | none => .defect .json
      | some (v, rest) => readValue v rest

/-- What a line says. -/
def readLine (line : List UInt8) : Reading :=
  match Text.Utf8.decode line with
  | .error fault => .defect (.encoding fault)
  | .ok cs => readText cs

/-- What the line with a number adds to a batch. -/
def Reading.batch (name : String) (number : Nat) : Reading → Batch
  | .blank => {}
  | .fact f => { facts := [f] }
  | .failure f => { failures := [f] }
  | .defect d => { malformed := [⟨name, number, d⟩] }

/-- The batch of some lines, the first of which has the given number. -/
def readLines (name : String) : (number : Nat) → List (List UInt8) → Batch
  | _, [] => {}
  | number, line :: rest =>
      ((readLine line).batch name number).merge (readLines name (number + 1) rest)

/-- The batch of some bytes. -/
def readBytes (name : String) (bytes : List UInt8) : Batch :=
  readLines name 1 (Text.lines bytes)

/-- The batch of a stream. -/
def read (s : FactStream) : Except StreamError Batch :=
  match s.fault with
  | some reason => .error ⟨s.name, reason⟩
  | none => .ok (readBytes s.name s.bytes)

end FactStream

/-! ## Writing -/

/-- A fact as a line of a stream, without the newline. -/
def Fact.line (f : Fact) : List Char := f.toJson.print

/-- A failure as a line of a stream, without the newline. -/
def ParseFailure.line (f : ParseFailure) : List Char := f.toJson.print

end CodeGraph

import CodeGraph.Json.Basic
/-! # Tables — how the lines of a TOML text add up

    A text is a list of statements: headers that open a table, and assignments
    of values to keys in the table that is open.

    * A table can be opened once.  One that only stood on the way to another may
      be opened later, and one made by the points in a key never.
    * A key is assigned once, and a value is never extended.
    * Behind a header in double brackets a key names the newest table of a
      list. -/

namespace CodeGraph.Toml

/-- How a table came about. -/
inductive Origin where
  /-- By a header of its own. -/
  | header
  /-- On the way to a table with a header. -/
  | implied
  /-- By the points in a key. -/
  | dotted
deriving DecidableEq, Repr

/-- What stands under a key. -/
inductive Item where
  | value (v : Json)
  | table (origin : Origin) (entries : List (String × Item))
  | list (tables : List (List (String × Item)))

/-- The keys of a table and what stands under them. -/
abbrev Entries := List (String × Item)

/-- One line of a text, or several if its value goes over several. -/
inductive Statement where
  | nothing
  | openTable (path : List String)
  | openElement (path : List String)
  | assign (key : List String) (value : Json)

namespace Entries

/-- Changes what stands under a key; the change may be refused. -/
def alter (key : String) (f : Option Item → Option Item) : Entries → Option Entries
  | [] => (f none).map fun i => [(key, i)]
  | (k, i) :: rest =>
      if k = key then (f (some i)).map fun i' => (k, i') :: rest
      else (alter key f rest).map ((k, i) :: ·)

/-- Changes the newest table of a list. -/
def alterLast (f : Entries → Option Entries) (tables : List Entries) :
    Option (List Entries) :=
  match tables.getLast? with
  | some last => (f last).map fun last' => tables.dropLast ++ [last']
  | none => none

/-- Assigns a value to a key.  The points in the key lead through tables that
    such keys have made, or make them. -/
def assign : List String → Json → Entries → Option Entries
  | [], _, _ => none
  | [key], v, es => es.alter key fun
      | none => some (.value v)
      | some _ => none
  | step :: key :: path, v, es => es.alter step fun
      | none => (assign (key :: path) v []).map (.table .dotted)
      | some (.table .dotted below) =>
          (assign (key :: path) v below).map (.table .dotted)
      | some (.table .implied below) =>
          if path = [] then none
          else (assign (key :: path) v below).map (.table .implied)
      | some (.list tables) =>
          if path = [] then none
          else (alterLast (assign (key :: path) v) tables).map .list
      | some _ => none

/-- Changes the table that leads to the last name of a path, and what stands
    under that name.  Tables on the way are made if they are missing. -/
def atPath (f : Option Item → Option Item) : List String → Entries → Option Entries
  | [], _ => none
  | [key], es => es.alter key f
  | step :: path, es => es.alter step fun
      | none => (atPath f path []).map (.table .implied)
      | some (.table origin below) => (atPath f path below).map (.table origin)
      | some (.list tables) => (alterLast (atPath f path) tables).map .list
      | some (.value _) => none

/-- Opens a table. -/
def openTable : List String → Entries → Option Entries :=
  atPath fun
    | none => some (.table .header [])
    | some (.table .implied below) => some (.table .header below)
    | some _ => none

/-- Adds a table to a list. -/
def openElement : List String → Entries → Option Entries :=
  atPath fun
    | none => some (.list [[]])
    | some (.list tables) => some (.list (tables ++ [[]]))
    | some _ => none

/-- Changes the table that is open, given the path of its header. -/
def within (f : Entries → Option Entries) : List String → Entries → Option Entries
  | [], es => f es
  | path, es =>
      atPath (fun
        | some (.table origin below) => (f below).map (.table origin)
        | some (.list tables) => (alterLast f tables).map .list
        | _ => none) path es

end Entries

/-! ## The whole -/

/-- The tables so far, and the path of the one that is open. -/
structure Draft where
  entries : Entries := []
  opened : List String := []

/-- Takes a statement into account. -/
def Draft.add (d : Draft) : Statement → Option Draft
  | .nothing => some d
  | .openTable path => (d.entries.openTable path).map fun es => ⟨es, path⟩
  | .openElement path => (d.entries.openElement path).map fun es => ⟨es, path⟩
  | .assign key v =>
      (Entries.within (Entries.assign key v) d.opened d.entries).map fun es =>
        { d with entries := es }

mutual

/-- An item as a value. -/
def Item.toJson : Item → Json
  | .value v => v
  | .table _ entries => .object (Item.fields entries)
  | .list tables => .array (Item.objects tables)

/-- The fields of a table. -/
def Item.fields : Entries → List (String × Json)
  | [] => []
  | (k, i) :: rest => (k, i.toJson) :: Item.fields rest

/-- The tables of a list. -/
def Item.objects : List Entries → List Json
  | [] => []
  | es :: rest => .object (Item.fields es) :: Item.objects rest

end

/-- What statements add up to. -/
def assemble? (statements : List Statement) : Option Json :=
  (statements.foldlM Draft.add {}).map fun d => .object (Item.fields d.entries)

/-- The value of assignments between braces. -/
def inline? (assignments : List (List String × Json)) : Option Json :=
  (assignments.foldlM (fun (es : Entries) a => es.assign a.1 a.2) []).map fun es =>
    .object (Item.fields es)

end CodeGraph.Toml

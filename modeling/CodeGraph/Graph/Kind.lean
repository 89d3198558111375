import CodeGraph.Text.Blank
/-! # Kinds — what nodes and edges can be

    The five kinds of nodes, the five relationships, and which relationship
    may join which kinds.

    * Names are read in any ASCII case, and some kinds have a short name.
    * `Relationship.allows` is the schema that building keeps to; the store
      itself does not enforce it. -/

namespace CodeGraph

/-- The kind of a node. -/
inductive NodeKind where
  | file
  | directory
  | function
  | «class»
  | dependency
deriving DecidableEq, Repr

namespace NodeKind

/-- Every kind, in the order of declaration. -/
def all : List NodeKind := [.file, .directory, .function, .class, .dependency]

/-- The place of a kind in `all`. -/
def rank : NodeKind → Nat
  | .file => 0
  | .directory => 1
  | .function => 2
  | .class => 3
  | .dependency => 4

instance : Ord NodeKind := ⟨fun a b => compare a.rank b.rank⟩

instance : Std.TransCmp (compare : NodeKind → NodeKind → Ordering) :=
  inferInstanceAs (Std.TransCmp (compareOn rank))

instance : Std.LawfulEqCmp (compare : NodeKind → NodeKind → Ordering) where
  compare_self {a} := by cases a <;> rfl
  eq_of_compare {a b} := by cases a <;> cases b <;> decide

/-- The name of a kind. -/
def name : NodeKind → String
  | .file => "file"
  | .directory => "directory"
  | .function => "function"
  | .class => "class"
  | .dependency => "dependency"

/-- A function or a class, which some file defines. -/
def isDefinition : NodeKind → Bool
  | .function | .class => true
  | _ => false

/-- The kind with exactly this name. -/
def named? (s : String) : Option NodeKind := all.find? fun k => k.name = s

/-- The kind that a name or short name stands for, in any ASCII case. -/
def parse? (s : String) : Option NodeKind :=
  match Text.lowerAscii s with
  | "dir" => some .directory
  | "fn" => some .function
  | "dep" => some .dependency
  | lower => named? lower

/-- The complaint about a name that stands for no kind. -/
def unknown (s : String) : String :=
  "unknown node kind '" ++ Text.lowerAscii s ++ "'"

end NodeKind

/-- The kind of a directed edge. -/
inductive Relationship where
  | contains
  | imports
  | calls
  | inherits
  | defines
deriving DecidableEq, Repr

namespace Relationship

/-- Every relationship, in the order of declaration. -/
def all : List Relationship := [.contains, .imports, .calls, .inherits, .defines]

/-- The place of a relationship in `all`. -/
def rank : Relationship → Nat
  | .contains => 0
  | .imports => 1
  | .calls => 2
  | .inherits => 3
  | .defines => 4

instance : Ord Relationship := ⟨fun a b => compare a.rank b.rank⟩

instance : Std.TransCmp (compare : Relationship → Relationship → Ordering) :=
  inferInstanceAs (Std.TransCmp (compareOn rank))

instance : Std.LawfulEqCmp (compare : Relationship → Relationship → Ordering) where
  compare_self {a} := by cases a <;> rfl
  eq_of_compare {a b} := by cases a <;> cases b <;> decide

/-- The name of a relationship. -/
def name : Relationship → String
  | .contains => "contains"
  | .imports => "imports"
  | .calls => "calls"
  | .inherits => "inherits"
  | .defines => "defines"

/-- The relationship with exactly this name. -/
def named? (s : String) : Option Relationship := all.find? fun r => r.name = s

/-- The relationship that a name stands for, in any ASCII case. -/
def parse? (s : String) : Option Relationship := named? (Text.lowerAscii s)

/-- The complaint about a name that stands for no relationship. -/
def unknown (s : String) : String :=
  "unknown relationship '" ++ Text.lowerAscii s ++ "'"

/-- Whether an edge may lead from a node of one kind to a node of another.  What
    a file imports is a dependency, or inside the repository a file or the
    directory of a package. -/
def allows : Relationship → (source target : NodeKind) → Bool
  | .contains, .directory, .file => true
  | .contains, .directory, .directory => true
  | .imports, .file, .dependency => true
  | .imports, .file, .file => true
  | .imports, .file, .directory => true
  | .calls, .function, .function => true
  | .inherits, .class, .class => true
  | .defines, .file, .function => true
  | .defines, .file, .class => true
  | _, _, _ => false

end Relationship

/-- Which edges at a node are meant. -/
inductive Direction where
  | outgoing
  | incoming
  | either
deriving DecidableEq, Repr

namespace Direction

/-- Whether edges that leave the node are meant. -/
def leaves : Direction → Bool
  | .incoming => false
  | _ => true

/-- Whether edges that enter the node are meant. -/
def enters : Direction → Bool
  | .outgoing => false
  | _ => true

end Direction

end CodeGraph

import CodeGraph.Json.Record
import CodeGraph.Text.Utf8
/-! # Facts — what parsers report about source files

    The facts themselves, the failures of the parsers, and the lines of a fact
    stream that are neither.

    * A definition inside a class is named by the class and its own name.
    * Facts are gathered in batches; joining batches keeps their order. -/

namespace CodeGraph

/-- What a definition defines. -/
inductive DefinitionKind where
  | function
  | «class»
deriving DecidableEq, Repr

/-- The name of a kind of definition. -/
def DefinitionKind.name : DefinitionKind → String
  | .function => "function"
  | .class => "class"

/-- A source file that was parsed. -/
structure FileFact where
  path : String
  language : Option String := none
  size : Option UInt64 := none
deriving DecidableEq, Repr

/-- A function, a method or a class. -/
structure DefinitionFact where
  file : String
  name : String
  kind : DefinitionKind
  lineNumber : Option UInt32 := none
  parameters : List String := []
  returnType : Option String := none
  /-- The class around a method. -/
  parentClass : Option String := none
  signature : Option String := none
  doc : Option String := none
deriving DecidableEq, Repr

/-- The name of a definition with that of the class around it. -/
def DefinitionFact.qualifiedName (d : DefinitionFact) : String :=
  match d.parentClass with
  | some parent => parent ++ "." ++ d.name
  | none => d.name

/-- A call inside a function. -/
structure CallFact where
  file : String
  /-- The function around the call. -/
  caller : String
  /-- The called name as it is written. -/
  callee : String
  /-- The file that defines the callee, if the parser knows it. -/
  calleeFile : Option String := none
  line : Option UInt32 := none
deriving DecidableEq, Repr

/-- An import. -/
structure ImportFact where
  file : String
  /-- The specifier as it is written. -/
  module : String
  localName : Option String := none
  line : Option UInt32 := none
deriving DecidableEq, Repr

/-- A class that inherits from another. -/
structure InheritFact where
  file : String
  «class» : String
  base : String
  /-- The file that defines the base, if the parser knows it. -/
  baseFile : Option String := none
deriving DecidableEq, Repr

/-- A package that a manifest declares. -/
structure DeclaredDependency where
  name : String
  version : Option String := none
deriving DecidableEq, Repr

/-- What a manifest says about a project. -/
structure ManifestFact where
  entryPoints : List String := []
  dependencies : List DeclaredDependency := []
deriving DecidableEq, Repr

/-- One fact. -/
inductive Fact where
  | file (f : FileFact)
  | definition (d : DefinitionFact)
  | call (c : CallFact)
  | «import» (i : ImportFact)
  | inherit (i : InheritFact)
  | manifest (m : ManifestFact)
deriving DecidableEq, Repr

/-- The name of a fact's type. -/
def Fact.typeName : Fact → String
  | .file _ => "file"
  | .definition _ => "definition"
  | .call _ => "call"
  | .import _ => "import"
  | .inherit _ => "inherit"
  | .manifest _ => "manifest"

/-- A file that a parser could not process. -/
structure ParseFailure where
  path : String
  error : String
deriving DecidableEq, Repr

/-- Why a line of a fact stream, or a fact in it, was left out. -/
inductive Defect where
  /-- The line is not text. -/
  | encoding (fault : Text.Utf8.Fault)
  /-- The line is not JSON. -/
  | json
  /-- The line is no fact and no failure. -/
  | shape
  /-- A definition does not say where it is or what it is called. -/
  | namelessDefinition
deriving DecidableEq, Repr

/-- The wording of a defect. -/
def Defect.message : Defect → String
  | .encoding fault => fault.message
  | .json => "invalid JSON"
  | .shape => "data did not match any variant of untagged enum Line"
  | .namelessDefinition => "definition without a file or name"

/-- A line of a fact stream that was left out. -/
structure Malformed where
  /-- The name of the stream. -/
  source : String
  /-- The number of the line, counted from one. -/
  line : Nat
  defect : Defect
deriving DecidableEq, Repr

/-- Facts that were gathered together. -/
structure Batch where
  facts : List Fact := []
  failures : List ParseFailure := []
  malformed : List Malformed := []
deriving DecidableEq, Repr

namespace Batch

/-- One batch behind another. -/
def merge (a b : Batch) : Batch :=
  ⟨a.facts ++ b.facts, a.failures ++ b.failures, a.malformed ++ b.malformed⟩

instance : Append Batch := ⟨merge⟩

/-- Whether there is nothing in a batch. -/
def isEmpty (b : Batch) : Bool :=
  b.facts.isEmpty && b.failures.isEmpty && b.malformed.isEmpty

end Batch

end CodeGraph

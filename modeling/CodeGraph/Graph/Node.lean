import CodeGraph.Graph.Kind
import CodeGraph.Json.Basic
import Std.Data.ExtTreeMap
/-! # Nodes and edges — what a code graph holds

    Identifiers, attributes, embeddings, and the nodes and edges that carry
    them.

    * An identifier is made from what it names, so building the same facts
      twice gives the same identifiers.
    * Attributes are kept by key, in the order of the keys.
    * An embedding is a vector of single precision. -/

namespace CodeGraph

/-- The identifier of a node. -/
structure NodeId where
  text : String
deriving DecidableEq, Repr

namespace NodeId

instance : Ord NodeId := ⟨fun a b => compare a.text b.text⟩

instance : Std.TransCmp (compare : NodeId → NodeId → Ordering) :=
  inferInstanceAs (Std.TransCmp (compareOn text))

instance : Std.LawfulEqCmp (compare : NodeId → NodeId → Ordering) where
  compare_self {a} := by
    show compare a.text a.text = .eq
    exact Std.ReflCmp.compare_self
  eq_of_compare {a b} h := by
    obtain ⟨a⟩ := a
    obtain ⟨b⟩ := b
    replace h : compare a b = .eq := h
    exact congrArg mk (Std.LawfulEqCmp.eq_of_compare h)

/-- The order of identifiers: by code points. -/
def le (a b : NodeId) : Bool := (compare a b).isLE

/-- The file at a path. -/
def file (path : String) : NodeId := ⟨"file:" ++ path⟩

/-- The directory at a path. -/
def directory (path : String) : NodeId := ⟨"dir:" ++ path⟩

/-- The function that a file defines under a qualified name. -/
def function (file qualifiedName : String) : NodeId :=
  ⟨"function:" ++ file ++ ":" ++ qualifiedName⟩

/-- The class that a file defines under a qualified name. -/
def «class» (file qualifiedName : String) : NodeId :=
  ⟨"class:" ++ file ++ ":" ++ qualifiedName⟩

/-- A package from outside the repository. -/
def dependency (package : String) : NodeId := ⟨"dependency:" ++ package⟩

end NodeId

/-- Attributes by key. -/
abbrev Attributes := Std.ExtTreeMap String Json

/-- Attributes with the given keys and values. -/
def Attributes.ofFields (fields : List (String × Json)) : Attributes := .ofList fields

/-- A vector of single precision. -/
abbrev Embedding := Array Float32

/-! ## Keys with a meaning -/

namespace Attribute

def name : String := "name"
def path : String := "path"
def extension : String := "extension"
def language : String := "language"
def size : String := "size"
def qualifiedName : String := "qualifiedName"
def definingFile : String := "definingFile"
def lineNumber : String := "lineNumber"
def parameters : String := "parameters"
def returnType : String := "returnType"
def parentClass : String := "parentClass"
def signature : String := "signature"
def doc : String := "doc"
def version : String := "version"
def isExternal : String := "isExternal"
def isEntryPoint : String := "isEntryPoint"
def implicit : String := "implicit"
def parseFailed : String := "parseFailed"
def unresolvedCalls : String := "unresolvedCalls"
def line : String := "line"
def localName : String := "alias"
def specifier : String := "specifier"

end Attribute

/-! ## Nodes -/

/-- A node of the graph. -/
structure Node where
  id : NodeId
  kind : NodeKind
  attributes : Attributes := ∅
  embedding : Option Embedding := none
deriving DecidableEq

namespace Node

/-- The text of an attribute. -/
def text? (n : Node) (key : String) : Option String :=
  n.attributes[key]?.bind Json.asString?

/-- Whether an attribute is set to true. -/
def flag (n : Node) (key : String) : Bool :=
  (n.attributes[key]?.bind Json.asBool?).getD false

/-- The natural number of an attribute. -/
def nat? (n : Node) (key : String) : Option Nat :=
  n.attributes[key]?.bind Json.asNat?

/-- The name to show: the attribute, or else the identifier. -/
def name (n : Node) : String := (n.text? Attribute.name).getD n.id.text

/-- The path of the file that a node lives in. -/
def filePath? (n : Node) : Option String :=
  match n.kind with
  | .file => n.text? Attribute.path
  | .function | .class => n.text? Attribute.definingFile
  | .directory | .dependency => none

/-- Whether a node is marked as a place where execution starts. -/
def isEntryPoint (n : Node) : Bool := n.flag Attribute.isEntryPoint

end Node

/-! ## Edges -/

/-- A directed edge.  Several edges may join the same nodes. -/
structure Edge where
  source : NodeId
  target : NodeId
  relationship : Relationship
  attributes : Attributes := ∅
deriving DecidableEq

end CodeGraph

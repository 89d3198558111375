import CodeGraph.Fact.Basic
import CodeGraph.Graph.Error
/-! # Diagnostics — what went wrong while a graph was built

    Nothing in a fact stream stops a build; each anomaly is recorded, and what
    it concerns is left out. -/

namespace CodeGraph

/-- What kind of reference could not be resolved. -/
inductive ReferenceKind where
  /-- The called function. -/
  | call
  /-- The function around a call. -/
  | caller
  | «import»
  | inherit
deriving DecidableEq, Repr

/-- The name of a kind of reference. -/
def ReferenceKind.name : ReferenceKind → String
  | .call => "call"
  | .caller => "caller"
  | .import => "import"
  | .inherit => "inherit"

/-- An anomaly that did not stop the build. -/
inductive Diagnostic where
  | duplicateNode (id : NodeId)
  | danglingEndpoint (source target : NodeId) (relationship : Relationship)
      (missing : NodeId)
  | unresolvedReference (reference : ReferenceKind) (file name : String)
  | invalidEdge (source : NodeId) (sourceKind : NodeKind) (target : NodeId)
      (targetKind : NodeKind) (relationship : Relationship)
  | malformedFact (m : Malformed)
  | attributeConflict (id : NodeId) (key : String)
  | missingNode (id : NodeId)
  | embeddingDimension (id : NodeId) (expected actual : Nat)
deriving DecidableEq, Repr

namespace Diagnostic

/-- The diagnostic of a refusal by the store. -/
def ofGraphError : GraphError → Diagnostic
  | .duplicateNode id => .duplicateNode id
  | .danglingEndpoint source target relationship missing =>
      .danglingEndpoint source target relationship missing
  | .nodeNotFound id => .missingNode id
  | .attributeConflict id key => .attributeConflict id key
  | .embeddingDimension id expected actual => .embeddingDimension id expected actual

/-- Whether a reference could not be resolved. -/
def isUnresolved : Diagnostic → Bool
  | .unresolvedReference .. => true
  | _ => false

/-- A diagnostic as a value. -/
def toJson : Diagnostic → Json
  | .duplicateNode id =>
      .object [("kind", .string "duplicate_node"), ("id", .string id.text)]
  | .danglingEndpoint source target relationship missing =>
      .object [("kind", .string "dangling_endpoint"), ("source", .string source.text),
        ("target", .string target.text), ("relationship", .string relationship.name),
        ("missing", .string missing.text)]
  | .unresolvedReference reference file name =>
      .object [("kind", .string "unresolved_reference"),
        ("reference", .string reference.name), ("file", .string file),
        ("name", .string name)]
  | .invalidEdge source sourceKind target targetKind relationship =>
      .object [("kind", .string "invalid_edge"), ("source", .string source.text),
        ("source_kind", .string sourceKind.name), ("target", .string target.text),
        ("target_kind", .string targetKind.name),
        ("relationship", .string relationship.name)]
  | .malformedFact m =>
      .object [("kind", .string "malformed_fact"), ("source", .string m.source),
        ("line", .ofNat m.line), ("message", .string m.defect.message)]
  | .attributeConflict id key =>
      .object [("kind", .string "attribute_conflict"), ("id", .string id.text),
        ("key", .string key)]
  | .missingNode id =>
      .object [("kind", .string "missing_node"), ("id", .string id.text)]
  | .embeddingDimension id expected actual =>
      .object [("kind", .string "embedding_dimension"), ("id", .string id.text),
        ("expected", .ofNat expected), ("actual", .ofNat actual)]

end Diagnostic

end CodeGraph

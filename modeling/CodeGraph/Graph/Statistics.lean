import CodeGraph.Graph.Store
/-! # Statistics — how much of what a graph holds

    Counts by kind and by relationship, read off the indexes, and counts of
    marked nodes, read off the nodes. -/

namespace CodeGraph

/-- Counts of nodes and edges. -/
structure Statistics where
  nodes : Nat
  edges : Nat
  nodesByKind : List (NodeKind × Nat)
  edgesByRelationship : List (Relationship × Nat)
  embeddedNodes : Nat
  entryPoints : Nat
  failedFiles : Nat
deriving DecidableEq, Repr

namespace Store

/-- The counts of a graph. -/
def statistics (s : Store) : Statistics where
  nodes := s.nodeCount
  edges := s.edgeCount
  nodesByKind := NodeKind.all.map fun k => (k, (s.byKind.getD k ∅).size)
  edgesByRelationship :=
    Relationship.all.map fun r => (r, (s.byRelationship.getD r #[]).size)
  embeddedNodes := s.nodeList.countP fun n => n.embedding.isSome
  entryPoints := s.nodeList.countP Node.isEntryPoint
  failedFiles := s.nodeList.countP fun n => n.flag Attribute.parseFailed

end Store

/-- The counts as a value. -/
def Statistics.toJson (t : Statistics) : Json :=
  .object
    [("nodes", .ofNat t.nodes),
     ("edges", .ofNat t.edges),
     ("nodes_by_kind", .object (t.nodesByKind.map fun c => (c.1.name, .ofNat c.2))),
     ("edges_by_relationship",
       .object (t.edgesByRelationship.map fun c => (c.1.name, .ofNat c.2))),
     ("embedded_nodes", .ofNat t.embeddedNodes),
     ("entry_points", .ofNat t.entryPoints),
     ("failed_files", .ofNat t.failedFiles)]

end CodeGraph

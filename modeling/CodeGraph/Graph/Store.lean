import CodeGraph.Graph.Error
import Std.Data.ExtTreeSet
/-! # The store — a directed multigraph with indexes

    Nodes by identifier and edges in the order they were added, with an index
    for each kind of question.

    * Nodes and edges are only ever added.  A change that is refused leaves the
      store as it was.
    * `byKind` and `byName` hold identifiers, the others positions in `edges`.
    * The first vector attached to a node fixes the length of all others. -/

namespace CodeGraph

/-- A code graph with its indexes. -/
structure Store where
  nodes : Std.ExtTreeMap NodeId Node := ∅
  edges : Array Edge := #[]
  byKind : Std.ExtTreeMap NodeKind (Std.ExtTreeSet NodeId) := ∅
  byName : Std.ExtTreeMap String (Std.ExtTreeSet NodeId) := ∅
  byRelationship : Std.ExtTreeMap Relationship (Array Nat) := ∅
  outgoing : Std.ExtTreeMap NodeId (Array Nat) := ∅
  incoming : Std.ExtTreeMap NodeId (Array Nat) := ∅
  embeddingDimension : Option Nat := none
deriving DecidableEq

/-- An edge at a node, seen from that node. -/
structure Adjacent where
  neighbor : NodeId
  edgeIndex : Nat
  relationship : Relationship
deriving DecidableEq, Repr

/-- The order of edges at a node: by neighbour, then by position. -/
def Adjacent.le (a b : Adjacent) : Bool :=
  ((compare a.neighbor b.neighbor).then (compare a.edgeIndex b.edgeIndex)).isLE

namespace Store

/-! ## Indexes -/

/-- Adds an identifier under a key. -/
def enroll {κ : Type} [Ord κ] [Std.TransCmp (compare : κ → κ → Ordering)]
    (index : Std.ExtTreeMap κ (Std.ExtTreeSet NodeId)) (key : κ) (id : NodeId) :
    Std.ExtTreeMap κ (Std.ExtTreeSet NodeId) :=
  index.alter key fun ids => some ((ids.getD ∅).insert id)

/-- Adds a position under a key. -/
def mark {κ : Type} [Ord κ] [Std.TransCmp (compare : κ → κ → Ordering)]
    (index : Std.ExtTreeMap κ (Array Nat)) (key : κ) (i : Nat) :
    Std.ExtTreeMap κ (Array Nat) :=
  index.alter key fun positions => some ((positions.getD #[]).push i)

/-! ## Changes -/

/-- Adds a node. -/
def addNode (s : Store) (id : NodeId) (kind : NodeKind) (attributes : Attributes) :
    Except GraphError Store :=
  if id ∈ s.nodes then .error (.duplicateNode id)
  else .ok { s with
    nodes := s.nodes.insert id ⟨id, kind, attributes, none⟩
    byKind := enroll s.byKind kind id
    byName := match attributes[Attribute.name]?.bind Json.asString? with
      | some name => enroll s.byName name id
      | none => s.byName }

/-- Adds an edge between two nodes; its position is the number of edges there
    were before. -/
def addEdge (s : Store) (e : Edge) : Except GraphError Store :=
  match [e.source, e.target].find? (· ∉ s.nodes) with
  | some missing => .error (.danglingEndpoint e.source e.target e.relationship missing)
  | none => .ok { s with
      edges := s.edges.push e
      byRelationship := mark s.byRelationship e.relationship s.edges.size
      outgoing := mark s.outgoing e.source s.edges.size
      incoming := mark s.incoming e.target s.edges.size }

/-- Sets an attribute of a node.  A value that agrees with the one it has
    changes nothing; any other value is refused. -/
def enrich (s : Store) (id : NodeId) (key : String) (value : Json) :
    Except GraphError Store :=
  match s.nodes[id]? with
  | none => .error (.nodeNotFound id)
  | some node =>
      match node.attributes[key]? with
      | some old =>
          if old.agrees value then .ok s else .error (.attributeConflict id key)
      | none => .ok { s with
          nodes := s.nodes.insert id
            { node with attributes := node.attributes.insert key value }
          -- the only index that an attribute matters to
          byName :=
            if key = Attribute.name then
              match value.asString? with
              | some name => enroll s.byName name id
              | none => s.byName
            else s.byName }

/-- Attaches a vector to a node, in place of the one it may have. -/
def attachEmbedding (s : Store) (id : NodeId) (vector : Embedding) :
    Except GraphError Store :=
  match s.embeddingDimension with
  | some expected =>
      if vector.size = expected then attach else
        .error (.embeddingDimension id expected vector.size)
  | none => attach
where
  /-- Attaches a vector whose length is right. -/
  attach : Except GraphError Store :=
    match s.nodes[id]? with
    | none => .error (.nodeNotFound id)
    | some node => .ok { s with
        nodes := s.nodes.insert id { node with embedding := some vector }
        embeddingDimension := some vector.size }

/-! ## Questions -/

/-- Every node, identifiers ascending. -/
def nodeList (s : Store) : List Node := s.nodes.toList.map (·.2)

/-- Every identifier, ascending. -/
def ids (s : Store) : List NodeId := s.nodes.toList.map (·.1)

/-- The number of nodes. -/
def nodeCount (s : Store) : Nat := s.nodes.size

/-- The number of edges. -/
def edgeCount (s : Store) : Nat := s.edges.size

/-- Whether there is no node. -/
def isEmpty (s : Store) : Bool := s.nodes.isEmpty

/-- Whether an identifier is that of a node. -/
def contains (s : Store) (id : NodeId) : Bool := s.nodes.contains id

/-- The nodes of a set of identifiers, ascending. -/
def nodesOf (s : Store) (ids : Std.ExtTreeSet NodeId) : List Node :=
  ids.toList.filterMap fun id => s.nodes[id]?

/-- The nodes of one kind, identifiers ascending. -/
def nodesByKind (s : Store) (kind : NodeKind) : List Node :=
  s.nodesOf (s.byKind.getD kind ∅)

/-- The nodes whose attribute `name` is the given text, identifiers
    ascending. -/
def findByName (s : Store) (name : String) : List Node :=
  s.nodesOf (s.byName.getD name ∅)

/-- The edges at given positions. -/
def edgesAt (s : Store) (positions : Array Nat) : List Edge :=
  positions.toList.filterMap fun i => s.edges[i]?

/-- The edges from one node to another, in the order they were added. -/
def edgesBetween (s : Store) (source target : NodeId) : List Edge :=
  (s.edgesAt (s.outgoing.getD source #[])).filter fun e => e.target = target

/-- The edges of one relationship, in the order they were added. -/
def edgesByRelationship (s : Store) (r : Relationship) : List Edge :=
  s.edgesAt (s.byRelationship.getD r #[])

/-- Whether a list of relationships admits one; the empty list admits all. -/
def admits (relationships : List Relationship) (r : Relationship) : Bool :=
  relationships.isEmpty || relationships.contains r

/-- The admitted edges at given positions, seen from one end. -/
def sightsAt (s : Store) (relationships : List Relationship) (far : Edge → NodeId)
    (positions : Array Nat) : List Adjacent :=
  positions.toList.filterMap fun i =>
    s.edges[i]?.bind fun e =>
      if admits relationships e.relationship then some ⟨far e, i, e.relationship⟩
      else none

/-- The admitted edges at a node, by neighbour and then by position.  A loop is
    seen from both its ends. -/
def adjacent (s : Store) (id : NodeId) (relationships : List Relationship)
    (direction : Direction) : List Adjacent :=
  let out := if direction.leaves then
    s.sightsAt relationships Edge.target (s.outgoing.getD id #[]) else []
  let into := if direction.enters then
    s.sightsAt relationships Edge.source (s.incoming.getD id #[]) else []
  (out ++ into).mergeSort Adjacent.le

/-- A list without repetitions of neighbours in it. -/
def dropRepeats {α : Type} [DecidableEq α] : List α → List α
  | a :: b :: rest =>
      if a = b then dropRepeats (b :: rest) else a :: dropRepeats (b :: rest)
  | short => short

/-- The distinct neighbours over one relationship, ascending. -/
def neighbors (s : Store) (id : NodeId) (r : Relationship) (direction : Direction) :
    List NodeId :=
  dropRepeats ((s.adjacent id [r] direction).map (·.neighbor))

/-- The edges with both ends selected, in the order they were added. -/
def inducedEdges (s : Store) (selected : NodeId → Bool) : List Edge :=
  s.edges.toList.filter fun e => selected e.source && selected e.target

/-- The file that a node belongs to; a file belongs to itself. -/
def definingFile? (s : Store) (id : NodeId) : Option Node := do
  let node ← s.nodes[id]?
  match node.kind with
  | .file => some node
  | .function | .class =>
      let path ← node.text? Attribute.definingFile
      s.nodes[NodeId.file path]?
  | .directory | .dependency => none

end Store

end CodeGraph

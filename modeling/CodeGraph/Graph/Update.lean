import CodeGraph.Graph.Store
/-! # Updates — changes made in place

    A change of the store as a program that sets one map after the other.

    * What was set before a refusal stays set, so a program that refuses too
      late leaves a store that is neither the old one nor the new one.
    * The checks and the maps stand in the order in which a store that is
      changed in place goes through them. -/

namespace CodeGraph.Store

/-- A program that changes a store in place and may be refused. -/
abbrev Update := ExceptT GraphError (StateM Store)

namespace Update

/-- The answer of a program, and the store that it leaves. -/
def outcome {α : Type} (u : Update α) (s : Store) : Except GraphError α × Store :=
  (ExceptT.run u).run s

/-- Adds a node. -/
def addNode (id : NodeId) (kind : NodeKind) (attributes : Attributes) : Update Unit := do
  if id ∈ (← get).nodes then
    throw (.duplicateNode id)
  if let some name := attributes[Attribute.name]?.bind Json.asString? then
    modify fun s => { s with byName := enroll s.byName name id }
  modify fun s => { s with byKind := enroll s.byKind kind id }
  modify fun s => { s with nodes := s.nodes.insert id ⟨id, kind, attributes, none⟩ }

/-- Refuses an edge one end of which is not there. -/
def checkEnd (e : Edge) (id : NodeId) : Update Unit := do
  if id ∉ (← get).nodes then
    throw (.danglingEndpoint e.source e.target e.relationship id)

/-- Adds an edge between two nodes, and tells its position. -/
def addEdge (e : Edge) : Update Nat := do
  checkEnd e e.source
  checkEnd e e.target
  let index := (← get).edges.size
  modify fun s => { s with outgoing := mark s.outgoing e.source index }
  modify fun s => { s with incoming := mark s.incoming e.target index }
  modify fun s => { s with byRelationship := mark s.byRelationship e.relationship index }
  modify fun s => { s with edges := s.edges.push e }
  return index

/-- Sets an attribute of a node that has none under the key. -/
def enrich (id : NodeId) (key : String) (value : Json) : Update Unit := do
  match (← get).nodes[id]? with
  | none => throw (.nodeNotFound id)
  | some node =>
      match node.attributes[key]? with
      | some old => if !old.agrees value then throw (.attributeConflict id key)
      | none =>
          if key = Attribute.name then
            if let some name := value.asString? then
              modify fun s => { s with byName := enroll s.byName name id }
          let node := { node with attributes := node.attributes.insert key value }
          modify fun s => { s with nodes := s.nodes.insert id node }

/-- Attaches a vector to a node, in place of the one it may have. -/
def attachEmbedding (id : NodeId) (vector : Embedding) : Update Unit := do
  if let some expected := (← get).embeddingDimension then
    if vector.size ≠ expected then
      throw (.embeddingDimension id expected vector.size)
  match (← get).nodes[id]? with
  | none => throw (.nodeNotFound id)
  | some node =>
      modify fun s => { s with embeddingDimension := some vector.size }
      let node := { node with embedding := some vector }
      modify fun s => { s with nodes := s.nodes.insert id node }

end Update

end CodeGraph.Store

import CodeGraph.Graph.Node
/-! # Refusals — why a change to the graph was not made

    One constructor for each cause, and the wording of each. -/

namespace CodeGraph

/-- Why the store refused a change. -/
inductive GraphError where
  /-- A node with this identifier is there already. -/
  | duplicateNode (id : NodeId)
  /-- An edge would end at a node that is not there. -/
  | danglingEndpoint (source target : NodeId) (relationship : Relationship)
      (missing : NodeId)
  /-- There is no node with this identifier. -/
  | nodeNotFound (id : NodeId)
  /-- The attribute is set already, and to another value. -/
  | attributeConflict (id : NodeId) (key : String)
  /-- The vector is not as long as the vectors that are there. -/
  | embeddingDimension (id : NodeId) (expected actual : Nat)
deriving DecidableEq, Repr

/-- The wording of a refusal. -/
def GraphError.message : GraphError → String
  | .duplicateNode id => "Duplicate node: " ++ id.text
  | .danglingEndpoint source target relationship missing =>
      "Dangling endpoint: " ++ source.text ++ " -" ++ relationship.name ++ "-> "
        ++ target.text ++ " (missing " ++ missing.text ++ ")"
  | .nodeNotFound id => "Node not found: " ++ id.text
  | .attributeConflict id key =>
      "Attribute conflict on " ++ id.text ++ ": '" ++ key
        ++ "' is already set to a different value"
  | .embeddingDimension id expected actual =>
      "Embedding dimension mismatch on " ++ id.text ++ ": expected "
        ++ toString expected ++ ", got " ++ toString actual

end CodeGraph

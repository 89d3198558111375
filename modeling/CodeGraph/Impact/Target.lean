import CodeGraph.Graph.Store
/-! # Targets — what a node stands for when it changes

    A change to a node is a change to everything that it includes, and
    concerns the files that all this is defined in.

    * A class includes its methods, a file includes what it defines.
    * A directory and a package concern no file; in their place they stand
      for themselves. -/

namespace CodeGraph.Impact

/-- Identifiers in ascending order, each once. -/
def sortIds (ids : List NodeId) : List NodeId :=
  Store.dropRepeats (ids.mergeSort NodeId.le)

/-- What a file defines. -/
def definedBy (s : Store) (file : NodeId) : List NodeId :=
  s.neighbors file .defines .outgoing

/-- Whether a node is a method of the class with a qualified name. -/
def isMethodOf (s : Store) (className : String) (id : NodeId) : Bool :=
  match s.nodes[id]? with
  | some n => n.kind = .function && n.text? Attribute.parentClass = some className
  | none => false

/-- What a node includes besides itself. -/
def members (s : Store) (target : Node) : List NodeId :=
  match target.kind with
  | .class =>
      match s.definingFile? target.id with
      | some file =>
          (definedBy s file.id).filter
            (isMethodOf s ((target.text? Attribute.qualifiedName).getD target.name))
      | none => []
  | .file => definedBy s target.id
  | .function | .directory | .dependency => []

/-- The nodes that change with a target: itself and its members. -/
def seeds (s : Store) (target : Node) : List NodeId :=
  sortIds (target.id :: members s target)

/-- The nodes whose importers a change concerns. -/
def files (s : Store) (target : Node) : List NodeId :=
  match target.kind with
  | .directory | .dependency => [target.id]
  | .file | .function | .class =>
      sortIds ((seeds s target).filterMap fun id => (s.definingFile? id).map (·.id))

/-- Whether execution starts in the file of a node. -/
def isEntryPoint (s : Store) (id : NodeId) : Bool :=
  match s.definingFile? id with
  | some file => file.isEntryPoint
  | none => false

/-- Where a node is at home: directories and packages in themselves, all else
    in its file. -/
def home? (s : Store) (id : NodeId) : Option NodeId :=
  match s.nodes[id]?.map Node.kind with
  | some .directory | some .dependency => some id
  | _ => (s.definingFile? id).map (·.id)

end CodeGraph.Impact

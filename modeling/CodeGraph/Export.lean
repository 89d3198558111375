import CodeGraph.Graph.Store
/-! # Export — a graph for drawing

    A projection with the looks of every node, in the format that graph
    drawing front ends import: nodes have keys, edges join keys.

    * Filters by kind and by relationship keep what they name; without a filter
      everything is kept.
    * An edge is drawn only if both its ends are. -/

namespace CodeGraph.Export

/-- A node to draw. -/
structure DrawnNode where
  key : String
  label : String
  category : NodeKind
  color : String
  /-- In pixels. -/
  size : Nat
  file : Option String
  line : Option Nat
deriving DecidableEq, Repr

/-- An edge to draw. -/
structure DrawnEdge where
  source : String
  target : String
  relationship : Relationship
deriving DecidableEq, Repr

/-- A graph to draw. -/
structure Drawing where
  nodes : List DrawnNode := []
  edges : List DrawnEdge := []
deriving DecidableEq, Repr

/-- The colour of a kind. -/
def color : NodeKind → String
  | .function => "#0969da"
  | .class => "#1a7f37"
  | .file => "#9a6700"
  | .dependency => "#cf222e"
  | .directory => "#8250df"

/-- The size of a kind. -/
def size : NodeKind → Nat
  | .directory | .class => 12
  | .file => 10
  | .function => 8
  | .dependency => 6

/-- How a node is drawn. -/
def drawNode (n : Node) : DrawnNode where
  key := n.id.text
  label := n.name
  category := n.kind
  color := color n.kind
  size := size n.kind
  file := n.filePath?
  line := n.nat? Attribute.lineNumber

/-- How an edge is drawn. -/
def drawEdge (e : Edge) : DrawnEdge := ⟨e.source.text, e.target.text, e.relationship⟩

/-- Whether a filter keeps something; no filter keeps everything. -/
def keeps {α : Type} [DecidableEq α] (filter : Option (List α)) (a : α) : Bool :=
  match filter with
  | some kept => kept.contains a
  | none => true

/-- The drawing of a graph: nodes by identifier, edges in the order they were
    added. -/
def draw (s : Store) (kinds : Option (List NodeKind))
    (relationships : Option (List Relationship)) : Drawing :=
  let kept := fun id => match s.nodes[id]? with
    | some n => keeps kinds n.kind
    | none => false
  { nodes := (s.nodeList.filter fun n => keeps kinds n.kind).map drawNode
    edges := ((s.inducedEdges kept).filter fun e =>
      keeps relationships e.relationship).map drawEdge }

/-! ## As a value -/

/-- A field that is left out when there is nothing to say. -/
def optionalField (key : String) (value : Option Json) : List (String × Json) :=
  match value with
  | some v => [(key, v)]
  | none => []

/-- A drawn node as a value. -/
def DrawnNode.toJson (n : DrawnNode) : Json :=
  .object
    [("key", .string n.key),
     ("attributes", .object
       ([("label", .string n.label), ("category", .string n.category.name),
         ("color", .string n.color), ("size", .ofNat n.size)]
        ++ optionalField "file" (n.file.map .string)
        ++ optionalField "line" (n.line.map .ofNat)))]

/-- A drawn edge as a value. -/
def DrawnEdge.toJson (e : DrawnEdge) : Json :=
  .object
    [("source", .string e.source), ("target", .string e.target),
     ("attributes", .object [("relationship", .string e.relationship.name)])]

/-- A drawing as a value. -/
def Drawing.toJson (d : Drawing) : Json :=
  .object
    [("nodes", .array (d.nodes.map (·.toJson))),
     ("edges", .array (d.edges.map (·.toJson)))]

end CodeGraph.Export

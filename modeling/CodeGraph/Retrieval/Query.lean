import CodeGraph.Graph.Record
import CodeGraph.Retrieval.Embedder
import CodeGraph.Walk.Hybrid
/-! # Retrieval — the part of a graph that a query is about

    A query chooses seeds, a hybrid walk collects what surrounds them, and the
    answer is the part of the graph induced by both.

    * Nodes whose vectors are most similar to the query come first; nodes that
      share tokens with its text fill the places that are left.
    * Without any similar node, every node that shares a token is a seed, up to
      the budget of the walk.
    * A query that cannot be embedded is matched by its text alone. -/

namespace CodeGraph.Retrieval

/-- The limits of a retrieval. -/
structure Limits where
  /-- The number of seeds. -/
  topK : Nat := 10
  bfsDepth : Nat := 2
  dfsDepth : Nat := Walk.defaultDepth
  /-- The budget of the walk. -/
  maxNodes : Nat := 200
  watch : Walk.Watch := .never
deriving DecidableEq, Repr

/-- A query by text, by vector, or by both. -/
structure Query where
  text : Option String := none
  vector : Option Embedding := none
deriving DecidableEq

/-- How the seeds of an answer were chosen. -/
inductive Mode where
  /-- All by similarity. -/
  | semantic
  /-- None by similarity. -/
  | structural
  /-- By similarity and by text. -/
  | mixed
deriving DecidableEq, Repr

/-- The name of a mode. -/
def Mode.name : Mode → String
  | .semantic => "semantic"
  | .structural => "structural"
  | .mixed => "mixed"

/-- Why a node is in an answer. -/
inductive SeedSource where
  | similarity
  | textual
  /-- The walk came upon it. -/
  | none
deriving DecidableEq, Repr

/-- The name of a reason. -/
def SeedSource.name : SeedSource → String
  | .similarity => "similarity"
  | .textual => "textual"
  | .none => "none"

/-- A seed with the score that made it one. -/
structure Seed where
  node : Node
  score : Float32
  source : SeedSource
deriving DecidableEq

/-- The order of seeds: by score from the greatest, then by identifier. -/
def Seed.le (a b : Seed) : Bool :=
  ((compare (rank b.score) (rank a.score)).then (compare a.node.id b.node.id)).isLE

/-- A node of an answer. -/
structure RankedNode where
  id : NodeId
  kind : NodeKind
  score : Option Float32
  seed : SeedSource
  tags : Walk.Hybrid.Tags
deriving DecidableEq

/-- The part of a graph that a query is about. -/
structure Subgraph where
  mode : Mode
  nodes : List RankedNode := []
  edges : List Edge := []
  truncated : Option Walk.Truncation := none
deriving DecidableEq

/-! ## Seeds -/

/-- The nodes whose vectors are most similar to a vector of the same length. -/
def similaritySeeds (s : Store) (vector : Embedding) (k : Nat) : List Seed :=
  ((s.nodeList.filterMap fun n =>
    match n.embedding with
    | some v =>
        if v.size = vector.size then some (Seed.mk n (cosine vector v) .similarity)
        else none
    | none => none).mergeSort Seed.le).take k

/-- The text in which the tokens of a query are looked for. -/
def haystack (n : Node) : String :=
  " ".intercalate (n.id.text ::
    [Attribute.name, Attribute.qualifiedName, Attribute.path].filterMap n.text?)

/-- How many of some distinct tokens a node has. -/
def hits (query : List String) (n : Node) : Nat :=
  let tokens := tokenize (haystack n)
  query.countP tokens.contains

/-- The nodes that share most tokens with a text; the score is the share of the
    text's distinct tokens that a node has. -/
def textualSeeds (s : Store) (text : String) (taken : List NodeId) (limit : Nat) :
    List Seed :=
  let query := (tokenize text).eraseDups
  (((s.nodeList.filter fun n => !taken.contains n.id).filterMap fun n =>
    let found := hits query n
    if 0 < found then
      some (Seed.mk n (Float32.ofNat found / Float32.ofNat query.length) .textual)
    else none).mergeSort Seed.le).take limit

/-- The vector of a query: its own, or that of its text. -/
def queryVector? (embedder : Option Embedder) (q : Query) : Option Embedding :=
  match q.vector with
  | some v => some v
  | none =>
      match q.text, embedder with
      | some text, some e =>
          match e.embed [text] with
          | .ok vectors => vectors.head?
          | .error _ => none
      | _, _ => none

/-- The seeds of a query. -/
def seeds (s : Store) (limits : Limits) (embedder : Option Embedder) (q : Query)
    (k : Nat) : List Seed :=
  let similar := match queryVector? embedder q with
    | some v => similaritySeeds s v k
    | none => []
  let limit := if similar.isEmpty then limits.maxNodes else k - similar.length
  match q.text with
  | some text => similar ++ textualSeeds s text (similar.map (·.node.id)) limit
  | none => similar

/-- How seeds were chosen. -/
def modeOf (seeds : List Seed) : Mode :=
  if seeds.all fun x => x.source ≠ .similarity then .structural
  else if seeds.all fun x => x.source = .similarity then .semantic
  else .mixed

/-! ## Answers -/

/-- The walk from the seeds of a query. -/
def expansion (s : Store) (limits : Limits) (seeds : List Seed) : Walk.Hybrid.Result :=
  Walk.hybrid s (seeds.map (·.node.id))
    { bfsDepth := limits.bfsDepth
      dfsDepth := limits.dfsDepth
      maxNodes := limits.maxNodes
      watch := limits.watch }

/-- A seed as a node of the answer. -/
def rankSeed (r : Walk.Hybrid.Result) (x : Seed) : RankedNode :=
  ⟨x.node.id, x.node.kind, some x.score, x.source, (r.get? x.node.id).getD {}⟩

/-- A node that the walk came upon as a node of the answer. -/
def rankFound? (s : Store) (t : Walk.Hybrid.Tagged) : Option RankedNode :=
  s.nodes[t.id]?.map fun n => ⟨t.id, n.kind, none, .none, t.tags⟩

/-- The answer for some seeds. -/
def assemble (s : Store) (limits : Limits) (seeds : List Seed) : Subgraph :=
  let r := expansion s limits seeds
  let ids := seeds.map (·.node.id)
  let found := (r.nodes.filter fun t => !ids.contains t.id).filterMap (rankFound? s)
  let nodes := seeds.map (rankSeed r) ++ found
  let selected := Std.ExtTreeSet.ofList (nodes.map (·.id))
  { mode := modeOf seeds
    nodes
    edges := s.inducedEdges selected.contains
    truncated := r.truncated }

/-- The part of a graph that a query is about; `k` overrides the number of
    seeds in the limits. -/
def retrieve (s : Store) (limits : Limits) (embedder : Option Embedder) (q : Query)
    (k : Option Nat) : Subgraph :=
  let k := k.getD limits.topK
  if k = 0 ∨ s.isEmpty then { mode := .structural }
  else
    let chosen := seeds s limits embedder q k
    if chosen.isEmpty then { mode := .structural } else assemble s limits chosen

/-! ## As a value -/

/-- A field for each thing that is known. -/
def knownFields (fields : List (String × Option Json)) : List (String × Json) :=
  fields.filterMap fun f => f.2.map fun v => (f.1, v)

/-- A node of an answer as a value. -/
def RankedNode.toJson (n : RankedNode) : Json :=
  .object
    ([("id", .string n.id.text), ("kind", .string n.kind.name)]
      ++ knownFields [("score", n.score.map fun x => .number (.single x))]
      ++ [("seed", .string n.seed.name)]
      ++ knownFields
        [("bfs_distance", n.tags.bfsDistance.map .ofNat),
         ("dfs_depth", n.tags.dfsDepth.map .ofNat)])

/-- An answer as a value. -/
def Subgraph.toJson (g : Subgraph) : Json :=
  .object
    [("mode", .string g.mode.name), ("nodes", .array (g.nodes.map (·.toJson))),
     ("edges", .array (g.edges.map Edge.toJson)),
     ("truncated", .ofOption (fun t => .string t.name) g.truncated)]

end CodeGraph.Retrieval

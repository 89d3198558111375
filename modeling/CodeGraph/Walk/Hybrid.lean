import CodeGraph.Walk.BreadthFirst
import CodeGraph.Walk.DepthFirst
/-! # Hybrid walks — context and chains together

    A shallow breadth-first walk and a deeper depth-first walk from the same
    seeds, united.

    * Each node is tagged with the distance in either walk that found it.
    * Nodes come in the order of their breadth-first distance, then of their
      depth, then of their identifiers; a missing tag comes last.
    * The budget holds for each walk and again for the union.
    * The second walk continues to watch where the first one stopped. -/

namespace CodeGraph.Walk

namespace Hybrid

/-- The filters and limits of both walks. -/
structure Config where
  bfsDepth : Nat := 2
  bfsRelationships : List Relationship := []
  bfsDirection : Direction := .either
  dfsDepth : Nat := defaultDepth
  dfsRelationships : List Relationship := [.calls, .imports]
  dfsDirection : Direction := .outgoing
  /-- The greatest number of nodes in each walk and in the union. -/
  maxNodes : Nat := defaultBudget
  watch : Watch := .never
deriving DecidableEq, Repr

/-- The breadth-first walk. -/
def Config.breadth (c : Config) : Walk.Config :=
  ⟨c.bfsRelationships, c.bfsDirection, c.bfsDepth, c.maxNodes, c.watch⟩

/-- The depth-first walk, which begins after `polls` polls. -/
def Config.depth (c : Config) (polls : Nat) : Walk.Config :=
  ⟨c.dfsRelationships, c.dfsDirection, c.dfsDepth, c.maxNodes, c.watch.later polls⟩

/-- The distances of a node in the walks that found it. -/
structure Tags where
  bfsDistance : Option Nat := none
  dfsDepth : Option Nat := none
deriving DecidableEq, Repr

/-- A node with its tags. -/
structure Tagged where
  id : NodeId
  tags : Tags
deriving DecidableEq, Repr

/-- Whether both walks found the node. -/
def Tagged.foundByBoth (t : Tagged) : Bool :=
  t.tags.bfsDistance.isSome && t.tags.dfsDepth.isSome

/-- Smaller numbers first, and a missing one last. -/
def compareTag : Option Nat → Option Nat → Ordering
  | some a, some b => compare a b
  | some _, none => .lt
  | none, some _ => .gt
  | none, none => .eq

/-- The order of tagged nodes. -/
def Tagged.compare (a b : Tagged) : Ordering :=
  ((compareTag a.tags.bfsDistance b.tags.bfsDistance).then
    (compareTag a.tags.dfsDepth b.tags.dfsDepth)).then (Ord.compare a.id b.id)

/-- The order of tagged nodes. -/
def Tagged.le (a b : Tagged) : Bool := (Tagged.compare a b).isLE

/-- What a hybrid walk reports. -/
structure Result where
  nodes : List Tagged := []
  truncated : Option Truncation := none
deriving DecidableEq, Repr

/-- The tags of a node. -/
def Result.get? (r : Result) (id : NodeId) : Option Tags :=
  (r.nodes.find? fun t => t.id = id).map (·.tags)

/-- The tags of every visited node. -/
def merge (bfs dfs : Walk.Result) : Std.ExtTreeMap NodeId Tags :=
  let near := bfs.visits.foldl (fun tags v =>
    tags.alter v.node fun t => some { t.getD {} with bfsDistance := some v.distance }) ∅
  dfs.visits.foldl (fun tags v =>
    tags.alter v.node fun t => some { t.getD {} with dfsDepth := some v.distance }) near

/-- Two results as one, cut down to the budget. -/
def unite (maxNodes : Nat) (bfs dfs : Walk.Result) : Result :=
  let nodes := ((merge bfs dfs).toList.map fun p => Tagged.mk p.1 p.2).mergeSort Tagged.le
  let truncated := bfs.truncated <|> dfs.truncated
  if maxNodes < nodes.length then
    ⟨nodes.take maxNodes, truncated <|> some .nodeBudget⟩
  else ⟨nodes, truncated⟩

end Hybrid

/-- Unites a breadth-first and a depth-first walk from the same seeds. -/
def hybrid (s : Store) (ids : List NodeId) (config : Hybrid.Config) : Hybrid.Result :=
  let near := breadthFirstState s ids config.breadth
  Hybrid.unite config.maxNodes near.result
    (depthFirst s ids (config.depth near.trail.polls))

end CodeGraph.Walk

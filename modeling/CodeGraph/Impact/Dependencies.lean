import CodeGraph.Impact.Analysis
/-! # Dependencies — what a node needs

    One walk along calls, imports and inheritances, from a target and the
    files it is defined in.

    * What is one edge away is direct, everything further is transitive.
    * The target itself, its members and their files are not listed, unless the
      walk was stopped before it came back to them as seeds. -/

namespace CodeGraph.Impact

/-- What a node needs. -/
structure DependencyReport where
  target : NodeId
  direct : List NodeId
  /-- Nearest first. -/
  transitive : List NodeId
  truncated : Option Walk.Truncation
  depthLimitReached : Bool
deriving DecidableEq, Repr

/-- The walk from a target along what it needs. -/
def dependencyWalk (s : Store) (limits : Limits) (target : Node) (depth : Nat) :
    Walk.Result :=
  Walk.depthFirst s (seeds s target ++ files s target)
    (limits.walk [.calls, .imports, .inherits] .outgoing depth 0)

/-- The nodes that a walk found outside its seeds, nearest first. -/
def reachedOutside (r : Walk.Result) : List Reached :=
  ((r.visits.filter fun v => 0 < v.distance).map fun v =>
    Reached.mk v.node v.distance).mergeSort Reached.le

/-- The report of a walk. -/
def dependencyReport (target : NodeId) (r : Walk.Result) : DependencyReport :=
  let (direct, transitive) := (reachedOutside r).partition fun x => x.distance = 1
  { target
    direct := direct.map (·.id)
    transitive := transitive.map (·.id)
    truncated := r.truncated
    depthLimitReached := r.depthLimitReached }

/-- Collects what a node needs.  It fails only if there is no such node. -/
def dependencies (s : Store) (limits : Limits) (target : NodeId) (depth : Option Nat) :
    Except GraphError DependencyReport :=
  match s.nodes[target]? with
  | none => .error (.nodeNotFound target)
  | some node =>
      .ok (dependencyReport target
        (dependencyWalk s limits node (depth.getD limits.maxDepth)))

/-- A report as a value. -/
def DependencyReport.toJson (r : DependencyReport) : Json :=
  .object
    [("target", .string r.target.text), ("direct", idsJson r.direct),
     ("transitive", idsJson r.transitive), ("truncated", truncationJson r.truncated),
     ("depth_limit_reached", .bool r.depthLimitReached)]

end CodeGraph.Impact

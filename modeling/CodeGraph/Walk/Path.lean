import CodeGraph.Walk.Basic
/-! # Paths — from a visited node back to its seed

    Each visit names the edge through which its node was found, so a path is
    read backwards from the target.

    * Where a node is listed twice, its last visit counts.
    * A path never has more nodes than there are visits; links that go round
      in a circle lead nowhere. -/

namespace CodeGraph.Walk

/-- The last visit of a node. -/
def Result.lastVisit? (r : Result) (id : NodeId) : Option Visit :=
  r.visits.reverse.find? fun v => v.node = id

/-- Follows the edges back from a visit, in at most `turns` turns, and puts the
    nodes it meets in front of `path`. -/
def pathBack (r : Result) : (turns : Nat) → Visit → (path : List NodeId) →
    Option (List NodeId)
  | turns, v, path =>
      match v.via, turns with
      | none, _ => some path
      | some _, 0 => none
      | some via, turns + 1 =>
          match r.lastVisit? via.source with
          | none => none
          | some v' => pathBack r turns v' (via.source :: path)

/-- The nodes from a seed to a visited node; none if it was not visited. -/
def pathTo (r : Result) (target : NodeId) : Option (List NodeId) :=
  match r.lastVisit? target with
  | none => none
  | some v => pathBack r (r.visits.length - 1) v [target]

end CodeGraph.Walk

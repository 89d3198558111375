import CodeGraph.Impact.Target
import CodeGraph.Walk.BreadthFirst
import CodeGraph.Walk.DepthFirst
/-! # Impact — what a change may break

    Two walks against the direction of the edges find what a change affects:
    one from the changed nodes over calls and inheritances, one from their
    files over imports.  A third, short walk looks for places close by where
    execution starts.

    * `Analysis.affected` is everything that the first two walks found outside
      the target, nearest first; a report lists only so much of it.
    * The level says how far a change reaches, the confidence how much of the
      surroundings the walks have seen. -/

namespace CodeGraph.Impact

/-- How far a change is likely to reach. -/
inductive Level where
  /-- No further than the target's own file. -/
  | low
  /-- Into other files. -/
  | medium
  /-- To a place where execution starts, or to many nodes. -/
  | high
deriving DecidableEq, Repr

namespace Level

/-- The name of a level. -/
def name : Level → String
  | .low => "low"
  | .medium => "medium"
  | .high => "high"

/-- The level with a given name. -/
def named? (s : String) : Option Level := [low, medium, high].find? fun l => l.name = s

/-- The place of a level among the others. -/
def rank : Level → Nat
  | .low => 0
  | .medium => 1
  | .high => 2

instance : LE Level := ⟨fun a b => a.rank ≤ b.rank⟩

instance (a b : Level) : Decidable (a ≤ b) :=
  inferInstanceAs (Decidable (a.rank ≤ b.rank))

end Level

/-- How complete the walks behind a report were. -/
inductive Confidence where
  /-- A walk was cut short, or the target's file could not be parsed. -/
  | low
  /-- A call close to the target is not resolved. -/
  | moderate
  | high
deriving DecidableEq, Repr

namespace Confidence

/-- The name of a confidence. -/
def name : Confidence → String
  | .low => "low"
  | .moderate => "moderate"
  | .high => "high"

/-- The confidence with a given name. -/
def named? (s : String) : Option Confidence :=
  [low, moderate, high].find? fun c => c.name = s

end Confidence

/-- The limits of an analysis. -/
structure Limits where
  maxDepth : Nat := 5
  maxNodes : Nat := Walk.defaultBudget
  /-- More indirect references than this make a level high. -/
  transitiveThreshold : Nat := 15
  /-- The greatest number of affected nodes in a report. -/
  affectedCap : Nat := 500
  watch : Walk.Watch := .never
deriving DecidableEq, Repr

/-- The filters and limits of one walk. -/
def Limits.walk (limits : Limits) (relationships : List Relationship)
    (direction : Direction) (depth polls : Nat) : Walk.Config :=
  ⟨relationships, direction, depth, limits.maxNodes, limits.watch.later polls⟩

/-- An entry point this near makes a level high. -/
def entryPointHops : Nat := 2

/-- A node and its distance from the target. -/
structure Reached where
  id : NodeId
  distance : Nat
deriving DecidableEq, Repr

/-- The order of reached nodes: nearest first, then by identifier. -/
def Reached.le (a b : Reached) : Bool :=
  ((compare a.distance b.distance).then (compare a.id b.id)).isLE

/-- The walks of an analysis, and where they began. -/
structure Analysis where
  target : Node
  seeds : List NodeId
  files : List NodeId
  /-- From the seeds, against calls and inheritances. -/
  calls : Walk.Result
  /-- From the files, against imports. -/
  imports : Walk.Result
  /-- From the seeds, a short way against all but containment. -/
  near : Walk.Result
deriving DecidableEq

namespace Analysis

/-- Walks from a target. -/
def of (s : Store) (limits : Limits) (target : Node) (depth : Nat) : Analysis :=
  let seeds := Impact.seeds s target
  let files := Impact.files s target
  let calls := Walk.depthFirstState s seeds
    (limits.walk [.calls, .inherits] .incoming depth 0)
  -- each walk counts its polls from where the one before left off
  let imports := Walk.depthFirstState s files
    (limits.walk [.imports] .incoming depth calls.trail.polls)
  let near := Walk.breadthFirst s seeds
    (limits.walk [.calls, .imports, .defines, .inherits] .incoming entryPointHops
      (calls.trail.polls + imports.trail.polls))
  { target, seeds, files, calls := calls.result, imports := imports.result, near }

/-- The nodes that the target stands for. -/
def origin (a : Analysis) : List NodeId := a.seeds ++ a.files

/-- Notes a distance unless a smaller one is known. -/
def noteNearest (m : Std.ExtTreeMap NodeId Nat) (v : Walk.Visit) :
    Std.ExtTreeMap NodeId Nat :=
  m.alter v.node fun d => some (min (d.getD v.distance) v.distance)

/-- Everything that the change affects, nearest first: what the walks from the
    target found outside it, at its distance in the nearer walk. -/
def affected (a : Analysis) : List Reached :=
  let found := (a.calls.visits ++ a.imports.visits).filter fun v =>
    !a.origin.contains v.node
  let nearest := (found.foldl noteNearest ∅).toList
  (nearest.map fun p => Reached.mk p.1 p.2).mergeSort Reached.le

/-- The functions that call the target. -/
def directCallers (s : Store) (a : Analysis) : List NodeId :=
  (((a.calls.atDistance 1).map (·.node)).filter fun id =>
    s.nodes[id]?.any fun n => n.kind = .function).mergeSort NodeId.le

/-- The files that import the target's files. -/
def importingFiles (a : Analysis) : List NodeId :=
  ((a.imports.atDistance 1).map (·.node)).mergeSort NodeId.le

/-- The number of affected nodes that neither call nor import the target
    directly. -/
def transitiveReferences (s : Store) (a : Analysis) : Nat :=
  let direct := a.directCallers s ++ a.importingFiles
  a.affected.countP fun r => !direct.contains r.id

/-- The distance of the nearest place where execution starts, among the affected
    nodes and those close to the target. -/
def entryPointDistance (s : Store) (a : Analysis) : Option Nat :=
  let close := (a.near.visits.filter fun v => isEntryPoint s v.node).map (·.distance)
  let far := (a.affected.filter fun r => isEntryPoint s r.id).map (·.distance)
  (close ++ far).min?

/-- Whether the target and the affected nodes have different homes. -/
def spansFiles (s : Store) (a : Analysis) : Bool :=
  let own := (s.definingFile? a.target.id).toList.map (·.id)
  match own ++ a.affected.filterMap fun r => home? s r.id with
  | [] => false
  | first :: rest => rest.any (· ≠ first)

/-- How far the change is likely to reach. -/
def level (s : Store) (limits : Limits) (a : Analysis) : Level :=
  if (a.entryPointDistance s).any (· ≤ entryPointHops) ||
      a.affected.any (fun r => isEntryPoint s r.id) ||
      limits.transitiveThreshold < a.transitiveReferences s then .high
  else if a.spansFiles s then .medium
  else .low

/-- Whether a walk saw less than there is. -/
def isIncomplete (a : Analysis) : Bool :=
  [a.calls, a.imports].any fun w => w.truncated.isSome || w.depthLimitReached

/-- Whether the file of the target could not be parsed. -/
def parseFailed (s : Store) (a : Analysis) : Bool :=
  (s.definingFile? a.target.id).any fun f => f.flag Attribute.parseFailed

/-- Whether a node has calls that are not resolved. -/
def hasUnresolvedCalls (s : Store) (id : NodeId) : Bool :=
  s.nodes[id]?.any fun n => 0 < (n.nat? Attribute.unresolvedCalls).getD 0

/-- How complete the walks were. -/
def confidence (s : Store) (a : Analysis) : Confidence :=
  if a.isIncomplete || a.parseFailed s then .low
  else if (a.seeds ++ a.affected.map (·.id)).any (hasUnresolvedCalls s) then .moderate
  else .high

end Analysis

/-- What a change to a node may break. -/
structure Report where
  target : NodeId
  level : Level
  confidence : Confidence
  directCallers : List NodeId
  importingFiles : List NodeId
  transitiveReferences : Nat
  /-- The affected nodes, nearest first, as many as the limits allow. -/
  affected : List NodeId
  affectedTruncated : Bool
  truncated : Option Walk.Truncation
  depthLimitReached : Bool
  entryPointDistance : Option Nat
deriving DecidableEq, Repr

/-- Whether nothing is affected. -/
def Report.isEmpty (r : Report) : Bool := r.affected.isEmpty

/-- The report of an analysis. -/
def Analysis.report (s : Store) (limits : Limits) (a : Analysis) : Report where
  target := a.target.id
  level := a.level s limits
  confidence := a.confidence s
  directCallers := a.directCallers s
  importingFiles := a.importingFiles
  transitiveReferences := a.transitiveReferences s
  affected := (a.affected.take limits.affectedCap).map (·.id)
  affectedTruncated := limits.affectedCap < a.affected.length
  truncated := a.calls.truncated <|> a.imports.truncated
  depthLimitReached := a.calls.depthLimitReached || a.imports.depthLimitReached
  entryPointDistance := a.entryPointDistance s

/-- Estimates what a change to a node may break.  It fails only if there is no
    such node. -/
def analyze (s : Store) (limits : Limits) (target : NodeId) (depth : Option Nat) :
    Except GraphError Report :=
  match s.nodes[target]? with
  | none => .error (.nodeNotFound target)
  | some node =>
      .ok ((Analysis.of s limits node (depth.getD limits.maxDepth)).report s limits)

/-! ## As a value -/

/-- Identifiers as a value. -/
def idsJson (ids : List NodeId) : Json := .array (ids.map fun id => .string id.text)

/-- A reason for stopping as a value. -/
def truncationJson (t : Option Walk.Truncation) : Json :=
  .ofOption (fun t => .string t.name) t

/-- A report as a value. -/
def Report.toJson (r : Report) : Json :=
  .object
    [("target", .string r.target.text), ("level", .string r.level.name),
     ("confidence", .string r.confidence.name),
     ("direct_callers", idsJson r.directCallers),
     ("importing_files", idsJson r.importingFiles),
     ("transitive_references", .ofNat r.transitiveReferences),
     ("affected", idsJson r.affected),
     ("affected_truncated", .bool r.affectedTruncated),
     ("truncated", truncationJson r.truncated),
     ("depth_limit_reached", .bool r.depthLimitReached),
     ("entry_point_distance", .ofOption .ofNat r.entryPointDistance)]

end CodeGraph.Impact

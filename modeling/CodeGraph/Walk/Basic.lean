import CodeGraph.Graph.Store
/-! # Walks — limits, visits and the trail

    What the two bounded walks share: what limits them, what they report, and
    the trail of the nodes found so far.

    * A walk never fails.  A limit that stops it early is named in the result,
      and what was visited until then is kept.
    * `Watch` is what a walk sees of the outside: at each poll it learns
      whether it has been cancelled and whether its time is up.
    * `Trail.record` is the only way onto the trail; it polls first, then
      checks the budget. -/

namespace CodeGraph.Walk

/-- Why a walk stopped before it was done. -/
inductive Truncation where
  | nodeBudget
  | deadline
  | cancelled
deriving DecidableEq, Repr

namespace Truncation

/-- The name of a reason in a report. -/
def name : Truncation → String
  | .nodeBudget => "node_budget"
  | .deadline => "deadline"
  | .cancelled => "cancelled"

/-- The wording of a reason. -/
def message : Truncation → String
  | .nodeBudget => "truncated by node budget"
  | .deadline => "truncated by deadline"
  | .cancelled => "cancelled"

/-- The reason with a given name. -/
def named? (s : String) : Option Truncation :=
  [nodeBudget, deadline, cancelled].find? fun t => t.name = s

end Truncation

/-- When a walk is told to stop, counted in polls: from which poll on it is
    cancelled, and from which on its time is up. -/
structure Watch where
  cancelledFrom : Option Nat := none
  expiredFrom : Option Nat := none
deriving DecidableEq, Repr

namespace Watch

/-- Nothing from outside stops the walk. -/
def never : Watch := {}

/-- The reason to stop at a poll; a cancellation comes before a deadline. -/
def reason? (w : Watch) (poll : Nat) : Option Truncation :=
  if w.cancelledFrom.any (· ≤ poll) then some .cancelled
  else if w.expiredFrom.any (· ≤ poll) then some .deadline
  else none

/-- What is left of a watch after some polls. -/
def later (w : Watch) (polls : Nat) : Watch where
  cancelledFrom := w.cancelledFrom.map (· - polls)
  expiredFrom := w.expiredFrom.map (· - polls)

end Watch

/-- The default greatest distance from the seeds. -/
def defaultDepth : Nat := 5

/-- The default number of nodes that may be visited. -/
def defaultBudget : Nat := 10000

/-- The filters and limits of one walk. -/
structure Config where
  /-- The relationships to follow; none named means all. -/
  relationships : List Relationship := []
  direction : Direction := .outgoing
  /-- The greatest number of edges from the nearest seed. -/
  maxDepth : Nat := defaultDepth
  /-- The greatest number of nodes visited. -/
  maxNodes : Nat := defaultBudget
  watch : Watch := .never
deriving DecidableEq, Repr

/-- The edge through which a node was found. -/
structure Via where
  source : NodeId
  relationship : Relationship
  edgeIndex : Nat
deriving DecidableEq, Repr

/-- A visited node. -/
structure Visit where
  node : NodeId
  /-- The number of edges from the nearest seed. -/
  distance : Nat
  /-- Seeds have none. -/
  via : Option Via
deriving DecidableEq, Repr

/-- What a walk reports. -/
structure Result where
  /-- The visited nodes in the order of their first visit. -/
  visits : List Visit := []
  truncated : Option Truncation := none
  /-- Some node lies beyond the greatest distance. -/
  depthLimitReached : Bool := false
deriving DecidableEq, Repr

namespace Result

/-- The visited nodes in the order of their visits. -/
def nodes (r : Result) : List NodeId := r.visits.map (·.node)

/-- Whether a node was visited. -/
def contains (r : Result) (id : NodeId) : Bool := r.visits.any fun v => v.node = id

/-- The distance of a node's first visit. -/
def distance? (r : Result) (id : NodeId) : Option Nat :=
  (r.visits.find? fun v => v.node = id).map (·.distance)

/-- The visits at a distance. -/
def atDistance (r : Result) (d : Nat) : List Visit :=
  r.visits.filter fun v => v.distance = d

end Result

/-! ## The trail -/

/-- How a node was found: how far from the seeds, and through which edge. -/
structure Record where
  distance : Nat
  via : Option Via
deriving DecidableEq, Repr

/-- The nodes found so far, in the order they were found. -/
structure Trail where
  order : Array NodeId := #[]
  records : Std.ExtTreeMap NodeId Record := ∅
  truncated : Option Truncation := none
  polls : Nat := 0
deriving DecidableEq

namespace Trail

/-- Whether a node was found. -/
def knows (t : Trail) (id : NodeId) : Bool := t.records.contains id

/-- The distance recorded for a node. -/
def distance? (t : Trail) (id : NodeId) : Option Nat := t.records[id]?.map (·.distance)

/-- Whether the walk has to stop. -/
def stopped (t : Trail) : Bool := t.truncated.isSome

/-- Looks at the watch once. -/
def poll (w : Watch) (t : Trail) : Trail :=
  { t with truncated := w.reason? t.polls, polls := t.polls + 1 }

@[simp] theorem order_poll (w : Watch) (t : Trail) : (t.poll w).order = t.order := rfl

@[simp] theorem records_poll (w : Watch) (t : Trail) : (t.poll w).records = t.records :=
  rfl

/-- Puts a node on the trail, or gives a node on it a new record.  A trail that
    comes back stopped has not taken the node. -/
def record (config : Config) (t : Trail) (id : NodeId) (r : Record) : Trail :=
  if (t.poll config.watch).stopped then t.poll config.watch
  else if id ∈ t.records then
    { t.poll config.watch with records := t.records.insert id r }
  else if config.maxNodes ≤ t.order.size then
    { t.poll config.watch with truncated := some .nodeBudget }
  else
    { t.poll config.watch with
      order := t.order.push id
      records := t.records.insert id r }

/-- A node is refused, or gets a new record, or is new and joins the trail,
    which happens only below the budget. -/
theorem record_cases (config : Config) (t : Trail) (id : NodeId) (r : Record) :
    ((t.record config id r).stopped = true ∧ (t.record config id r).order = t.order ∧
        (t.record config id r).records = t.records) ∨
      ((t.record config id r).stopped = false ∧
        (t.record config id r).records = t.records.insert id r ∧
        (id ∈ t.records ∧ (t.record config id r).order = t.order ∨
          id ∉ t.records ∧ t.order.size < config.maxNodes ∧
            (t.record config id r).order = t.order.push id)) := by
  unfold record
  by_cases hstop : (t.poll config.watch).stopped = true
  · simp [hstop]
  · have hgo : (t.poll config.watch).truncated.isSome = false := by
      simpa [stopped] using hstop
    by_cases hmem : id ∈ t.records
    · simp [stopped, hgo, hmem]
    · by_cases hfull : config.maxNodes ≤ t.order.size
      · simp [stopped, hgo, hmem, hfull]
      · simp [stopped, hgo, hmem, hfull]
        omega

/-- The visits that a trail stands for. -/
def visits (t : Trail) : List Visit :=
  t.order.toList.filterMap fun id =>
    t.records[id]?.map fun r => ⟨id, r.distance, r.via⟩

end Trail

/-! ## Seeds and steps -/

/-- What one turn of a walk leads to: its end, or another turn. -/
inductive Turn (State : Type) where
  | halt (st : State)
  | more (st : State)

/-- The seeds that are nodes, each once, ascending. -/
def seeds (s : Store) (ids : List NodeId) : List NodeId :=
  Store.dropRepeats ((ids.filter s.contains).mergeSort NodeId.le)

/-- The edges that a walk may take from a node. -/
def steps (s : Store) (config : Config) (id : NodeId) : List Adjacent :=
  s.adjacent id config.relationships config.direction

/-- The edge through which a step leads away from a node. -/
def viaOf (id : NodeId) (a : Adjacent) : Via := ⟨id, a.relationship, a.edgeIndex⟩

end CodeGraph.Walk

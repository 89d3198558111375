import CodeGraph.SortedMap
import CodeGraph.Walk.Basic
/-! # Depth first — one branch at a time

    A walk in pre-order with a stack of nodes to visit.  Distances count from
    the nearest seed: a node that is reached again by a shorter way gets the
    smaller distance and is expanded again, so that the depth limit holds for
    shortest ways.

    * `run` takes one entry off the stack at a time.  An entry finds a new
      node, or makes a recorded distance smaller, or is dropped: this is why
      the walk ends.
    * What lies beyond the depth limit is only known at the end, because a
      shorter way may still lead there. -/

namespace CodeGraph.Walk.DepthFirst

/-- A node to visit, and how it was come upon. -/
structure Entry where
  node : NodeId
  record : Record
deriving DecidableEq, Repr

/-- A walk under way. -/
structure State where
  stack : List Entry
  trail : Trail := {}
  /-- The neighbours of nodes at the depth limit that were unknown then. -/
  beyond : List NodeId := []
deriving DecidableEq

/-- Whether a node is recorded at a distance or nearer. -/
def settled (t : Trail) (id : NodeId) (distance : Nat) : Bool :=
  (t.distance? id).any (· ≤ distance)

/-- What to visit next from a node at a distance below the limit. -/
def pushes (t : Trail) (id : NodeId) (distance : Nat) (steps : List Adjacent) :
    List Entry :=
  (steps.filter fun a => !settled t a.neighbor (distance + 1)).map fun a =>
    ⟨a.neighbor, ⟨distance + 1, some (viaOf id a)⟩⟩

/-- The state after the node of an entry was recorded. -/
def expand (s : Store) (config : Config) (e : Entry) (rest : List Entry) (t : Trail)
    (beyond : List NodeId) : State :=
  if config.maxDepth ≤ e.record.distance then
    ⟨rest, t, beyond ++
      ((steps s config e.node).map (·.neighbor)).filter fun id => !t.knows id⟩
  else ⟨pushes t e.node e.record.distance (steps s config e.node) ++ rest, t, beyond⟩

/-- Takes one entry off the stack. -/
def turn (s : Store) (config : Config) (st : State) : Turn State :=
  match st.stack with
  | [] => .halt st
  | e :: rest =>
      if settled st.trail e.node e.record.distance then .more { st with stack := rest }
      else
        let t := st.trail.record config e.node e.record
        if t.stopped then .halt { st with stack := rest, trail := t }
        else .more (expand s config e rest t st.beyond)

/-! ## Why the walk ends -/

/-- How much a walk can still do: the nodes that the budget allows it to find,
    the distances that can become smaller, and the entries on the stack. -/
def remaining (config : Config) (st : State) : Nat × Nat × Nat :=
  (config.maxNodes - st.trail.order.size,
    SortedMap.total Record.distance st.trail.records, st.stack.length)

theorem trail_expand (s : Store) (config : Config) (e : Entry) (rest : List Entry)
    (t : Trail) (beyond : List NodeId) :
    (expand s config e rest t beyond).trail = t := by
  unfold expand
  split <;> rfl

theorem remaining_turn {s : Store} {config : Config} {st st' : State}
    (h : turn s config st = .more st') :
    Prod.Lex (· < ·) (Prod.Lex (· < ·) (· < ·)) (remaining config st')
      (remaining config st) := by
  rw [Prod.lex_def, Prod.lex_def]
  unfold turn at h
  split at h
  · cases h
  · rename_i e rest hstack
    split at h
    · cases h
      right
      exact ⟨rfl, Or.inr ⟨rfl, by simp [remaining, hstack]⟩⟩
    · rename_i hset
      dsimp only at h
      rcases st.trail.record_cases config e.node e.record with
        ⟨hstop, -⟩ | ⟨hgo, hrec, ⟨hmem, horder⟩ | ⟨-, hroom, horder⟩⟩
      · simp [hstop] at h
      · simp only [hgo, Bool.false_eq_true, if_false, Turn.more.injEq] at h
        subst h
        right
        simp only [remaining, trail_expand, horder, hrec, true_and]
        left
        obtain ⟨old, hold⟩ : ∃ old, st.trail.records[e.node]? = some old :=
          ⟨_, Std.ExtTreeMap.getElem?_eq_some_getElem hmem⟩
        refine SortedMap.total_insert_lt hold ?_
        simpa [settled, Trail.distance?, hold] using hset
      · simp only [hgo, Bool.false_eq_true, if_false, Turn.more.injEq] at h
        subst h
        left
        simp only [remaining, trail_expand, horder, Array.size_push]
        omega

/-- Empties the stack. -/
def run (s : Store) (config : Config) (st : State) : State :=
  match _h : turn s config st with
  | .halt st' => st'
  | .more st' => run s config st'
termination_by remaining config st
decreasing_by exact remaining_turn _h

/-- What a walk reports from a state. -/
def State.result (st : State) : Result :=
  ⟨st.trail.visits, st.trail.truncated, st.beyond.any fun id => !st.trail.knows id⟩

end DepthFirst

/-- The depth-first walk from some seeds, under way to its end. -/
def depthFirstState (s : Store) (ids : List NodeId) (config : Config) :
    DepthFirst.State :=
  DepthFirst.run s config
    { stack := (seeds s ids).map fun id => ⟨id, ⟨0, none⟩⟩ }

/-- Visits nodes in pre-order, one branch after the other. -/
def depthFirst (s : Store) (ids : List NodeId) (config : Config) : Result :=
  (depthFirstState s ids config).result

end CodeGraph.Walk

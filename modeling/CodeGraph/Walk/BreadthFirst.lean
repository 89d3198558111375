import CodeGraph.Walk.Basic
/-! # Breadth first — nearest nodes first

    The trail itself is the queue: nodes are expanded in the order in which
    they were found, so all that is kept besides the trail is how many have
    been expanded.

    * `discover` puts the new ones of a list of steps on the trail.
    * `run` expands one node after the other; each turn either finds a node,
      for which the budget allows only so many, or comes nearer to the end of
      the trail. -/

namespace CodeGraph.Walk.BreadthFirst

/-- A walk under way. -/
structure State where
  trail : Trail := {}
  /-- How many nodes of the trail have been expanded. -/
  expanded : Nat := 0
  depthLimitReached : Bool := false
deriving DecidableEq

/-- Puts seeds on the trail until it is stopped. -/
def start (config : Config) (t : Trail) : List NodeId → Trail
  | [] => t
  | id :: rest =>
      let t := t.record config id ⟨0, none⟩
      if t.stopped then t else start config t rest

/-- Puts the new nodes of some steps from `id` on the trail until it is
    stopped. -/
def discover (config : Config) (id : NodeId) (distance : Nat) (t : Trail) :
    List Adjacent → Trail
  | [] => t
  | a :: rest =>
      if t.knows a.neighbor then discover config id distance t rest
      else
        let t := t.record config a.neighbor ⟨distance, some (viaOf id a)⟩
        if t.stopped then t else discover config id distance t rest

theorem discover_order (config : Config) (id : NodeId) (distance : Nat) :
    ∀ (steps : List Adjacent) (t : Trail),
      (discover config id distance t steps).order = t.order ∨
        t.order.size < config.maxNodes ∧
          t.order.size < (discover config id distance t steps).order.size := by
  intro steps
  induction steps with
  | nil => intro t; exact Or.inl rfl
  | cons a rest ih =>
      intro t
      rw [discover]
      split
      · exact ih t
      · have h' := ih (t.record config a.neighbor ⟨distance, some (viaOf id a)⟩)
        dsimp only
        rcases t.record_cases config a.neighbor ⟨distance, some (viaOf id a)⟩ with
          ⟨hstop, horder, -⟩ | ⟨hgo, -, ⟨-, horder⟩ | ⟨-, hroom, horder⟩⟩
        · exact Or.inl (by simp [hstop, horder])
        · simp only [hgo, Bool.false_eq_true, if_false]
          rwa [horder] at h'
        · rw [horder, Array.size_push] at h'
          simp only [hgo, Bool.false_eq_true, if_false]
          refine Or.inr ⟨hroom, ?_⟩
          rcases h' with h' | h'
          · simp [h']
          · omega

/-- Expands the next node of the trail. -/
def turn (s : Store) (config : Config) (st : State) : Turn State :=
  match st.trail.order[st.expanded]? with
  | none => .halt st
  | some id =>
      let t := st.trail.poll config.watch
      let distance := (t.distance? id).getD 0
      if t.stopped then .halt { st with trail := t }
      else if config.maxDepth ≤ distance then
        .more
          { trail := t
            expanded := st.expanded + 1
            -- a node that was found some other way is not beyond the limit
            depthLimitReached := st.depthLimitReached ||
              (steps s config id).any fun a => !t.knows a.neighbor }
      else
        let t' := discover config id (distance + 1) t (steps s config id)
        if t'.stopped then .halt { st with trail := t' }
        else .more { st with trail := t', expanded := st.expanded + 1 }

/-- How much a walk can still do: the nodes that the budget allows it to find,
    then the nodes of the trail that it has not expanded. -/
def remaining (config : Config) (st : State) : Nat × Nat :=
  (config.maxNodes - st.trail.order.size, st.trail.order.size - st.expanded)

theorem remaining_turn {s : Store} {config : Config} {st st' : State}
    (h : turn s config st = .more st') :
    Prod.Lex (· < ·) (· < ·) (remaining config st') (remaining config st) := by
  rw [Prod.lex_def]
  unfold turn at h
  split at h
  · cases h
  · rename_i id hid
    have hlt : st.expanded < st.trail.order.size :=
      (Array.getElem?_eq_some_iff.mp hid).1
    dsimp only at h
    split at h
    · cases h
    · split at h
      · cases h
        right
        refine ⟨rfl, ?_⟩
        simp only [remaining, Trail.order_poll]
        omega
      · split at h
        · cases h
        · cases h
          have hd := discover_order config id
            (((st.trail.poll config.watch).distance? id).getD 0 + 1)
            (steps s config id) (st.trail.poll config.watch)
          rw [Trail.order_poll] at hd
          -- with nothing new the queue is shorter by one, with something new the budget is
          rcases hd with hd | hd
          · right
            simp only [remaining, hd, true_and]
            omega
          · left
            simp only [remaining]
            omega

/-- Expands the nodes of the trail in turn. -/
def run (s : Store) (config : Config) (st : State) : State :=
  match _h : turn s config st with
  | .halt st' => st'
  | .more st' => run s config st'
termination_by remaining config st
decreasing_by exact remaining_turn _h

/-- What a walk reports from a state. -/
def State.result (st : State) : Result :=
  ⟨st.trail.visits, st.trail.truncated, st.depthLimitReached⟩

end BreadthFirst

/-- The breadth-first walk from some seeds, under way to its end. -/
def breadthFirstState (s : Store) (ids : List NodeId) (config : Config) :
    BreadthFirst.State :=
  let t := BreadthFirst.start config {} (seeds s ids)
  if t.stopped then { trail := t } else BreadthFirst.run s config { trail := t }

/-- Visits nodes by their distance from the nearest seed. -/
def breadthFirst (s : Store) (ids : List NodeId) (config : Config) : Result :=
  (breadthFirstState s ids config).result

end CodeGraph.Walk

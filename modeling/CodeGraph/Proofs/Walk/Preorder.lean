import CodeGraph.Proofs.Walk.Budget
import CodeGraph.Proofs.Walk.Trace
/-! # Pre-order — the walk with a stack is a recursion

    `Preorder.walk` is the depth-first walk as one would write it down with recursion, on
    a plain list of visits.  The walk with a stack gives the same result.

    * Emptying the stack is to visit its entries one after the other
      (`DepthFirst.reading_run`).
    * An entry that is settled when it would be pushed is not pushed.  The recursion
      comes to it later and finds it settled still, since a visit makes no recorded
      distance larger (`settles_visit`); so nothing is lost (`foldl_unsettled`).
    * Once a node is refused, the recursion does nothing any more
      (`foldl_visit_of_full`), and the stack is not looked at again. -/

namespace CodeGraph.Walk

open Std

variable {s : Store} {config : Config} {ids : List NodeId}

namespace Preorder

/-! ## The recursive walk -/

/-- A walk under way. -/
structure State where
  visits : List Visit := []
  /-- A new node was refused since the budget is used up. -/
  full : Bool := false
  /-- The neighbours of nodes at the depth limit that were unvisited then. -/
  cutOff : List NodeId := []
deriving DecidableEq, Repr

namespace State

/-- Whether a node was visited. -/
def knows (p : State) (id : NodeId) : Bool := p.visits.any fun y => y.node = id

/-- Whether a node was visited at a distance or nearer. -/
def settles (p : State) (id : NodeId) (d : Nat) : Bool :=
  p.visits.any fun y => y.node = id && y.distance ≤ d

/-- A new node is visited last; a visited one keeps its place. -/
def record (p : State) (x : Visit) : State :=
  { p with visits :=
      if p.knows x.node then p.visits.map fun y => if y.node = x.node then x else y
      else p.visits ++ [x] }

/-- Notes the unvisited ones of some neighbours as cut off. -/
def note (p : State) (ids : List NodeId) : State :=
  { p with cutOff := p.cutOff ++ ids.filter fun id => !p.knows id }

/-- What the walk reports. -/
def result (p : State) : Result where
  visits := p.visits
  truncated := if p.full then some .nodeBudget else none
  depthLimitReached := p.cutOff.any fun id => !p.knows id

end State

/-- Visits a node, unless it was visited as near, and then what can be reached from it
    within the depth limit. -/
def visit (s : Store) (config : Config) (p : State) (x : Visit) : State :=
  if p.full || p.settles x.node x.distance then p
  else if !p.knows x.node && config.maxNodes ≤ p.visits.length then { p with full := true }
  else if x.distance < config.maxDepth then
    (steps s config x.node).foldl
      (fun p a => visit s config p ⟨a.neighbor, x.distance + 1, some (viaOf x.node a)⟩)
      (p.record x)
  else (p.record x).note ((steps s config x.node).map (·.neighbor))
termination_by config.maxDepth - x.distance

/-- Visits the seeds, one after the other. -/
def walk (s : Store) (ids : List NodeId) (config : Config) : Result :=
  ((seeds s ids).foldl (fun p id => visit s config p ⟨id, 0, none⟩) {}).result

/-! ## What a visit does -/

variable {p : State} {x : Visit} {v : NodeId} {d : Nat}

theorem State.settles_iff :
    p.settles v d = true ↔ ∃ y ∈ p.visits, y.node = v ∧ y.distance ≤ d := by
  simp only [settles, List.any_eq_true, Bool.and_eq_true, decide_eq_true_eq]

theorem State.knows_of_settles (h : p.settles v d = true) : p.knows v = true := by
  obtain ⟨y, hy, hv, -⟩ := settles_iff.mp h
  exact List.any_eq_true.mpr ⟨y, hy, decide_eq_true hv⟩

/-- A node is not visited again from as far. -/
theorem visit_of_settled (s : Store) (config : Config) (h : p.settles x.node x.distance = true) :
    visit s config p x = p := by
  rw [visit, if_pos (by rw [h, Bool.or_true])]

/-- A new node for which there is no room fills the walk. -/
theorem visit_of_refused (s : Store) (hopen : p.full = false) (hnew : p.knows x.node = false)
    (hused : config.maxNodes ≤ p.visits.length) :
    visit s config p x = { p with full := true } := by
  have hset : p.settles x.node x.distance = false := by
    rw [Bool.eq_false_iff]
    intro h
    rw [State.knows_of_settles h] at hnew
    cases hnew
  rw [visit, if_neg (by rw [hopen, hset]; decide), if_pos]
  rw [hnew]
  exact decide_eq_true hused

/-- Any other node is recorded, and either the steps from it are visited or the
    neighbours beyond the limit are noted. -/
theorem visit_of_room (s : Store) (hopen : p.full = false)
    (hset : p.settles x.node x.distance = false)
    (hroom : p.knows x.node = true ∨ p.visits.length < config.maxNodes) :
    visit s config p x =
      if x.distance < config.maxDepth then
        (steps s config x.node).foldl
          (fun p a => visit s config p ⟨a.neighbor, x.distance + 1, some (viaOf x.node a)⟩)
          (p.record x)
      else (p.record x).note ((steps s config x.node).map (·.neighbor)) := by
  rw [visit, if_neg (by rw [hopen, hset]; decide), if_neg]
  rw [Bool.and_eq_true, decide_eq_true_eq, Bool.not_eq_true']
  rintro ⟨hnew, hused⟩
  rcases hroom with hknown | hroom
  · rw [hnew] at hknown
    cases hknown
  · omega

/-- After a node was refused nothing is visited any more. -/
theorem foldl_visit_of_full {α : Type} (s : Store) (config : Config) (f : α → Visit)
    (l : List α) (h : p.full = true) : l.foldl (fun p a => visit s config p (f a)) p = p := by
  refine List.foldl_fixed' (fun a => ?_) l
  rw [visit, if_pos (by rw [h, Bool.true_or])]

/-! ## What stays settled -/

/-- Whatever is settled stays so when a node is recorded nearer than before. -/
theorem State.settles_record (hx : p.settles x.node x.distance = false)
    (h : p.settles v d = true) : (p.record x).settles v d = true := by
  obtain ⟨y, hy, hv, hd⟩ := settles_iff.mp h
  rw [settles_iff, record]
  by_cases hknown : p.knows x.node = true
  · simp only [if_pos hknown]
    refine ⟨_, List.mem_map_of_mem hy, ?_⟩
    by_cases hnode : y.node = x.node
    · rw [if_pos hnode]
      refine ⟨hnode.symm.trans hv, ?_⟩
      by_contra hlt
      -- a visit at most as far would have settled the node
      have hsettled : p.settles x.node x.distance = true :=
        settles_iff.mpr ⟨y, hy, hnode, by omega⟩
      rw [hx] at hsettled
      cases hsettled
    · rw [if_neg hnode]
      exact ⟨hv, hd⟩
  · simp only [if_neg hknown]
    exact ⟨y, List.mem_append_left _ hy, hv, hd⟩

/-- **A visit leaves settled what is settled.** -/
theorem settles_visit (s : Store) (config : Config) (x : Visit) (h : p.settles v d = true) :
    (visit s config p x).settles v d = true := by
  fun_induction visit s config p x with
  | case1 p x _ => exact h
  | case2 p x _ _ => exact h
  | case3 p x hgo _ _ ih =>
      rw [Bool.or_eq_true, not_or, Bool.not_eq_true, Bool.not_eq_true] at hgo
      exact List.foldlRecOn (motive := fun q => q.settles v d = true) _ _
        (State.settles_record hgo.2 h) fun q hq a _ => ih q a hq
  | case4 p x hgo _ _ =>
      rw [Bool.or_eq_true, not_or, Bool.not_eq_true, Bool.not_eq_true] at hgo
      exact State.settles_record hgo.2 h

/-- Steps to what was settled before may as well be left out. -/
theorem foldl_unsettled (s : Store) (config : Config) (p : State) (u : NodeId) (d : Nat)
    (as : List Adjacent) (q : State)
    (hkeeps : ∀ v d, p.settles v d = true → q.settles v d = true) :
    (as.filter fun a => !p.settles a.neighbor (d + 1)).foldl
        (fun q a => visit s config q ⟨a.neighbor, d + 1, some (viaOf u a)⟩) q =
      as.foldl (fun q a => visit s config q ⟨a.neighbor, d + 1, some (viaOf u a)⟩) q := by
  induction as generalizing q with
  | nil => rfl
  | cons a as ih =>
      cases hset : p.settles a.neighbor (d + 1) with
      | true =>
          have hdrop : visit s config q ⟨a.neighbor, d + 1, some (viaOf u a)⟩ = q :=
            visit_of_settled s config (hkeeps a.neighbor (d + 1) hset)
          rw [List.filter_cons_of_neg (by rw [hset]; decide), List.foldl_cons, hdrop]
          exact ih q hkeeps
      | false =>
          rw [List.filter_cons_of_pos (by rw [hset]; rfl), List.foldl_cons, List.foldl_cons]
          exact ih _ fun v d h => settles_visit s config _ (hkeeps v d h)

/-! ## Trails as lists of visits -/

/-- A trail and what was noted beyond the limit, as the recursive walk sees them. -/
def State.ofTrail (t : Trail) (beyond : List NodeId) : State := ⟨t.visits, t.stopped, beyond⟩

variable {t t' : Trail} {beyond : List NodeId} {r : Record}

theorem State.settles_ofTrail (h : t.Lawful) :
    (ofTrail t beyond).settles v d = DepthFirst.settled t v d := by
  rw [Bool.eq_iff_iff, settles_iff, DepthFirst.settled_iff]
  constructor
  · rintro ⟨y, hy, rfl, hd⟩
    exact ⟨y.distance, hd, h.exists_visit_iff.mp ⟨y, hy, rfl, rfl⟩⟩
  · rintro ⟨d', hd, hv⟩
    obtain ⟨y, hy, rfl, rfl⟩ := h.exists_visit_iff.mpr hv
    exact ⟨y, hy, rfl, hd⟩

theorem State.knows_ofTrail (h : t.Lawful) : (ofTrail t beyond).knows v = t.knows v := by
  rw [Bool.eq_iff_iff, Trail.knows_iff, Trail.mem_records_iff, knows, List.any_eq_true]
  constructor
  · rintro ⟨y, hy, hv⟩
    exact ⟨y.distance, h.exists_visit_iff.mp ⟨y, hy, of_decide_eq_true hv, rfl⟩⟩
  · rintro ⟨d, hv⟩
    obtain ⟨y, hy, rfl, rfl⟩ := h.exists_visit_iff.mpr hv
    exact ⟨y, hy, decide_eq_true rfl⟩

/-- Recording is the same on the trail and on the visits. -/
theorem State.ofTrail_of_recorded (hlaw : t.Lawful) (hgo : t.stopped = t'.stopped)
    (hrec : t'.records = t.records.insert v r)
    (horder : v ∈ t.records ∧ t'.order = t.order ∨
      v ∉ t.records ∧ t'.order = t.order.push v) :
    ofTrail t' beyond = (ofTrail t beyond).record ⟨v, r.distance, r.via⟩ := by
  rw [record, knows_ofTrail hlaw, ofTrail, ofTrail, hgo]
  rcases horder with ⟨hmem, horder⟩ | ⟨hnew, horder⟩
  · rw [if_pos (Trail.knows_iff.mpr hmem), Trail.visits_of_replaced hmem hrec horder]
  · rw [if_neg (fun hk => hnew (Trail.knows_iff.mp hk)), hlaw.visits_of_new hnew hrec horder]

/-- What is noted is the same, too. -/
theorem State.note_ofTrail (hlaw : t.Lawful) (ids : List NodeId) :
    (ofTrail t beyond).note ids =
      ofTrail t (beyond ++ ids.filter fun id => !t.knows id) := by
  simp only [note, knows_ofTrail hlaw]
  rfl

end Preorder

/-! ## Emptying the stack -/

namespace DepthFirst

/-- The visit that an entry asks for. -/
def Entry.visit (e : Entry) : Visit := ⟨e.node, e.record.distance, e.record.via⟩

/-- A state as the recursive walk sees it, its stack left aside. -/
def State.reading (st : State) : Preorder.State := .ofTrail st.trail st.beyond

theorem full_reading {st : State} (hgo : st.trail.truncated = none) :
    st.reading.full = false := by
  rw [State.reading, Preorder.State.ofTrail, Trail.stopped, hgo]
  rfl

/-- Visits the nodes of some entries, one after the other. -/
def visitAll (s : Store) (config : Config) (p : Preorder.State) (es : List Entry) :
    Preorder.State :=
  es.foldl (fun p e => Preorder.visit s config p e.visit) p

/-- Visiting what a node pushes is visiting all its steps. -/
theorem visitAll_pushes {t : Trail} (hlaw : t.Lawful) (beyond : List NodeId) (u : NodeId)
    (d : Nat) (as : List Adjacent) :
    visitAll s config (.ofTrail t beyond) (pushes t u d as) =
      as.foldl (fun p a => Preorder.visit s config p ⟨a.neighbor, d + 1, some (viaOf u a)⟩)
        (.ofTrail t beyond) := by
  rw [← Preorder.foldl_unsettled s config (.ofTrail t beyond) u d as _ fun _ _ h => h,
    visitAll, pushes, List.foldl_map]
  simp only [Preorder.State.settles_ofTrail hlaw]
  rfl

/-- An entry that is settled is passed over. -/
theorem visitAll_of_settled {st : State} (hlaw : st.trail.Lawful) {e : Entry}
    (hset : settled st.trail e.node e.record.distance = true) (rest : List Entry) :
    visitAll s config st.reading (e :: rest) = visitAll s config st.reading rest := by
  have hdrop : Preorder.visit s config st.reading e.visit = st.reading :=
    Preorder.visit_of_settled s config ((Preorder.State.settles_ofTrail hlaw).trans hset)
  rw [visitAll, List.foldl_cons, hdrop]
  rfl

/-- An entry that is recorded is visited by expanding its node. -/
theorem visitAll_of_recorded {st : State} (hlaw : st.trail.Lawful)
    (hgo : st.trail.truncated = none) {e : Entry} {rest : List Entry} {t : Trail}
    (hset : settled st.trail e.node e.record.distance = false) (ht : t.Lawful)
    (hgo' : t.truncated = none)
    (hrec : t.records = st.trail.records.insert e.node e.record)
    (horder : e.node ∈ st.trail.records ∧ t.order = st.trail.order ∨
      e.node ∉ st.trail.records ∧ st.trail.order.size < config.maxNodes ∧
        t.order = st.trail.order.push e.node) :
    visitAll s config st.reading (e :: rest) =
      visitAll s config (expand s config e rest t st.beyond).reading
        (expand s config e rest t st.beyond).stack := by
  -- the trail had room for the node, and so has the list of visits
  have hroom : st.reading.knows e.node = true ∨
      st.reading.visits.length < config.maxNodes := by
    rw [State.reading, Preorder.State.knows_ofTrail hlaw, Trail.knows_iff]
    refine horder.imp And.left fun h => ?_
    exact hlaw.length_visits.symm ▸ h.2.1
  have hrecord : st.reading.record e.visit = .ofTrail t st.beyond := by
    refine (Preorder.State.ofTrail_of_recorded hlaw ?_ hrec ?_).symm
    · rw [Trail.stopped, Trail.stopped, hgo, hgo']
    · exact horder.imp id fun h => ⟨h.1, h.2.2⟩
  have hvisit := Preorder.visit_of_room (x := e.visit) s (full_reading hgo)
    ((Preorder.State.settles_ofTrail hlaw).trans hset) hroom
  rw [hrecord] at hvisit
  rw [visitAll, List.foldl_cons, hvisit, Entry.visit]
  by_cases hdepth : e.record.distance < config.maxDepth
  · rw [if_pos hdepth, expand, if_neg (Nat.not_le.mpr hdepth), visitAll, List.foldl_append]
    exact congrArg (visitAll s config · rest)
      (visitAll_pushes ht st.beyond e.node e.record.distance _).symm
  · rw [if_neg hdepth, expand, if_pos (Nat.le_of_not_lt hdepth),
      Preorder.State.note_ofTrail ht]
    rfl

/-- An entry whose node is refused is the last that is visited. -/
theorem visitAll_of_refused {st : State} (hlaw : st.trail.Lawful)
    (hgo : st.trail.truncated = none) {e : Entry} (rest : List Entry)
    (hnew : e.node ∉ st.trail.records) (hused : config.maxNodes ≤ st.trail.order.size) :
    visitAll s config st.reading (e :: rest) = { st.reading with full := true } := by
  have hunknown : st.reading.knows e.node = false := by
    rw [State.reading, Preorder.State.knows_ofTrail hlaw, Bool.eq_false_iff]
    exact fun hk => hnew (Trail.knows_iff.mp hk)
  have hlength : config.maxNodes ≤ st.reading.visits.length :=
    hlaw.length_visits.symm ▸ hused
  rw [visitAll, List.foldl_cons,
    Preorder.visit_of_refused (x := e.visit) s (full_reading hgo) hunknown hlength]
  exact Preorder.foldl_visit_of_full s config Entry.visit rest rfl

/-- If nothing from outside stops the walk, a turn finds the stack empty, drops an entry
    that is settled, is refused a new node, or records the entry and expands its node. -/
theorem turn_cases_of_never (s : Store) (hwatch : config.watch = .never) (st : State) :
    (st.stack = [] ∧ turn s config st = .halt st) ∨
      ∃ e rest, st.stack = e :: rest ∧
        ((settled st.trail e.node e.record.distance = true ∧
            turn s config st = .more { st with stack := rest }) ∨
          ∃ t, t = st.trail.record config e.node e.record ∧
            ((e.node ∉ st.trail.records ∧ config.maxNodes ≤ st.trail.order.size ∧
                t.stopped = true ∧ t.visits = st.trail.visits ∧
                turn s config st = .halt { st with stack := rest, trail := t }) ∨
              (settled st.trail e.node e.record.distance = false ∧ t.truncated = none ∧
                t.records = st.trail.records.insert e.node e.record ∧
                (e.node ∈ st.trail.records ∧ t.order = st.trail.order ∨
                  e.node ∉ st.trail.records ∧ st.trail.order.size < config.maxNodes ∧
                    t.order = st.trail.order.push e.node) ∧
                turn s config st = .more (expand s config e rest t st.beyond)))) := by
  refine (turn_cases s config st).imp id ?_
  rintro ⟨e, rest, hstack, hset | ⟨t, rfl, ⟨hstop, -, -, hturn⟩ | ⟨hset, hins, hturn⟩⟩⟩
  · exact ⟨e, rest, hstack, Or.inl hset⟩
  · refine ⟨e, rest, hstack, Or.inr ⟨_, rfl, Or.inl ?_⟩⟩
    rcases st.trail.record_cases_of_never hwatch e.node e.record with
      ⟨-, horder, hrec, hnew, hused⟩ | ⟨hnone, -⟩
    · refine ⟨hnew, hused, hstop, ?_, hturn⟩
      rw [Trail.visits, Trail.visits, horder, hrec]
    · rw [Trail.stopped, hnone] at hstop
      cases hstop
  · refine ⟨e, rest, hstack, Or.inr ⟨_, rfl, Or.inr ?_⟩⟩
    rcases st.trail.record_cases_of_never hwatch e.node e.record with
      ⟨-, -, hrec, hnew, -⟩ | ⟨hnone, -, horder⟩
    · -- a node that is refused is not recorded
      rw [hins] at hrec
      exact absurd (hrec ▸ ExtTreeMap.mem_insert_self) hnew
    · exact ⟨hset, hnone, hins, horder, hturn⟩

/-- **Emptying the stack visits its entries one after the other.** -/
theorem reading_run (s : Store) (hwatch : config.watch = .never) (st : State)
    (hlaw : st.trail.Lawful) (hgo : st.trail.truncated = none) :
    (run s config st).reading = visitAll s config st.reading st.stack := by
  fun_induction run s config st with
  | case1 st last hturn =>
      rcases turn_cases_of_never s hwatch st with
        ⟨hstack, heq⟩ | ⟨e, rest, hstack, ⟨-, heq⟩ |
          ⟨t, -, ⟨hnew, hused, hstop, hvisits, heq⟩ | ⟨-, -, -, -, heq⟩⟩⟩ <;>
        cases heq.symm.trans hturn
      · rw [hstack]
        rfl
      · -- nothing below the refused entry on the stack is visited
        rw [hstack, visitAll_of_refused hlaw hgo rest hnew hused]
        simp only [State.reading, Preorder.State.ofTrail, hvisits, hstop]
  | case2 st next hturn ih =>
      rcases turn_cases_of_never s hwatch st with
        ⟨-, heq⟩ | ⟨e, rest, hstack, ⟨hset, heq⟩ |
          ⟨t, ht, ⟨-, -, -, -, heq⟩ | ⟨hset, hnone, hrec, horder, heq⟩⟩⟩ <;>
        cases heq.symm.trans hturn
      · rw [ih hlaw hgo, hstack]
        exact (visitAll_of_settled hlaw hset rest).symm
      · have hlaw' : t.Lawful := ht ▸ hlaw.record config e.node e.record
        rw [hstack, visitAll_of_recorded hlaw hgo hset hlaw' hnone hrec horder]
        rw [trail_expand] at ih
        exact ih hlaw' hnone

/-- What is reported is the same. -/
theorem result_reading {st : State} (hlaw : st.trail.Lawful)
    (hend : st.trail.truncated = none ∨ st.trail.truncated = some .nodeBudget) :
    st.reading.result = st.result := by
  have htruncated : (if st.reading.full then some .nodeBudget else none) =
      st.trail.truncated := by
    rw [State.reading, Preorder.State.ofTrail, Trail.stopped]
    rcases hend with hend | hend <;> rw [hend] <;> rfl
  rw [Preorder.State.result, htruncated]
  simp only [State.reading, Preorder.State.knows_ofTrail hlaw]
  rfl

/-- The walk with a stack and the recursive walk give the same result. -/
theorem eq_walk (hs : s.Sound) (hwatch : config.watch = .never) (ids : List NodeId) :
    depthFirst s ids config = Preorder.walk s ids config := by
  have hend := (spent_run hs hwatch ids).refused.imp id And.left
  have hrun := reading_run s hwatch (start s ids) Trail.lawful_empty rfl
  rw [depthFirst, ← result_reading (grounded_run hs config ids).lawful hend,
    Preorder.walk, depthFirstState]
  refine congrArg Preorder.State.result (hrun.trans ?_)
  rw [visitAll, start, List.foldl_map]
  rfl

end DepthFirst

/-! ## The result -/

/-- The seeds and the steps that a walk takes one after the other are those of the store, in
    their order. -/
structure InOrder (s : Store) (config : Config) (ids : List NodeId) : Prop where
  seeds : (seeds s ids).Pairwise fun u v => compare u v = .lt
  mem_seeds : ∀ v, v ∈ Walk.seeds s ids ↔ v ∈ ids ∧ v ∈ s.nodes
  steps : ∀ u, (steps s config u).Pairwise fun a b =>
    ((compare a.neighbor b.neighbor).then (compare a.edgeIndex b.edgeIndex)).isLE
  mem_steps : ∀ u a, a ∈ Walk.steps s config u ↔ (viaOf u a).LeadsTo s config a.neighbor

/-- **Depth first is the recursive walk in pre-order.**  If nothing from outside stops it, the
    walk with a stack reports what the recursion reports: the same visits in the same order,
    at the same distances and through the same edges, the same end and the same word on what
    lies beyond the limit.  Seeds and edges are taken in ascending order. -/
theorem depthFirst_eq_preorder (hs : s.Reachable) (hwatch : config.watch = .never)
    (ids : List NodeId) :
    depthFirst s ids config = Preorder.walk s ids config ∧ InOrder s config ids :=
  ⟨DepthFirst.eq_walk hs.sound hwatch ids,
    seeds_ascend s ids, fun _ => mem_seeds, steps_ascend s config,
    fun _ _ => mem_steps hs.sound⟩

/-- The recursion comes to `d` by the long way first, repairs its distance and expands it
    again, and is refused the sixth node. -/
theorem preorder_of_detour :
    let config : Config := { maxDepth := 3, maxNodes := 5 }
    (depthFirst detour [⟨"a"⟩] config = Preorder.walk detour [⟨"a"⟩] config ∧
        InOrder detour config [⟨"a"⟩]) ∧
      (Preorder.walk detour [⟨"a"⟩] config).truncated = some .nodeBudget ∧
      (Preorder.walk detour [⟨"a"⟩] config).visits.map
          (fun x => (x.node.text, x.distance, x.via.map (·.edgeIndex))) =
        [("a", 0, none), ("b", 1, some 0), ("c", 2, some 1), ("d", 1, some 3),
          ("e", 2, some 5)] := by
  intro config
  have h : depthFirst detour [⟨"a"⟩] config = Preorder.walk detour [⟨"a"⟩] config ∧
      InOrder detour config [⟨"a"⟩] := depthFirst_eq_preorder reachable_detour rfl [⟨"a"⟩]
  have hfound : ((depthFirst detour [⟨"a"⟩] config).truncated,
      (depthFirst detour [⟨"a"⟩] config).visits.map
        fun x => (x.node.text, x.distance, x.via.map (·.edgeIndex))) =
      (some .nodeBudget, [("a", 0, none), ("b", 1, some 0), ("c", 2, some 1),
        ("d", 1, some 3), ("e", 2, some 5)]) :=
    DepthFirst.read_of_stateWithin (fun r => (r.truncated, r.visits.map
      fun x => (x.node.text, x.distance, x.via.map (·.edgeIndex)))) 20 (by cbv)
  rw [h.1] at hfound
  exact ⟨h, Prod.mk.inj hfound⟩

end CodeGraph.Walk

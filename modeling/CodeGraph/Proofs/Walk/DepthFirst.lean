import CodeGraph.Proofs.Walk.Distance
import CodeGraph.Walk.DepthFirst
/-! # Depth first — distances are repaired before the walk ends

    The walk may come upon a node by a long way first.  Its record is then too
    large, and what was pushed from it as well.  That the result is exact all
    the same rests on two invariants:

    * `Grounded`: whatever is recorded, waiting or noted beyond the limit has a
      route of the length given.  It holds however the walk ends.
    * `Accounted`: a distance that an edge allows is recorded, or an entry on
      the stack will bring it.  Once the stack is empty nothing is owed, and
      the trail covers. -/

namespace CodeGraph.Walk.DepthFirst

open Std

variable {s : Store} {config : Config} {ids : List NodeId}

/-- A node is settled if its recorded distance is as small. -/
theorem settled_iff {t : Trail} {v : NodeId} {d : Nat} :
    settled t v d = true ↔ ∃ d' ≤ d, t.distance? v = some d' := by
  rw [settled, Option.any_eq_true]
  constructor
  · rintro ⟨d', hv, hd⟩
    exact ⟨d', of_decide_eq_true hd, hv⟩
  · rintro ⟨d', hd, hv⟩
    exact ⟨d', hv, decide_eq_true hd⟩

/-! ## What one turn does -/

/-- A turn finds the stack empty, drops an entry that is settled, is stopped
    while it records one, or records it and expands its node. -/
theorem turn_cases (s : Store) (config : Config) (st : State) :
    (st.stack = [] ∧ turn s config st = .halt st) ∨
      ∃ e rest, st.stack = e :: rest ∧
        ((settled st.trail e.node e.record.distance = true ∧
            turn s config st = .more { st with stack := rest }) ∨
          ∃ t, t = st.trail.record config e.node e.record ∧
            ((t.stopped = true ∧ t.order = st.trail.order ∧ t.records = st.trail.records ∧
                turn s config st = .halt { st with stack := rest, trail := t }) ∨
              (settled st.trail e.node e.record.distance = false ∧
                t.records = st.trail.records.insert e.node e.record ∧
                turn s config st = .more (expand s config e rest t st.beyond)))) := by
  unfold turn
  split
  · rename_i hstack
    exact Or.inl ⟨hstack, rfl⟩
  · rename_i e rest hstack
    refine Or.inr ⟨e, rest, hstack, ?_⟩
    by_cases hset : settled st.trail e.node e.record.distance = true
    · exact Or.inl ⟨hset, by rw [if_pos hset]⟩
    · refine Or.inr ⟨_, rfl, ?_⟩
      rw [if_neg hset]
      rcases st.trail.record_cases config e.node e.record with
        ⟨hstop, horder, hrec⟩ | ⟨hgo, hrec, -⟩
      · exact Or.inl ⟨hstop, horder, hrec, if_pos hstop⟩
      · refine Or.inr ⟨Bool.eq_false_iff.mpr hset, hrec, ?_⟩
        exact if_neg (fun h => Bool.noConfusion (hgo.symm.trans h))

/-- A turn that ends a walk without a stop found the stack empty. -/
theorem halt_of_not_truncated {st st' : State} (hhalt : turn s config st = .halt st')
    (hdone : st'.trail.truncated = none) : st' = st ∧ st.stack = [] := by
  rcases turn_cases s config st with
    ⟨hstack, hturn⟩ |
      ⟨e, rest, -, ⟨-, hturn⟩ | ⟨t, -, ⟨hstop, -, -, hturn⟩ | ⟨-, -, hturn⟩⟩⟩
  · exact ⟨(Turn.halt.inj (hturn.symm.trans hhalt)).symm, hstack⟩
  · cases hturn.symm.trans hhalt
  · cases hturn.symm.trans hhalt
    rw [Trail.stopped, hdone] at hstop
    cases hstop
  · cases hturn.symm.trans hhalt

/-- A run takes turns until one halts: what every turn keeps holds of the state
    in which the last turn was taken. -/
theorem run_induction {P : State → Prop}
    (hmore : ∀ st st', P st → turn s config st = .more st' → P st') (st : State)
    (h : P st) : ∃ last, P last ∧ turn s config last = .halt (run s config st) := by
  fun_induction run s config st with
  | case1 st st' hturn => exact ⟨st, h, hturn⟩
  | case2 st st' hturn ih => exact ih (hmore st st' h hturn)

theorem run_of_halt {st st' : State} (h : turn s config st = .halt st') :
    run s config st = st' := by
  rw [run]
  split <;> simp_all

theorem run_of_more {st st' : State} (h : turn s config st = .more st') :
    run s config st = run s config st' := by
  rw [run]
  split <;> simp_all

/-- The state in which a walk begins. -/
def start (s : Store) (ids : List NodeId) : State where
  stack := (seeds s ids).map fun id => ⟨id, ⟨0, none⟩⟩

/-- The state in which a walk halts, if it does so within so many turns. -/
def stateWithin (n : Nat) (s : Store) (ids : List NodeId) (config : Config) : Option State :=
  haltsWithin (turn s config) n (start s ids)

theorem depthFirstState_of_stateWithin {n : Nat} {st : State}
    (h : stateWithin n s ids config = some st) : depthFirstState s ids config = st :=
  eq_of_haltsWithin (run s config) (fun _ _ => run_of_halt) (fun _ _ => run_of_more) h

/-- What a walk reports is read off the state in which it halts. -/
theorem read_of_stateWithin {β : Type} (f : Result → β) (n : Nat) {b : β}
    (h : (stateWithin n s ids config).map (fun st => f st.result) = some b) :
    f (depthFirst s ids config) = b := by
  obtain ⟨st, hst, hb⟩ := Option.map_eq_some_iff.mp h
  rw [depthFirst, depthFirstState_of_stateWithin hst, hb]

/-! ## Every distance has a route -/

/-- Whatever a state speaks of has a route. -/
structure Grounded (s : Store) (config : Config) (ids : List NodeId) (st : State) :
    Prop where
  lawful : st.trail.Lawful
  route : ∀ v d, st.trail.distance? v = some d →
    Route s config ids v d ∧ d ≤ config.maxDepth
  entry : ∀ e ∈ st.stack, Route s config ids e.node e.record.distance ∧
    e.record.distance ≤ config.maxDepth
  beyond : ∀ v ∈ st.beyond, ∃ n, Route s config ids v n

theorem grounded_start (s : Store) (config : Config) (ids : List NodeId) :
    Grounded s config ids (start s ids) where
  lawful := Trail.lawful_empty
  route := by
    intro v d h
    simp [start, Trail.distance?] at h
  entry := by
    intro e he
    obtain ⟨v, hv, rfl⟩ := List.mem_map.mp he
    obtain ⟨hid, hnode⟩ := mem_seeds.mp hv
    exact ⟨Route.seed hid hnode, Nat.zero_le _⟩
  beyond := by
    intro v hv
    cases hv

/-- What is pushed leads on from the node that is expanded. -/
theorem mem_pushes {t : Trail} {u : NodeId} {d : Nat} {as : List Adjacent} {e : Entry} :
    e ∈ pushes t u d as ↔ ∃ a ∈ as, settled t a.neighbor (d + 1) = false ∧
      e = ⟨a.neighbor, ⟨d + 1, some (viaOf u a)⟩⟩ := by
  rw [pushes, List.mem_map]
  constructor
  · rintro ⟨a, ha, rfl⟩
    obtain ⟨ha, hset⟩ := List.mem_filter.mp ha
    exact ⟨a, ha, by simpa using hset, rfl⟩
  · rintro ⟨a, ha, hset, rfl⟩
    exact ⟨a, List.mem_filter.mpr ⟨ha, by simp [hset]⟩, rfl⟩

/-- Expanding a node that has a route keeps a state grounded. -/
theorem grounded_expand (hs : s.Sound) {e : Entry} {rest : List Entry} {t : Trail}
    {beyond : List NodeId} (h : Grounded s config ids ⟨rest, t, beyond⟩)
    (hroute : Route s config ids e.node e.record.distance) :
    Grounded s config ids (expand s config e rest t beyond) := by
  have hstep : ∀ a ∈ steps s config e.node,
      Route s config ids a.neighbor (e.record.distance + 1) := by
    intro a ha
    exact hroute.step ((exists_step_iff hs).mp ⟨a, ha, rfl⟩)
  unfold expand
  split
  · refine ⟨h.lawful, h.route, h.entry, ?_⟩
    intro v hv
    rcases List.mem_append.mp hv with hv | hv
    · exact h.beyond v hv
    · obtain ⟨a, ha, rfl⟩ := List.mem_map.mp (List.mem_filter.mp hv).1
      exact ⟨_, hstep a ha⟩
  · rename_i hdepth
    refine ⟨h.lawful, h.route, ?_, h.beyond⟩
    intro e' he'
    rcases List.mem_append.mp he' with he' | he'
    · obtain ⟨a, ha, -, rfl⟩ := mem_pushes.mp he'
      exact ⟨hstep a ha, Nat.lt_of_not_le hdepth⟩
    · exact h.entry e' he'

theorem Grounded.more (hs : s.Sound) {st st' : State} (h : Grounded s config ids st)
    (hmore : turn s config st = .more st') : Grounded s config ids st' := by
  rcases turn_cases s config st with
    ⟨-, hturn⟩ | ⟨e, rest, hstack, ⟨-, hturn⟩ | ⟨t, ht, ⟨-, -, -, hturn⟩ | ⟨-, hrec, hturn⟩⟩⟩
  · cases hturn.symm.trans hmore
  · cases hturn.symm.trans hmore
    refine ⟨h.lawful, h.route, ?_, h.beyond⟩
    intro e' he'
    exact h.entry e' (hstack ▸ List.mem_cons_of_mem e he')
  · cases hturn.symm.trans hmore
  · cases hturn.symm.trans hmore
    obtain ⟨hroute, hle⟩ := h.entry e (hstack ▸ List.mem_cons_self)
    refine grounded_expand hs ⟨ht ▸ h.lawful.record config _ _, ?_, ?_, h.beyond⟩ hroute
    · intro v d hd
      rw [Trail.distance?_of_insert hrec] at hd
      split at hd
      · rename_i hv
        cases hd
        exact hv ▸ ⟨hroute, hle⟩
      · exact h.route v d hd
    · intro e' he'
      exact h.entry e' (hstack ▸ List.mem_cons_of_mem e he')

/-- A turn that halts leaves every record as it is. -/
theorem records_of_halt {st st' : State} (hhalt : turn s config st = .halt st') :
    st'.trail.records = st.trail.records := by
  rcases turn_cases s config st with
    ⟨-, hturn⟩ | ⟨e, rest, -, ⟨-, hturn⟩ | ⟨t, -, ⟨-, -, hrec, hturn⟩ | ⟨-, -, hturn⟩⟩⟩
  · cases hturn.symm.trans hhalt
    rfl
  · cases hturn.symm.trans hhalt
  · cases hturn.symm.trans hhalt
    exact hrec
  · cases hturn.symm.trans hhalt

theorem distance?_of_halt {st st' : State} (hhalt : turn s config st = .halt st')
    (v : NodeId) : st'.trail.distance? v = st.trail.distance? v := by
  rw [Trail.distance?, Trail.distance?, records_of_halt hhalt]

/-- A turn that halts changes neither order nor records. -/
theorem Grounded.halt {st st' : State} (h : Grounded s config ids st)
    (hhalt : turn s config st = .halt st') : Grounded s config ids st' := by
  rcases turn_cases s config st with
    ⟨-, hturn⟩ | ⟨e, rest, hstack, ⟨-, hturn⟩ | ⟨t, ht, ⟨-, -, -, hturn⟩ | ⟨-, -, hturn⟩⟩⟩
  · cases hturn.symm.trans hhalt
    exact h
  · cases hturn.symm.trans hhalt
  · cases hturn.symm.trans hhalt
    refine ⟨ht ▸ h.lawful.record config _ _, ?_, ?_, h.beyond⟩
    · intro v d hd
      exact h.route v d ((distance?_of_halt hhalt v).symm.trans hd)
    · intro e' he'
      exact h.entry e' (hstack ▸ List.mem_cons_of_mem e he')
  · cases hturn.symm.trans hhalt

/-- **Every distance that a walk reports is the length of a route,** also when the
    walk was stopped. -/
theorem grounded_run (hs : s.Sound) (config : Config) (ids : List NodeId) :
    Grounded s config ids (depthFirstState s ids config) := by
  obtain ⟨last, hlast, hhalt⟩ := run_induction (fun _ _ h hmore => h.more hs hmore)
    (start s ids) (grounded_start s config ids)
  exact hlast.halt hhalt

/-- Every visit that a walk reports has a route within the limit. -/
theorem route_of_visit (hs : s.Sound) {x : Visit}
    (hx : x ∈ (depthFirst s ids config).visits) :
    Route s config ids x.node x.distance ∧ x.distance ≤ config.maxDepth := by
  have h := grounded_run hs config ids
  exact h.route x.node x.distance (h.lawful.exists_visit_iff.mp ⟨x, hx, rfl, rfl⟩)

/-- The nodes that a walk reports are those of its trail. -/
theorem nodes_depthFirst (hs : s.Sound) (config : Config) (ids : List NodeId) :
    (depthFirst s ids config).nodes = (depthFirstState s ids config).trail.order.toList :=
  (grounded_run hs config ids).lawful.map_node_visits

/-- Every node is visited once, also when the walk was stopped. -/
theorem nodup_nodes (hs : s.Sound) (config : Config) (ids : List NodeId) :
    (depthFirst s ids config).nodes.Nodup := by
  rw [nodes_depthFirst hs]
  exact (grounded_run hs config ids).lawful.nodup

/-! ## Every distance that is owed is on the stack -/

/-- A node is recorded at a distance or nearer, or an entry will bring that. -/
def Due (st : State) (v : NodeId) (d : Nat) : Prop :=
  (∃ d' ≤ d, st.trail.distance? v = some d') ∨
    ∃ e ∈ st.stack, e.node = v ∧ e.record.distance ≤ d

/-- Whatever the recorded distances imply is due, and what lies beyond the limit is
    noted. -/
structure Accounted (s : Store) (config : Config) (ids : List NodeId) (st : State) :
    Prop where
  seed : ∀ v ∈ ids, v ∈ s.nodes → Due st v 0
  closed : ∀ u v d, st.trail.distance? u = some d → d < config.maxDepth →
    s.Joined config.relationships config.direction u v → Due st v (d + 1)
  limit : ∀ u v d, st.trail.distance? u = some d → config.maxDepth ≤ d →
    s.Joined config.relationships config.direction u v → v ∉ st.trail.records →
      v ∈ st.beyond

theorem accounted_start (s : Store) (config : Config) (ids : List NodeId) :
    Accounted s config ids (start s ids) where
  seed := by
    intro v hid hnode
    exact Or.inr ⟨⟨v, ⟨0, none⟩⟩, List.mem_map.mpr ⟨v, mem_seeds.mpr ⟨hid, hnode⟩, rfl⟩,
      rfl, Nat.le_refl 0⟩
  closed := by
    intro u v d h
    simp [start, Trail.distance?] at h
  limit := by
    intro u v d h
    simp [start, Trail.distance?] at h

/-- Dropping a settled entry loses nothing that is due. -/
theorem due_of_settled {st : State} {e : Entry} {rest : List Entry}
    (hstack : st.stack = e :: rest)
    (hset : settled st.trail e.node e.record.distance = true) {v : NodeId} {d : Nat}
    (h : Due st v d) : Due { st with stack := rest } v d := by
  rcases h with h | ⟨e', he', rfl, hd⟩
  · exact Or.inl h
  · rw [hstack] at he'
    rcases List.mem_cons.mp he' with rfl | he'
    · -- what the entry would bring is recorded already
      obtain ⟨d', hd', hv⟩ := settled_iff.mp hset
      exact Or.inl ⟨d', Nat.le_trans hd' hd, hv⟩
    · exact Or.inr ⟨e', he', rfl, hd⟩

/-- What stays on the stack when a node is expanded. -/
theorem mem_stack_expand {e e' : Entry} {rest : List Entry} {t : Trail}
    {beyond : List NodeId} (h : e' ∈ rest) :
    e' ∈ (expand s config e rest t beyond).stack := by
  unfold expand
  split
  · exact h
  · exact List.mem_append_right _ h

/-- Recording an entry that is not settled loses nothing that is due. -/
theorem due_of_recorded {st : State} {e : Entry} {rest : List Entry} {t : Trail}
    (hstack : st.stack = e :: rest)
    (hset : settled st.trail e.node e.record.distance = false)
    (hrec : t.records = st.trail.records.insert e.node e.record) {v : NodeId} {d : Nat}
    (h : Due st v d) : Due (expand s config e rest t st.beyond) v d := by
  have hnew : (expand s config e rest t st.beyond).trail.distance? v =
      if e.node = v then some e.record.distance else st.trail.distance? v := by
    rw [trail_expand]
    exact Trail.distance?_of_insert hrec v
  rcases h with ⟨d', hd', hold⟩ | ⟨e', he', rfl, hd⟩
  · refine Or.inl ?_
    by_cases hv : e.node = v
    · -- the entry is not settled, so the old distance was larger
      have hlt : ¬ d' ≤ e.record.distance := by
        intro hle
        have hsettled := settled_iff.mpr ⟨d', hle, hv ▸ hold⟩
        exact Bool.noConfusion (hset.symm.trans hsettled)
      exact ⟨e.record.distance, by omega, by rw [hnew, if_pos hv]⟩
    · exact ⟨d', hd', by rw [hnew, if_neg hv, hold]⟩
  · rw [hstack] at he'
    rcases List.mem_cons.mp he' with rfl | he'
    · exact Or.inl ⟨e'.record.distance, hd, by rw [hnew, if_pos rfl]⟩
    · exact Or.inr ⟨e', mem_stack_expand he', rfl, hd⟩

/-- What is due from a node once it is expanded. -/
theorem due_of_expanded (hs : s.Sound) {e : Entry} {rest : List Entry} {t : Trail}
    {beyond : List NodeId} (hdepth : e.record.distance < config.maxDepth) {v : NodeId}
    (hj : s.Joined config.relationships config.direction e.node v) :
    Due (expand s config e rest t beyond) v (e.record.distance + 1) := by
  obtain ⟨a, ha, rfl⟩ := (exists_step_iff hs).mpr hj
  rw [expand, if_neg (Nat.not_le.mpr hdepth)]
  cases hset : settled t a.neighbor (e.record.distance + 1) with
  | true => exact Or.inl (settled_iff.mp hset)
  | false =>
      have hpush : ⟨a.neighbor, ⟨e.record.distance + 1, some (viaOf e.node a)⟩⟩ ∈
          pushes t e.node e.record.distance (steps s config e.node) :=
        mem_pushes.mpr ⟨a, ha, hset, rfl⟩
      exact Or.inr ⟨_, List.mem_append_left rest hpush, rfl, Nat.le_refl _⟩

/-- What is noted once a node at the limit is expanded. -/
theorem mem_beyond_of_expanded (hs : s.Sound) {e : Entry} {rest : List Entry} {t : Trail}
    {beyond : List NodeId} (hdepth : config.maxDepth ≤ e.record.distance) {v : NodeId}
    (hj : s.Joined config.relationships config.direction e.node v) (hv : v ∉ t.records) :
    v ∈ (expand s config e rest t beyond).beyond := by
  obtain ⟨a, ha, rfl⟩ := (exists_step_iff hs).mpr hj
  rw [expand, if_pos hdepth]
  refine List.mem_append_right beyond (List.mem_filter.mpr ⟨List.mem_map_of_mem ha, ?_⟩)
  rw [Bool.not_eq_true', Bool.eq_false_iff]
  exact fun hk => hv (Trail.knows_iff.mp hk)

theorem beyond_subset_expand {e : Entry} {rest : List Entry} {t : Trail}
    {beyond : List NodeId} {v : NodeId} (h : v ∈ beyond) :
    v ∈ (expand s config e rest t beyond).beyond := by
  rw [expand]
  split
  · exact List.mem_append_left _ h
  · exact h

theorem Accounted.more (hs : s.Sound) {st st' : State} (h : Accounted s config ids st)
    (hmore : turn s config st = .more st') : Accounted s config ids st' := by
  rcases turn_cases s config st with
    ⟨-, hturn⟩ |
      ⟨e, rest, hstack, ⟨hset, hturn⟩ | ⟨t, -, ⟨-, -, -, hturn⟩ | ⟨hset, hrec, hturn⟩⟩⟩
  · cases hturn.symm.trans hmore
  · cases hturn.symm.trans hmore
    refine ⟨?_, ?_, h.limit⟩
    · intro v hid hnode
      exact due_of_settled hstack hset (h.seed v hid hnode)
    · intro u v d hu hd hj
      exact due_of_settled hstack hset (h.closed u v d hu hd hj)
  · cases hturn.symm.trans hmore
  · cases hturn.symm.trans hmore
    refine ⟨?_, ?_, ?_⟩
    · intro v hid hnode
      exact due_of_recorded hstack hset hrec (h.seed v hid hnode)
    · -- a new distance is paid for by the pushed entries, an old one as before
      intro u v d hu hd hj
      rw [trail_expand, Trail.distance?_of_insert hrec] at hu
      split at hu
      · rename_i he
        cases hu
        subst he
        exact due_of_expanded hs hd hj
      · exact due_of_recorded hstack hset hrec (h.closed u v d hu hd hj)
    · intro u v d hu hd hj hv
      rw [trail_expand] at hu hv
      rw [Trail.distance?_of_insert hrec] at hu
      split at hu
      · rename_i he
        cases hu
        subst he
        exact mem_beyond_of_expanded hs hd hj hv
      · refine beyond_subset_expand (h.limit u v d hu hd hj fun hk => hv ?_)
        rw [hrec]
        exact ExtTreeMap.mem_insert.mpr (Or.inr hk)

/-! ## The result -/

/-- A walk that was not stopped has emptied its stack. -/
theorem accounted_run (hs : s.Sound) (config : Config) (ids : List NodeId)
    (hdone : (depthFirst s ids config).truncated = none) :
    (depthFirstState s ids config).stack = [] ∧
      Accounted s config ids (depthFirstState s ids config) := by
  obtain ⟨last, hlast, hhalt⟩ := run_induction (fun _ _ h hmore => h.more hs hmore)
    (start s ids) (accounted_start s config ids)
  obtain ⟨hend, hstack⟩ := halt_of_not_truncated hhalt hdone
  rw [depthFirstState]
  exact hend ▸ ⟨hstack, hlast⟩

/-- The trail of a walk that was not stopped. -/
theorem covers_run (hs : s.Sound) (config : Config) (ids : List NodeId)
    (hdone : (depthFirst s ids config).truncated = none) :
    (depthFirstState s ids config).trail.Covers s config ids := by
  obtain ⟨hstack, hacc⟩ := accounted_run hs config ids hdone
  have hdue : ∀ v d, Due (depthFirstState s ids config) v d →
      ∃ d' ≤ d, (depthFirstState s ids config).trail.distance? v = some d' := by
    intro v d h
    rcases h with h | ⟨e, he, -⟩
    · exact h
    · rw [hstack] at he
      cases he
  refine ⟨?_, (grounded_run hs config ids).route, ?_⟩
  · intro v hid hnode
    obtain ⟨d, hd, hv⟩ := hdue v 0 (hacc.seed v hid hnode)
    rw [hv, Nat.le_zero.mp hd]
  · intro u v d hu hd hj
    exact hdue v (d + 1) (hacc.closed u v d hu hd hj)

/-- **A depth-first walk that was not stopped is exact.** -/
theorem exact_of_not_truncated (hs : s.Sound) (config : Config) (ids : List NodeId)
    (hdone : (depthFirst s ids config).truncated = none) :
    Exact s config ids (depthFirst s ids config) := by
  have hground := grounded_run hs config ids
  have hacc := (accounted_run hs config ids hdone).2
  refine (covers_run hs config ids hdone).exact hground.lawful ?_ ?_
  · intro hreached
    obtain ⟨v, hv, hnew⟩ := List.any_eq_true.mp hreached
    obtain ⟨n, hr⟩ := hground.beyond v hv
    refine ⟨v, n, hr, fun hk => ?_⟩
    rw [Trail.knows_iff.mpr hk] at hnew
    cases hnew
  · intro u v d hu hd hj hv
    refine List.any_eq_true.mpr ⟨v, hacc.limit u v d hu hd hj hv, ?_⟩
    rw [Bool.not_eq_true', Bool.eq_false_iff]
    exact fun hk => hv (Trail.knows_iff.mp hk)

/-! ## The first seed -/

/-- The first seed is recorded at distance zero, or still waits on top of the stack
    with nothing recorded before it. -/
def Rooted (f : NodeId) (st : State) : Prop :=
  st.trail.distance? f = some 0 ∨
    st.trail.records = ∅ ∧ ∃ rest via, st.stack = ⟨f, ⟨0, via⟩⟩ :: rest

theorem Rooted.more {f : NodeId} {st st' : State} (h : Rooted f st)
    (hmore : turn s config st = .more st') : Rooted f st' := by
  rcases turn_cases s config st with
    ⟨-, hturn⟩ |
      ⟨e, rest, hstack, ⟨hset, hturn⟩ | ⟨t, -, ⟨-, -, -, hturn⟩ | ⟨hset, hrec, hturn⟩⟩⟩
  · cases hturn.symm.trans hmore
  · cases hturn.symm.trans hmore
    rcases h with h | ⟨hempty, rest', via, hstack'⟩
    · exact Or.inl h
    · -- nothing is settled while nothing is recorded
      obtain ⟨d, -, hd⟩ := settled_iff.mp hset
      rw [Trail.distance?, hempty] at hd
      simp at hd
  · cases hturn.symm.trans hmore
  · cases hturn.symm.trans hmore
    refine Or.inl ?_
    rw [trail_expand, Trail.distance?_of_insert hrec]
    split
    · rename_i he
      rcases h with h | ⟨-, rest', via, hstack'⟩
      · -- recorded at zero, the seed is settled for every entry
        rw [settled_iff.mpr ⟨0, Nat.zero_le _, he ▸ h⟩] at hset
        cases hset
      · rw [hstack'] at hstack
        cases hstack
        rfl
    · rename_i hne
      rcases h with h | ⟨-, rest', via, hstack'⟩
      · exact h
      · rw [hstack'] at hstack
        cases hstack
        exact absurd rfl hne

/-- **A walk never finds a way back to its first seed,** also when it was
    stopped. -/
theorem distance_of_first_seed (hs : s.Sound) (config : Config) {f : NodeId}
    (hfirst : (seeds s ids).head? = some f) {x : Visit}
    (hx : x ∈ (depthFirst s ids config).visits) (hnode : x.node = f) : x.distance = 0 := by
  have hstart : Rooted f (start s ids) := by
    obtain ⟨rest, hrest⟩ := List.head?_eq_some_iff.mp hfirst
    refine Or.inr ⟨rfl, rest.map fun id => ⟨id, ⟨0, none⟩⟩, none, ?_⟩
    rw [start, hrest, List.map_cons]
  obtain ⟨last, hlast, hhalt⟩ := run_induction (fun _ _ h hmore => h.more hmore)
    (start s ids) hstart
  have hrecorded := (grounded_run hs config ids).lawful.exists_visit_iff.mp ⟨x, hx, hnode, rfl⟩
  rw [depthFirstState] at hrecorded
  replace hrecorded := (distance?_of_halt hhalt f).symm.trans hrecorded
  rcases hlast with hzero | ⟨hempty, -⟩
  · exact Option.some.inj (hrecorded.symm.trans hzero)
  · rw [Trail.distance?, hempty] at hrecorded
    simp at hrecorded

/-- Nor does it find a way back to a seed that is the only one. -/
theorem distance_of_only_seed (hs : s.Sound) (config : Config) {x : Visit}
    (hx : x ∈ (depthFirst s ids config).visits) (hseed : x.node ∈ seeds s ids)
    (honly : ∀ id ∈ ids, id = x.node) : x.distance = 0 := by
  refine distance_of_first_seed hs config ?_ hx rfl
  cases hseeds : seeds s ids with
  | nil =>
      rw [hseeds] at hseed
      cases hseed
  | cons f rest =>
      have hf : f ∈ seeds s ids := by
        rw [hseeds]
        exact List.mem_cons_self
      rw [List.head?_cons, honly f (mem_seeds.mp hf).1]

/-! ## The budget -/

/-- Something is recorded only if the budget allows it. -/
theorem maxNodes_pos_of_more {st st' : State}
    (h : ∀ v ∈ st.trail.records, 0 < config.maxNodes)
    (hmore : turn s config st = .more st') : ∀ v ∈ st'.trail.records, 0 < config.maxNodes := by
  rcases turn_cases s config st with
    ⟨-, hturn⟩ |
      ⟨e, rest, -, ⟨-, hturn⟩ | ⟨t, ht, ⟨-, -, -, hturn⟩ | ⟨-, hrec, hturn⟩⟩⟩
  · cases hturn.symm.trans hmore
  · cases hturn.symm.trans hmore
    exact h
  · cases hturn.symm.trans hmore
  · -- what is recorded was known, or there was room for it
    intro v _
    rcases st.trail.record_cases config e.node e.record with
      ⟨-, -, hsame⟩ | ⟨-, -, ⟨hmem, -⟩ | ⟨-, hroom, -⟩⟩
    · rw [← ht, hrec] at hsame
      exact h e.node (hsame ▸ ExtTreeMap.mem_insert_self)
    · exact h e.node hmem
    · exact Nat.zero_lt_of_lt hroom

/-- A walk without any budget visits nothing. -/
theorem maxNodes_pos_of_visit (hs : s.Sound) {x : Visit}
    (hx : x ∈ (depthFirst s ids config).visits) : 0 < config.maxNodes := by
  have hempty : ∀ v ∈ (start s ids).trail.records, 0 < config.maxNodes := by
    intro v hv
    exact absurd hv ExtTreeMap.not_mem_empty
  obtain ⟨last, hlast, hhalt⟩ := run_induction (s := s)
    (fun _ _ h hmore => maxNodes_pos_of_more h hmore) (start s ids) hempty
  have hrecorded := (grounded_run hs config ids).lawful.exists_visit_iff.mp ⟨x, hx, rfl, rfl⟩
  rw [depthFirstState] at hrecorded
  replace hrecorded := (distance?_of_halt hhalt x.node).symm.trans hrecorded
  exact hlast x.node (Trail.mem_records_iff.mpr ⟨x.distance, hrecorded⟩)

end CodeGraph.Walk.DepthFirst

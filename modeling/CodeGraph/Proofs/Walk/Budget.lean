import CodeGraph.Proofs.Walk.Agreement
import Mathlib.Data.Set.Card
/-! # Budgets — a smaller budget cuts a walk off, and does nothing else

    A walk that nothing from outside stops visits the nodes within the depth
    limit until they or the budget are used up.

    * `Trail.Spent` says how a budget can end: it sufficed, or the trail is as
      long as it allows and a node within the limit was refused.  Recording keeps
      it, so both walks end with it.
    * From that the length of the trail follows by counting (`Spent.count`), since
      a walk that was not stopped is exact.
    * Under a larger budget each turn does the same until the smaller one stops
      the walk, so the smaller trail is the front of the larger one
      (`prefix_of_larger`). -/

namespace CodeGraph.Walk

open Std

variable {s : Store} {config : Config} {ids : List NodeId} {m : Nat}

/-- The nodes within the depth limit of the seeds. -/
def Within (s : Store) (config : Config) (ids : List NodeId) : Set NodeId :=
  {v | ∃ d ≤ config.maxDepth, Nearest s config ids v d}

theorem mem_within_of_route {v : NodeId} {n : Nat} (h : Route s config ids v n)
    (hn : n ≤ config.maxDepth) : v ∈ Within s config ids := by
  obtain ⟨d, hd, hnearest⟩ := exists_isLeast_le (C := {n | Route s config ids v n}) h
  exact ⟨d, Nat.le_trans hd hn, hnearest⟩

theorem within_subset_keys (hs : s.Sound) (config : Config) (ids : List NodeId) :
    Within s config ids ⊆ (s.nodes.keys.toFinset : Set NodeId) := by
  rintro v ⟨d, -, hd⟩
  exact List.mem_toFinset.mpr (ExtTreeMap.mem_keys.mpr (hd.1.mem_nodes hs))

theorem finite_within (hs : s.Sound) (config : Config) (ids : List NodeId) :
    (Within s config ids).Finite :=
  (Finset.finite_toSet _).subset (within_subset_keys hs config ids)

/-- There are no more nodes within the limit than there are nodes. -/
theorem ncard_within_le (hs : s.Sound) (config : Config) (ids : List NodeId) :
    (Within s config ids).ncard ≤ s.nodeCount := by
  refine (Set.ncard_le_ncard (within_subset_keys hs config ids)).trans ?_
  rw [Set.ncard_coe_finset]
  refine (List.toFinset_card_le _).trans (Nat.le_of_eq ?_)
  rw [ExtTreeMap.length_keys]
  rfl

/-- The budget has no part in what a route is. -/
theorem Route.withBudget {v : NodeId} {n : Nat} (h : Route s config ids v n) (m : Nat) :
    Route s { config with maxNodes := m } ids v n := by
  induction h with
  | seed hid hv => exact .seed hid hv
  | step _ hj ih => exact .step ih hj

theorem within_withBudget (s : Store) (config : Config) (ids : List NodeId) (m : Nat) :
    Within s { config with maxNodes := m } ids = Within s config ids := by
  ext v
  constructor
  · rintro ⟨d, hd, hnearest⟩
    exact mem_within_of_route (hnearest.1.withBudget config.maxNodes) hd
  · rintro ⟨d, hd, hnearest⟩
    exact mem_within_of_route (hnearest.1.withBudget m) hd

/-! ## How a budget ends -/

/-- The budget sufficed, or it is used up and a node within the limit was refused. -/
structure Trail.Spent (s : Store) (config : Config) (ids : List NodeId) (t : Trail) :
    Prop where
  size_le : t.order.size ≤ config.maxNodes
  refused : t.truncated = none ∨
    t.truncated = some .nodeBudget ∧ config.maxNodes ≤ t.order.size ∧
      ∃ v ∈ Within s config ids, v ∉ t.records

namespace Trail.Spent

variable {t : Trail}

/-- **Recording a node within the limit fits the budget, or uses it up.** -/
theorem record (hwatch : config.watch = .never) (hsize : t.order.size ≤ config.maxNodes)
    {v : NodeId} (hv : v ∈ Within s config ids) (r : Record) :
    (t.record config v r).Spent s config ids := by
  refine ⟨size_record_le hsize v r, ?_⟩
  rcases t.record_cases_of_never hwatch v r with
    ⟨hfull, horder, hrec, hnew, hused⟩ | ⟨hnone, -⟩
  · exact Or.inr ⟨hfull, horder ▸ hused, v, hv, hrec ▸ hnew⟩
  · exact Or.inl hnone

/-- A trail has as many nodes as it knows. -/
theorem ncard_records (hlaw : t.Lawful) : {v | v ∈ t.records}.ncard = t.order.size := by
  have hset : {v | v ∈ t.records} = (t.order.toList.toFinset : Set NodeId) := by
    ext v
    rw [Finset.mem_coe, List.mem_toFinset, hlaw.mem_order]
    rfl
  rw [hset, Set.ncard_coe_finset, List.toFinset_card_of_nodup hlaw.nodup, Array.length_toList]

/-- **The budget sufficed for all nodes within the limit, or it is used up and there are
    more.** -/
theorem count (h : t.Spent s config ids) (hs : s.Sound) (hlaw : t.Lawful)
    (hroute : ∀ v d, t.distance? v = some d → Route s config ids v d ∧ d ≤ config.maxDepth)
    (hexact : t.truncated = none → ∀ v d, (∃ x ∈ t.visits, x.node = v ∧ x.distance = d) ↔
      Nearest s config ids v d ∧ d ≤ config.maxDepth) :
    (t.truncated = none ∧ t.order.size = (Within s config ids).ncard ∧
        (Within s config ids).ncard ≤ config.maxNodes) ∨
      t.truncated = some .nodeBudget ∧ t.order.size = config.maxNodes ∧
        config.maxNodes < (Within s config ids).ncard := by
  have hsize := h.size_le
  have hcount := ncard_records hlaw
  have hwithin : {v | v ∈ t.records} ⊆ Within s config ids := by
    intro v hv
    obtain ⟨d, hd⟩ := mem_records_iff.mp hv
    exact mem_within_of_route (hroute v d hd).1 (hroute v d hd).2
  rcases h.refused with hnone | ⟨hfull, hused, v, hv, hnew⟩
  · have hall : Within s config ids ⊆ {v | v ∈ t.records} := by
      rintro v ⟨d, hle, hd⟩
      have hvisited := (hexact hnone v d).mpr ⟨hd, hle⟩
      exact mem_records_iff.mpr ⟨d, hlaw.exists_visit_iff.mp hvisited⟩
    rw [Set.Subset.antisymm hwithin hall] at hcount
    exact Or.inl ⟨hnone, hcount.symm, hcount ▸ hsize⟩
  · have hlt : {v | v ∈ t.records}.ncard < (Within s config ids).ncard :=
      Set.ncard_lt_ncard ⟨hwithin, fun hsub => hnew (hsub hv)⟩ (finite_within hs config ids)
    exact Or.inr ⟨hfull, Nat.le_antisymm hsize hused, by omega⟩

end Trail.Spent

/-! ## Depth first -/

namespace DepthFirst

/-- A turn, whether it ends the walk or not, leaves the budget sufficient or used up. -/
theorem spent_turn (hwatch : config.watch = .never) {st st' : State}
    (hground : Grounded s config ids st) (h : st.trail.Spent s config ids)
    (hturn : turn s config st = .more st' ∨ turn s config st = .halt st') :
    st'.trail.Spent s config ids := by
  have hrecord : ∀ e ∈ st.stack,
      (st.trail.record config e.node e.record).Spent s config ids := by
    intro e he
    obtain ⟨hroute, hle⟩ := hground.entry e he
    exact .record hwatch h.size_le (mem_within_of_route hroute hle) e.record
  rcases turn_cases s config st with
    ⟨-, heq⟩ | ⟨e, rest, hstack, ⟨-, heq⟩ | ⟨t, ht, ⟨-, -, -, heq⟩ | ⟨-, -, heq⟩⟩⟩ <;>
    rcases hturn with hturn | hturn <;> cases heq.symm.trans hturn
  · exact h
  · exact h
  · exact ht ▸ hrecord e (hstack ▸ List.mem_cons_self)
  · rw [trail_expand, ht]
    exact hrecord e (hstack ▸ List.mem_cons_self)

/-- A walk that nothing from outside stops ends with its budget sufficient or used up. -/
theorem spent_run (hs : s.Sound) (hwatch : config.watch = .never) (ids : List NodeId) :
    (depthFirstState s ids config).trail.Spent s config ids := by
  obtain ⟨last, ⟨hground, hspent⟩, hhalt⟩ := run_induction
    (P := fun st => Grounded s config ids st ∧ st.trail.Spent s config ids)
    (fun _ _ h hmore => ⟨h.1.more hs hmore, spent_turn hwatch h.1 h.2 (Or.inl hmore)⟩)
    (start s ids) ⟨grounded_start s config ids, Nat.zero_le _, Or.inl rfl⟩
  exact spent_turn hwatch hground hspent (Or.inr hhalt)

/-- Under a larger budget a turn does the same, unless the smaller one ends the walk. -/
theorem turn_of_larger (hm : config.maxNodes ≤ m) (st : State) :
    turn s { config with maxNodes := m } st = turn s config st ∨
      ∃ st', turn s config st = .halt st' ∧ st'.trail.order = st.trail.order := by
  unfold turn
  split
  · exact Or.inl rfl
  · rename_i e rest _
    by_cases hset : settled st.trail e.node e.record.distance = true
    · rw [if_pos hset, if_pos hset]
      exact Or.inl rfl
    · rw [if_neg hset, if_neg hset]
      rcases Trail.record_of_larger hm st.trail e.node e.record with hrec | ⟨hstop, horder⟩
      · rw [hrec]
        exact Or.inl rfl
      · exact Or.inr ⟨_, if_pos hstop, horder⟩

/-- A turn takes no node off the trail. -/
theorem prefix_turn {st st' : State}
    (hturn : turn s config st = .more st' ∨ turn s config st = .halt st') :
    st.trail.order.toList <+: st'.trail.order.toList := by
  rcases turn_cases s config st with
    ⟨-, heq⟩ | ⟨e, rest, -, ⟨-, heq⟩ | ⟨t, ht, ⟨-, horder, -, heq⟩ | ⟨-, -, heq⟩⟩⟩ <;>
    rcases hturn with hturn | hturn <;> cases heq.symm.trans hturn
  · exact List.prefix_rfl
  · exact List.prefix_rfl
  · exact horder ▸ List.prefix_rfl
  · rw [trail_expand, ht]
    exact st.trail.prefix_record config e.node e.record

theorem prefix_run (s : Store) (config : Config) (st : State) :
    st.trail.order.toList <+: (run s config st).trail.order.toList := by
  obtain ⟨last, hlast, hhalt⟩ := run_induction
    (P := fun st' => st.trail.order.toList <+: st'.trail.order.toList)
    (fun _ _ h hmore => h.trans (prefix_turn (Or.inl hmore))) st List.prefix_rfl
  exact hlast.trans (prefix_turn (Or.inr hhalt))

/-- **The trail under a smaller budget is the front of the trail under a larger one.** -/
theorem prefix_of_larger (hm : config.maxNodes ≤ m) (st : State) :
    (run s config st).trail.order.toList <+:
      (run s { config with maxNodes := m } st).trail.order.toList := by
  fun_induction run s config st with
  | case1 st st' hturn =>
      rcases turn_of_larger (s := s) hm st with heq | ⟨last, hhalt, horder⟩
      · rw [run_of_halt (heq.trans hturn)]
      · cases hturn.symm.trans hhalt
        rw [horder]
        exact prefix_run s _ st
  | case2 st st' hturn ih =>
      rcases turn_of_larger (s := s) hm st with heq | ⟨last, hhalt, -⟩
      · rw [run_of_more (heq.trans hturn)]
        exact ih
      · cases hturn.symm.trans hhalt

end DepthFirst

/-! ## Breadth first -/

namespace BreadthFirst

/-- Starting leaves the budget sufficient or used up. -/
theorem spent_start (hwatch : config.watch = .never) :
    ∀ (l : List NodeId) (t : Trail), t.Spent s config ids →
      (∀ v ∈ l, v ∈ Within s config ids) → (start config t l).Spent s config ids := by
  intro l
  induction l with
  | nil => exact fun t h _ => h
  | cons v rest ih =>
      intro t h hl
      have h' : (t.record config v ⟨0, none⟩).Spent s config ids :=
        .record hwatch h.size_le (hl v List.mem_cons_self) _
      rw [start]
      split
      · exact h'
      · exact ih _ h' fun w hw => hl w (List.mem_cons_of_mem v hw)

/-- Discovering leaves the budget sufficient or used up. -/
theorem spent_discover (hwatch : config.watch = .never) (id : NodeId) (d : Nat) :
    ∀ (as : List Adjacent) (t : Trail), t.Spent s config ids →
      (∀ a ∈ as, a.neighbor ∈ Within s config ids) →
        (discover config id d t as).Spent s config ids := by
  intro as
  induction as with
  | nil => exact fun t h _ => h
  | cons a rest ih =>
      intro t h has
      have hrest : ∀ b ∈ rest, b.neighbor ∈ Within s config ids :=
        fun b hb => has b (List.mem_cons_of_mem a hb)
      rw [discover]
      split
      · exact ih t h hrest
      · have h' : (t.record config a.neighbor ⟨d, some (viaOf id a)⟩).Spent s config ids :=
          .record hwatch h.size_le (has a List.mem_cons_self) _
        dsimp only
        split
        · exact h'
        · exact ih _ h' hrest

/-- A turn, whether it ends the walk or not, leaves the budget sufficient or used up. -/
theorem spent_turn (hs : s.Sound) (hwatch : config.watch = .never) {st st' : State}
    (hground : Grounded s config ids st.trail) (h : st.trail.Spent s config ids)
    (hturn : turn s config st = .more st' ∨ turn s config st = .halt st') :
    st'.trail.Spent s config ids := by
  have hpoll : (st.trail.poll config.watch).Spent s config ids :=
    ⟨h.size_le, Or.inl (Trail.truncated_poll_of_never hwatch _)⟩
  have hdiscover : ∀ u d, st.trail.distance? u = some d → d < config.maxDepth →
      (discover config u (d + 1) (st.trail.poll config.watch) (steps s config u)).Spent
        s config ids := by
    intro u d hu hd
    refine spent_discover hwatch u (d + 1) _ _ hpoll fun a ha => ?_
    exact mem_within_of_route
      ((hground.route u d hu).1.step ((exists_step_iff hs).mp ⟨a, ha, rfl⟩)) hd
  rcases turn_cases s config st with
    ⟨-, heq⟩ | ⟨u, hu, ⟨t, ht, -, heq⟩ | ⟨d, hd, ⟨-, heq⟩ |
      ⟨hdepth, t, ht, ⟨-, heq⟩ | ⟨-, heq⟩⟩⟩⟩ <;>
    rcases hturn with hturn | hturn <;> cases heq.symm.trans hturn
  · exact h
  · exact ht ▸ hpoll
  · exact hpoll
  · exact ht ▸ hdiscover u d (hd ▸ hground.lawful.distance?_of_getElem? hu) hdepth
  · exact ht ▸ hdiscover u d (hd ▸ hground.lawful.distance?_of_getElem? hu) hdepth

/-- A walk that nothing from outside stops ends with its budget sufficient or used up. -/
theorem spent_run (hs : s.Sound) (hwatch : config.watch = .never) (ids : List NodeId) :
    (breadthFirstState s ids config).trail.Spent s config ids := by
  obtain ⟨hseeded, -⟩ := seeded_start s config ids (seeds s ids) {} seeded_empty
    fun v hv => hv
  have hstart : (start config {} (seeds s ids)).Spent s config ids := by
    refine spent_start hwatch (seeds s ids) {} ⟨Nat.zero_le _, Or.inl rfl⟩ fun v hv => ?_
    obtain ⟨hid, hnode⟩ := mem_seeds.mp hv
    exact mem_within_of_route (.seed hid hnode) (Nat.zero_le _)
  rw [breadthFirstState]
  split
  · exact hstart
  · obtain ⟨last, ⟨hground, hspent⟩, hhalt⟩ := run_induction
      (P := fun st => Grounded s config ids st.trail ∧ st.trail.Spent s config ids)
      (fun _ _ h hmore => ⟨h.1.more hs hmore, spent_turn hs hwatch h.1 h.2 (Or.inl hmore)⟩)
      { trail := start config {} (seeds s ids) } ⟨hseeded.grounded config, hstart⟩
    exact spent_turn hs hwatch hground hspent (Or.inr hhalt)

/-- Discovering takes no node off the trail. -/
theorem prefix_discover (config : Config) (id : NodeId) (d : Nat) :
    ∀ (as : List Adjacent) (t : Trail),
      t.order.toList <+: (discover config id d t as).order.toList := by
  intro as
  induction as with
  | nil => exact fun t => List.prefix_rfl
  | cons a rest ih =>
      intro t
      have h := t.prefix_record config a.neighbor ⟨d, some (viaOf id a)⟩
      rw [discover]
      split
      · exact ih t
      · dsimp only
        split
        · exact h
        · exact h.trans (ih _)

/-- Starting takes no node off the trail. -/
theorem prefix_start (config : Config) :
    ∀ (l : List NodeId) (t : Trail),
      t.order.toList <+: (start config t l).order.toList := by
  intro l
  induction l with
  | nil => exact fun t => List.prefix_rfl
  | cons v rest ih =>
      intro t
      have h := t.prefix_record config v ⟨0, none⟩
      rw [start]
      split
      · exact h
      · exact h.trans (ih _)

/-- Under a larger budget the same is discovered, until the smaller one stops the walk. -/
theorem discover_of_larger (hm : config.maxNodes ≤ m) (id : NodeId) (d : Nat) :
    ∀ (as : List Adjacent) (t : Trail),
      discover { config with maxNodes := m } id d t as = discover config id d t as ∨
        (discover config id d t as).stopped = true ∧
          (discover config id d t as).order.toList <+:
            (discover { config with maxNodes := m } id d t as).order.toList := by
  intro as
  induction as with
  | nil => exact fun t => Or.inl rfl
  | cons a rest ih =>
      intro t
      have hkeep := prefix_discover { config with maxNodes := m } id d (a :: rest) t
      rw [discover, discover]
      rw [discover] at hkeep
      by_cases hknown : t.knows a.neighbor = true
      · rw [if_pos hknown, if_pos hknown]
        exact ih t
      · rw [if_neg hknown, if_neg hknown]
        rw [if_neg hknown] at hkeep
        dsimp only at hkeep ⊢
        rcases Trail.record_of_larger hm t a.neighbor ⟨d, some (viaOf id a)⟩ with
          hrec | ⟨hstop, horder⟩
        · rw [hrec]
          split
          · exact Or.inl rfl
          · exact ih _
        · rw [if_pos hstop]
          exact Or.inr ⟨hstop, horder ▸ hkeep⟩

/-- Under a larger budget the same seeds are put on the trail, until the smaller one stops
    the walk. -/
theorem start_of_larger (hm : config.maxNodes ≤ m) :
    ∀ (l : List NodeId) (t : Trail),
      start { config with maxNodes := m } t l = start config t l ∨
        (start config t l).stopped = true ∧ (start config t l).order.toList <+:
          (start { config with maxNodes := m } t l).order.toList := by
  intro l
  induction l with
  | nil => exact fun t => Or.inl rfl
  | cons v rest ih =>
      intro t
      have hkeep := prefix_start { config with maxNodes := m } (v :: rest) t
      rw [start, start]
      rw [start] at hkeep
      rcases Trail.record_of_larger hm t v ⟨0, none⟩ with hrec | ⟨hstop, horder⟩
      · rw [hrec]
        split
        · exact Or.inl rfl
        · exact ih _
      · rw [if_pos hstop]
        exact Or.inr ⟨hstop, horder ▸ hkeep⟩

/-- Under a larger budget a turn does the same, unless the smaller one ends the walk. -/
theorem turn_of_larger (hm : config.maxNodes ≤ m) (st : State) :
    turn s { config with maxNodes := m } st = turn s config st ∨
      ∃ st', turn s config st = .halt st' ∧ ∀ st'',
        turn s { config with maxNodes := m } st = .more st'' ∨
            turn s { config with maxNodes := m } st = .halt st'' →
          st'.trail.order.toList <+: st''.trail.order.toList := by
  unfold turn
  split
  · exact Or.inl rfl
  · rename_i id _
    have hsteps : steps s { config with maxNodes := m } id = steps s config id := rfl
    dsimp only
    rw [hsteps]
    by_cases hstop : (st.trail.poll config.watch).stopped = true
    · rw [if_pos hstop, if_pos hstop]
      exact Or.inl rfl
    · rw [if_neg hstop, if_neg hstop]
      by_cases hdepth : config.maxDepth ≤ ((st.trail.poll config.watch).distance? id).getD 0
      · rw [if_pos hdepth, if_pos hdepth]
        exact Or.inl rfl
      · rw [if_neg hdepth, if_neg hdepth]
        rcases discover_of_larger hm id (((st.trail.poll config.watch).distance? id).getD 0 + 1)
            (steps s config id) (st.trail.poll config.watch) with hsame | ⟨hfull, hfront⟩
        · rw [hsame]
          exact Or.inl rfl
        · refine Or.inr ⟨_, if_pos hfull, ?_⟩
          intro st'' hturn
          split at hturn <;> rcases hturn with hturn | hturn <;> cases hturn <;> exact hfront

/-- A turn takes no node off the trail. -/
theorem prefix_turn {st st' : State}
    (hturn : turn s config st = .more st' ∨ turn s config st = .halt st') :
    st.trail.order.toList <+: st'.trail.order.toList := by
  have hdiscover : ∀ u d, st.trail.order.toList <+: (discover config u (d + 1)
      (st.trail.poll config.watch) (steps s config u)).order.toList :=
    fun u d => prefix_discover config u (d + 1) (steps s config u) (st.trail.poll config.watch)
  rcases turn_cases s config st with
    ⟨-, heq⟩ | ⟨u, -, ⟨t, ht, -, heq⟩ | ⟨d, -, ⟨-, heq⟩ |
      ⟨-, t, ht, ⟨-, heq⟩ | ⟨-, heq⟩⟩⟩⟩ <;>
    rcases hturn with hturn | hturn <;> cases heq.symm.trans hturn
  · exact List.prefix_rfl
  · exact ht ▸ List.prefix_rfl
  · exact List.prefix_rfl
  · exact ht ▸ hdiscover u d
  · exact ht ▸ hdiscover u d

theorem prefix_run (s : Store) (config : Config) (st : State) :
    st.trail.order.toList <+: (run s config st).trail.order.toList := by
  obtain ⟨last, hlast, hhalt⟩ := run_induction
    (P := fun st' => st.trail.order.toList <+: st'.trail.order.toList)
    (fun _ _ h hmore => h.trans (prefix_turn (Or.inl hmore))) st List.prefix_rfl
  exact hlast.trans (prefix_turn (Or.inr hhalt))

theorem run_of_larger (hm : config.maxNodes ≤ m) (st : State) :
    (run s config st).trail.order.toList <+:
      (run s { config with maxNodes := m } st).trail.order.toList := by
  fun_induction run s config st with
  | case1 st st' hturn =>
      rcases turn_of_larger (s := s) hm st with heq | ⟨last, hhalt, hfront⟩
      · rw [run_of_halt (heq.trans hturn)]
      · cases hturn.symm.trans hhalt
        cases hlarger : turn s { config with maxNodes := m } st with
        | halt st'' =>
            rw [run_of_halt hlarger]
            exact hfront st'' (Or.inr hlarger)
        | more st'' =>
            rw [run_of_more hlarger]
            exact (hfront st'' (Or.inl hlarger)).trans (prefix_run s _ st'')
  | case2 st st' hturn ih =>
      rcases turn_of_larger (s := s) hm st with heq | ⟨last, hhalt, -⟩
      · rw [run_of_more (heq.trans hturn)]
        exact ih
      · cases hturn.symm.trans hhalt

/-- **The trail under a smaller budget is the front of the trail under a larger one.** -/
theorem prefix_of_larger (hm : config.maxNodes ≤ m) (s : Store) (ids : List NodeId) :
    (breadthFirstState s ids config).trail.order.toList <+:
      (breadthFirstState s ids { config with maxNodes := m }).trail.order.toList := by
  rw [breadthFirstState, breadthFirstState]
  rcases start_of_larger hm (seeds s ids) {} with hsame | ⟨hstop, hfront⟩
  · rw [hsame]
    split
    · exact List.prefix_rfl
    · exact run_of_larger hm _
  · rw [if_pos hstop]
    split
    · exact hfront
    · exact hfront.trans (prefix_run s _ { trail := start _ {} (seeds s ids) })

end BreadthFirst

/-! ## Both walks -/

/-- What a budget does to the nodes that a walk visits: it cuts them off if there are more
    within the depth limit than it allows. -/
structure CutOff (s : Store) (config : Config) (ids : List NodeId) (walk : Config → Result) :
    Prop where
  finite : (Within s config ids).Finite
  truncated : (walk config).truncated =
    if config.maxNodes < (Within s config ids).ncard then some .nodeBudget else none
  nodup : (walk config).nodes.Nodup
  length : (walk config).nodes.length = min (Within s config ids).ncard config.maxNodes
  within : ∀ x ∈ (walk config).visits,
    x.distance ≤ config.maxDepth ∧ x.node ∈ Within s config ids
  front : ∀ m, (Within s config ids).ncard ≤ m → (walk config).nodes =
    (walk { config with maxNodes := m }).nodes.take
      (min (Within s config ids).ncard config.maxNodes)

/-- A walk is cut off if every budget suffices or is used up, and a smaller one leaves the
    front of what a larger one leaves. -/
theorem CutOff.of_count (hs : s.Sound) {walk : Config → Result}
    (hcount : ∀ m,
      ((walk { config with maxNodes := m }).truncated = none ∧
          (walk { config with maxNodes := m }).nodes.length = (Within s config ids).ncard ∧
          (Within s config ids).ncard ≤ m) ∨
        (walk { config with maxNodes := m }).truncated = some .nodeBudget ∧
          (walk { config with maxNodes := m }).nodes.length = m ∧
          m < (Within s config ids).ncard)
    (hfront : ∀ m m', m ≤ m' → (walk { config with maxNodes := m }).nodes <+:
      (walk { config with maxNodes := m' }).nodes)
    (hnodup : (walk config).nodes.Nodup)
    (hroute : ∀ x ∈ (walk config).visits,
      Route s config ids x.node x.distance ∧ x.distance ≤ config.maxDepth) :
    CutOff s config ids walk := by
  -- whether the budget suffices or is used up, the smaller number is the length
  have hlength : ∀ m, (walk { config with maxNodes := m }).nodes.length =
      min (Within s config ids).ncard m := by
    intro m
    rcases hcount m with ⟨-, hlength, hle⟩ | ⟨-, hlength, hlt⟩
    · rw [hlength, Nat.min_eq_left hle]
    · rw [hlength, Nat.min_eq_right (Nat.le_of_lt hlt)]
  refine ⟨finite_within hs config ids, ?_, hnodup, hlength config.maxNodes, ?_, ?_⟩
  · rcases hcount config.maxNodes with ⟨hnone, -, hle⟩ | ⟨hfull, -, hlt⟩
    · rw [if_neg (Nat.not_lt.mpr hle)]
      exact hnone
    · rw [if_pos hlt]
      exact hfull
  · intro x hx
    obtain ⟨hr, hle⟩ := hroute x hx
    exact ⟨hle, mem_within_of_route hr hle⟩
  · intro m hm
    rw [← hlength config.maxNodes]
    rcases Nat.le_total config.maxNodes m with hle | hle
    · exact List.prefix_iff_eq_take.mp (hfront config.maxNodes m hle)
    · -- both budgets suffice, so the sequences are as long and hence the same
      have heq := (hfront m config.maxNodes hle).eq_of_length (by
        rw [hlength, hlength, Nat.min_eq_left hm, Nat.min_eq_left (Nat.le_trans hm hle)])
      rw [heq, List.take_length]

theorem DepthFirst.cutOff (hs : s.Sound) (hwatch : config.watch = .never)
    (ids : List NodeId) : CutOff s config ids (depthFirst s ids) := by
  refine .of_count hs (fun m => ?_) (fun m m' hm => ?_) (nodup_nodes hs config ids)
    fun x hx => route_of_visit hs hx
  · have hground := grounded_run hs { config with maxNodes := m } ids
    rw [nodes_depthFirst hs, Array.length_toList, ← within_withBudget s config ids m]
    have hwatch' : ({ config with maxNodes := m } : Config).watch = .never := hwatch
    exact (spent_run hs hwatch' ids).count hs hground.lawful hground.route
      fun hnone => (exact_of_not_truncated hs { config with maxNodes := m } ids hnone).visited
  · rw [nodes_depthFirst hs, nodes_depthFirst hs]
    exact @prefix_of_larger s { config with maxNodes := m } m' hm (start s ids)

theorem BreadthFirst.cutOff (hs : s.Sound) (hwatch : config.watch = .never)
    (ids : List NodeId) : CutOff s config ids (breadthFirst s ids) := by
  refine .of_count hs (fun m => ?_) (fun m m' hm => ?_) (nodup_nodes hs config ids)
    fun x hx => route_of_visit hs hx
  · have hground := grounded_run hs { config with maxNodes := m } ids
    rw [nodes_breadthFirst hs, Array.length_toList, ← within_withBudget s config ids m]
    have hwatch' : ({ config with maxNodes := m } : Config).watch = .never := hwatch
    exact (spent_run hs hwatch' ids).count hs hground.lawful hground.route
      fun hnone => (exact_of_not_truncated hs { config with maxNodes := m } ids hnone).visited
  · rw [nodes_breadthFirst hs, nodes_breadthFirst hs]
    exact @prefix_of_larger { config with maxNodes := m } m' hm s ids

/-- **A budget cuts both walks off, and does nothing else.**  If nothing from outside stops a
    walk, it is truncated exactly if more nodes lie within the depth limit than the budget
    allows, it visits as many of them as the budget allows, and these are the first ones that
    it visits under any budget that suffices. -/
theorem walks_cut_off (hs : s.Reachable) (hwatch : config.watch = .never)
    (ids : List NodeId) : CutOff s config ids (depthFirst s ids) ∧
      CutOff s config ids (breadthFirst s ids) :=
  ⟨DepthFirst.cutOff hs.sound hwatch ids, BreadthFirst.cutOff hs.sound hwatch ids⟩

/-- Of five nodes within the limit a budget of three leaves the first three of each walk. -/
theorem walks_cut_off_on_detour :
    let config : Config := { maxDepth := 2, maxNodes := 3 }
    (CutOff detour config [⟨"a"⟩] (depthFirst detour [⟨"a"⟩]) ∧
        CutOff detour config [⟨"a"⟩] (breadthFirst detour [⟨"a"⟩])) ∧
      (depthFirst detour [⟨"a"⟩] config).nodes.map (·.text) = ["a", "b", "c"] ∧
      (breadthFirst detour [⟨"a"⟩] config).nodes.map (·.text) = ["a", "b", "d"] := by
  intro config
  have hdepth : (depthFirst detour [⟨"a"⟩] config).nodes.map (·.text) = ["a", "b", "c"] :=
    DepthFirst.read_of_stateWithin (fun r => r.nodes.map (·.text)) 4 (by cbv)
  have hbreadth : (breadthFirst detour [⟨"a"⟩] config).nodes.map (·.text) = ["a", "b", "d"] :=
    BreadthFirst.read_of_stateWithin (fun r => r.nodes.map (·.text)) 4 (by cbv)
  exact ⟨walks_cut_off reachable_detour rfl [⟨"a"⟩], hdepth, hbreadth⟩

end CodeGraph.Walk

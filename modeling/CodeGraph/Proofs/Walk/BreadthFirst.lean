import CodeGraph.Proofs.Walk.Distance
import CodeGraph.Walk.BreadthFirst
/-! # Breadth first — the trail is ordered by distance

    The walk records a node once and never repairs a distance.  That its first
    record is right rests on the order of the trail:

    * `Growth` says what a list of steps adds to a trail: new nodes, all at one
      distance, behind those that are there.
    * `Layered`: distances never decrease along the trail, and no known node is
      more than one further than the next one to be expanded.  So whatever an
      edge joins with an expanded node is close enough to it.
    * When the limit is reached all that waits lies at the limit, so no node
      that was missed then is found later. -/

namespace CodeGraph.Walk.BreadthFirst

open Std

variable {s : Store} {config : Config} {ids : List NodeId}

/-! ## What a list of steps adds -/

/-- A trail grown by nodes at one distance, to which some steps lead. -/
structure Growth (d : Nat) (as : List Adjacent) (t t' : Trail) : Prop where
  lawful : t'.Lawful
  keeps : ∀ (i : Nat) (u : NodeId), t.order[i]? = some u → t'.order[i]? = some u
  known : ∀ v d', t.distance? v = some d' → t'.distance? v = some d'
  added : ∀ (i : Nat) (u : NodeId), t'.order[i]? = some u → t.order[i]? = some u ∨
    t.order.size ≤ i ∧ t'.distance? u = some d
  source : ∀ v d', t'.distance? v = some d' → t.distance? v = some d' ∨
    d' = d ∧ ∃ a ∈ as, a.neighbor = v

namespace Growth

variable {d : Nat} {as : List Adjacent} {t t' t'' : Trail}

/-- A trail that was only looked at. -/
theorem of_eq (hlaw : t'.Lawful) (horder : t'.order = t.order)
    (hrec : t'.records = t.records) : Growth d as t t' := by
  have hdist : ∀ v, t'.distance? v = t.distance? v := by
    intro v
    rw [Trail.distance?, Trail.distance?, hrec]
  refine ⟨hlaw, ?_, ?_, ?_, ?_⟩
  · intro i u hu
    rw [horder, hu]
  · intro v d' hv
    rw [hdist, hv]
  · intro i u hu
    exact Or.inl (horder ▸ hu)
  · intro v d' hv
    exact Or.inl ((hdist v).symm.trans hv)

/-- A trail with one more node. -/
theorem of_push (hlaw : t'.Lawful) {a : Adjacent} {via : Option Via}
    (ha : a ∈ as) (hnew : a.neighbor ∉ t.records)
    (horder : t'.order = t.order.push a.neighbor)
    (hrec : t'.records = t.records.insert a.neighbor ⟨d, via⟩) : Growth d as t t' := by
  have hdist := Trail.distance?_of_insert hrec
  refine ⟨hlaw, ?_, ?_, ?_, ?_⟩
  · intro i u hu
    have hlt := (Array.getElem?_eq_some_iff.mp hu).1
    rw [horder, Array.getElem?_push, if_neg (Nat.ne_of_lt hlt), hu]
  · intro v d' hv
    rw [hdist, if_neg, hv]
    rintro rfl
    exact hnew (Trail.mem_records_iff.mpr ⟨d', hv⟩)
  · intro i u hu
    rw [horder, Array.getElem?_push] at hu
    split at hu
    · rename_i hi
      cases hu
      refine Or.inr ⟨Nat.le_of_eq hi.symm, ?_⟩
      rw [hdist, if_pos rfl]
    · exact Or.inl hu
  · intro v d' hv
    rw [hdist] at hv
    split at hv
    · rename_i hav
      cases hv
      exact Or.inr ⟨rfl, a, ha, hav⟩
    · exact Or.inl hv

theorem mono {bs : List Adjacent} (h : Growth d as t t') (hsub : ∀ a ∈ as, a ∈ bs) :
    Growth d bs t t' where
  lawful := h.lawful
  keeps := h.keeps
  known := h.known
  added := h.added
  source := by
    intro v d' hv
    rcases h.source v d' hv with hv | ⟨hd, a, ha, hav⟩
    · exact Or.inl hv
    · exact Or.inr ⟨hd, a, hsub a ha, hav⟩

theorem trans (h : Growth d as t t') (h' : Growth d as t' t'') : Growth d as t t'' := by
  have hsize : t.order.size ≤ t'.order.size := by
    by_contra hlt
    have hlast : t'.order.size < t.order.size := by omega
    have hkept := h.keeps _ _ (Array.getElem?_eq_getElem hlast)
    rw [Array.getElem?_eq_none (Nat.le_refl _)] at hkept
    cases hkept
  refine ⟨h'.lawful, ?_, ?_, ?_, ?_⟩
  · intro i u hu
    exact h'.keeps i u (h.keeps i u hu)
  · intro v d' hv
    exact h'.known v d' (h.known v d' hv)
  · intro i u hu
    rcases h'.added i u hu with hu | ⟨hi, hd⟩
    · rcases h.added i u hu with hu | ⟨hi, hd⟩
      · exact Or.inl hu
      · exact Or.inr ⟨hi, h'.known u d hd⟩
    · exact Or.inr ⟨Nat.le_trans hsize hi, hd⟩
  · intro v d' hv
    rcases h'.source v d' hv with hv | hv
    · exact h.source v d' hv
    · exact Or.inr hv

/-- What was known stays known. -/
theorem mem_records (h : Growth d as t t') {v : NodeId} (hv : v ∈ t.records) :
    v ∈ t'.records := by
  obtain ⟨d', hd'⟩ := Trail.mem_records_iff.mp hv
  exact Trail.mem_records_iff.mpr ⟨d', h.known v d' hd'⟩

/-- A node that was on the trail has the distance it had. -/
theorem distance?_of_old (h : Growth d as t t') (hlaw : t.Lawful) {i : Nat} {u : NodeId}
    {d' : Nat} (hu : t.order[i]? = some u) (hd : t'.distance? u = some d') :
    t.distance? u = some d' := by
  have hwas := hlaw.distance?_of_getElem? hu
  have hnow := h.known u _ hwas
  rw [hwas, ← hnow, hd]

/-- The front of the trail is as it was. -/
theorem order_of_lt (h : Growth d as t t') {i : Nat} {u : NodeId} (hi : i < t.order.size)
    (hu : t'.order[i]? = some u) : t.order[i]? = some u := by
  rcases h.added i u hu with hu | ⟨hle, -⟩
  · exact hu
  · omega

end Growth

/-- Discovering grows the trail, also if it is stopped. -/
theorem growth_discover (config : Config) (id : NodeId) (d : Nat) :
    ∀ (as : List Adjacent) (t : Trail), t.Lawful →
      Growth d as t (discover config id d t as) := by
  intro as
  induction as with
  | nil => intro t hlaw; exact Growth.of_eq hlaw rfl rfl
  | cons a rest ih =>
      intro t hlaw
      have hsub : ∀ b ∈ rest, b ∈ a :: rest := fun b hb => List.mem_cons_of_mem a hb
      rw [discover]
      split
      · exact (ih t hlaw).mono hsub
      · rename_i hnew
        have hunknown : a.neighbor ∉ t.records := fun hk => hnew (Trail.knows_iff.mpr hk)
        have hlaw' := hlaw.record config a.neighbor ⟨d, some (viaOf id a)⟩
        dsimp only
        rcases t.record_cases config a.neighbor ⟨d, some (viaOf id a)⟩ with
          ⟨hstop, horder, hrec⟩ | ⟨hgo, hrec, ⟨hmem, -⟩ | ⟨-, -, horder⟩⟩
        · rw [if_pos hstop]
          exact Growth.of_eq hlaw' horder hrec
        · exact absurd hmem hunknown
        · rw [if_neg (fun h => Bool.noConfusion (hgo.symm.trans h))]
          have hpush : Growth d (a :: rest) t _ :=
            Growth.of_push hlaw' List.mem_cons_self hunknown horder hrec
          exact hpush.trans ((ih _ hlaw').mono hsub)

/-- What a turn that expands a node adds to the trail. -/
theorem growth_of_turn (s : Store) (config : Config) {t : Trail} (hlaw : t.Lawful)
    (u : NodeId) (d : Nat) :
    Growth (d + 1) (steps s config u) t
      (discover config u (d + 1) (t.poll config.watch) (steps s config u)) := by
  have h := growth_discover config u (d + 1) (steps s config u) _ (hlaw.poll config.watch)
  -- looking at the watch changes neither the order nor a distance
  exact ⟨h.lawful, h.keeps, h.known, h.added, h.source⟩

/-- After discovering without a stop the ends of all steps are known. -/
theorem mem_discover (config : Config) (id : NodeId) (d : Nat) :
    ∀ (as : List Adjacent) (t : Trail), t.Lawful →
      (discover config id d t as).stopped = false →
        ∀ a ∈ as, a.neighbor ∈ (discover config id d t as).records := by
  -- what is known once stays known to the end
  have hkeep : ∀ (as : List Adjacent) (t : Trail) (v : NodeId), t.Lawful →
      v ∈ t.records → v ∈ (discover config id d t as).records := by
    intro as t v hlaw hv
    obtain ⟨d', hd'⟩ := Trail.mem_records_iff.mp hv
    exact Trail.mem_records_iff.mpr ⟨d', (growth_discover config id d as t hlaw).known v d' hd'⟩
  intro as
  induction as with
  | nil => intro t _ _ a ha; cases ha
  | cons b rest ih =>
      intro t hlaw hgo a ha
      rw [discover] at hgo ⊢
      split at hgo
      · rename_i hknown
        rw [if_pos hknown]
        rcases List.mem_cons.mp ha with rfl | ha
        · exact hkeep rest t _ hlaw (Trail.knows_iff.mp hknown)
        · exact ih t hlaw hgo a ha
      · rename_i hnew
        rw [if_neg hnew]
        dsimp only at hgo ⊢
        have hlaw' := hlaw.record config b.neighbor ⟨d, some (viaOf id b)⟩
        rcases t.record_cases config b.neighbor ⟨d, some (viaOf id b)⟩ with
          ⟨hstop, -, -⟩ | ⟨hgo', hrec, -⟩
        · rw [if_pos hstop] at hgo
          exact Bool.noConfusion (hgo.symm.trans hstop)
        · have hne : ¬ (t.record config b.neighbor ⟨d, some (viaOf id b)⟩).stopped = true :=
            fun h => Bool.noConfusion (hgo'.symm.trans h)
          rw [if_neg hne] at hgo ⊢
          rcases List.mem_cons.mp ha with rfl | ha
          · refine hkeep rest _ _ hlaw' ?_
            rw [hrec]
            exact ExtTreeMap.mem_insert_self
          · exact ih _ hlaw' hgo a ha

/-! ## What one turn does -/

/-- A turn finds nothing left to expand, is stopped before it expands a node,
    finds the node at the limit, or discovers what it is joined with, which may
    be stopped as well. -/
theorem turn_cases (s : Store) (config : Config) (st : State) :
    (st.trail.order[st.expanded]? = none ∧ turn s config st = .halt st) ∨
      ∃ id, st.trail.order[st.expanded]? = some id ∧
        ((∃ t, t = st.trail.poll config.watch ∧ t.stopped = true ∧
            turn s config st = .halt { st with trail := t }) ∨
          ∃ d, d = (st.trail.distance? id).getD 0 ∧
            ((config.maxDepth ≤ d ∧ turn s config st = .more
                { trail := st.trail.poll config.watch
                  expanded := st.expanded + 1
                  depthLimitReached := st.depthLimitReached ||
                    (steps s config id).any fun a => !st.trail.knows a.neighbor }) ∨
              d < config.maxDepth ∧ ∃ t, t = discover config id (d + 1)
                  (st.trail.poll config.watch) (steps s config id) ∧
                ((t.stopped = true ∧ turn s config st = .halt { st with trail := t }) ∨
                  t.stopped = false ∧ turn s config st =
                    .more { st with trail := t, expanded := st.expanded + 1 }))) := by
  unfold turn
  split
  · rename_i hnone
    exact Or.inl ⟨hnone, rfl⟩
  · rename_i id hid
    refine Or.inr ⟨id, hid, ?_⟩
    dsimp only
    by_cases hstop : (st.trail.poll config.watch).stopped = true
    · exact Or.inl ⟨_, rfl, hstop, if_pos hstop⟩
    · refine Or.inr ⟨_, rfl, ?_⟩
      rw [if_neg hstop]
      by_cases hdepth : config.maxDepth ≤ (st.trail.distance? id).getD 0
      · exact Or.inl ⟨hdepth, if_pos hdepth⟩
      · refine Or.inr ⟨Nat.lt_of_not_le hdepth, _, rfl, ?_⟩
        rw [Trail.distance?_poll, if_neg hdepth]
        by_cases hfull : (discover config id ((st.trail.distance? id).getD 0 + 1)
            (st.trail.poll config.watch) (steps s config id)).stopped = true
        · exact Or.inl ⟨hfull, if_pos hfull⟩
        · exact Or.inr ⟨Bool.eq_false_iff.mpr hfull, if_neg hfull⟩

/-- A turn that ends a walk without a stop found nothing left to expand. -/
theorem halt_of_not_truncated {st st' : State} (hhalt : turn s config st = .halt st')
    (hdone : st'.trail.truncated = none) :
    st' = st ∧ st.trail.order[st.expanded]? = none := by
  have hgo : st'.trail.stopped = false := by rw [Trail.stopped, hdone, Option.isSome_none]
  rcases turn_cases s config st with
    ⟨hnone, hturn⟩ | ⟨u, -, ⟨t, -, hfull, hturn⟩ | ⟨d, -, ⟨-, hturn⟩ |
      ⟨-, t, -, ⟨hfull, hturn⟩ | ⟨-, hturn⟩⟩⟩⟩
  · exact ⟨(Turn.halt.inj (hturn.symm.trans hhalt)).symm, hnone⟩
  · cases hturn.symm.trans hhalt
    exact Bool.noConfusion (hfull.symm.trans hgo)
  · cases hturn.symm.trans hhalt
  · cases hturn.symm.trans hhalt
    exact Bool.noConfusion (hfull.symm.trans hgo)
  · cases hturn.symm.trans hhalt

/-- A run takes turns until one halts: what every turn keeps holds of the state
    in which the last turn was taken. -/
theorem run_induction {P : State → Prop}
    (hmore : ∀ st st', P st → turn s config st = .more st' → P st') (st : State)
    (h : P st) : ∃ last, P last ∧ turn s config last = .halt (run s config st) := by
  fun_induction run s config st with
  | case1 st st' hturn => exact ⟨st, h, hturn⟩
  | case2 st st' hturn ih => exact ih (hmore st st' h hturn)

theorem run_of_halt {st st' : State} (h : turn s config st = .halt st') :
    run s config st = st' := by
  rw [run]
  split <;> simp_all

theorem run_of_more {st st' : State} (h : turn s config st = .more st') :
    run s config st = run s config st' := by
  rw [run]
  split <;> simp_all

/-- The state in which a walk halts, if it does so within so many turns. -/
def stateWithin (n : Nat) (s : Store) (ids : List NodeId) (config : Config) : Option State :=
  let t := start config {} (seeds s ids)
  if t.stopped then some { trail := t } else haltsWithin (turn s config) n { trail := t }

theorem breadthFirstState_of_stateWithin {n : Nat} {st : State}
    (h : stateWithin n s ids config = some st) : breadthFirstState s ids config = st := by
  rw [stateWithin] at h
  rw [breadthFirstState]
  split
  · rename_i hstop
    rw [if_pos hstop] at h
    exact Option.some.inj h
  · rename_i hgo
    rw [if_neg hgo] at h
    exact eq_of_haltsWithin (run s config) (fun _ _ => run_of_halt) (fun _ _ => run_of_more) h

/-- What a walk reports is read off the state in which it halts. -/
theorem read_of_stateWithin {β : Type} (f : Result → β) (n : Nat) {b : β}
    (h : (stateWithin n s ids config).map (fun st => f st.result) = some b) :
    f (breadthFirst s ids config) = b := by
  obtain ⟨st, hst, hb⟩ := Option.map_eq_some_iff.mp h
  rw [breadthFirst, breadthFirstState_of_stateWithin hst, hb]

/-! ## Every distance has a route -/

/-- Whatever a trail records has a route. -/
structure Grounded (s : Store) (config : Config) (ids : List NodeId) (t : Trail) : Prop where
  lawful : t.Lawful
  route : ∀ v d, t.distance? v = some d → Route s config ids v d ∧ d ≤ config.maxDepth

/-- Discovering from a node below the limit keeps a trail grounded. -/
theorem Grounded.discover (hs : s.Sound) {t t' : Trail} (h : Grounded s config ids t)
    {u : NodeId} {d : Nat} (hu : t.distance? u = some d) (hd : d < config.maxDepth)
    (hgrow : Growth (d + 1) (steps s config u) t t') : Grounded s config ids t' := by
  refine ⟨hgrow.lawful, ?_⟩
  intro v d' hv
  rcases hgrow.source v d' hv with hv | ⟨rfl, a, ha, rfl⟩
  · exact h.route v d' hv
  · exact ⟨(h.route u d hu).1.step ((exists_step_iff hs).mp ⟨a, ha, rfl⟩), hd⟩

theorem Grounded.poll {t : Trail} (h : Grounded s config ids t) (w : Watch) :
    Grounded s config ids (t.poll w) :=
  ⟨h.lawful.poll w, h.route⟩

/-! ## The seeds -/

/-- A trail that holds seeds only. -/
structure Seeded (s : Store) (ids : List NodeId) (t : Trail) : Prop where
  lawful : t.Lawful
  seed : ∀ v d, t.distance? v = some d → d = 0 ∧ v ∈ ids ∧ v ∈ s.nodes

theorem Seeded.grounded {t : Trail} (h : Seeded s ids t) (config : Config) :
    Grounded s config ids t := by
  refine ⟨h.lawful, ?_⟩
  intro v d hd
  obtain ⟨rfl, hid, hnode⟩ := h.seed v d hd
  exact ⟨Route.seed hid hnode, Nat.zero_le _⟩

theorem Seeded.record {t : Trail} (h : Seeded s ids t) (config : Config) {id : NodeId}
    (hid : id ∈ seeds s ids) : Seeded s ids (t.record config id ⟨0, none⟩) := by
  refine ⟨h.lawful.record config id ⟨0, none⟩, ?_⟩
  intro v d hd
  rcases t.record_cases config id ⟨0, none⟩ with ⟨-, -, hrec⟩ | ⟨-, hrec, -⟩
  · rw [Trail.distance?, hrec] at hd
    exact h.seed v d hd
  · rw [Trail.distance?_of_insert hrec] at hd
    split at hd
    · rename_i hv
      cases hd
      exact ⟨rfl, hv ▸ mem_seeds.mp hid⟩
    · exact h.seed v d hd

/-- Starting puts seeds on the trail, and all of them unless it is stopped. -/
theorem seeded_start (s : Store) (config : Config) (ids : List NodeId) :
    ∀ (l : List NodeId) (t : Trail), Seeded s ids t → (∀ v ∈ l, v ∈ seeds s ids) →
      Seeded s ids (start config t l) ∧ ((start config t l).stopped = false →
        ∀ v, v ∈ l ∨ v ∈ t.records → v ∈ (start config t l).records) := by
  intro l
  -- on the seeds that are left, for any trail that they join
  induction l with
  | nil =>
      intro t h _
      refine ⟨h, ?_⟩
      rintro - v (hv | hv)
      · cases hv
      · exact hv
  | cons id rest ih =>
      intro t h hl
      have h' := h.record config (hl id List.mem_cons_self)
      rw [start]
      rcases t.record_cases config id ⟨0, none⟩ with ⟨hstop, -, -⟩ | ⟨hgo, hrec, -⟩
      · rw [if_pos hstop]
        exact ⟨h', fun hgo => Bool.noConfusion (hgo.symm.trans hstop)⟩
      · rw [if_neg (fun hc => Bool.noConfusion (hgo.symm.trans hc))]
        obtain ⟨hseeded, hall⟩ := ih _ h' fun v hv => hl v (List.mem_cons_of_mem id hv)
        refine ⟨hseeded, ?_⟩
        intro hend v hv
        refine hall hend v ?_
        rw [hrec, ExtTreeMap.mem_insert, LawfulEqCmp.compare_eq_iff_eq]
        rcases hv with hv | hv
        · rcases List.mem_cons.mp hv with rfl | hv
          · exact Or.inr (Or.inl rfl)
          · exact Or.inl hv
        · exact Or.inr (Or.inr hv)

theorem seeded_empty : Seeded s ids {} := by
  refine ⟨Trail.lawful_empty, ?_⟩
  intro v d hd
  simp [Trail.distance?] at hd

theorem Grounded.more (hs : s.Sound) {st st' : State}
    (h : Grounded s config ids st.trail) (hmore : turn s config st = .more st') :
    Grounded s config ids st'.trail := by
  rcases turn_cases s config st with
    ⟨-, hturn⟩ | ⟨u, hu, ⟨t, -, -, hturn⟩ | ⟨d, hd, ⟨-, hturn⟩ |
      ⟨hdepth, t, ht, ⟨-, hturn⟩ | ⟨-, hturn⟩⟩⟩⟩
  · cases hturn.symm.trans hmore
  · cases hturn.symm.trans hmore
  · cases hturn.symm.trans hmore
    exact h.poll config.watch
  · cases hturn.symm.trans hmore
  · cases hturn.symm.trans hmore
    have hud := hd ▸ h.lawful.distance?_of_getElem? hu
    exact h.discover hs hud hdepth (ht ▸ growth_of_turn s config h.lawful u d)

theorem Grounded.halt (hs : s.Sound) {st st' : State}
    (h : Grounded s config ids st.trail) (hhalt : turn s config st = .halt st') :
    Grounded s config ids st'.trail := by
  rcases turn_cases s config st with
    ⟨-, hturn⟩ | ⟨u, hu, ⟨t, ht, -, hturn⟩ | ⟨d, hd, ⟨-, hturn⟩ |
      ⟨hdepth, t, ht, ⟨-, hturn⟩ | ⟨-, hturn⟩⟩⟩⟩
  · cases hturn.symm.trans hhalt
    exact h
  · cases hturn.symm.trans hhalt
    exact ht ▸ h.poll config.watch
  · cases hturn.symm.trans hhalt
  · cases hturn.symm.trans hhalt
    have hud := hd ▸ h.lawful.distance?_of_getElem? hu
    exact h.discover hs hud hdepth (ht ▸ growth_of_turn s config h.lawful u d)
  · cases hturn.symm.trans hhalt

/-- **Every distance that a walk reports is the length of a route,** also when the
    walk was stopped. -/
theorem grounded_run (hs : s.Sound) (config : Config) (ids : List NodeId) :
    Grounded s config ids (breadthFirstState s ids config).trail := by
  obtain ⟨hseeded, -⟩ := seeded_start s config ids (seeds s ids) {} seeded_empty
    fun v hv => hv
  rw [breadthFirstState]
  split
  · exact hseeded.grounded config
  · obtain ⟨last, hlast, hhalt⟩ := run_induction
      (P := fun st => Grounded s config ids st.trail) (fun _ _ h hmore => h.more hs hmore)
      { trail := start config {} (seeds s ids) } (hseeded.grounded config)
    exact hlast.halt hs hhalt

/-- The nodes that a walk reports are those of its trail. -/
theorem nodes_breadthFirst (hs : s.Sound) (config : Config) (ids : List NodeId) :
    (breadthFirst s ids config).nodes =
      (breadthFirstState s ids config).trail.order.toList :=
  (grounded_run hs config ids).lawful.map_node_visits

/-- Every node is visited once, also when the walk was stopped. -/
theorem nodup_nodes (hs : s.Sound) (config : Config) (ids : List NodeId) :
    (breadthFirst s ids config).nodes.Nodup := by
  rw [nodes_breadthFirst hs]
  exact (grounded_run hs config ids).lawful.nodup

/-- Every visit that a walk reports has a route within the limit. -/
theorem route_of_visit (hs : s.Sound) {x : Visit}
    (hx : x ∈ (breadthFirst s ids config).visits) :
    Route s config ids x.node x.distance ∧ x.distance ≤ config.maxDepth := by
  have h := grounded_run hs config ids
  exact h.route x.node x.distance (h.lawful.exists_visit_iff.mp ⟨x, hx, rfl, rfl⟩)

/-! ## Layers -/

/-- The trail is ordered by distance, no known node is more than one further than
    the next to be expanded, and everything that an edge joins with an expanded
    node is accounted for. -/
structure Layered (s : Store) (config : Config) (ids : List NodeId) (st : State) :
    Prop where
  grounded : Grounded s config ids st.trail
  seed : ∀ v ∈ ids, v ∈ s.nodes → st.trail.distance? v = some 0
  bound : st.expanded ≤ st.trail.order.size
  ordered : ∀ (i j : Nat) (u v : NodeId) (d d' : Nat), i ≤ j →
    st.trail.order[i]? = some u → st.trail.order[j]? = some v →
      st.trail.distance? u = some d → st.trail.distance? v = some d' → d ≤ d'
  span : ∀ (u v : NodeId) (d d' : Nat), st.trail.order[st.expanded]? = some u →
    st.trail.distance? u = some d → st.trail.distance? v = some d' → d' ≤ d + 1
  closed : ∀ (i : Nat) (u v : NodeId) (d : Nat), i < st.expanded →
    st.trail.order[i]? = some u → st.trail.distance? u = some d → d < config.maxDepth →
      s.Joined config.relationships config.direction u v →
        ∃ d' ≤ d + 1, st.trail.distance? v = some d'
  limit : ∀ (i : Nat) (u v : NodeId) (d : Nat), i < st.expanded →
    st.trail.order[i]? = some u → st.trail.distance? u = some d → config.maxDepth ≤ d →
      s.Joined config.relationships config.direction u v → v ∉ st.trail.records →
        st.depthLimitReached = true
  reached : st.depthLimitReached = true →
    (∃ v n, Route s config ids v n ∧ v ∉ st.trail.records) ∧
      ∀ (i : Nat) (u : NodeId) (d : Nat), st.expanded ≤ i →
        st.trail.order[i]? = some u → st.trail.distance? u = some d → config.maxDepth ≤ d

/-- A trail of all seeds is layered. -/
theorem layered_start {t : Trail} (h : Seeded s ids t) (config : Config)
    (hall : ∀ v ∈ seeds s ids, v ∈ t.records) :
    Layered s config ids { trail := t } where
  grounded := h.grounded config
  seed := by
    intro v hid hnode
    obtain ⟨d, hd⟩ := Trail.mem_records_iff.mp (hall v (mem_seeds.mpr ⟨hid, hnode⟩))
    rw [hd, (h.seed v d hd).1]
  bound := Nat.zero_le _
  ordered := by
    intro i j u v d d' _ _ _ hu _
    rw [(h.seed u d hu).1]
    exact Nat.zero_le _
  span := by
    intro u v d d' _ _ hv
    rw [(h.seed v d' hv).1]
    exact Nat.zero_le _
  closed := by
    intro i u v d hi
    exact absurd hi (Nat.not_lt_zero i)
  limit := by
    intro i u v d hi
    exact absurd hi (Nat.not_lt_zero i)
  reached := by
    intro h
    cases h

/-- A node at the limit is passed over. -/
theorem Layered.pass (hs : s.Sound) {st : State} (h : Layered s config ids st) {u : NodeId}
    {d : Nat} (hu : st.trail.order[st.expanded]? = some u)
    (hud : st.trail.distance? u = some d) (hdepth : config.maxDepth ≤ d) :
    Layered s config ids
      { trail := st.trail.poll config.watch
        expanded := st.expanded + 1
        depthLimitReached := st.depthLimitReached ||
          (steps s config u).any fun a => !st.trail.knows a.neighbor } where
  grounded := h.grounded.poll config.watch
  seed := h.seed
  bound := (Array.getElem?_eq_some_iff.mp hu).1
  ordered := h.ordered
  span := by
    intro u' v d₁ d₂ hu' hd₁ hd₂
    -- a node that waits is as far away as `u` at least, and what is found one step more
    have hle : d ≤ d₁ := h.ordered _ _ u u' d d₁ (Nat.le_succ _) hu hu' hud hd₁
    have hspan : d₂ ≤ d + 1 := h.span u v d d₂ hu hud hd₂
    omega
  closed := by
    intro i w v d₁ hi hw hd₁ hlt hj
    rcases Nat.lt_succ_iff_lt_or_eq.mp hi with hi | rfl
    · exact h.closed i w v d₁ hi hw hd₁ hlt hj
    · -- `u` itself is at the limit
      cases hu.symm.trans hw
      cases hud.symm.trans hd₁
      omega
  limit := by
    intro i w v d₁ hi hw hd₁ hle hj hv
    rcases Nat.lt_succ_iff_lt_or_eq.mp hi with hi | rfl
    · show (st.depthLimitReached || _) = true
      rw [h.limit i w v d₁ hi hw hd₁ hle hj hv, Bool.true_or]
    · cases hu.symm.trans hw
      obtain ⟨a, ha, rfl⟩ := (exists_step_iff hs).mpr hj
      refine Bool.or_eq_true_iff.mpr (Or.inr (List.any_eq_true.mpr ⟨a, ha, ?_⟩))
      rw [Bool.not_eq_true', Bool.eq_false_iff]
      exact fun hk => hv (Trail.knows_iff.mp hk)
  reached := by
    intro hr
    -- what waits behind `u` is not nearer, and so at the limit too
    have hwait : ∀ (i : Nat) (w : NodeId) (d₁ : Nat), st.expanded + 1 ≤ i →
        st.trail.order[i]? = some w → st.trail.distance? w = some d₁ →
          config.maxDepth ≤ d₁ := by
      intro i w d₁ hi hw hd₁
      exact Nat.le_trans hdepth (h.ordered _ i u w d d₁ (by omega) hu hw hud hd₁)
    refine ⟨?_, hwait⟩
    rcases Bool.or_eq_true_iff.mp hr with hr | hr
    · exact (h.reached hr).1
    · obtain ⟨a, ha, hnew⟩ := List.any_eq_true.mp hr
      have hroute := (h.grounded.route u d hud).1.step ((exists_step_iff hs).mp ⟨a, ha, rfl⟩)
      refine ⟨a.neighbor, d + 1, hroute, ?_⟩
      rw [Bool.not_eq_true', Bool.eq_false_iff] at hnew
      exact fun hk => hnew (Trail.knows_iff.mpr hk)

section Expand

variable {st : State} {u : NodeId} {d : Nat} {t : Trail}

/-- Nothing that is known after an expansion is further than what it found. -/
theorem Layered.le_of_growth (h : Layered s config ids st)
    (hu : st.trail.order[st.expanded]? = some u) (hud : st.trail.distance? u = some d)
    (hgrow : Growth (d + 1) (steps s config u) st.trail t) {v : NodeId} {d' : Nat}
    (hv : t.distance? v = some d') : d' ≤ d + 1 := by
  rcases hgrow.source v d' hv with hv | ⟨rfl, -⟩
  · exact h.span u v d d' hu hud hv
  · exact Nat.le_refl _

/-- The grown trail is ordered by distance. -/
theorem Layered.ordered_of_growth (h : Layered s config ids st)
    (hu : st.trail.order[st.expanded]? = some u) (hud : st.trail.distance? u = some d)
    (hgrow : Growth (d + 1) (steps s config u) st.trail t) {i j : Nat} {v w : NodeId}
    {d₁ d₂ : Nat} (hij : i ≤ j) (hv : t.order[i]? = some v) (hw : t.order[j]? = some w)
    (hd₁ : t.distance? v = some d₁) (hd₂ : t.distance? w = some d₂) : d₁ ≤ d₂ := by
  rcases hgrow.added j w hw with hw' | ⟨-, hw'⟩
  · have hj : j < st.trail.order.size := (Array.getElem?_eq_some_iff.mp hw').1
    have hv' := hgrow.order_of_lt (Nat.lt_of_le_of_lt hij hj) hv
    exact h.ordered i j v w d₁ d₂ hij hv' hw'
      (hgrow.distance?_of_old h.grounded.lawful hv' hd₁)
      (hgrow.distance?_of_old h.grounded.lawful hw' hd₂)
  · -- the later one was just found, so nothing that is known is further
    cases hw'.symm.trans hd₂
    exact h.le_of_growth hu hud hgrow hd₁

/-- The nodes expanded so far are those that were, with their distances, and the
    one whose turn it is. -/
theorem Layered.expanded_of_growth (h : Layered s config ids st)
    (hu : st.trail.order[st.expanded]? = some u) (hud : st.trail.distance? u = some d)
    (hgrow : Growth (d + 1) (steps s config u) st.trail t) {i : Nat} {w : NodeId}
    {d₁ : Nat} (hi : i < st.expanded + 1) (hw : t.order[i]? = some w)
    (hd₁ : t.distance? w = some d₁) :
    (i < st.expanded ∧ st.trail.order[i]? = some w ∧ st.trail.distance? w = some d₁) ∨
      w = u ∧ d₁ = d := by
  have hlt : st.expanded < st.trail.order.size := (Array.getElem?_eq_some_iff.mp hu).1
  have hw' := hgrow.order_of_lt (by omega) hw
  have hd₁' := hgrow.distance?_of_old h.grounded.lawful hw' hd₁
  rcases Nat.lt_succ_iff_lt_or_eq.mp hi with hi | rfl
  · exact Or.inl ⟨hi, hw', hd₁'⟩
  · cases hu.symm.trans hw'
    cases hud.symm.trans hd₁'
    exact Or.inr ⟨rfl, rfl⟩

/-- A node below the limit is expanded. -/
theorem Layered.expand (hs : s.Sound) (h : Layered s config ids st)
    (hu : st.trail.order[st.expanded]? = some u) (hud : st.trail.distance? u = some d)
    (hdepth : d < config.maxDepth)
    (hgrow : Growth (d + 1) (steps s config u) st.trail t)
    (hall : ∀ a ∈ steps s config u, a.neighbor ∈ t.records) :
    Layered s config ids { st with trail := t, expanded := st.expanded + 1 } where
  grounded := h.grounded.discover hs hud hdepth hgrow
  seed := by
    intro v hid hnode
    exact hgrow.known v 0 (h.seed v hid hnode)
  bound := (Array.getElem?_eq_some_iff.mp (hgrow.keeps _ _ hu)).1
  ordered := by
    intro i j v w d₁ d₂ hij hv hw hd₁ hd₂
    exact h.ordered_of_growth hu hud hgrow hij hv hw hd₁ hd₂
  span := by
    intro v w d₁ d₂ hv hd₁ hd₂
    have hle : d ≤ d₁ := h.ordered_of_growth hu hud hgrow (Nat.le_succ _)
      (hgrow.keeps _ _ hu) hv (hgrow.known u d hud) hd₁
    have hfar : d₂ ≤ d + 1 := h.le_of_growth hu hud hgrow hd₂
    omega
  closed := by
    intro i w v d₁ hi hw hd₁ hlt hj
    rcases h.expanded_of_growth hu hud hgrow hi hw hd₁ with ⟨hi, hw, hd₁⟩ | ⟨rfl, rfl⟩
    · obtain ⟨d', hd', hv⟩ := h.closed i w v d₁ hi hw hd₁ hlt hj
      exact ⟨d', hd', hgrow.known v d' hv⟩
    · obtain ⟨a, ha, rfl⟩ := (exists_step_iff hs).mpr hj
      obtain ⟨d', hd'⟩ := Trail.mem_records_iff.mp (hall a ha)
      exact ⟨d', h.le_of_growth hu hud hgrow hd', hd'⟩
  limit := by
    intro i w v d₁ hi hw hd₁ hle hj hv
    rcases h.expanded_of_growth hu hud hgrow hi hw hd₁ with ⟨hi, hw, hd₁⟩ | ⟨rfl, rfl⟩
    · exact h.limit i w v d₁ hi hw hd₁ hle hj fun hk => hv (hgrow.mem_records hk)
    · omega
  reached := by
    intro hr
    -- once the limit is reached nothing that waits is below it
    have := (h.reached hr).2 _ u d (Nat.le_refl _) hu hud
    omega

end Expand

theorem Layered.more (hs : s.Sound) {st st' : State} (h : Layered s config ids st)
    (hmore : turn s config st = .more st') : Layered s config ids st' := by
  rcases turn_cases s config st with
    ⟨-, hturn⟩ | ⟨u, hu, ⟨t, -, -, hturn⟩ | ⟨d, hd, ⟨hdepth, hturn⟩ |
      ⟨hdepth, t, ht, ⟨-, hturn⟩ | ⟨hgo, hturn⟩⟩⟩⟩
  · cases hturn.symm.trans hmore
  · cases hturn.symm.trans hmore
  · cases hturn.symm.trans hmore
    exact h.pass hs hu (hd ▸ h.grounded.lawful.distance?_of_getElem? hu) hdepth
  · cases hturn.symm.trans hmore
  · cases hturn.symm.trans hmore
    have hlaw := h.grounded.lawful.poll config.watch
    have hall := mem_discover config u (d + 1) (steps s config u) _ hlaw (ht ▸ hgo)
    rw [← ht] at hall
    exact h.expand hs hu (hd ▸ h.grounded.lawful.distance?_of_getElem? hu) hdepth
      (ht ▸ growth_of_turn s config h.grounded.lawful u d) hall

/-! ## The result -/

/-- A walk that was not stopped has expanded every node it found. -/
theorem layered_run (hs : s.Sound) (config : Config) (ids : List NodeId)
    (hdone : (breadthFirst s ids config).truncated = none) :
    (breadthFirstState s ids config).expanded =
        (breadthFirstState s ids config).trail.order.size ∧
      Layered s config ids (breadthFirstState s ids config) := by
  obtain ⟨hseeded, hall⟩ := seeded_start s config ids (seeds s ids) {} seeded_empty
    fun v hv => hv
  rw [breadthFirst] at hdone
  rw [breadthFirstState] at hdone ⊢
  by_cases hstop : (start config {} (seeds s ids)).stopped = true
  · rw [if_pos hstop] at hdone
    have hnone : (start config {} (seeds s ids)).truncated = none := hdone
    rw [Trail.stopped, hnone] at hstop
    cases hstop
  · rw [if_neg hstop] at hdone ⊢
    obtain ⟨last, hlast, hhalt⟩ := run_induction (fun _ _ h hmore => h.more hs hmore)
      { trail := start config {} (seeds s ids) }
      (layered_start hseeded config fun v hv =>
        hall (Bool.eq_false_iff.mpr hstop) v (Or.inl hv))
    obtain ⟨hend, hnone⟩ := halt_of_not_truncated hhalt hdone
    rw [hend]
    exact ⟨Nat.le_antisymm hlast.bound (Array.getElem?_eq_none_iff.mp hnone), hlast⟩

/-- **A breadth-first walk that was not stopped is exact.** -/
theorem exact_of_not_truncated (hs : s.Sound) (config : Config) (ids : List NodeId)
    (hdone : (breadthFirst s ids config).truncated = none) :
    Exact s config ids (breadthFirst s ids config) := by
  obtain ⟨hend, h⟩ := layered_run hs config ids hdone
  have hexpanded : ∀ u d, (breadthFirstState s ids config).trail.distance? u = some d →
      ∃ i < (breadthFirstState s ids config).expanded,
        (breadthFirstState s ids config).trail.order[i]? = some u := by
    intro u d hu
    obtain ⟨i, hi⟩ := h.grounded.lawful.exists_getElem? hu
    exact ⟨i, hend ▸ (Array.getElem?_eq_some_iff.mp hi).1, hi⟩
  have hcovers : (breadthFirstState s ids config).trail.Covers s config ids := by
    refine ⟨h.seed, h.grounded.route, ?_⟩
    intro u v d hu hd hj
    obtain ⟨i, hi, hiu⟩ := hexpanded u d hu
    exact h.closed i u v d hi hiu hu hd hj
  refine hcovers.exact h.grounded.lawful (fun hr => (h.reached hr).1) ?_
  intro u v d hu hd hj hv
  obtain ⟨i, hi, hiu⟩ := hexpanded u d hu
  exact h.limit i u v d hi hiu hu hd hj hv

/-! ## The first seed -/

/-- A trail that has a node at distance zero has it still when all seeds are on it. -/
theorem distance?_start (config : Config) {f : NodeId} :
    ∀ (l : List NodeId) (t : Trail), t.distance? f = some 0 →
      (start config t l).distance? f = some 0 := by
  intro l
  induction l with
  | nil => exact fun t h => h
  | cons id rest ih =>
      intro t h
      have hrecord : (t.record config id ⟨0, none⟩).distance? f = some 0 := by
        rcases t.record_cases config id ⟨0, none⟩ with ⟨-, -, hrec⟩ | ⟨-, hrec, -⟩
        · rw [Trail.distance?, hrec]
          exact h
        · rw [Trail.distance?_of_insert hrec, h, ite_self]
      rw [start]
      split
      · exact hrecord
      · exact ih _ hrecord

/-- A turn repairs no distance, whether it is the last or not. -/
theorem distance?_of_turn {st st' : State} (hlaw : st.trail.Lawful) {f : NodeId} {d : Nat}
    (hd : st.trail.distance? f = some d)
    (hturn : turn s config st = .more st' ∨ turn s config st = .halt st') :
    st'.trail.Lawful ∧ st'.trail.distance? f = some d := by
  have hpoll := hlaw.poll config.watch
  rcases turn_cases s config st with
    ⟨-, heq⟩ | ⟨u, -, ⟨t, rfl, -, heq⟩ | ⟨d', -, ⟨-, heq⟩ |
      ⟨-, t, rfl, ⟨-, heq⟩ | ⟨-, heq⟩⟩⟩⟩ <;>
    rcases hturn with hturn | hturn <;> cases heq.symm.trans hturn
  · exact ⟨hlaw, hd⟩
  · exact ⟨hpoll, hd⟩
  · exact ⟨hpoll, hd⟩
  · have hgrow := growth_of_turn s config hlaw u d'
    exact ⟨hgrow.lawful, hgrow.known f d hd⟩
  · have hgrow := growth_of_turn s config hlaw u d'
    exact ⟨hgrow.lawful, hgrow.known f d hd⟩

/-- A walk that is told to stop at once visits nothing. -/
theorem breadthFirst_of_reason {f : NodeId} (hfirst : (seeds s ids).head? = some f)
    {reason : Truncation} (hreason : config.watch.reason? 0 = some reason) :
    breadthFirst s ids config = ⟨[], some reason, false⟩ := by
  obtain ⟨rest, hrest⟩ := List.head?_eq_some_iff.mp hfirst
  have hpoll : (({} : Trail).poll config.watch).truncated = some reason := hreason
  have hstop : (({} : Trail).poll config.watch).stopped = true := congrArg Option.isSome hpoll
  have hrecord : ({} : Trail).record config f ⟨0, none⟩ = ({} : Trail).poll config.watch := by
    rw [Trail.record, if_pos hstop]
  have hstart : start config {} (seeds s ids) = ({} : Trail).poll config.watch := by
    rw [hrest, start, hrecord, if_pos hstop]
  rw [breadthFirst, breadthFirstState, hstart, if_pos hstop, State.result, hpoll]
  rfl

/-- Whatever starting puts on the trail is visited. -/
theorem exists_visit_of_start (hs : s.Sound) {f : NodeId}
    (hstart : (start config {} (seeds s ids)).distance? f = some 0) :
    ∃ x ∈ (breadthFirst s ids config).visits, x.node = f ∧ x.distance = 0 := by
  have hlaw : (start config {} (seeds s ids)).Lawful :=
    (seeded_start s config ids (seeds s ids) {} seeded_empty fun v hv => hv).1.lawful
  refine (grounded_run hs config ids).lawful.exists_visit_iff.mpr ?_
  rw [breadthFirstState]
  split
  · exact hstart
  · have hmore : ∀ st st', st.trail.Lawful ∧ st.trail.distance? f = some 0 →
        turn s config st = .more st' → st'.trail.Lawful ∧ st'.trail.distance? f = some 0 :=
      fun _ _ h hmore => distance?_of_turn h.1 h.2 (Or.inl hmore)
    obtain ⟨last, ⟨hlast, hd⟩, hhalt⟩ := run_induction hmore
      { trail := start config {} (seeds s ids) } ⟨hlaw, hstart⟩
    exact (distance?_of_turn hlast hd (Or.inr hhalt)).2

/-- **A walk that is not told to stop at once visits its first seed** if the budget allows
    any visit, even if it is stopped right after. -/
theorem exists_visit_of_first_seed (hs : s.Sound) {f : NodeId}
    (hfirst : (seeds s ids).head? = some f) (hroom : 0 < config.maxNodes)
    (hwatch : config.watch.reason? 0 = none) :
    ∃ x ∈ (breadthFirst s ids config).visits, x.node = f ∧ x.distance = 0 := by
  obtain ⟨rest, hrest⟩ := List.head?_eq_some_iff.mp hfirst
  have hgo : (({} : Trail).poll config.watch).stopped = false := congrArg Option.isSome hwatch
  have hroom : ¬ config.maxNodes ≤ (({} : Trail).order).size := Nat.not_le.mpr hroom
  have hrecord : (({} : Trail).record config f ⟨0, none⟩).stopped = false ∧
      (({} : Trail).record config f ⟨0, none⟩).records =
        (∅ : ExtTreeMap NodeId Record).insert f ⟨0, none⟩ := by
    rw [Trail.record, if_neg (Bool.eq_false_iff.mp hgo), if_neg ExtTreeMap.not_mem_empty,
      if_neg hroom]
    exact ⟨hgo, rfl⟩
  refine exists_visit_of_start hs ?_
  rw [hrest, start, if_neg (Bool.eq_false_iff.mp hrecord.1)]
  refine distance?_start config rest _ ?_
  rw [Trail.distance?, hrecord.2, ExtTreeMap.getElem?_insert_self, Option.map_some]

end CodeGraph.Walk.BreadthFirst

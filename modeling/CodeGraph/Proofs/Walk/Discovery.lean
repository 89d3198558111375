import CodeGraph.Proofs.Walk.Agreement
import CodeGraph.Proofs.Walk.Trace
/-! # Discovery — who finds a node first, breadth first

    Wherever a breadth-first walk is stopped, what it has found until then is
    final: the distances are the shortest ones, and each node was found from the
    first node of the trail that an edge joins with it.

    * `Layered.exists_le`: whatever a short enough route leads to is known, so
      no distance can be undercut (`Layered.nearest`).
    * `FoundAt` says from where a node was found.  It speaks of the front of the
      trail only, so a growing trail keeps it (`FoundAt.grow`).
    * A node that is new when another one is expanded is not joined with any that
      was expanded before (`Layered.not_joined_of_new`). -/

namespace CodeGraph.Walk.BreadthFirst

open Std

variable {s : Store} {config : Config} {ids : List NodeId}

/-! ## Shortest distances -/

section Nearest

variable {st : State} {D : Nat}

/-- If all nodes that wait are `D` or further away, whatever a route of that length leads to
    is known, at most as far away. -/
theorem Layered.exists_le (h : Layered s config ids st) (hD : D ≤ config.maxDepth)
    (hwait : ∀ (i : Nat) (u : NodeId) (d : Nat), st.expanded ≤ i →
      st.trail.order[i]? = some u → st.trail.distance? u = some d → D ≤ d)
    {v : NodeId} {n : Nat} (hr : Route s config ids v n) (hn : n ≤ D) :
    ∃ d ≤ n, st.trail.distance? v = some d := by
  induction hr with
  | seed hid hnode => exact ⟨0, Nat.le_refl 0, h.seed _ hid hnode⟩
  | @step u v n _ hj ih =>
      obtain ⟨d, hd, hu⟩ := ih (by omega)
      obtain ⟨i, hi⟩ := h.grounded.lawful.exists_getElem? hu
      have hexpanded : i < st.expanded := by
        by_contra hlt
        have := hwait i u d (Nat.le_of_not_lt hlt) hi hu
        omega
      obtain ⟨d', hd', hv⟩ := h.closed i u v d hexpanded hi hu (by omega) hj
      exact ⟨d', by omega, hv⟩

/-- A trail on which nothing is more than one further than all that waits has the shortest
    distances. -/
theorem Layered.nearest (h : Layered s config ids st) (hD : D ≤ config.maxDepth)
    (hwait : ∀ (i : Nat) (u : NodeId) (d : Nat), st.expanded ≤ i →
      st.trail.order[i]? = some u → st.trail.distance? u = some d → D ≤ d)
    {t : Trail} (hground : Grounded s config ids t)
    (hknown : ∀ v d, st.trail.distance? v = some d → t.distance? v = some d)
    (hfar : ∀ v d, t.distance? v = some d → d ≤ D + 1) {v : NodeId} {d : Nat}
    (hd : t.distance? v = some d) : Nearest s config ids v d := by
  refine ⟨(hground.route v d hd).1, ?_⟩
  intro n hn
  by_contra hlt
  -- a shorter route leads to what is known already, with the distance it keeps
  have hle := hfar v d hd
  obtain ⟨d', hd', hv⟩ := h.exists_le hD hwait hn (by omega)
  cases hd.symm.trans (hknown v d' hv)
  omega

end Nearest

/-! ## What is found from where -/

/-- A node is a seed, or it was found from the first node of the trail from which a step
    leads to it, and through the first such step. -/
def FoundAt (s : Store) (config : Config) (ids : List NodeId) (t : Trail) (v : NodeId)
    (r : Record) : Prop :=
  (r = ⟨0, none⟩ ∧ v ∈ ids ∧ v ∈ s.nodes) ∨
    v ∉ ids ∧ ∃ (j : Nat) (u : NodeId) (d : Nat) (a : Adjacent),
      t.order[j]? = some u ∧ t.distance? u = some d ∧ r = ⟨d + 1, some (viaOf u a)⟩ ∧
      (steps s config u).find? (fun b => b.neighbor = v) = some a ∧
      ∀ (k : Nat) (w : NodeId), k < j → t.order[k]? = some w →
        ¬ s.Joined config.relationships config.direction w v

/-- Every record says from where its node was found. -/
def Found (s : Store) (config : Config) (ids : List NodeId) (t : Trail) : Prop :=
  ∀ v r, t.records[v]? = some r → FoundAt s config ids t v r

/-- Looking at the watch changes nothing that is found. -/
theorem Found.poll {t : Trail} (h : Found s config ids t) (w : Watch) :
    Found s config ids (t.poll w) :=
  h

/-- A growing trail keeps its front. -/
theorem FoundAt.grow {t t' : Trail} {v : NodeId} {r : Record} {d : Nat} {as : List Adjacent}
    (h : FoundAt s config ids t v r) (hgrow : Growth d as t t') :
    FoundAt s config ids t' v r := by
  rcases h with hseed | ⟨hid, j, u, d', a, hj, hu, hr, hfind, hfirst⟩
  · exact Or.inl hseed
  · refine Or.inr ⟨hid, j, u, d', a, hgrow.keeps j u hj, hgrow.known u d' hu, hr, hfind, ?_⟩
    intro k w hk hw
    have hlt := (Array.getElem?_eq_some_iff.mp hj).1
    exact hfirst k w hk (hgrow.order_of_lt (Nat.lt_trans hk hlt) hw)

/-- Starting records seeds only. -/
theorem record_of_start (config : Config) {v : NodeId} {r : Record} :
    ∀ (l : List NodeId) (t : Trail), (start config t l).records[v]? = some r →
      t.records[v]? = some r ∨ v ∈ l ∧ r = ⟨0, none⟩ := by
  intro l
  induction l with
  | nil => exact fun t hr => Or.inl hr
  | cons id rest ih =>
      intro t hr
      have hrecord : (t.record config id ⟨0, none⟩).records[v]? = some r →
          t.records[v]? = some r ∨ v ∈ id :: rest ∧ r = ⟨0, none⟩ := by
        intro hr
        rcases t.record_cases config id ⟨0, none⟩ with ⟨-, -, hrec⟩ | ⟨-, hrec, -⟩
        · exact Or.inl (hrec ▸ hr)
        · rw [Trail.getElem?_of_insert hrec] at hr
          split at hr
          · rename_i hv
            exact Or.inr ⟨hv ▸ List.mem_cons_self, (Option.some.inj hr).symm⟩
          · exact Or.inl hr
      rw [start] at hr
      split at hr
      · exact hrecord hr
      · rcases ih _ hr with hr | ⟨hv, hr⟩
        · exact hrecord hr
        · exact Or.inr ⟨List.mem_cons_of_mem id hv, hr⟩

/-- Discovering records what was new, through the first step that leads to it. -/
theorem record_of_discover (config : Config) (id : NodeId) (d : Nat) {v : NodeId}
    {r : Record} :
    ∀ (as : List Adjacent) (t : Trail), (discover config id d t as).records[v]? = some r →
      t.records[v]? = some r ∨ v ∉ t.records ∧ ∃ a,
        as.find? (fun b => b.neighbor = v) = some a ∧ r = ⟨d, some (viaOf id a)⟩ := by
  intro as
  -- on the steps; the trail they start from is any
  induction as with
  | nil => exact fun t hr => Or.inl hr
  | cons a rest ih =>
      intro t hr
      rw [discover] at hr
      split at hr
      · rename_i hknown
        rcases ih t hr with hold | ⟨hnew, b, hb, hrb⟩
        · exact Or.inl hold
        · -- the first step leads to a known node, and `v` is new
          have hne : ¬ a.neighbor = v := fun hv => hnew (hv ▸ Trail.knows_iff.mp hknown)
          refine Or.inr ⟨hnew, b, ?_, hrb⟩
          rw [List.find?_cons_of_neg (by simpa using hne), hb]
      · rename_i hnew
        dsimp only at hr
        have hfirst : (a :: rest).find? (fun b => b.neighbor = a.neighbor) = some a := by
          rw [List.find?_cons_of_pos (by simp)]
        rcases t.record_cases config a.neighbor ⟨d, some (viaOf id a)⟩ with
          ⟨hstop, -, hrec⟩ | ⟨hgo, hrec, -⟩
        · rw [if_pos hstop, hrec] at hr
          exact Or.inl hr
        · rw [if_neg (fun h => Bool.noConfusion (hgo.symm.trans h))] at hr
          have hinsert := Trail.getElem?_of_insert hrec v
          rcases ih _ hr with hold | ⟨hnew', b, hb, hrb⟩
          · rw [hinsert] at hold
            split at hold
            · rename_i hv
              cases hold
              subst hv
              exact Or.inr ⟨fun hk => hnew (Trail.knows_iff.mpr hk), a, hfirst, rfl⟩
            · exact Or.inl hold
          · -- the end of the first step is recorded now, and `v` still is not
            have hne : ¬ a.neighbor = v := by
              rintro rfl
              exact hnew' (hrec ▸ ExtTreeMap.mem_insert_self)
            refine Or.inr ⟨fun hk => hnew' ?_, b, ?_, hrb⟩
            · exact hrec ▸ ExtTreeMap.mem_insert.mpr (Or.inr hk)
            · rw [List.find?_cons_of_neg (by simpa using hne), hb]

theorem leadsTo_of_find? (hs : s.Sound) {u v : NodeId} {a : Adjacent}
    (hfind : (steps s config u).find? (fun b => b.neighbor = v) = some a) :
    (viaOf u a).LeadsTo s config v := by
  have hv := List.find?_some hfind
  rw [← of_decide_eq_true hv]
  exact (mem_steps hs).mp (List.mem_of_find?_eq_some hfind)

/-- What is new when a node below the limit is expanded is not joined with a node that was
    expanded before. -/
theorem Layered.not_joined_of_new {st : State} (h : Layered s config ids st) {u : NodeId}
    {d : Nat} (hu : st.trail.order[st.expanded]? = some u)
    (hud : st.trail.distance? u = some d) (hdepth : d < config.maxDepth) {v : NodeId}
    (hv : v ∉ st.trail.records) {k : Nat} {w : NodeId} (hk : k < st.expanded)
    (hw : st.trail.order[k]? = some w) :
    ¬ s.Joined config.relationships config.direction w v := by
  intro hj
  have hwd := h.grounded.lawful.distance?_of_getElem? hw
  have hle := h.ordered k st.expanded w u _ d (Nat.le_of_lt hk) hw hu hwd hud
  obtain ⟨d', -, hd'⟩ := h.closed k w v _ hk hw hwd (Nat.lt_of_le_of_lt hle hdepth) hj
  exact hv (Trail.mem_records_iff.mpr ⟨d', hd'⟩)

/-- **Expanding a node finds what no node before it could find.** -/
theorem Layered.found_of_expanded (hs : s.Sound) {st : State}
    (h : Layered s config ids st) (hfound : Found s config ids st.trail) {u : NodeId} {d : Nat}
    (hu : st.trail.order[st.expanded]? = some u) (hud : st.trail.distance? u = some d)
    (hdepth : d < config.maxDepth) {t : Trail} (ht : t = discover config u (d + 1)
      (st.trail.poll config.watch) (steps s config u))
    (hgrow : Growth (d + 1) (steps s config u) st.trail t) : Found s config ids t := by
  intro v r hr
  rcases record_of_discover config u (d + 1) (steps s config u) _ (ht ▸ hr) with
    hold | ⟨hnew, a, hfind, rfl⟩
  · exact (hfound v r hold).grow hgrow
  · have hjoined : s.Joined config.relationships config.direction u v := by
      have hv := List.find?_some hfind
      exact (exists_step_iff hs).mp ⟨a, List.mem_of_find?_eq_some hfind, of_decide_eq_true hv⟩
    have hid : v ∉ ids := fun hid => hnew (Trail.mem_records_iff.mpr
      ⟨0, h.seed v hid (hs.mem_of_joined hjoined).2⟩)
    refine Or.inr ⟨hid, st.expanded, u, d, a, hgrow.keeps _ _ hu, hgrow.known u d hud, rfl,
      hfind, ?_⟩
    intro k w hk hw
    have hlt := (Array.getElem?_eq_some_iff.mp hu).1
    exact h.not_joined_of_new hu hud hdepth hnew hk
      (hgrow.order_of_lt (Nat.lt_trans hk hlt) hw)

/-! ## Final trails -/

/-- What is final about a trail: distances never decrease along it, they are the shortest
    ones, and each record says from where its node was found. -/
structure Ranked (s : Store) (config : Config) (ids : List NodeId) (t : Trail) : Prop where
  ordered : ∀ (i j : Nat) (u v : NodeId) (d d' : Nat), i ≤ j → t.order[i]? = some u →
    t.order[j]? = some v → t.distance? u = some d → t.distance? v = some d' → d ≤ d'
  nearest : ∀ v d, t.distance? v = some d → Nearest s config ids v d
  found : Found s config ids t

/-- A trail that holds seeds only. -/
theorem ranked_of_seeded {t : Trail} (h : Seeded s ids t) (hfound : Found s config ids t) :
    Ranked s config ids t where
  ordered := by
    intro i j u v d d' _ _ _ hu _
    rw [(h.seed u d hu).1]
    exact Nat.zero_le _
  nearest := by
    intro v d hd
    obtain ⟨rfl, hid, hnode⟩ := h.seed v d hd
    exact ⟨.seed hid hnode, fun n _ => Nat.zero_le n⟩
  found := hfound

/-- A trail that has grown from the next node to be expanded. -/
theorem Layered.ranked_of_growth {st : State} (h : Layered s config ids st) {u : NodeId}
    {d : Nat} (hu : st.trail.order[st.expanded]? = some u)
    (hud : st.trail.distance? u = some d) {t : Trail}
    (hgrow : Growth (d + 1) (steps s config u) st.trail t)
    (hground : Grounded s config ids t) (hfound : Found s config ids t) :
    Ranked s config ids t where
  ordered := by
    intro i j v w d₁ d₂ hij hv hw hd₁ hd₂
    exact h.ordered_of_growth hu hud hgrow hij hv hw hd₁ hd₂
  nearest := by
    intro v d' hd'
    refine h.nearest (h.grounded.route u d hud).2 ?_ hground hgrow.known ?_ hd'
    · intro i w d₁ hi hw hd₁
      exact h.ordered st.expanded i u w d d₁ hi hu hw hud hd₁
    · intro w d₁ hd₁
      exact h.le_of_growth hu hud hgrow hd₁
  found := hfound

/-- A trail all of whose nodes have been expanded. -/
theorem Layered.ranked_of_done {st : State} (h : Layered s config ids st)
    (hdone : st.trail.order[st.expanded]? = none) (hfound : Found s config ids st.trail) :
    Ranked s config ids st.trail where
  ordered := h.ordered
  nearest := by
    intro v d hd
    refine h.nearest (Nat.le_refl config.maxDepth) ?_ h.grounded (fun _ _ hv => hv) ?_ hd
    · -- nothing waits
      intro i u d' hi hu
      have hsize := Array.getElem?_eq_none_iff.mp hdone
      have hlt := (Array.getElem?_eq_some_iff.mp hu).1
      omega
    · intro w d' hd'
      exact Nat.le_succ_of_le (h.grounded.route w d' hd').2
  found := hfound

theorem Found.more (hs : s.Sound) {st st' : State} (h : Layered s config ids st)
    (hfound : Found s config ids st.trail) (hmore : turn s config st = .more st') :
    Found s config ids st'.trail := by
  rcases turn_cases s config st with
    ⟨-, hturn⟩ | ⟨u, hu, ⟨t, -, -, hturn⟩ | ⟨d, hd, ⟨-, hturn⟩ |
      ⟨hdepth, t, ht, ⟨-, hturn⟩ | ⟨-, hturn⟩⟩⟩⟩ <;>
    cases hturn.symm.trans hmore
  · exact hfound.poll config.watch
  · have hud := hd ▸ h.grounded.lawful.distance?_of_getElem? hu
    exact h.found_of_expanded hs hfound hu hud hdepth ht
      (ht ▸ growth_of_turn s config h.grounded.lawful u d)

/-- **Wherever a walk is stopped, its trail is final.** -/
theorem ranked_of_halt (hs : s.Sound) {st st' : State} (h : Layered s config ids st)
    (hfound : Found s config ids st.trail) (hhalt : turn s config st = .halt st') :
    Ranked s config ids st'.trail := by
  have hground := h.grounded.halt hs hhalt
  rcases turn_cases s config st with
    ⟨hdone, hturn⟩ | ⟨u, hu, ⟨t, ht, -, hturn⟩ | ⟨d, hd, ⟨-, hturn⟩ |
      ⟨hdepth, t, ht, ⟨-, hturn⟩ | ⟨-, hturn⟩⟩⟩⟩ <;>
    cases hturn.symm.trans hhalt
  · exact h.ranked_of_done hdone hfound
  · have hud := h.grounded.lawful.distance?_of_getElem? hu
    subst ht
    exact h.ranked_of_growth hu hud (.of_eq hground.lawful rfl rfl) hground (hfound.poll _)
  · have hud := hd ▸ h.grounded.lawful.distance?_of_getElem? hu
    have hgrow : Growth (d + 1) (steps s config u) st.trail t :=
      ht ▸ growth_of_turn s config h.grounded.lawful u d
    exact h.ranked_of_growth hu hud hgrow hground
      (h.found_of_expanded hs hfound hu hud hdepth ht hgrow)

/-- What a walk records is final, also when it was stopped. -/
theorem ranked_run (hs : s.Sound) (config : Config) (ids : List NodeId) :
    Ranked s config ids (breadthFirstState s ids config).trail := by
  obtain ⟨hseeded, hall⟩ := seeded_start s config ids (seeds s ids) {} seeded_empty
    fun v hv => hv
  have hfound : Found s config ids (start config {} (seeds s ids)) := by
    intro v r hr
    rcases record_of_start config (seeds s ids) {} hr with hr | ⟨hv, rfl⟩
    · simp at hr
    · exact Or.inl ⟨rfl, mem_seeds.mp hv⟩
  rw [breadthFirstState]
  split
  · exact ranked_of_seeded hseeded hfound
  · rename_i hgo
    obtain ⟨last, ⟨hlast, hlastFound⟩, hhalt⟩ := run_induction
      (P := fun st => Layered s config ids st ∧ Found s config ids st.trail)
      (fun _ _ h hmore => ⟨h.1.more hs hmore, Found.more hs h.1 h.2 hmore⟩)
      { trail := start config {} (seeds s ids) }
      ⟨layered_start hseeded config fun v hv =>
        hall (Bool.eq_false_iff.mpr hgo) v (Or.inl hv), hfound⟩
    exact ranked_of_halt hs hlast hlastFound hhalt

/-! ## The result -/

/-- **What a walk records is traced,** also when it was stopped. -/
theorem traced_run (hs : s.Sound) (config : Config) (ids : List NodeId) :
    (breadthFirstState s ids config).trail.Traced s config ids := by
  intro v r hr
  rcases (ranked_run hs config ids).found v r hr with
    hseed | ⟨-, j, u, d, a, -, hu, rfl, hfind, -⟩
  · exact Or.inl hseed
  · exact Or.inr ⟨viaOf u a, d, rfl, leadsTo_of_find? hs hfind, hu, Nat.lt_succ_self d⟩

/-- The first step that leads to a node is taken through the first such edge. -/
theorem edgeIndex_le_of_find? (hs : s.Sound) {u v : NodeId} {a : Adjacent}
    (hfind : (steps s config u).find? (fun b => b.neighbor = v) = some a) {i : Nat} {e : Edge}
    (he : s.edges[i]? = some e) (htakes : config.Takes e u v) : a.edgeIndex ≤ i := by
  obtain ⟨hv, front, rest, hsteps, hfront⟩ := List.find?_eq_some_iff_append.mp hfind
  have hv : a.neighbor = v := of_decide_eq_true hv
  have hmem : (⟨v, i, e.relationship⟩ : Adjacent) ∈ steps s config u :=
    (mem_steps hs).mpr ⟨e, he, rfl, htakes⟩
  have hascend := steps_ascend s config u
  rw [hsteps] at hmem hascend
  rcases List.mem_append.mp hmem with hmem | hmem
  · simpa using hfront _ hmem
  · rcases List.mem_cons.mp hmem with heq | hmem
    · rw [← heq]
    · have hle := (List.pairwise_cons.mp (List.pairwise_append.mp hascend).2.1).1 _ hmem
      have hself : compare v v = .eq := ReflCmp.compare_self
      rw [hv, hself, Ordering.eq_then, Nat.isLE_compare] at hle
      exact hle

end CodeGraph.Walk.BreadthFirst

namespace CodeGraph.Walk

variable {s : Store} {config : Config} {ids : List NodeId}

/-- The visits come nearest first, each at its shortest distance, and every node but the seeds
    was found from the first visited node that an edge joins with it, through the first such
    edge. -/
structure Layers (s : Store) (config : Config) (ids : List NodeId) (r : Result) : Prop where
  ascend : r.visits.Pairwise fun x y => x.distance ≤ y.distance
  nearest : ∀ x ∈ r.visits, Nearest s config ids x.node x.distance
  earliest : ∀ x ∈ r.visits, x.node ∉ ids → ∃ via, x.via = some via ∧
    via.LeadsTo s config x.node ∧
    (∃ j : Nat, r.nodes[j]? = some via.source ∧ ∀ (k : Nat) (w : NodeId),
      r.nodes[k]? = some w → s.Joined config.relationships config.direction w x.node → j ≤ k) ∧
    ∀ (i : Nat) (e : Edge), s.edges[i]? = some e → config.Takes e via.source x.node →
      via.edgeIndex ≤ i

/-- A final trail is laid out in layers. -/
theorem BreadthFirst.Ranked.layers (hs : s.Sound) {t : Trail} (hlaw : t.Lawful)
    (h : BreadthFirst.Ranked s config ids t) (truncated : Option Truncation) (reached : Bool) :
    Layers s config ids ⟨t.visits, truncated, reached⟩ where
  ascend := by
    -- visits stand in the order of the trail
    have hplace : ∀ (i : Nat) (hi : i < t.visits.length), t.order[i]? = some t.visits[i].node ∧
        t.distance? t.visits[i].node = some t.visits[i].distance := by
      intro i hi
      refine ⟨?_, hlaw.exists_visit_iff.mp ⟨t.visits[i], List.getElem_mem hi, rfl, rfl⟩⟩
      rw [← Array.getElem?_toList, ← hlaw.map_node_visits, List.getElem?_map,
        List.getElem?_eq_getElem hi, Option.map_some]
    rw [List.pairwise_iff_getElem]
    intro i j hi hj hij
    exact h.ordered i j _ _ _ _ (Nat.le_of_lt hij) (hplace i hi).1 (hplace j hj).1
      (hplace i hi).2 (hplace j hj).2
  nearest := by
    intro x hx
    exact h.nearest x.node x.distance (hlaw.exists_visit_iff.mp ⟨x, hx, rfl, rfl⟩)
  earliest := by
    have hnodes : ∀ i : Nat, (Result.nodes ⟨t.visits, truncated, reached⟩)[i]? = t.order[i]? := by
      intro i
      rw [Result.nodes, hlaw.map_node_visits, Array.getElem?_toList]
    intro x hx hnode
    rcases h.found x.node ⟨x.distance, x.via⟩ (hlaw.mem_visits.mp hx) with
      ⟨-, hid, -⟩ | ⟨-, j, u, d, a, hj, -, hr, hfind, hfirst⟩
    · exact absurd hid hnode
    · refine ⟨viaOf u a, congrArg Record.via hr, ?_, ⟨j, ?_, ?_⟩, ?_⟩
      · exact BreadthFirst.leadsTo_of_find? hs hfind
      · rw [hnodes, hj, viaOf]
      · intro k w hw hjoined
        by_contra hlt
        exact hfirst k w (Nat.lt_of_not_le hlt) (hnodes k ▸ hw) hjoined
      · intro i e he htakes
        exact BreadthFirst.edgeIndex_le_of_find? hs hfind he htakes

/-- **A breadth-first walk is laid out in layers, wherever it is stopped.**  Whatever the
    filters, the limits and the seeds, its visits never come nearer again, their distances
    are the shortest ones, and each node was found as early as it could be. -/
theorem breadthFirst_in_layers (hs : s.Reachable) (config : Config) (ids : List NodeId) :
    Layers s config ids (breadthFirst s ids config) :=
  (BreadthFirst.ranked_run hs.sound config ids).layers hs.sound
    (BreadthFirst.grounded_run hs.sound config ids).lawful _ _

/-- Against the calls as well as along them, `d` is found through the first of two parallel
    calls and `e` through the call that it makes; `f` is refused while `e` is expanded. -/
theorem layers_of_detour :
    let config : Config := { direction := .either, maxNodes := 5 }
    Layers detour config [⟨"a"⟩] (breadthFirst detour [⟨"a"⟩] config) ∧
      (breadthFirst detour [⟨"a"⟩] config).truncated = some .nodeBudget ∧
      (breadthFirst detour [⟨"a"⟩] config).visits.map
          (fun x => (x.node.text, x.distance, x.via.map (·.edgeIndex))) =
        [("a", 0, none), ("b", 1, some 0), ("d", 1, some 3), ("e", 1, some 6),
          ("c", 2, some 1)] := by
  intro config
  have hfound : ((breadthFirst detour [⟨"a"⟩] config).truncated,
      (breadthFirst detour [⟨"a"⟩] config).visits.map
        fun x => (x.node.text, x.distance, x.via.map (·.edgeIndex))) =
      (some .nodeBudget, [("a", 0, none), ("b", 1, some 0), ("d", 1, some 3),
        ("e", 1, some 6), ("c", 2, some 1)]) :=
    BreadthFirst.read_of_stateWithin (fun r => (r.truncated, r.visits.map
      fun x => (x.node.text, x.distance, x.via.map (·.edgeIndex)))) 6 (by cbv)
  exact ⟨breadthFirst_in_layers reachable_detour config [⟨"a"⟩], Prod.mk.inj hfound⟩

end CodeGraph.Walk

import CodeGraph.Proofs.Walk.Union
/-! # Seeding — what a hybrid walk makes of its seeds

    A hybrid walk may be stopped at any poll and cut at any node.  Its seeds come to a clear
    end all the same: either it lists all of them, in front and at distance zero, or it lists
    nothing else.

    * A watch that has shown a reason to stop goes on showing one (`Watch.reason?_of_le`).  So
      if it stops the first walk among the seeds, the second one visits nothing.
    * If the budget stops the first walk among the seeds, these fill it, and come before what
      the second walk adds (`exists_front`).
    * If nothing does, all seeds are visited and the budget has room for them. -/

namespace CodeGraph.Walk

open Std

variable {s : Store} {ids : List NodeId}

/-! ## Reasons to stop -/

/-- A watch that has shown a reason to stop goes on showing one. -/
theorem Watch.reason?_of_le {w : Watch} {polls polls' : Nat} (hle : polls ≤ polls')
    (h : (w.reason? polls).isSome = true) : (w.reason? polls').isSome = true := by
  have hlater : ∀ o : Option Nat, o.any (· ≤ polls) = true → o.any (· ≤ polls') = true := by
    intro o ho
    rw [Option.any_eq_true] at ho ⊢
    obtain ⟨n, hn, hreached⟩ := ho
    exact ⟨n, hn, decide_eq_true (Nat.le_trans (of_decide_eq_true hreached) hle)⟩
  rw [reason?] at h ⊢
  split
  · rfl
  · rename_i hcancelled
    rw [if_neg fun hc => hcancelled (hlater _ hc)] at h
    split at h
    · rename_i hexpired
      rw [if_pos (hlater _ hexpired)]
      rfl
    · cases h

/-- A record is refused because the watch shows a reason, or because the budget is used
    up. -/
theorem Trail.record_of_stopped {config : Config} {t : Trail} {id : NodeId} {r : Record}
    (h : (t.record config id r).stopped = true) :
    (∃ reason, config.watch.reason? t.polls = some reason ∧
        (t.record config id r).truncated = some reason ∧
        (t.record config id r).polls = t.polls + 1) ∨
      (t.record config id r).truncated = some .nodeBudget ∧ config.maxNodes ≤ t.order.size := by
  rw [record] at h ⊢
  by_cases hstop : (t.poll config.watch).stopped = true
  · rw [if_pos hstop]
    obtain ⟨reason, hreason⟩ := Option.isSome_iff_exists.mp hstop
    exact Or.inl ⟨reason, hreason, hreason, rfl⟩
  · rw [if_neg hstop] at h ⊢
    by_cases hmem : id ∈ t.records
    · rw [if_pos hmem] at h
      exact absurd h hstop
    · rw [if_neg hmem] at h ⊢
      by_cases hfull : config.maxNodes ≤ t.order.size
      · rw [if_pos hfull]
        exact Or.inr ⟨rfl, hfull⟩
      · rw [if_neg hfull] at h
        exact absurd h hstop

/-- A depth-first walk that is told to stop at once visits nothing. -/
theorem DepthFirst.visits_of_reason {config : Config}
    (hreason : (config.watch.reason? 0).isSome = true) : (depthFirst s ids config).visits = [] := by
  have hstop : (({} : Trail).poll config.watch).stopped = true := hreason
  rw [depthFirst, depthFirstState]
  cases seeds s ids with
  | nil =>
      have hhalt : turn s config { stack := [] } = .halt { stack := [] } := rfl
      rw [List.map_nil, run_of_halt hhalt]
      rfl
  | cons f rest =>
      have hrecord : ({} : Trail).record config f ⟨0, none⟩ = ({} : Trail).poll config.watch := by
        rw [Trail.record, if_pos hstop]
      have hhalt : turn s config { stack := (f :: rest).map fun id => ⟨id, ⟨0, none⟩⟩ } =
          .halt { stack := rest.map fun id => ⟨id, ⟨0, none⟩⟩
                  trail := ({} : Trail).poll config.watch } := by
        rw [turn, List.map_cons]
        dsimp only
        rw [hrecord, if_pos hstop]
        rfl
      rw [run_of_halt hhalt]
      rfl

/-! ## Seeds on the trail -/

namespace BreadthFirst

/-- Starting is stopped by the watch, or by the budget before all seeds are on the trail. -/
theorem start_of_stopped (config : Config) :
    ∀ (l : List NodeId) (t : Trail), t.stopped = false → (start config t l).stopped = true →
      (∃ reason polls, config.watch.reason? polls = some reason ∧
          (start config t l).truncated = some reason ∧ polls < (start config t l).polls) ∨
        (start config t l).truncated = some .nodeBudget ∧
          config.maxNodes ≤ (start config t l).order.size ∧
          (start config t l).order.size < t.order.size + l.length := by
  intro l
  -- on the seeds that are left; each one before the stop adds one node at most
  induction l with
  | nil => exact fun t hgo hstop => absurd hstop (Bool.eq_false_iff.mp hgo)
  | cons id rest ih =>
      intro t _ hstop
      rw [start] at hstop ⊢
      by_cases hfirst : (t.record config id ⟨0, none⟩).stopped = true
      · rw [if_pos hfirst]
        have horder : (t.record config id ⟨0, none⟩).order = t.order := by
          rcases t.record_cases config id ⟨0, none⟩ with ⟨-, horder, -⟩ | ⟨hgo, -⟩
          · exact horder
          · exact absurd hfirst (Bool.eq_false_iff.mp hgo)
        rcases Trail.record_of_stopped hfirst with
          ⟨reason, hreason, htrunc, hpolls⟩ | ⟨htrunc, hfull⟩
        · exact Or.inl ⟨reason, t.polls, hreason, htrunc, hpolls ▸ Nat.lt_succ_self _⟩
        · rw [horder, List.length_cons]
          exact Or.inr ⟨htrunc, hfull, by omega⟩
      · rw [if_neg hfirst] at hstop ⊢
        refine (ih _ (Bool.eq_false_iff.mpr hfirst) hstop).imp_right ?_
        rintro ⟨htrunc, hfull, hlt⟩
        have hsize : (t.record config id ⟨0, none⟩).order.size ≤ t.order.size + 1 := by
          rcases t.record_cases config id ⟨0, none⟩ with
            ⟨-, horder, -⟩ | ⟨-, -, ⟨-, horder⟩ | ⟨-, -, horder⟩⟩
          · exact horder ▸ Nat.le_succ _
          · exact horder ▸ Nat.le_succ _
          · rw [horder, Array.size_push]
        refine ⟨htrunc, hfull, ?_⟩
        rw [List.length_cons]
        omega

theorem size_start_le (config : Config) :
    ∀ (l : List NodeId) (t : Trail), t.order.size ≤ config.maxNodes →
      (start config t l).order.size ≤ config.maxNodes := by
  intro l
  induction l with
  | nil => exact fun t h => h
  | cons id rest ih =>
      intro t h
      have hrecord := Trail.size_record_le h id ⟨0, none⟩
      rw [start]
      split
      · exact hrecord
      · exact ih _ hrecord

/-- If nothing stops a walk among its seeds, the budget has room for them, and all are
    visited. -/
theorem visited_of_start (hs : s.Sound) {config : Config}
    (hgo : (start config {} (seeds s ids)).stopped = false) :
    (seeds s ids).length ≤ config.maxNodes ∧ ∀ f ∈ seeds s ids,
      ∃ x ∈ (breadthFirst s ids config).visits, x.node = f ∧ x.distance = 0 := by
  obtain ⟨hseeded, hall⟩ := seeded_start s config ids (seeds s ids) {} seeded_empty
    fun v hv => hv
  constructor
  · have hsize := size_start_le config (seeds s ids) {} (Nat.zero_le _)
    refine Nat.le_trans ?_ hsize
    rw [← Array.length_toList]
    exact (List.subperm_of_subset (Hybrid.nodup_seeds s ids) fun v hv =>
      (hseeded.lawful.mem_order v).mpr (hall hgo v (Or.inl hv))).length_le
  · intro f hf
    obtain ⟨d, hd⟩ := Trail.mem_records_iff.mp (hall hgo f (Or.inl hf))
    exact exists_visit_of_start hs ((hseeded.seed f d hd).1 ▸ hd)

/-- A walk that is stopped among its seeds visits nothing else. -/
theorem seed_of_visit {config : Config}
    (hstop : (start config {} (seeds s ids)).stopped = true) {x : Visit}
    (hx : x ∈ (breadthFirst s ids config).visits) : x.distance = 0 ∧ x.node ∈ seeds s ids := by
  have hseeded := (seeded_start s config ids (seeds s ids) {} seeded_empty fun v hv => hv).1
  rw [breadthFirst, breadthFirstState, if_pos hstop] at hx
  obtain ⟨hzero, hseed⟩ := hseeded.seed x.node x.distance
    (hseeded.lawful.exists_visit_iff.mp ⟨x, hx, rfl, rfl⟩)
  exact ⟨hzero, mem_seeds.mpr hseed⟩

end BreadthFirst

/-! ## Hybrid walks -/

namespace Hybrid

variable {config : Config}

/-- No node is listed twice. -/
theorem nodup_hybrid (s : Store) (ids : List NodeId) (config : Config) :
    ((hybrid s ids config).nodes.map (·.id)).Nodup := by
  rw [hybrid, nodes_unite]
  exact (nodup_union _ _).sublist ((List.take_sublist _ _).map _)

/-- What is listed comes in its order. -/
theorem pairwise_hybrid (s : Store) (ids : List NodeId) (config : Config) :
    (hybrid s ids config).nodes.Pairwise Before := by
  rw [hybrid, nodes_unite]
  exact (pairwise_union _ _).sublist (List.take_sublist _ _)

/-- As much is listed as the budget allows. -/
theorem length_hybrid_le (s : Store) (ids : List NodeId) (config : Config) :
    (hybrid s ids config).nodes.length ≤ config.maxNodes := by
  rw [hybrid, nodes_unite]
  exact List.length_take_le _ _

/-- A breadth-first walk that is stopped among the seeds ends with their trail. -/
theorem trail_of_start
    (hstop : (BreadthFirst.start config.breadth {} (seeds s ids)).stopped = true) :
    (breadthFirstState s ids config.breadth).trail =
      BreadthFirst.start config.breadth {} (seeds s ids) := by
  rw [breadthFirstState, if_pos hstop]

/-- **If the watch stops the first walk among the seeds,** the second one visits nothing. -/
theorem seeds_only_of_reason (hs : s.Sound)
    (hstop : (BreadthFirst.start config.breadth {} (seeds s ids)).stopped = true)
    {reason : Truncation} {polls : Nat} (hreason : config.watch.reason? polls = some reason)
    (hpolls : polls < (BreadthFirst.start config.breadth {} (seeds s ids)).polls) :
    ∀ t ∈ (hybrid s ids config).nodes, t.id ∈ seeds s ids := by
  intro t ht
  rw [hybrid, nodes_unite] at ht
  have hnone : (depthFirst s ids
      (config.depth (breadthFirstState s ids config.breadth).trail.polls)).visits = [] := by
    refine DepthFirst.visits_of_reason ?_
    rw [trail_of_start hstop, Config.depth, Watch.reason?_later]
    exact Watch.reason?_of_le (Nat.le_of_lt hpolls) (Option.isSome_of_eq_some hreason)
  have hid := (mem_map_id_union (BreadthFirst.nodup_nodes hs _ _)
    (DepthFirst.nodup_nodes hs _ _)).mp (List.mem_map_of_mem (List.mem_of_mem_take ht))
  rcases hid with hid | hid
  · obtain ⟨x, hx, hnode⟩ := List.mem_map.mp hid
    exact hnode ▸ (BreadthFirst.seed_of_visit hstop hx).2
  · rw [Walk.Result.nodes, hnone] at hid
    cases hid

/-- **If the budget stops the first walk among the seeds,** these fill it, and the order puts
    them in front of what the second walk adds. -/
theorem seeds_only_of_full (hs : s.Sound)
    (hstop : (BreadthFirst.start config.breadth {} (seeds s ids)).stopped = true)
    (hfull : config.maxNodes ≤ (BreadthFirst.start config.breadth {} (seeds s ids)).order.size) :
    ∀ t ∈ (hybrid s ids config).nodes, t.id ∈ seeds s ids := by
  intro t ht
  rw [hybrid, nodes_unite] at ht
  have hbfs := BreadthFirst.nodup_nodes hs config.breadth ids
  obtain ⟨front, rest, hunion, hfront, -⟩ := exists_front hbfs
    (DepthFirst.nodup_nodes hs (config.depth (breadthFirstState s ids config.breadth).trail.polls)
      ids)
  have hseed : ∀ v, v ∈ front.map (·.id) ↔ v ∈ (breadthFirst s ids config.breadth).nodes := by
    intro v
    rw [hfront, Walk.Result.distance?_eq_some_iff hbfs, Walk.Result.mem_nodes]
    constructor
    · exact fun h => ⟨0, h⟩
    · rintro ⟨-, x, hx, hnode, -⟩
      exact ⟨x, hx, hnode, (BreadthFirst.seed_of_visit hstop hx).1⟩
  -- every node of the first walk is in front
  have hlength : config.maxNodes ≤ front.length := by
    have hnodes : (breadthFirst s ids config.breadth).nodes.length =
        (BreadthFirst.start config.breadth {} (seeds s ids)).order.size := by
      rw [BreadthFirst.nodes_breadthFirst hs, trail_of_start hstop, Array.length_toList]
    rw [← List.length_map (fun t : Tagged => t.id)]
    refine Nat.le_trans (hnodes ▸ hfull) ?_
    exact (List.subperm_of_subset hbfs fun v hv => (hseed v).mpr hv).length_le
  have hmem : t ∈ front := by
    have hunion' : union (breadthFirstState s ids config.breadth).result _ = front ++ rest := hunion
    rw [hunion', List.take_append_of_le_length hlength] at ht
    exact List.mem_of_mem_take ht
  obtain ⟨x, hx, hnode⟩ := List.mem_map.mp ((hseed t.id).mp (List.mem_map_of_mem hmem))
  exact hnode ▸ (BreadthFirst.seed_of_visit hstop hx).2

/-- **All seeds or nothing else.**  Whatever stops a hybrid walk and wherever it is cut, it
    lists all its seeds in front, at distance zero, and the budget has room for them; or it
    lists seeds only, and then the watch stopped it or there are more seeds than the budget
    allows. -/
theorem hybrid_seeds_cases (hs : s.Sound) (ids : List NodeId) (config : Config) :
    ((seeds s ids).length ≤ config.maxNodes ∧ ∃ front rest,
        (hybrid s ids config).nodes = front ++ rest ∧ (front.map (·.id)).Perm (seeds s ids) ∧
        ∀ t ∈ front, t.tags.bfsDistance = some 0) ∨
      (∀ t ∈ (hybrid s ids config).nodes, t.id ∈ seeds s ids) ∧
        ((∃ polls reason, config.watch.reason? polls = some reason ∧
            (hybrid s ids config).truncated = some reason) ∨
          config.maxNodes < (seeds s ids).length) := by
  by_cases hstop : (BreadthFirst.start config.breadth {} (seeds s ids)).stopped = true
  · refine Or.inr ?_
    rcases BreadthFirst.start_of_stopped config.breadth (seeds s ids) {} rfl hstop with
      ⟨reason, polls, hreason, htruncated, hpolls⟩ | ⟨-, hfull, hlt⟩
    · refine ⟨seeds_only_of_reason hs hstop hreason hpolls, Or.inl ⟨polls, reason, hreason, ?_⟩⟩
      rw [hybrid, truncated_unite, BreadthFirst.State.result, trail_of_start hstop, htruncated]
      rfl
    · rw [Array.size_empty, Nat.zero_add] at hlt
      exact ⟨seeds_only_of_full hs hstop hfull, Or.inr (Nat.lt_of_le_of_lt hfull hlt)⟩
  · obtain ⟨hroom, hall⟩ := BreadthFirst.visited_of_start hs (Bool.eq_false_iff.mpr hstop)
    have hdfs := DepthFirst.nodup_nodes hs
      (config.depth (breadthFirstState s ids config.breadth).trail.polls) ids
    obtain ⟨front, rest, hunion, hperm, hzero⟩ := exists_front_of_visited hs hdfs hall
    refine Or.inl ⟨hroom, front, rest.take (config.maxNodes - front.length), ?_, hperm, hzero⟩
    have hfront : front.length ≤ config.maxNodes := by
      rw [← List.length_map (fun t : Tagged => t.id), hperm.length_eq]
      exact hroom
    have hunion' : union (breadthFirstState s ids config.breadth).result _ = front ++ rest := hunion
    rw [hybrid, nodes_unite, hunion', List.take_append, List.take_of_length_le hfront]

end Hybrid

end CodeGraph.Walk

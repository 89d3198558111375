import CodeGraph.Proofs.Walk.Budget
import CodeGraph.Proofs.Walk.Hybrid
import Std.Data.TreeMap
/-! # Unions — what a hybrid walk lists

    The budget holds three times: for each of the two walks and for their union.  Whichever
    of them it cuts, the outcome is the same as if it had held for the union alone.

    * `Before` says the order of the nodes without a comparison (`compare_eq_lt_iff`).
    * Either no walk was cut, and then their union has all nodes within the limits with their
      distances, or one was, and it fills the budget on its own (`union_cases`).  What the
      budget does to the union after that is what it would have done to all those nodes.
    * A breadth-first walk begins with its seeds (`BreadthFirst.exists_visit_of_seed`).  No
      other node is at distance zero, so the order leaves them in front
      (`exists_front_of_union`), and a cut leaves them all if there is room. -/

namespace CodeGraph.Walk

open Std

variable {s : Store} {ids : List NodeId}

/-! ## Seeds that fit -/

/-- Starting is not stopped as long as there is room for all seeds. -/
theorem BreadthFirst.stopped_start {config : Walk.Config} (hwatch : config.watch = .never) :
    ∀ (l : List NodeId) (t : Trail), t.stopped = false →
      t.order.size + l.length ≤ config.maxNodes → (start config t l).stopped = false := by
  intro l
  induction l with
  | nil => exact fun t hgo _ => hgo
  | cons id rest ih =>
      intro t hgo hroom
      rw [List.length_cons] at hroom
      rw [start]
      rcases t.record_cases_of_never hwatch id ⟨0, none⟩ with
        ⟨-, -, -, -, hfull⟩ | ⟨hnone, -, ⟨-, horder⟩ | ⟨-, -, horder⟩⟩
      · omega
      · have hgo' : (t.record config id ⟨0, none⟩).stopped = false := congrArg Option.isSome hnone
        rw [if_neg (Bool.eq_false_iff.mp hgo')]
        exact ih _ hgo' (by rw [horder]; omega)
      · have hgo' : (t.record config id ⟨0, none⟩).stopped = false := congrArg Option.isSome hnone
        rw [if_neg (Bool.eq_false_iff.mp hgo')]
        exact ih _ hgo' (by rw [horder, Array.size_push]; omega)

/-- **A breadth-first walk visits all its seeds, if the budget allows that.** -/
theorem BreadthFirst.exists_visit_of_seed {config : Walk.Config} (hs : s.Sound)
    (hwatch : config.watch = .never) (hroom : (seeds s ids).length ≤ config.maxNodes)
    {f : NodeId} (hf : f ∈ seeds s ids) :
    ∃ x ∈ (breadthFirst s ids config).visits, x.node = f ∧ x.distance = 0 := by
  obtain ⟨hseeded, hall⟩ := seeded_start s config ids (seeds s ids) {} seeded_empty
    fun v hv => hv
  have hgo := stopped_start hwatch (seeds s ids) {} rfl (by
    rw [Array.size_empty, Nat.zero_add]
    exact hroom)
  obtain ⟨d, hd⟩ := Trail.mem_records_iff.mp (hall hgo f (Or.inl hf))
  exact exists_visit_of_start hs ((hseeded.seed f d hd).1 ▸ hd)

/-- What a route of no length leads to is a seed. -/
theorem Route.mem_seeds {config : Walk.Config} {v : NodeId} (h : Route s config ids v 0) :
    v ∈ seeds s ids := by
  cases h with
  | seed hid hv => exact Walk.mem_seeds.mpr ⟨hid, hv⟩

namespace Hybrid

/-! ## The order -/

/-- A number that is smaller, or one where there is none. -/
def TagBefore : Option Nat → Option Nat → Prop
  | some a, some b => a < b
  | some _, none => True
  | none, _ => False

/-- One node comes before another: by its breadth-first distance, then by its depth, then by
    its identifier. -/
def Before (a b : Tagged) : Prop :=
  TagBefore a.tags.bfsDistance b.tags.bfsDistance ∨
    a.tags.bfsDistance = b.tags.bfsDistance ∧
      (TagBefore a.tags.dfsDepth b.tags.dfsDepth ∨
        a.tags.dfsDepth = b.tags.dfsDepth ∧ compare a.id b.id = .lt)

theorem compareTag_eq_lt_iff {a b : Option Nat} : compareTag a b = .lt ↔ TagBefore a b := by
  cases a with
  | none => cases b <;> exact ⟨nofun, nofun⟩
  | some a =>
      cases b with
      | none => exact ⟨fun _ => trivial, fun _ => rfl⟩
      | some b => exact Nat.compare_eq_lt

theorem compareTag_eq_eq_iff {a b : Option Nat} : compareTag a b = .eq ↔ a = b := by
  cases a with
  | none => cases b <;> simp [compareTag]
  | some a =>
      cases b with
      | none => exact ⟨nofun, nofun⟩
      | some b => exact Nat.compare_eq_eq.trans (Option.some_inj).symm

/-- The comparison says which node comes before the other. -/
theorem compare_eq_lt_iff {a b : Tagged} : Tagged.compare a b = .lt ↔ Before a b := by
  rw [Tagged.compare, Before, Ordering.then_eq_lt, Ordering.then_eq_lt, Ordering.then_eq_eq,
    compareTag_eq_lt_iff, compareTag_eq_lt_iff, compareTag_eq_eq_iff, compareTag_eq_eq_iff]
  tauto

/-- Nodes that the comparison does not tell apart have the same identifier. -/
theorem id_eq_of_compare {a b : Tagged} (h : Tagged.compare a b = .eq) : a.id = b.id :=
  LawfulEqCmp.eq_of_compare (Ordering.then_eq_eq.mp h).2

/-! ## The nodes of a union -/

section

variable {bfs dfs : Walk.Result}

/-- No node is in a union twice. -/
theorem nodup_union (bfs dfs : Walk.Result) : ((union bfs dfs).map (·.id)).Nodup := by
  have hperm := (List.mergeSort_perm
    ((merge bfs dfs).toList.map fun p => Tagged.mk p.1 p.2) Tagged.le).map (·.id)
  rw [union, hperm.nodup_iff, List.map_map]
  exact (ExtTreeMap.map_fst_toList_eq_keys (t := merge bfs dfs)) ▸ ExtTreeMap.nodup_keys

/-- The nodes of a union come in their order. -/
theorem pairwise_union (bfs dfs : Walk.Result) : (union bfs dfs).Pairwise Before := by
  have hsorted : (union bfs dfs).Pairwise fun a b => (Tagged.compare a b).isLE :=
    Sorting.pairwise_mergeSort Tagged.compare _
  refine (hsorted.and (List.pairwise_map.mp (nodup_union bfs dfs))).imp ?_
  rintro a b ⟨hle, hne⟩
  refine compare_eq_lt_iff.mp ?_
  cases hcmp : Tagged.compare a b with
  | lt => rfl
  | eq => exact absurd (id_eq_of_compare hcmp) hne
  | gt =>
      rw [hcmp] at hle
      cases hle

theorem isSome_distance?_iff {r : Walk.Result} (h : r.nodes.Nodup) {v : NodeId} :
    (r.distance? v).isSome = true ↔ v ∈ r.nodes := by
  rw [Option.isSome_iff_exists, Result.mem_nodes]
  exact exists_congr fun d => Result.distance?_eq_some_iff h

theorem mem_map_id_union (hbfs : bfs.nodes.Nodup) (hdfs : dfs.nodes.Nodup) {v : NodeId} :
    v ∈ (union bfs dfs).map (·.id) ↔ v ∈ bfs.nodes ∨ v ∈ dfs.nodes := by
  rw [← isSome_distance?_iff hbfs, ← isSome_distance?_iff hdfs, ← Bool.or_eq_true, List.mem_map]
  constructor
  · rintro ⟨t, ht, rfl⟩
    exact ((mem_union hbfs hdfs).mp ht).1
  · intro hv
    exact ⟨⟨v, ⟨bfs.distance? v, dfs.distance? v⟩⟩, (mem_union hbfs hdfs).mpr ⟨hv, rfl⟩, rfl⟩

/-- A union is as long as the set of its nodes is large. -/
theorem length_union (hbfs : bfs.nodes.Nodup) (hdfs : dfs.nodes.Nodup) :
    (union bfs dfs).length = {v | v ∈ bfs.nodes ∨ v ∈ dfs.nodes}.ncard := by
  have hset : {v | v ∈ bfs.nodes ∨ v ∈ dfs.nodes} =
      (((union bfs dfs).map (·.id)).toFinset : Set NodeId) := by
    ext v
    rw [Finset.mem_coe, List.mem_toFinset, mem_map_id_union hbfs hdfs]
    rfl
  rw [hset, Set.ncard_coe_finset, List.toFinset_card_of_nodup (nodup_union bfs dfs),
    List.length_map]

/-- A union has at least as many nodes as each of its walks. -/
theorem length_le_length_union (hbfs : bfs.nodes.Nodup) (hdfs : dfs.nodes.Nodup) :
    bfs.nodes.length ≤ (union bfs dfs).length ∧ dfs.nodes.length ≤ (union bfs dfs).length := by
  rw [← List.length_map fun t : Tagged => t.id]
  constructor
  · exact (List.subperm_of_subset hbfs fun v hv =>
      (mem_map_id_union hbfs hdfs).mpr (Or.inl hv)).length_le
  · exact (List.subperm_of_subset hdfs fun v hv =>
      (mem_map_id_union hbfs hdfs).mpr (Or.inr hv)).length_le

/-- **What the breadth-first walk found at distance zero comes first.** -/
theorem exists_front (hbfs : bfs.nodes.Nodup) (hdfs : dfs.nodes.Nodup) :
    ∃ front rest, union bfs dfs = front ++ rest ∧
      (∀ v, v ∈ front.map (·.id) ↔ bfs.distance? v = some 0) ∧
      ∀ t ∈ front, t.tags.bfsDistance = some 0 := by
  have hordered : (union bfs dfs).Pairwise fun a b =>
      decide (b.tags.bfsDistance = some 0) = true →
        decide (a.tags.bfsDistance = some 0) = true := by
    refine (pairwise_union bfs dfs).imp ?_
    intro a b hab hb
    rw [decide_eq_true_eq] at hb ⊢
    rcases hab with hab | ⟨heq, -⟩
    · -- nothing is nearer than a seed
      rw [hb] at hab
      cases ha : a.tags.bfsDistance with
      | none =>
          rw [ha] at hab
          cases hab
      | some d =>
          rw [ha] at hab
          exact absurd hab (Nat.not_lt_zero d)
    · exact heq.trans hb
  refine ⟨_, _, (Sorting.filter_append_filter_not hordered).symm, fun v => ?_, ?_⟩
  · rw [List.mem_map]
    constructor
    · rintro ⟨t, ht, rfl⟩
      obtain ⟨ht, hzero⟩ := List.mem_filter.mp ht
      rw [mem_union hbfs hdfs] at ht
      rwa [decide_eq_true_eq, ht.2] at hzero
    · intro hd
      have ht : (⟨v, ⟨some 0, dfs.distance? v⟩⟩ : Tagged) ∈ union bfs dfs := by
        rw [mem_union hbfs hdfs, hd]
        exact ⟨rfl, rfl⟩
      exact ⟨_, List.mem_filter.mpr ⟨ht, decide_eq_true rfl⟩, rfl⟩
  · intro t ht
    exact of_decide_eq_true (List.mem_filter.mp ht).2

theorem nodup_seeds (s : Store) (ids : List NodeId) : (seeds s ids).Nodup :=
  (seeds_ascend s ids).imp fun {u v} hlt heq => by
    rw [heq, (ReflCmp.compare_self : compare v v = .eq)] at hlt
    cases hlt

/-- Seeds that a breadth-first walk visits come first, whatever it is united with. -/
theorem exists_front_of_visited {config : Walk.Config} (hs : s.Sound) (hdfs : dfs.nodes.Nodup)
    (hall : ∀ f ∈ seeds s ids,
      ∃ x ∈ (breadthFirst s ids config).visits, x.node = f ∧ x.distance = 0) :
    ∃ front rest, union (breadthFirst s ids config) dfs = front ++ rest ∧
      (front.map (·.id)).Perm (seeds s ids) ∧ ∀ t ∈ front, t.tags.bfsDistance = some 0 := by
  have hbfs := BreadthFirst.nodup_nodes hs config ids
  obtain ⟨front, rest, hunion, hfront, hzero⟩ := exists_front hbfs hdfs
  have hnodup : (front.map (·.id)).Nodup := by
    have hids := nodup_union (breadthFirst s ids config) dfs
    rw [hunion, List.map_append] at hids
    exact (List.nodup_append.mp hids).1
  refine ⟨front, rest, hunion, ?_, hzero⟩
  refine (List.perm_ext_iff_of_nodup hnodup (nodup_seeds s ids)).mpr fun v => ?_
  rw [hfront, Result.distance?_eq_some_iff hbfs]
  constructor
  · rintro ⟨x, hx, rfl, hd⟩
    exact (hd ▸ (BreadthFirst.route_of_visit hs hx).1 : Route _ _ _ _ 0).mem_seeds
  · exact hall v

/-- What truncates a union: what truncated one of its walks, or the budget. -/
theorem truncated_unite (maxNodes : Nat) (bfs dfs : Walk.Result) :
    (unite maxNodes bfs dfs).truncated = ((bfs.truncated <|> dfs.truncated) <|>
      if maxNodes < (union bfs dfs).length then some .nodeBudget else none) := by
  rw [unite, union]
  split
  · rfl
  · simp

end

/-! ## The outcome -/

/-- The nodes within the depth limit of either walk. -/
def Reached (s : Store) (config : Config) (ids : List NodeId) : Set NodeId :=
  Within s config.breadth ids ∪ Within s (config.depth 0) ids

/-- Nodes that are all those within the limits, with their distances in either walk. -/
structure ExactlyTagged (s : Store) (config : Config) (ids : List NodeId)
    (nodes : List Tagged) : Prop where
  listed : ∀ v, v ∈ nodes.map (·.id) ↔ v ∈ Reached s config ids
  bfsDistance : ∀ t ∈ nodes, ∀ d, t.tags.bfsDistance = some d ↔
    Nearest s config.breadth ids t.id d ∧ d ≤ config.bfsDepth
  dfsDepth : ∀ t ∈ nodes, ∀ d, t.tags.dfsDepth = some d ↔
    Nearest s (config.depth 0) ids t.id d ∧ d ≤ config.dfsDepth

/-- What a hybrid walk lists under its budget. -/
structure Listing (s : Store) (config : Config) (ids : List NodeId) (r : Result) : Prop where
  finite : (Reached s config ids).Finite
  /-- The walk is truncated exactly if more nodes lie within the limits than the budget
      allows. -/
  truncated : r.truncated =
    if config.maxNodes < (Reached s config ids).ncard then some .nodeBudget else none
  /-- If it is not, it lists them all. -/
  exact : (Reached s config ids).ncard ≤ config.maxNodes → ExactlyTagged s config ids r.nodes
  /-- If it is, it lists as many of them as the budget allows. -/
  full : config.maxNodes < (Reached s config ids).ncard → r.nodes.length = config.maxNodes
  reached : ∀ t ∈ r.nodes, t.id ∈ Reached s config ids
  distinct : (r.nodes.map (·.id)).Nodup
  ordered : r.nodes.Pairwise Before
  /-- If the seeds fit, all of them come first, at distance zero. -/
  seeds : (seeds s ids).length ≤ config.maxNodes → ∃ front rest, r.nodes = front ++ rest ∧
    (front.map (·.id)).Perm (seeds s ids) ∧ ∀ t ∈ front, t.tags.bfsDistance = some 0

section

variable {config : Config}

/-- Without a stop from outside it does not matter when the second walk begins. -/
theorem hybrid_of_never (hwatch : config.watch = .never) (s : Store) (ids : List NodeId) :
    hybrid s ids config = unite config.maxNodes (breadthFirst s ids config.breadth)
      (depthFirst s ids (config.depth 0)) := by
  have hdepth : ∀ polls, config.depth polls = config.depth 0 := by
    intro polls
    rw [Config.depth, Config.depth, hwatch]
    rfl
  rw [hybrid, hdepth]
  rfl

/-- What a hybrid walk lists is read off the states in which its walks halt. -/
theorem read_of_stateWithin {β : Type} (hwatch : config.watch = .never) (f : Result → β)
    (n m : Nat) {b : β} (h : ((BreadthFirst.stateWithin n s ids config.breadth).bind fun near =>
      (DepthFirst.stateWithin m s ids (config.depth 0)).map fun deep =>
        f (unite config.maxNodes near.result deep.result)) = some b) :
    f (hybrid s ids config) = b := by
  obtain ⟨near, hnear, h⟩ := Option.bind_eq_some_iff.mp h
  obtain ⟨deep, hdeep, hb⟩ := Option.map_eq_some_iff.mp h
  rw [hybrid_of_never hwatch, breadthFirst, depthFirst,
    BreadthFirst.breadthFirstState_of_stateWithin hnear,
    DepthFirst.depthFirstState_of_stateWithin hdeep, hb]

/-- The nodes of an exact result are those within the limit. -/
theorem mem_nodes_of_exact {config : Walk.Config} {r : Walk.Result} (h : Exact s config ids r)
    {v : NodeId} : v ∈ r.nodes ↔ v ∈ Within s config ids := by
  rw [Result.mem_nodes]
  exact exists_congr fun d => (h.visited v d).trans and_comm

theorem finite_reached (hs : s.Sound) (config : Config) (ids : List NodeId) :
    (Reached s config ids).Finite :=
  (finite_within hs config.breadth ids).union (finite_within hs (config.depth 0) ids)

/-- The union of exact results has all nodes within the limits, with their distances. -/
theorem exactlyTagged_union {bfs dfs : Walk.Result} (hb : Exact s config.breadth ids bfs)
    (hd : Exact s (config.depth 0) ids dfs) : ExactlyTagged s config ids (union bfs dfs) where
  listed := by
    intro v
    rw [mem_map_id_union hb.nodup hd.nodup, mem_nodes_of_exact hb, mem_nodes_of_exact hd]
    rfl
  bfsDistance := by
    intro t ht d
    rw [((mem_union hb.nodup hd.nodup).mp ht).2, Result.distance?_eq_some_iff hb.nodup]
    exact hb.visited t.id d
  dfsDepth := by
    intro t ht d
    rw [((mem_union hb.nodup hd.nodup).mp ht).2, Result.distance?_eq_some_iff hd.nodup]
    exact hd.visited t.id d

/-- The nodes of both walks lie within their limits. -/
theorem reached_of_mem_union (hs : s.Sound) {t : Tagged}
    (ht : t ∈ union (breadthFirst s ids config.breadth) (depthFirst s ids (config.depth 0))) :
    t.id ∈ Reached s config ids := by
  have hid := (mem_map_id_union (BreadthFirst.nodup_nodes hs _ _)
    (DepthFirst.nodup_nodes hs _ _)).mp (List.mem_map_of_mem ht)
  rcases hid with hid | hid
  · obtain ⟨x, hx, hnode⟩ := List.mem_map.mp hid
    obtain ⟨hroute, hle⟩ := BreadthFirst.route_of_visit hs hx
    exact Or.inl (hnode ▸ mem_within_of_route hroute hle)
  · obtain ⟨x, hx, hnode⟩ := List.mem_map.mp hid
    obtain ⟨hroute, hle⟩ := DepthFirst.route_of_visit hs hx
    exact Or.inr (hnode ▸ mem_within_of_route hroute hle)

/-- **Both walks are exact, and so is their union, or one of them was cut and fills the budget
    on its own.** -/
theorem union_cases (hs : s.Sound) (hwatch : config.watch = .never) (ids : List NodeId) :
    let bfs := breadthFirst s ids config.breadth
    let dfs := depthFirst s ids (config.depth 0)
    ((bfs.truncated = none ∧ dfs.truncated = none) ∧ ExactlyTagged s config ids (union bfs dfs) ∧
        (union bfs dfs).length = (Reached s config ids).ncard) ∨
      ((bfs.truncated <|> dfs.truncated) = some .nodeBudget ∧
        config.maxNodes ≤ (union bfs dfs).length ∧
        config.maxNodes < (Reached s config ids).ncard) := by
  intro bfs dfs
  have hwatch' : (config.depth 0).watch = .never := by
    rw [Config.depth, hwatch]
    rfl
  have hbreadth := BreadthFirst.cutOff hs (show config.breadth.watch = .never from hwatch) ids
  have hdepth := DepthFirst.cutOff hs hwatch' ids
  obtain ⟨hbfs, hdfs⟩ := length_le_length_union hbreadth.nodup hdepth.nodup
  have hfinite := finite_reached hs config ids
  by_cases hb : config.maxNodes < (Within s config.breadth ids).ncard
  · -- the breadth-first walk was cut
    have hfull : bfs.truncated = some .nodeBudget := hbreadth.truncated.trans (if_pos hb)
    have hlength : bfs.nodes.length = config.maxNodes :=
      hbreadth.length.trans (Nat.min_eq_right (Nat.le_of_lt hb))
    refine Or.inr ⟨by rw [hfull]; rfl, hlength ▸ hbfs, Nat.lt_of_lt_of_le hb ?_⟩
    exact Set.ncard_le_ncard Set.subset_union_left hfinite
  · have hbnone : bfs.truncated = none := hbreadth.truncated.trans (if_neg hb)
    by_cases hd : config.maxNodes < (Within s (config.depth 0) ids).ncard
    · -- the depth-first walk was cut
      have hfull : dfs.truncated = some .nodeBudget := hdepth.truncated.trans (if_pos hd)
      have hlength : dfs.nodes.length = config.maxNodes :=
        hdepth.length.trans (Nat.min_eq_right (Nat.le_of_lt hd))
      refine Or.inr ⟨by rw [hbnone, hfull]; rfl, hlength ▸ hdfs, Nat.lt_of_lt_of_le hd ?_⟩
      exact Set.ncard_le_ncard Set.subset_union_right hfinite
    · have hdnone : dfs.truncated = none := hdepth.truncated.trans (if_neg hd)
      -- neither was cut, so each visits all that is within its limits
      have hbexact := BreadthFirst.exact_of_not_truncated hs config.breadth ids hbnone
      have hdexact := DepthFirst.exact_of_not_truncated hs (config.depth 0) ids hdnone
      refine Or.inl ⟨⟨hbnone, hdnone⟩, exactlyTagged_union hbexact hdexact, ?_⟩
      rw [length_union hbexact.nodup hdexact.nodup]
      congr 1
      ext v
      exact or_congr (mem_nodes_of_exact hbexact) (mem_nodes_of_exact hdexact)

/-- **The seeds come first,** if the budget allows them all. -/
theorem exists_front_of_union (hs : s.Sound) (hwatch : config.watch = .never)
    (hroom : (seeds s ids).length ≤ config.maxNodes) :
    ∃ front rest, union (breadthFirst s ids config.breadth) (depthFirst s ids (config.depth 0)) =
        front ++ rest ∧ (front.map (·.id)).Perm (seeds s ids) ∧
      ∀ t ∈ front, t.tags.bfsDistance = some 0 :=
  exists_front_of_visited hs (DepthFirst.nodup_nodes hs _ _) fun _ hf =>
    BreadthFirst.exists_visit_of_seed hs (show config.breadth.watch = .never from hwatch) hroom hf

end

end Hybrid

open Hybrid in
/-- **A hybrid walk lists what its budget allows of the nodes within its limits.**  If nothing
    from outside stops it, it is truncated exactly if the nodes within the limits of either walk
    exceed the budget.  If they do not, it lists them all, tagged with their distances;
    otherwise it lists as many as the budget allows.  In either case no node is listed twice,
    the nodes come in their order, and the seeds come first, if the budget allows them all. -/
theorem hybrid_lists (hs : s.Reachable) {config : Hybrid.Config}
    (hwatch : config.watch = .never) (ids : List NodeId) :
    Listing s config ids (hybrid s ids config) := by
  rw [hybrid_of_never hwatch]
  have hnodes := nodes_unite config.maxNodes (breadthFirst s ids config.breadth)
    (depthFirst s ids (config.depth 0))
  have htruncated := truncated_unite config.maxNodes (breadthFirst s ids config.breadth)
    (depthFirst s ids (config.depth 0))
  have hcases := union_cases hs.sound hwatch ids
  refine ⟨finite_reached hs.sound config ids, ?_, ?_, ?_, ?_, ?_, ?_, ?_⟩
  · rw [htruncated]
    rcases hcases with ⟨⟨hb, hd⟩, -, hlength⟩ | ⟨hcut, -, hlt⟩
    · rw [hb, hd, hlength]
      rfl
    · rw [hcut, if_pos hlt]
      rfl
  · intro hfits
    rw [hnodes]
    rcases hcases with ⟨-, htagged, hlength⟩ | ⟨-, -, hlt⟩
    · rwa [List.take_of_length_le (hlength ▸ hfits)]
    · exact absurd hfits (Nat.not_le.mpr hlt)
  · intro hlt
    rw [hnodes, List.length_take]
    rcases hcases with ⟨-, -, hlength⟩ | ⟨-, hle, -⟩
    · rw [hlength, Nat.min_eq_left (Nat.le_of_lt hlt)]
    · exact Nat.min_eq_left hle
  · intro t ht
    rw [hnodes] at ht
    exact reached_of_mem_union hs.sound (List.mem_of_mem_take ht)
  · rw [hnodes]
    exact (nodup_union _ _).sublist ((List.take_sublist _ _).map _)
  · rw [hnodes]
    exact (pairwise_union _ _).sublist (List.take_sublist _ _)
  · -- a cut behind the seeds leaves them in front
    intro hroom
    obtain ⟨front, rest, hunion, hperm, hzero⟩ :=
      exists_front_of_union hs.sound hwatch hroom
    refine ⟨front, rest.take (config.maxNodes - front.length), ?_, hperm, hzero⟩
    have hfront : front.length ≤ config.maxNodes := by
      rw [← List.length_map (fun t : Tagged => t.id), hperm.length_eq]
      exact hroom
    rw [hnodes, hunion, List.take_append, List.take_of_length_le hfront]

open Hybrid in
/-- Each of the walks fits the budget of four, or fills it, and their union exceeds it. -/
theorem hybrid_lists_on_detour :
    let config : Hybrid.Config := { bfsDepth := 1, dfsDepth := 2, maxNodes := 4 }
    Listing detour config [⟨"a"⟩] (hybrid detour [⟨"a"⟩] config) ∧
      (hybrid detour [⟨"a"⟩] config).nodes.map
          (fun t => (t.id.text, t.tags.bfsDistance, t.tags.dfsDepth)) =
        [("a", some 0, some 0), ("b", some 1, some 1), ("d", some 1, some 1),
          ("e", some 1, none)] := by
  intro config
  have hwatch : config.watch = .never := rfl
  refine ⟨hybrid_lists reachable_detour hwatch [⟨"a"⟩], ?_⟩
  refine read_of_stateWithin hwatch (fun r => r.nodes.map fun t =>
    (t.id.text, t.tags.bfsDistance, t.tags.dfsDepth)) 6 9 ?_
  unfold config
  -- the entries of a union are read off the tree beneath its map
  cbv

end CodeGraph.Walk

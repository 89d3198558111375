import CodeGraph.Proofs.Graph.Adjacency
import CodeGraph.Proofs.Walk.Trail
import Mathlib.Data.Nat.Find
import Mathlib.Order.Bounds.Basic
/-! # Distances — how far a node is from the seeds

    What a walk should find is said without a walk: a route is a chain of edges
    that the filters of the walk admit, and the distance of a node is the
    length of a shortest route to it.

    * `Covers` collects what both walks establish when nothing stops them: the
      seeds are at distance zero, every record has a route, and whatever an
      edge joins with a node below the depth limit is at most one further.
    * A trail that covers records exactly the shortest distances up to the
      limit (`Covers.distance?_eq_some_iff`).
    * `Exact` is what a result then says of the graph. -/

namespace CodeGraph.Walk

variable {s : Store} {config : Config} {ids : List NodeId}

/-- The routes of a length that a walk may take from a seed that is a node. -/
inductive Route (s : Store) (config : Config) (ids : List NodeId) : NodeId → Nat → Prop
  | seed {v : NodeId} : v ∈ ids → v ∈ s.nodes → Route s config ids v 0
  | step {u v : NodeId} {n : Nat} : Route s config ids u n →
      s.Joined config.relationships config.direction u v → Route s config ids v (n + 1)

/-- The length of a shortest route to a node. -/
def Nearest (s : Store) (config : Config) (ids : List NodeId) (v : NodeId) (d : Nat) :
    Prop :=
  IsLeast {n | Route s config ids v n} d

/-- A result that lists exactly the nodes within the depth limit, each once and at
    its distance, and says whether there are nodes beyond. -/
structure Exact (s : Store) (config : Config) (ids : List NodeId) (r : Result) : Prop where
  nodup : r.nodes.Nodup
  visited : ∀ (v : NodeId) (d : Nat), (∃ x ∈ r.visits, x.node = v ∧ x.distance = d) ↔
    Nearest s config ids v d ∧ d ≤ config.maxDepth
  limit : r.depthLimitReached = true ↔ ∃ v n, Route s config ids v n ∧ v ∉ r.nodes

/-- The seeds of a walk are the given nodes. -/
theorem mem_seeds {v : NodeId} : v ∈ seeds s ids ↔ v ∈ ids ∧ v ∈ s.nodes := by
  rw [seeds, Sorting.mem_dropRepeats, List.mem_mergeSort, List.mem_filter]
  rfl

/-- Seeds come in ascending order, each once. -/
theorem seeds_ascend (s : Store) (ids : List NodeId) :
    (seeds s ids).Pairwise fun u v => compare u v = .lt :=
  Sorting.pairwise_dropRepeats (Sorting.pairwise_mergeSort compare _)

/-- The steps from a node lead to the nodes that it is joined with. -/
theorem exists_step_iff (hs : s.Sound) {u v : NodeId} :
    (∃ a ∈ steps s config u, a.neighbor = v) ↔
      s.Joined config.relationships config.direction u v :=
  hs.exists_adjacent_iff

/-- Routes lead to nodes. -/
theorem Route.mem_nodes (hs : s.Sound) {v : NodeId} {n : Nat} (h : Route s config ids v n) :
    v ∈ s.nodes := by
  cases h with
  | seed _ hv => exact hv
  | step _ hj => exact (hs.mem_of_joined hj).2

/-- An exact result that does not say that there are nodes beyond has every node
    that a route leads to. -/
theorem Exact.visited_of_complete {r : Result} (h : Exact s config ids r)
    (hall : r.depthLimitReached = false) {v : NodeId} {d : Nat} :
    (∃ x ∈ r.visits, x.node = v ∧ x.distance = d) ↔ Nearest s config ids v d := by
  rw [h.visited]
  refine ⟨And.left, fun hd => ⟨hd, ?_⟩⟩
  by_contra hlt
  have hv : v ∉ r.nodes := by
    intro hv
    obtain ⟨x, hx, hxv⟩ := List.mem_map.mp hv
    obtain ⟨hx', hle⟩ := (h.visited v x.distance).mp ⟨x, hx, hxv, rfl⟩
    rw [hx'.unique hd] at hle
    exact hlt hle
  rw [h.limit.mpr ⟨v, d, hd.1, hv⟩] at hall
  cases hall

/-- Below a number with a property there is the least one. -/
theorem exists_isLeast_le {C : Set Nat} {n : Nat} (hn : n ∈ C) : ∃ m ≤ n, IsLeast C m := by
  classical
  exact ⟨Nat.find ⟨n, hn⟩, Nat.find_min' _ hn, Nat.find_spec ⟨n, hn⟩,
    fun k hk => Nat.find_min' _ hk⟩

/-- An exact result visits whatever a route leads to that is short enough, at most
    as far away. -/
theorem Exact.exists_visit_le {r : Result} (h : Exact s config ids r) {v : NodeId} {n : Nat}
    (hr : Route s config ids v n) (hn : r.depthLimitReached = false ∨ n ≤ config.maxDepth) :
    ∃ x ∈ r.visits, x.node = v ∧ x.distance ≤ n := by
  obtain ⟨m, hmn, hm⟩ := exists_isLeast_le (C := {n | Route s config ids v n}) hr
  have hvisited : ∃ x ∈ r.visits, x.node = v ∧ x.distance = m := by
    rcases hn with hall | hle
    · exact (h.visited_of_complete hall).mpr hm
    · exact (h.visited v m).mpr ⟨hm, Nat.le_trans hmn hle⟩
  obtain ⟨x, hx, hxv, rfl⟩ := hvisited
  exact ⟨x, hx, hxv, hmn⟩

/-! ## Trails that cover -/

/-- What a trail records when a walk was not stopped. -/
structure Trail.Covers (s : Store) (config : Config) (ids : List NodeId) (t : Trail) :
    Prop where
  seed : ∀ v ∈ ids, v ∈ s.nodes → t.distance? v = some 0
  route : ∀ v d, t.distance? v = some d → Route s config ids v d ∧ d ≤ config.maxDepth
  closed : ∀ u v d, t.distance? u = some d → d < config.maxDepth →
    s.Joined config.relationships config.direction u v →
      ∃ d' ≤ d + 1, t.distance? v = some d'

namespace Trail.Covers

variable {t : Trail}

/-- Whatever a route within the limit leads to is recorded, and no further. -/
theorem exists_le (h : t.Covers s config ids) {v : NodeId} {n : Nat}
    (hr : Route s config ids v n) (hn : n ≤ config.maxDepth) :
    ∃ d ≤ n, t.distance? v = some d := by
  induction hr with
  | seed hv hnode => exact ⟨0, Nat.le_refl 0, h.seed _ hv hnode⟩
  | step _ hj ih =>
      obtain ⟨d, hd, hu⟩ := ih (by omega)
      obtain ⟨d', hd', hv⟩ := h.closed _ _ d hu (by omega) hj
      exact ⟨d', by omega, hv⟩

/-- **The recorded distances are the shortest ones up to the limit.** -/
theorem distance?_eq_some_iff (h : t.Covers s config ids) {v : NodeId} {d : Nat} :
    t.distance? v = some d ↔ Nearest s config ids v d ∧ d ≤ config.maxDepth := by
  constructor
  · intro hd
    obtain ⟨hr, hle⟩ := h.route v d hd
    refine ⟨⟨hr, ?_⟩, hle⟩
    intro n hn
    by_cases hnd : n ≤ d
    · -- a shorter route lies within the limit too
      obtain ⟨d', hd', hv⟩ := h.exists_le hn (Nat.le_trans hnd hle)
      rw [hd] at hv
      cases hv
      exact hd'
    · omega
  · rintro ⟨⟨hr, hleast⟩, hle⟩
    obtain ⟨d', hd', hv⟩ := h.exists_le hr hle
    have hge : d ≤ d' := hleast (h.route v d' hv).1
    rw [hv, Nat.le_antisymm hd' hge]

/-- A route that leaves the known nodes leaves them at the depth limit. -/
theorem exists_leaving (h : t.Covers s config ids) {v : NodeId} {n : Nat}
    (hr : Route s config ids v n) (hv : v ∉ t.records) :
    ∃ u w d, t.distance? u = some d ∧ config.maxDepth ≤ d ∧
      s.Joined config.relationships config.direction u w ∧ w ∉ t.records := by
  induction hr with
  | seed hid hnode => exact absurd (mem_records_iff.mpr ⟨0, h.seed _ hid hnode⟩) hv
  | @step u v n _ hj ih =>
      by_cases hu : u ∈ t.records
      · -- below the limit `v` would be known as well
        obtain ⟨d, hd⟩ := mem_records_iff.mp hu
        refine ⟨u, v, d, hd, ?_, hj, hv⟩
        by_contra hlt
        obtain ⟨d', -, hv'⟩ := h.closed u v d hd (Nat.lt_of_not_le hlt) hj
        exact hv (mem_records_iff.mpr ⟨d', hv'⟩)
      · exact ih hu

/-- **What a walk that was not stopped reports is exact,** if it says that the
    limit was reached only if a route leads to an unknown node, and if some
    node at the limit is joined with an unknown one. -/
theorem exact (h : t.Covers s config ids) (hlaw : t.Lawful) {reached : Bool}
    {truncated : Option Truncation}
    (hroute : reached = true → ∃ v n, Route s config ids v n ∧ v ∉ t.records)
    (hlimit : ∀ u v d, t.distance? u = some d → config.maxDepth ≤ d →
      s.Joined config.relationships config.direction u v → v ∉ t.records →
        reached = true) :
    Exact s config ids ⟨t.visits, truncated, reached⟩ where
  nodup := by
    show (t.visits.map (·.node)).Nodup
    rw [hlaw.map_node_visits]
    exact hlaw.nodup
  visited := by
    intro v d
    rw [← h.distance?_eq_some_iff]
    exact hlaw.exists_visit_iff
  limit := by
    have hmem : ∀ v, v ∈ t.visits.map (·.node) ↔ v ∈ t.records := by
      intro v
      rw [hlaw.map_node_visits]
      exact hlaw.mem_order v
    constructor
    · intro hr
      obtain ⟨v, n, hv, hnew⟩ := hroute hr
      exact ⟨v, n, hv, fun hk => hnew ((hmem v).mp hk)⟩
    · rintro ⟨v, n, hv, hnew⟩
      obtain ⟨u, w, d, hu, hd, hj, hw⟩ :=
        h.exists_leaving hv fun hk => hnew ((hmem v).mpr hk)
      exact hlimit u w d hu hd hj hw

end Trail.Covers

end CodeGraph.Walk

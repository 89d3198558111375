import CodeGraph.Proofs.Walk.BreadthFirst
import CodeGraph.Proofs.Walk.DepthFirst
import Mathlib.Data.List.Permutation
/-! # Agreement — both walks find the same

    Each walk on its own is exact when nothing stops it, so together they agree
    on the nodes, on the distances and on whether there is more. -/

namespace CodeGraph.Walk

variable {s : Store} {config : Config} {ids : List NodeId}

/-- Two results that differ in the order of visits and in the edges at most. -/
structure Agree (r r' : Result) : Prop where
  nodes : r.nodes.Perm r'.nodes
  distance : ∀ v, r.distance? v = r'.distance? v
  limit : r.depthLimitReached = r'.depthLimitReached

/-- The distance of a node that is visited once. -/
theorem Result.distance?_eq_some_iff {r : Result} (h : r.nodes.Nodup) {v : NodeId}
    {d : Nat} : r.distance? v = some d ↔ ∃ x ∈ r.visits, x.node = v ∧ x.distance = d := by
  rw [Result.distance?, Option.map_eq_some_iff]
  constructor
  · rintro ⟨x, hx, rfl⟩
    have hnode := List.find?_some hx
    exact ⟨x, List.mem_of_find?_eq_some hx, of_decide_eq_true hnode, rfl⟩
  · rintro ⟨x, hx, rfl, rfl⟩
    refine ⟨x, ?_, rfl⟩
    obtain ⟨y, hy⟩ : ∃ y, r.visits.find? (fun y => y.node = x.node) = some y := by
      rw [← Option.isSome_iff_exists, List.find?_isSome]
      exact ⟨x, hx, decide_eq_true rfl⟩
    have hnode := List.find?_some hy
    rw [hy, List.inj_on_of_nodup_map h (List.mem_of_find?_eq_some hy) hx
      (of_decide_eq_true hnode)]

/-- A node is listed if it is visited at some distance. -/
theorem Result.mem_nodes {r : Result} {v : NodeId} :
    v ∈ r.nodes ↔ ∃ d, ∃ x ∈ r.visits, x.node = v ∧ x.distance = d := by
  rw [Result.nodes, List.mem_map]
  constructor
  · rintro ⟨x, hx, rfl⟩
    exact ⟨x.distance, x, hx, rfl, rfl⟩
  · rintro ⟨d, x, hx, rfl, -⟩
    exact ⟨x, hx, rfl⟩

/-- **There is only one exact result,** up to the order of visits and the edges. -/
theorem Exact.agree {r r' : Result} (h : Exact s config ids r)
    (h' : Exact s config ids r') : Agree r r' := by
  have hnodes : ∀ v, v ∈ r.nodes ↔ v ∈ r'.nodes := by
    intro v
    rw [Result.mem_nodes, Result.mem_nodes]
    constructor
    · rintro ⟨d, hd⟩
      exact ⟨d, (h'.visited v d).mpr ((h.visited v d).mp hd)⟩
    · rintro ⟨d, hd⟩
      exact ⟨d, (h.visited v d).mpr ((h'.visited v d).mp hd)⟩
  refine ⟨(List.perm_ext_iff_of_nodup h.nodup h'.nodup).mpr hnodes, ?_, ?_⟩
  · intro v
    ext d
    rw [Result.distance?_eq_some_iff h.nodup, Result.distance?_eq_some_iff h'.nodup,
      h.visited, h'.visited]
  · rw [Bool.eq_iff_iff, h.limit, h'.limit]
    constructor
    · rintro ⟨v, n, hv, hnew⟩
      exact ⟨v, n, hv, fun hk => hnew ((hnodes v).mpr hk)⟩
    · rintro ⟨v, n, hv, hnew⟩
      exact ⟨v, n, hv, fun hk => hnew ((hnodes v).mp hk)⟩

/-- **Walks that are not stopped are exact and agree.**  Whatever the filters, the
    limits and the seeds, each of them lists the nodes whose distance from the
    seeds is within the limit, once each and with that distance, and tells
    whether some node that can be reached is missing. -/
theorem walks_exact_and_agree (hs : s.Reachable) (config : Config) (ids : List NodeId) :
    ((depthFirst s ids config).truncated = none →
        Exact s config ids (depthFirst s ids config)) ∧
      ((breadthFirst s ids config).truncated = none →
        Exact s config ids (breadthFirst s ids config)) ∧
      ((depthFirst s ids config).truncated = none →
        (breadthFirst s ids config).truncated = none →
          Agree (depthFirst s ids config) (breadthFirst s ids config)) := by
  have hdepth := DepthFirst.exact_of_not_truncated hs.sound config ids
  have hbreadth := BreadthFirst.exact_of_not_truncated hs.sound config ids
  exact ⟨hdepth, hbreadth, fun hd hb => (hdepth hd).agree (hbreadth hb)⟩

/-- A graph with two ways to `d`, the longer one tried first, a cycle, a loop and
    parallel calls. -/
def detour : Store :=
  .callGraph ["a", "b", "c", "d", "e", "f"]
    [("a", "b"), ("b", "c"), ("c", "d"), ("a", "d"), ("a", "d"), ("d", "e"), ("e", "a"),
     ("b", "b"), ("e", "f")]

theorem reachable_detour : detour.Reachable := Store.reachable_callGraph _ _

/-- Both walks come upon `d` at its distance from `a`, and `f` is too far. -/
theorem walks_agree_on_detour :
    let config : Config := { maxDepth := 2 }
    (depthFirst detour [⟨"a"⟩] config).truncated = none ∧
      (breadthFirst detour [⟨"a"⟩] config).truncated = none ∧
      (depthFirst detour [⟨"a"⟩] config).visits.map (fun x => (x.node.text, x.distance)) =
        [("a", 0), ("b", 1), ("c", 2), ("d", 1), ("e", 2)] ∧
      Exact detour config [⟨"a"⟩] (depthFirst detour [⟨"a"⟩] config) ∧
      Agree (depthFirst detour [⟨"a"⟩] config) (breadthFirst detour [⟨"a"⟩] config) := by
  intro config
  have h := walks_exact_and_agree reachable_detour config [⟨"a"⟩]
  obtain ⟨st, hst, hfound⟩ := Option.map_eq_some_iff.mp
    (show (DepthFirst.stateWithin 12 detour [⟨"a"⟩] config).map (fun st =>
        (st.trail.truncated, st.result.visits.map fun x => (x.node.text, x.distance))) =
      some (none, [("a", 0), ("b", 1), ("c", 2), ("d", 1), ("e", 2)]) by cbv)
  obtain ⟨hgo, hvisits⟩ := Prod.mk.inj hfound
  have hdepth : depthFirst detour [⟨"a"⟩] config = st.result := by
    rw [depthFirst, DepthFirst.depthFirstState_of_stateWithin hst]
  have hd : (depthFirst detour [⟨"a"⟩] config).truncated = none := by rw [hdepth]; exact hgo
  have hb : (breadthFirst detour [⟨"a"⟩] config).truncated = none := by
    obtain ⟨st, hst, hgo⟩ := Option.map_eq_some_iff.mp
      (show (BreadthFirst.stateWithin 6 detour [⟨"a"⟩] config).map (·.trail.truncated) =
        some none by cbv)
    rw [breadthFirst, BreadthFirst.breadthFirstState_of_stateWithin hst]
    exact hgo
  exact ⟨hd, hb, hdepth ▸ hvisits, h.1 hd, h.2.2 hd hb⟩

end CodeGraph.Walk

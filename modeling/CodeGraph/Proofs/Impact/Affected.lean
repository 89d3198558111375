import CodeGraph.Impact.Analysis
import CodeGraph.Proofs.Walk.BreadthFirst
import CodeGraph.Proofs.Walk.DepthFirst
/-! # Affected nodes — the list behind a report

    What an analysis lists as affected, said without the fold and the sort that
    compute it.

    * `Found` says at which distances the two long walks of an analysis come upon
      a node.
    * A node is listed once, at the smallest of these distances, if it lies
      outside the target (`mem_affected`).
    * The list ascends by distance and then by identifier
      (`pairwise_affected`). -/

namespace CodeGraph.Impact

/-- The order of reached nodes as a comparison. -/
def Reached.cmp : Reached → Reached → Ordering :=
  compareLex (compareOn (·.distance)) (compareOn (·.id))

instance : Std.TransCmp Reached.cmp := inferInstanceAs (Std.TransCmp (compareLex _ _))

namespace Analysis

variable {a : Analysis}

/-! ## The walks of an analysis -/

section

variable (s : Store) (limits : Limits) (target : Node) (depth : Nat)

/-- The first walk goes from the seeds against calls and inheritances. -/
theorem calls_of : (Analysis.of s limits target depth).calls =
    Walk.depthFirst s (Impact.seeds s target)
      (limits.walk [.calls, .inherits] .incoming depth 0) := rfl

/-- The second one goes from the files against imports, some polls later. -/
theorem exists_imports_of : ∃ polls, (Analysis.of s limits target depth).imports =
    Walk.depthFirst s (Impact.files s target)
      (limits.walk [.imports] .incoming depth polls) := ⟨_, rfl⟩

/-- The third one goes a short way from the seeds, after both. -/
theorem exists_near_of : ∃ polls, (Analysis.of s limits target depth).near =
    Walk.breadthFirst s (Impact.seeds s target)
      (limits.walk [.calls, .imports, .defines, .inherits] .incoming entryPointHops polls) :=
  ⟨_, rfl⟩

end

/-! ## The list -/

/-- The walks over calls and over imports come upon a node at a distance. -/
def Found (a : Analysis) (id : NodeId) (n : Nat) : Prop :=
  ∃ v ∈ a.calls.visits ++ a.imports.visits, v.node = id ∧ v.distance = n

/-- What is found was visited by one of the long walks. -/
theorem found_iff {id : NodeId} {n : Nat} : a.Found id n ↔
    (∃ v ∈ a.calls.visits, v.node = id ∧ v.distance = n) ∨
      ∃ v ∈ a.imports.visits, v.node = id ∧ v.distance = n := by
  simp only [Found, List.mem_append, or_and_right, exists_or]

/-- The distances at which some visits come upon a node. -/
def distancesTo (vs : List Walk.Visit) (id : NodeId) : List Nat :=
  (vs.filter fun v => v.node = id).map (·.distance)

/-- A noted distance is the smallest of those under which a node was known and
    visited. -/
theorem getElem?_foldl_noteNearest (vs : List Walk.Visit)
    (m : Std.ExtTreeMap NodeId Nat) (id : NodeId) :
    (vs.foldl noteNearest m)[id]? = (m[id]?.toList ++ distancesTo vs id).min? := by
  induction vs generalizing m with
  | nil => cases h : m[id]? <;> simp [h, distancesTo]
  | cons v vs ih =>
      rw [List.foldl_cons, ih, noteNearest, Std.ExtTreeMap.getElem?_alter]
      by_cases hv : v.node = id
      · subst hv
        have hcons : distancesTo (v :: vs) v.node = v.distance :: distancesTo vs v.node := by
          rw [distancesTo, List.filter_cons_of_pos (by simp), List.map_cons]
          rfl
        rw [if_pos Std.ReflCmp.compare_self, hcons]
        cases m[v.node]? with
        | none =>
            show ([min v.distance v.distance] ++ _).min? = _
            rw [Nat.min_self]
            rfl
        | some d => rfl
      · have hcons : distancesTo (v :: vs) id = distancesTo vs id := by
          rw [distancesTo, List.filter_cons_of_neg (by simpa using hv)]
          rfl
        rw [if_neg fun hc => hv (Std.LawfulEqCmp.eq_of_compare hc), hcons]

/-- **A node is affected at the smallest distance at which it is found,** if the
    target does not stand for it. -/
theorem mem_affected {id : NodeId} {d : Nat} :
    ⟨id, d⟩ ∈ a.affected ↔ id ∉ a.origin ∧ IsLeast {n | a.Found id n} d := by
  have hentry : ⟨id, d⟩ ∈ a.affected ↔ ((((a.calls.visits ++ a.imports.visits).filter fun v =>
      !a.origin.contains v.node).foldl noteNearest ∅)[id]? = some d) := by
    rw [affected, List.mem_mergeSort, List.mem_map,
      ← Std.ExtTreeMap.mem_toList_iff_getElem?_eq_some]
    constructor
    · rintro ⟨p, hp, heq⟩
      cases heq
      exact hp
    · intro hp
      exact ⟨(id, d), hp, rfl⟩
  have hfound : ∀ n, n ∈ distancesTo ((a.calls.visits ++ a.imports.visits).filter fun v =>
      !a.origin.contains v.node) id ↔ id ∉ a.origin ∧ a.Found id n := by
    intro n
    simp only [distancesTo, List.mem_map, List.mem_filter, Found, decide_eq_true_eq,
      Bool.not_eq_true', List.contains_eq_mem, decide_eq_false_iff_not]
    constructor
    · rintro ⟨v, ⟨⟨hv, hout⟩, rfl⟩, rfl⟩
      exact ⟨hout, v, hv, rfl, rfl⟩
    · rintro ⟨hout, v, hv, rfl, rfl⟩
      exact ⟨v, ⟨⟨hv, hout⟩, rfl⟩, rfl⟩
  rw [hentry, getElem?_foldl_noteNearest, Std.ExtTreeMap.getElem?_empty, Option.toList_none,
    List.nil_append, List.min?_eq_some_iff, hfound]
  constructor
  · rintro ⟨⟨hout, hd⟩, hleast⟩
    exact ⟨hout, hd, fun n hn => hleast n ((hfound n).mpr ⟨hout, hn⟩)⟩
  · rintro ⟨hout, hd, hleast⟩
    exact ⟨⟨hout, hd⟩, fun n hn => hleast ((hfound n).mp hn).2⟩

/-- What is found outside the target is affected, and no further away. -/
theorem exists_mem_affected_of_found {id : NodeId} {n : Nat} (hout : id ∉ a.origin)
    (hfound : a.Found id n) : ∃ d ≤ n, ⟨id, d⟩ ∈ a.affected := by
  obtain ⟨d, hd, hleast⟩ := Walk.exists_isLeast_le (C := {n | a.Found id n}) hfound
  exact ⟨d, hd, mem_affected.mpr ⟨hout, hleast⟩⟩

/-- Affected nodes come nearest first, then by identifier, and each once. -/
theorem pairwise_affected : a.affected.Pairwise fun r r' =>
    r.distance < r'.distance ∨ r.distance = r'.distance ∧ r.id.text < r'.id.text := by
  rw [affected]
  generalize (List.filter _ _).foldl noteNearest ∅ = m
  have hsorted := Sorting.pairwise_mergeSort Reached.cmp
    (m.toList.map fun p => ⟨p.1, p.2⟩)
  have hdistinct : ((m.toList.map fun p => Reached.mk p.1 p.2).mergeSort
      Reached.le).Pairwise fun r r' => r.id ≠ r'.id := by
    -- the list is read off a map, and sorting moves its members only
    refine (List.mergeSort_perm _ _).symm.pairwise ?_ (fun h => h.symm)
    refine List.pairwise_map.mpr (m.distinct_keys_toList.imp ?_)
    rintro p q hne heq
    replace heq : p.1 = q.1 := heq
    rw [heq] at hne
    exact hne Std.ReflCmp.compare_self
  refine (hsorted.and hdistinct).imp ?_
  rintro r r' ⟨hle, hne⟩
  rw [Reached.cmp, compareLex, compareOn, compareOn] at hle
  cases hd : compare r.distance r'.distance with
  | lt => exact Or.inl (Nat.compare_eq_lt.mp hd)
  | gt =>
      rw [hd] at hle
      cases hle
  | eq =>
      rw [hd] at hle
      refine Or.inr ⟨Std.LawfulEqCmp.eq_of_compare hd, ?_⟩
      cases hid : compare r.id r'.id with
      | lt => exact compareOfLessAndEq_eq_lt.mp hid
      | eq => exact absurd (Std.LawfulEqCmp.eq_of_compare hid) hne
      | gt =>
          rw [hid] at hle
          cases hle

/-! ## Analyses that can be followed -/

/-- An analysis each walk of which halts within so many turns. -/
def within (n : Nat) (s : Store) (limits : Limits) (target : Node) (depth : Nat) :
    Option Analysis := do
  let calls ← Walk.DepthFirst.stateWithin n s (Impact.seeds s target)
    (limits.walk [.calls, .inherits] .incoming depth 0)
  let imports ← Walk.DepthFirst.stateWithin n s (Impact.files s target)
    (limits.walk [.imports] .incoming depth calls.trail.polls)
  let near ← Walk.BreadthFirst.stateWithin n s (Impact.seeds s target)
    (limits.walk [.calls, .imports, .defines, .inherits] .incoming entryPointHops
      (calls.trail.polls + imports.trail.polls))
  some ⟨target, Impact.seeds s target, Impact.files s target, calls.result, imports.result,
    near.result⟩

/-- An analysis whose walks halt within some steps is the analysis. -/
theorem of_eq_of_within {n : Nat} {s : Store} {limits : Limits} {target : Node} {depth : Nat}
    (h : within n s limits target depth = some a) : Analysis.of s limits target depth = a := by
  obtain ⟨calls, hcalls, h⟩ := Option.bind_eq_some_iff.mp h
  obtain ⟨imports, himports, h⟩ := Option.bind_eq_some_iff.mp h
  obtain ⟨near, hnear, h⟩ := Option.bind_eq_some_iff.mp h
  rw [Analysis.of, Walk.DepthFirst.depthFirstState_of_stateWithin hcalls,
    Walk.DepthFirst.depthFirstState_of_stateWithin himports, Walk.breadthFirst,
    Walk.BreadthFirst.breadthFirstState_of_stateWithin hnear]
  exact Option.some.inj h

end Analysis

end CodeGraph.Impact

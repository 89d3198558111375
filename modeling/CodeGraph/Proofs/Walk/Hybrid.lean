import CodeGraph.Proofs.Sorting
import CodeGraph.Proofs.Walk.Agreement
import CodeGraph.Proofs.Walk.Linked
import CodeGraph.Walk.Hybrid
/-! # Hybrid walks — no cut loses the way back

    The union of two walks is sorted and cut down to the budget.  Whatever is
    left still leads back to the seeds, because the order puts a node behind the
    one it was found from.

    * A node of the union carries its distances in both walks (`mem_union`).
    * `Tagged.lt_of_bfs` and `Tagged.lt_of_dfs` say why a nearer node comes first:
      what the first walk found comes in the order of that walk, and before all
      else.
    * `Anchored` says of a list that each of its nodes is a seed or joined with an
      earlier one.  Cutting off the end keeps that (`Anchored.take`), whatever
      made the walks stop (`anchored_hybrid`). -/

namespace CodeGraph.Walk.Hybrid

open Std

/-! ## The union -/

/-- Noting the distances of some visits under their nodes, which are distinct. -/
theorem getElem?_foldl_note (note : Tags → Nat → Tags) {vs : List Visit}
    (hvs : (vs.map (·.node)).Nodup) (m : ExtTreeMap NodeId Tags) (id : NodeId) :
    (vs.foldl (fun tags v =>
        tags.alter v.node fun t => some (note (t.getD {}) v.distance)) m)[id]? =
      match vs.find? fun v => v.node = id with
      | some v => some (note (m[id]?.getD {}) v.distance)
      | none => m[id]? := by
  induction vs generalizing m with
  | nil => rfl
  | cons v vs ih =>
      obtain ⟨hnew, hvs⟩ := List.nodup_cons.mp hvs
      rw [List.foldl_cons, ih hvs, ExtTreeMap.getElem?_alter, List.find?_cons]
      by_cases hv : v.node = id
      · subst hv
        have hnone : vs.find? (fun w => decide (w.node = v.node)) = none := by
          rw [List.find?_eq_none]
          intro w hw heq
          exact hnew (List.mem_map.mpr ⟨w, hw, of_decide_eq_true heq⟩)
        rw [hnone, decide_eq_true rfl, if_pos ReflCmp.compare_self]
      · rw [decide_eq_false hv, if_neg fun hc => hv (LawfulEqCmp.eq_of_compare hc)]

/-- A node that either walk visited is tagged with its distance in both. -/
theorem getElem?_merge {bfs dfs : Walk.Result} (hbfs : bfs.nodes.Nodup) (hdfs : dfs.nodes.Nodup)
    (id : NodeId) : (merge bfs dfs)[id]? =
      if (bfs.distance? id).isSome || (dfs.distance? id).isSome then
        some ⟨bfs.distance? id, dfs.distance? id⟩
      else none := by
  rw [merge, getElem?_foldl_note (fun t d => { t with dfsDepth := some d }) hdfs,
    getElem?_foldl_note (fun t d => { t with bfsDistance := some d }) hbfs,
    Result.distance?, Result.distance?, ExtTreeMap.getElem?_empty]
  cases bfs.visits.find? _ <;> cases dfs.visits.find? _ <;> rfl

/-- The nodes that either walk visited, in their order. -/
def union (bfs dfs : Walk.Result) : List Tagged :=
  ((merge bfs dfs).toList.map fun p => Tagged.mk p.1 p.2).mergeSort Tagged.le

/-- A union is cut down to the budget, if it exceeds that. -/
theorem nodes_unite (maxNodes : Nat) (bfs dfs : Walk.Result) :
    (unite maxNodes bfs dfs).nodes = (union bfs dfs).take maxNodes := by
  rw [unite]
  split
  · rfl
  · rename_i hfits
    exact (List.take_of_length_le (Nat.le_of_not_lt hfits)).symm

theorem mem_union {bfs dfs : Walk.Result} (hbfs : bfs.nodes.Nodup) (hdfs : dfs.nodes.Nodup)
    {t : Tagged} : t ∈ union bfs dfs ↔
      ((bfs.distance? t.id).isSome || (dfs.distance? t.id).isSome) = true ∧
        t.tags = ⟨bfs.distance? t.id, dfs.distance? t.id⟩ := by
  have hentry : t ∈ union bfs dfs ↔ (merge bfs dfs)[t.id]? = some t.tags := by
    rw [union, List.mem_mergeSort, List.mem_map, ← ExtTreeMap.mem_toList_iff_getElem?_eq_some]
    constructor
    · rintro ⟨p, hp, rfl⟩
      exact hp
    · intro hp
      exact ⟨(t.id, t.tags), hp, rfl⟩
  rw [hentry, getElem?_merge hbfs hdfs]
  split
  · rename_i hfound
    rw [Option.some_inj, eq_comm]
    exact (and_iff_right hfound).symm
  · rename_i hnot
    exact ⟨nofun, fun h => absurd h.1 hnot⟩

/-! ## The order -/

instance : TransCmp compareTag where
  eq_swap := by
    intro a b
    cases a with
    | none => cases b <;> rfl
    | some a =>
        cases b with
        | none => rfl
        | some b => exact (OrientedCmp.eq_swap : Ord.compare a b = (Ord.compare b a).swap)
  isLE_trans := by
    intro a b c hab hbc
    cases a with
    | none =>
        cases b with
        | none => exact hbc
        | some b => cases hab
    | some a =>
        cases b with
        | none =>
            cases c with
            | none => rfl
            | some c => cases hbc
        | some b =>
            cases c with
            | none => rfl
            | some c =>
                exact (TransCmp.isLE_trans hab hbc : (Ord.compare a c).isLE = true)

/-- Comparing what is read off two values. -/
instance transCmp_of_map {α β : Type} {cmp : β → β → Ordering} [TransCmp cmp] (f : α → β) :
    TransCmp fun a b => cmp (f a) (f b) where
  eq_swap := OrientedCmp.eq_swap
  isLE_trans := TransCmp.isLE_trans

instance : TransCmp Tagged.compare :=
  inferInstanceAs (TransCmp (compareLex (compareLex
    (fun a b : Tagged => compareTag a.tags.bfsDistance b.tags.bfsDistance)
    (fun a b : Tagged => compareTag a.tags.dfsDepth b.tags.dfsDepth))
    (fun a b : Tagged => Ord.compare a.id b.id)))

/-- What the breadth-first walk found nearer comes first. -/
theorem Tagged.lt_of_bfs {a b : Tagged}
    (h : compareTag a.tags.bfsDistance b.tags.bfsDistance = .lt) :
    Tagged.compare a b = .lt := by
  rw [Tagged.compare, h]
  rfl

/-- Among what only the depth-first walk found, the nearer comes first. -/
theorem Tagged.lt_of_dfs {a b : Tagged}
    (h : compareTag a.tags.bfsDistance b.tags.bfsDistance = .eq)
    (h' : compareTag a.tags.dfsDepth b.tags.dfsDepth = .lt) :
    Tagged.compare a b = .lt := by
  rw [Tagged.compare, h, h']
  rfl

/-! ## What leads back to the seeds -/

/-- Every node of a list is a seed, or an edge joins it with an earlier one. -/
def Anchored (s : Store) (ids : List NodeId) (l : List Tagged) : Prop :=
  ∀ pre t post, l = pre ++ t :: post →
    t.id ∈ ids ∨ ∃ u ∈ pre, s.Joined [] .either u.id t.id

/-- Cutting off the end of a list leaves its beginning anchored. -/
theorem Anchored.take {s : Store} {ids : List NodeId} {l : List Tagged}
    (h : Anchored s ids l) (n : Nat) : Anchored s ids (l.take n) := by
  intro pre t post hl
  refine h pre t (post ++ l.drop n) ?_
  calc l = l.take n ++ l.drop n := (List.take_append_drop n l).symm
    _ = pre ++ t :: (post ++ l.drop n) := by rw [hl, List.append_assoc, List.cons_append]

/-- A sorted list is anchored if each of its nodes is a seed or joined with one that
    the order puts before it. -/
theorem anchored_of_sorted {s : Store} {ids : List NodeId} {l : List Tagged}
    (hsorted : l.Pairwise fun a b => (Tagged.compare a b).isLE)
    (h : ∀ t ∈ l, t.id ∈ ids ∨
      ∃ u ∈ l, Tagged.compare u t = .lt ∧ s.Joined [] .either u.id t.id) :
    Anchored s ids l := by
  rintro pre t post rfl
  refine (h t (List.mem_append_right _ List.mem_cons_self)).imp_right ?_
  rintro ⟨u, hu, hlt, hj⟩
  rcases List.mem_append.mp hu with hu | hu
  · exact ⟨u, hu, hj⟩
  · -- neither `t` itself nor what comes after it lies below `t`
    have hle : (Tagged.compare t u).isLE := by
      rcases List.mem_cons.mp hu with rfl | hu
      · rw [(ReflCmp.compare_self : Tagged.compare u u = .eq)]
        rfl
      · exact (List.pairwise_cons.mp (List.pairwise_append.mp hsorted).2.1).1 u hu
    rw [(OrientedCmp.eq_swap : Tagged.compare t u = (Tagged.compare u t).swap), hlt] at hle
    cases hle

/-- Edges that a walk may take are edges. -/
theorem joined_either {s : Store} {relationships : List Relationship} {direction : Direction}
    {u v : NodeId} (h : s.Joined relationships direction u v) : s.Joined [] .either u v := by
  obtain ⟨e, he, -, hends⟩ := h
  exact ⟨e, he, rfl, hends.imp (fun h => ⟨rfl, h.2⟩) fun h => ⟨rfl, h.2⟩⟩

section

variable {s : Store} {ids : List NodeId} {bfs dfs : Walk.Result}

/-- A result whose visits lead back to the seeds. -/
def Rooted (s : Store) (ids : List NodeId) (r : Walk.Result) : Prop :=
  ∀ x ∈ r.visits, x.node ∈ ids ∨
    ∃ y ∈ r.visits, y.distance < x.distance ∧ s.Joined [] .either y.node x.node

/-- **The union of two walks leads back to their seeds.** -/
theorem anchored_union (hbfs : bfs.nodes.Nodup) (hdfs : dfs.nodes.Nodup)
    (hnear : Rooted s ids bfs) (hdeep : Rooted s ids dfs) :
    Anchored s ids (union bfs dfs) := by
  refine anchored_of_sorted (Sorting.pairwise_mergeSort Tagged.compare _) ?_
  intro t ht
  obtain ⟨hfound, htags⟩ := (mem_union hbfs hdfs).mp ht
  cases hb : bfs.distance? t.id with
  | some d =>
      -- found by the first walk, `t` comes behind what it was found from
      obtain ⟨x, hx, hnode, rfl⟩ := (Result.distance?_eq_some_iff hbfs).mp hb
      rcases hnear x hx with hid | ⟨y, hy, hlt, hj⟩
      · exact Or.inl (hnode ▸ hid)
      · have hy' : bfs.distance? y.node = some y.distance :=
          (Result.distance?_eq_some_iff hbfs).mpr ⟨y, hy, rfl, rfl⟩
        refine Or.inr ⟨⟨y.node, ⟨bfs.distance? y.node, dfs.distance? y.node⟩⟩, ?_, ?_, ?_⟩
        · exact (mem_union hbfs hdfs).mpr ⟨by rw [hy']; rfl, rfl⟩
        · refine Tagged.lt_of_bfs ?_
          rw [htags, hb, hy']
          exact Nat.compare_eq_lt.mpr hlt
        · exact hnode ▸ hj
  | none =>
      -- found by the second walk only, `t` comes behind all that the first found
      rw [hb, Option.isSome_none, Bool.false_or, Option.isSome_iff_exists] at hfound
      obtain ⟨d, hd⟩ := hfound
      obtain ⟨x, hx, hnode, rfl⟩ := (Result.distance?_eq_some_iff hdfs).mp hd
      rcases hdeep x hx with hid | ⟨y, hy, hlt, hj⟩
      · exact Or.inl (hnode ▸ hid)
      · have hy' : dfs.distance? y.node = some y.distance :=
          (Result.distance?_eq_some_iff hdfs).mpr ⟨y, hy, rfl, rfl⟩
        refine Or.inr ⟨⟨y.node, ⟨bfs.distance? y.node, dfs.distance? y.node⟩⟩, ?_, ?_, ?_⟩
        · exact (mem_union hbfs hdfs).mpr ⟨by rw [hy', Option.isSome_some, Bool.or_true], rfl⟩
        · cases hby : bfs.distance? y.node with
          | some d' =>
              refine Tagged.lt_of_bfs ?_
              rw [htags, hb]
              rfl
          | none =>
              refine Tagged.lt_of_dfs ?_ ?_
              · rw [htags, hb]
                rfl
              · rw [htags, hd, hy']
                exact Nat.compare_eq_lt.mpr hlt
        · exact hnode ▸ hj

/-- **No cut of a hybrid walk loses the way back to the seeds:** neither where one of
    its walks was stopped, nor where their union exceeds the budget. -/
theorem anchored_hybrid (hs : s.Sound) (ids : List NodeId) (config : Config) :
    Anchored s ids (hybrid s ids config).nodes := by
  rw [hybrid, nodes_unite]
  have hunion : Anchored s ids (union (breadthFirst s ids config.breadth)
      (depthFirst s ids (config.depth
        (breadthFirstState s ids config.breadth).trail.polls))) := by
    refine anchored_union (BreadthFirst.nodup_nodes hs _ _) (DepthFirst.nodup_nodes hs _ _) ?_ ?_
    · intro x hx
      refine (BreadthFirst.linked_of_visit hs hx).imp_right ?_
      rintro ⟨y, hy, hlt, hj⟩
      exact ⟨y, hy, hlt, joined_either hj⟩
    · intro x hx
      refine (DepthFirst.linked_of_visit hs hx).imp_right ?_
      rintro ⟨y, hy, hlt, hj⟩
      exact ⟨y, hy, hlt, joined_either hj⟩
  exact hunion.take config.maxNodes

/-- What a hybrid walk lists are nodes. -/
theorem mem_nodes_of_mem_hybrid (hs : s.Sound) {ids : List NodeId} {config : Config}
    {t : Tagged} (ht : t ∈ (hybrid s ids config).nodes) : t.id ∈ s.nodes := by
  rw [hybrid, nodes_unite] at ht
  obtain ⟨hfound, -⟩ := (mem_union (BreadthFirst.nodup_nodes hs _ _)
    (DepthFirst.nodup_nodes hs _ _)).mp (List.mem_of_mem_take ht)
  rcases Bool.or_eq_true_iff.mp hfound with hfound | hfound
  · obtain ⟨d, hd⟩ := Option.isSome_iff_exists.mp hfound
    obtain ⟨x, hx, hnode, -⟩ := (Result.distance?_eq_some_iff
      (BreadthFirst.nodup_nodes hs _ _)).mp hd
    exact hnode ▸ (BreadthFirst.route_of_visit hs hx).1.mem_nodes hs
  · obtain ⟨d, hd⟩ := Option.isSome_iff_exists.mp hfound
    obtain ⟨x, hx, hnode, -⟩ := (Result.distance?_eq_some_iff
      (DepthFirst.nodup_nodes hs _ _)).mp hd
    exact hnode ▸ (DepthFirst.route_of_visit hs hx).1.mem_nodes hs

end

end CodeGraph.Walk.Hybrid

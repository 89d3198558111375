import CodeGraph.Walk.Basic
import Mathlib.Data.List.Basic
/-! # Trails — what a walk has found so far

    A trail holds each node it knows once, in the order of discovery, and for
    each its record.  The visits that a walk reports are read off both.

    * `Lawful` says that order and records speak of the same nodes; recording
      keeps it.
    * `mem_visits` and `map_node_visits` say what the visits of a lawful trail
      are.
    * `record_cases_of_never` and `record_of_larger` say when the budget alone
      decides whether a node is recorded. -/

namespace CodeGraph.Walk

open Std

/-- What a watch shows first after some polls is what it shows at the next one. -/
theorem Watch.reason?_later (w : Watch) (polls : Nat) :
    (w.later polls).reason? 0 = w.reason? polls := by
  rw [reason?, reason?, later]
  simp only [Option.any_map, Nat.le_zero_eq, Nat.sub_eq_zero_iff_le]

namespace Trail

/-- Order and records are about the same nodes, each of them once. -/
structure Lawful (t : Trail) : Prop where
  nodup : t.order.toList.Nodup
  mem_order : ∀ id : NodeId, id ∈ t.order.toList ↔ id ∈ t.records

theorem lawful_empty : ({} : Trail).Lawful where
  nodup := List.nodup_nil
  mem_order := by intro id; simp

/-- Looking at the watch changes no record. -/
@[simp] theorem distance?_poll (w : Watch) (t : Trail) (id : NodeId) :
    (t.poll w).distance? id = t.distance? id := rfl

theorem Lawful.poll {t : Trail} (h : t.Lawful) (w : Watch) : (t.poll w).Lawful :=
  ⟨h.nodup, h.mem_order⟩

/-- A node is known if there is a record of it. -/
theorem knows_iff {t : Trail} {id : NodeId} : t.knows id = true ↔ id ∈ t.records :=
  Iff.rfl

theorem distance?_eq_some_iff {t : Trail} {id : NodeId} {d : Nat} :
    t.distance? id = some d ↔ ∃ via, t.records[id]? = some ⟨d, via⟩ := by
  rw [distance?, Option.map_eq_some_iff]
  constructor
  · rintro ⟨⟨d', via⟩, hr, rfl⟩
    exact ⟨via, hr⟩
  · rintro ⟨via, hr⟩
    exact ⟨⟨d, via⟩, hr, rfl⟩

/-- Every node that is known has a distance. -/
theorem mem_records_iff {t : Trail} {id : NodeId} :
    id ∈ t.records ↔ ∃ d, t.distance? id = some d := by
  rw [ExtTreeMap.mem_iff_isSome_getElem?, distance?]
  cases t.records[id]? with
  | none => simp
  | some r => simp

/-- Every node of the order is recorded. -/
theorem Lawful.distance?_of_getElem? {t : Trail} (h : t.Lawful) {i : Nat} {u : NodeId}
    (hu : t.order[i]? = some u) : t.distance? u = some ((t.distance? u).getD 0) := by
  have hmem : u ∈ t.order.toList := Array.mem_toList_iff.mpr (Array.mem_of_getElem? hu)
  obtain ⟨d, hd⟩ := mem_records_iff.mp ((h.mem_order u).mp hmem)
  rw [hd, Option.getD_some]

/-- Every node that is recorded has a place in the order. -/
theorem Lawful.exists_getElem? {t : Trail} (h : t.Lawful) {u : NodeId} {d : Nat}
    (hd : t.distance? u = some d) : ∃ i : Nat, t.order[i]? = some u := by
  have hmem := (h.mem_order u).mpr (mem_records_iff.mpr ⟨d, hd⟩)
  exact Array.mem_iff_getElem?.mp (Array.mem_toList_iff.mp hmem)

/-- The records after one was set. -/
theorem getElem?_of_insert {t t' : Trail} {id : NodeId} {r : Record}
    (h : t'.records = t.records.insert id r) (v : NodeId) :
    t'.records[v]? = if id = v then some r else t.records[v]? := by
  rw [h, ExtTreeMap.getElem?_insert]
  by_cases hv : id = v
  · subst hv
    rw [if_pos ReflCmp.compare_self, if_pos rfl]
  · rw [if_neg (fun hc => hv (LawfulEqCmp.eq_of_compare hc)), if_neg hv]

/-- The distances after a record was set. -/
theorem distance?_of_insert {t t' : Trail} {id : NodeId} {r : Record}
    (h : t'.records = t.records.insert id r) (v : NodeId) :
    t'.distance? v = if id = v then some r.distance else t.distance? v := by
  rw [distance?, distance?, getElem?_of_insert h]
  split
  · exact Option.map_some ..
  · rfl

/-- **Recording keeps a trail lawful,** also when the node is refused. -/
theorem Lawful.record {t : Trail} (h : t.Lawful) (config : Config) (id : NodeId)
    (r : Record) : (t.record config id r).Lawful := by
  rcases t.record_cases config id r with
    ⟨-, horder, hrec⟩ | ⟨-, hrec, ⟨hmem, horder⟩ | ⟨hnew, -, horder⟩⟩
  · exact ⟨horder ▸ h.nodup, by rw [horder, hrec]; exact h.mem_order⟩
  · refine ⟨horder ▸ h.nodup, ?_⟩
    intro v
    rw [horder, hrec, h.mem_order, ExtTreeMap.mem_insert]
    constructor
    · exact Or.inr
    · rintro (hv | hv)
      · rw [← LawfulEqCmp.eq_of_compare hv]
        exact hmem
      · exact hv
  · refine ⟨?_, ?_⟩
    · rw [horder, Array.toList_push]
      refine List.nodup_append.mpr ⟨h.nodup, by simp, ?_⟩
      intro a ha b hb
      rw [List.mem_singleton.mp hb]
      rintro rfl
      exact hnew ((h.mem_order a).mp ha)
    · intro v
      rw [horder, hrec, Array.toList_push, List.mem_append, List.mem_singleton,
        h.mem_order, ExtTreeMap.mem_insert, LawfulEqCmp.compare_eq_iff_eq]
      constructor
      · rintro (hv | rfl)
        · exact Or.inr hv
        · exact Or.inl rfl
      · rintro (rfl | hv)
        · exact Or.inr rfl
        · exact Or.inl hv

/-- The nodes of the visits are those of the trail, in its order. -/
theorem Lawful.map_node_visits {t : Trail} (h : t.Lawful) :
    t.visits.map (·.node) = t.order.toList := by
  have hall : ∀ l : List NodeId, (∀ id ∈ l, id ∈ t.records) →
      (l.filterMap fun id => t.records[id]?.map fun r =>
        (⟨id, r.distance, r.via⟩ : Visit)).map (·.node) = l := by
    intro l
    induction l with
    | nil => intro _; rfl
    | cons id l ih =>
        intro hl
        obtain ⟨r, hr⟩ : ∃ r, t.records[id]? = some r :=
          ⟨_, ExtTreeMap.getElem?_eq_some_getElem (hl id List.mem_cons_self)⟩
        rw [List.filterMap_cons, hr, Option.map_some, List.map_cons,
          ih fun v hv => hl v (List.mem_cons_of_mem id hv)]
  exact hall _ fun id hid => (h.mem_order id).mp hid

/-- The visits of a lawful trail are its records. -/
theorem Lawful.mem_visits {t : Trail} (h : t.Lawful) {x : Visit} :
    x ∈ t.visits ↔ t.records[x.node]? = some ⟨x.distance, x.via⟩ := by
  rw [visits, List.mem_filterMap]
  constructor
  · rintro ⟨id, -, hx⟩
    obtain ⟨r, hr, rfl⟩ := Option.map_eq_some_iff.mp hx
    exact hr
  · intro hx
    refine ⟨x.node, (h.mem_order x.node).mpr ?_, ?_⟩
    · rw [ExtTreeMap.mem_iff_isSome_getElem?, hx]
      rfl
    · rw [hx, Option.map_some]

theorem Lawful.exists_visit_iff {t : Trail} (h : t.Lawful) {v : NodeId} {d : Nat} :
    (∃ x ∈ t.visits, x.node = v ∧ x.distance = d) ↔ t.distance? v = some d := by
  rw [distance?_eq_some_iff]
  constructor
  · rintro ⟨x, hx, rfl, rfl⟩
    exact ⟨x.via, h.mem_visits.mp hx⟩
  · rintro ⟨via, hr⟩
    exact ⟨⟨v, d, via⟩, h.mem_visits.mpr hr, rfl, rfl⟩

/-- As many visits are reported as there are nodes on the trail. -/
theorem Lawful.length_visits {t : Trail} (h : t.Lawful) : t.visits.length = t.order.size := by
  rw [← List.length_map (fun x : Visit => x.node), h.map_node_visits, Array.length_toList]

/-! ## What recording does to the trail -/

/-- A new record of a node that is known replaces its visit. -/
theorem visits_of_replaced {t t' : Trail} {v : NodeId} {r : Record} (hmem : v ∈ t.records)
    (hrec : t'.records = t.records.insert v r) (horder : t'.order = t.order) :
    t'.visits = t.visits.map fun y => if y.node = v then ⟨v, r.distance, r.via⟩ else y := by
  rw [visits, visits, horder, List.map_filterMap]
  refine List.filterMap_congr fun id _ => ?_
  rw [getElem?_of_insert hrec]
  by_cases hv : v = id
  · subst hv
    rw [if_pos rfl, ExtTreeMap.getElem?_eq_some_getElem hmem]
    simp only [Option.map_some, if_true]
  · rw [if_neg hv, Option.map_map]
    refine Option.map_congr fun r' _ => ?_
    exact (if_neg (Ne.symm hv)).symm

/-- A node that is new is visited last. -/
theorem Lawful.visits_of_new {t t' : Trail} (hlaw : t.Lawful) {v : NodeId} {r : Record}
    (hnew : v ∉ t.records) (hrec : t'.records = t.records.insert v r)
    (horder : t'.order = t.order.push v) :
    t'.visits = t.visits ++ [⟨v, r.distance, r.via⟩] := by
  have hrecord := getElem?_of_insert hrec
  rw [visits, visits, horder, Array.toList_push, List.filterMap_append]
  congr 1
  · refine List.filterMap_congr fun id hid => ?_
    rw [hrecord, if_neg]
    rintro rfl
    exact hnew ((hlaw.mem_order v).mp hid)
  · rw [List.filterMap_cons, hrecord, if_pos rfl]
    rfl

/-- Recording takes no node off the trail. -/
theorem prefix_record (config : Config) (t : Trail) (id : NodeId) (r : Record) :
    t.order.toList <+: (t.record config id r).order.toList := by
  rcases t.record_cases config id r with ⟨-, horder, -⟩ | ⟨-, -, ⟨-, horder⟩ | ⟨-, -, horder⟩⟩
  · exact horder ▸ List.prefix_rfl
  · exact horder ▸ List.prefix_rfl
  · rw [horder, Array.toList_push]
    exact List.prefix_append _ _

/-- No trail gets longer than the budget allows. -/
theorem size_record_le {config : Config} {t : Trail} (h : t.order.size ≤ config.maxNodes)
    (id : NodeId) (r : Record) : (t.record config id r).order.size ≤ config.maxNodes := by
  rcases t.record_cases config id r with
    ⟨-, horder, -⟩ | ⟨-, -, ⟨-, horder⟩ | ⟨-, hroom, horder⟩⟩
  · exact horder ▸ h
  · exact horder ▸ h
  · rw [horder, Array.size_push]
    exact hroom

/-- A watch that never stops a walk has no reason to. -/
theorem truncated_poll_of_never {config : Config} (hwatch : config.watch = .never)
    (t : Trail) : (t.poll config.watch).truncated = none := by
  rw [hwatch]
  rfl

/-- Without a stop from outside a node is refused only if it is new and the budget is
    used up. -/
theorem record_cases_of_never {config : Config} (hwatch : config.watch = .never) (t : Trail)
    (id : NodeId) (r : Record) :
    ((t.record config id r).truncated = some .nodeBudget ∧
        (t.record config id r).order = t.order ∧ (t.record config id r).records = t.records ∧
        id ∉ t.records ∧ config.maxNodes ≤ t.order.size) ∨
      ((t.record config id r).truncated = none ∧
        (t.record config id r).records = t.records.insert id r ∧
        (id ∈ t.records ∧ (t.record config id r).order = t.order ∨
          id ∉ t.records ∧ t.order.size < config.maxNodes ∧
            (t.record config id r).order = t.order.push id)) := by
  have hpoll := truncated_poll_of_never hwatch t
  rw [record, if_neg (by rw [stopped, hpoll]; decide)]
  by_cases hmem : id ∈ t.records
  · rw [if_pos hmem]
    exact Or.inr ⟨hpoll, rfl, Or.inl ⟨hmem, rfl⟩⟩
  · rw [if_neg hmem]
    by_cases hfull : config.maxNodes ≤ t.order.size
    · rw [if_pos hfull]
      exact Or.inl ⟨rfl, rfl, rfl, hmem, hfull⟩
    · rw [if_neg hfull]
      exact Or.inr ⟨hpoll, rfl, Or.inr ⟨hmem, Nat.lt_of_not_le hfull, rfl⟩⟩

/-- Under a larger budget the same is recorded, unless the smaller one stops the walk. -/
theorem record_of_larger {config : Config} {m : Nat} (hm : config.maxNodes ≤ m) (t : Trail)
    (id : NodeId) (r : Record) :
    t.record { config with maxNodes := m } id r = t.record config id r ∨
      (t.record config id r).stopped = true ∧ (t.record config id r).order = t.order := by
  simp only [record]
  by_cases hstop : (t.poll config.watch).stopped = true
  · rw [if_pos hstop, if_pos hstop]
    exact Or.inl rfl
  · rw [if_neg hstop, if_neg hstop]
    by_cases hmem : id ∈ t.records
    · rw [if_pos hmem, if_pos hmem]
      exact Or.inl rfl
    · rw [if_neg hmem, if_neg hmem]
      by_cases hfull : config.maxNodes ≤ t.order.size
      · rw [if_pos hfull]
        exact Or.inr ⟨rfl, rfl⟩
      · rw [if_neg hfull, if_neg (fun h => hfull (Nat.le_trans hm h))]
        exact Or.inl rfl

end Trail

/-! ## Turns -/

/-- The state in which a process halts, if it does so within so many turns. -/
def haltsWithin {State : Type} (turn : State → Turn State) : Nat → State → Option State
  | 0, _ => none
  | n + 1, st =>
      match turn st with
      | .halt st' => some st'
      | .more st' => haltsWithin turn n st'

/-- Turns that are counted lead to where turns that are not counted lead. -/
theorem eq_of_haltsWithin {State : Type} {turn : State → Turn State} (run : State → State)
    (hhalt : ∀ st st', turn st = .halt st' → run st = st')
    (hmore : ∀ st st', turn st = .more st' → run st = run st') {n : Nat} {st st' : State}
    (h : haltsWithin turn n st = some st') : run st = st' := by
  induction n generalizing st with
  | zero => cases h
  | succ n ih =>
      rw [haltsWithin] at h
      split at h
      · rename_i last hturn
        rw [hhalt st last hturn]
        exact Option.some.inj h
      · rename_i next hturn
        rw [hmore st next hturn]
        exact ih h

end CodeGraph.Walk

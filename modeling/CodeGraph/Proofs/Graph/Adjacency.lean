import CodeGraph.Proofs.Graph.Reachable
import CodeGraph.Proofs.Sorting
/-! # Adjacency — the edges that are seen from a node

    In a sound store the edges at a node are those of the edge list that have
    it as an end.

    * `Joined` states on the edge list alone that an admitted edge leads from
      one node to another, seen in a direction.
    * `mem_adjacent` and `mem_neighbors` tie the two questions about the
      neighbourhood of a node to the edge list. -/

namespace CodeGraph.Store

open Std

variable {s : Store} {relationships : List Relationship} {direction : Direction}

/-- An admitted edge leads from one node to another in a direction. -/
def Joined (s : Store) (relationships : List Relationship) (direction : Direction)
    (u v : NodeId) : Prop :=
  ∃ e ∈ s.edges, admits relationships e.relationship = true ∧
    (direction.leaves = true ∧ e.source = u ∧ e.target = v ∨
      direction.enters = true ∧ e.target = u ∧ e.source = v)

/-- What is seen at some positions. -/
theorem mem_sightsAt {far : Edge → NodeId} {positions : Array Nat} {a : Adjacent} :
    a ∈ s.sightsAt relationships far positions ↔
      a.edgeIndex ∈ positions ∧ ∃ e, s.edges[a.edgeIndex]? = some e ∧
        admits relationships e.relationship = true ∧
        far e = a.neighbor ∧ e.relationship = a.relationship := by
  rw [sightsAt, List.mem_filterMap]
  constructor
  · rintro ⟨i, hi, ha⟩
    obtain ⟨e, he, ha⟩ := Option.bind_eq_some_iff.mp ha
    split at ha
    · rename_i hadmits
      cases ha
      exact ⟨Array.mem_toList_iff.mp hi, e, he, hadmits, rfl, rfl⟩
    · cases ha
  · rintro ⟨hi, e, he, hadmits, hfar, hrel⟩
    refine ⟨a.edgeIndex, Array.mem_toList_iff.mpr hi, ?_⟩
    rw [he, Option.bind_some, if_pos hadmits, hfar, hrel]

/-- What is seen along the edges that have a node as their near end, if they are
    looked at. -/
theorem mem_sights_iff {near far : Edge → NodeId} {positions : Array Nat} {look : Bool}
    {u : NodeId} (hat : ∀ i, i ∈ positions ↔ ∃ e, s.edges[i]? = some e ∧ near e = u)
    {a : Adjacent} : (a ∈ if look then s.sightsAt relationships far positions else []) ↔
      ∃ e, s.edges[a.edgeIndex]? = some e ∧ admits relationships e.relationship = true ∧
        e.relationship = a.relationship ∧ look = true ∧ near e = u ∧ far e = a.neighbor := by
  constructor
  · intro ha
    split at ha
    · rename_i hlook
      obtain ⟨hi, e, he, hadmits, hfar, hrel⟩ := mem_sightsAt.mp ha
      obtain ⟨e', he', hnear⟩ := (hat _).mp hi
      cases he.symm.trans he'
      exact ⟨e, he, hadmits, hrel, hlook, hnear, hfar⟩
    · cases ha
  · rintro ⟨e, he, hadmits, hrel, hlook, hnear, hfar⟩
    rw [if_pos hlook]
    exact mem_sightsAt.mpr ⟨(hat _).mpr ⟨e, he, hnear⟩, e, he, hadmits, hfar, hrel⟩

/-- **The edges at a node** are the admitted ones that have it as their near end,
    each seen with its far end. -/
theorem Sound.mem_adjacent (h : s.Sound) {u : NodeId} {a : Adjacent} :
    a ∈ s.adjacent u relationships direction ↔
      ∃ e, s.edges[a.edgeIndex]? = some e ∧ admits relationships e.relationship = true ∧
        e.relationship = a.relationship ∧
        (direction.leaves = true ∧ e.source = u ∧ e.target = a.neighbor ∨
          direction.enters = true ∧ e.target = u ∧ e.source = a.neighbor) := by
  have hout : ∀ i, i ∈ s.outgoing.getD u #[] ↔ ∃ e, s.edges[i]? = some e ∧ e.source = u := by
    intro i
    rw [← Array.mem_toList_iff, h.outgoing, mem_positions]
    simp only [decide_eq_true_eq]
  have hinto : ∀ i, i ∈ s.incoming.getD u #[] ↔ ∃ e, s.edges[i]? = some e ∧ e.target = u := by
    intro i
    rw [← Array.mem_toList_iff, h.incoming, mem_positions]
    simp only [decide_eq_true_eq]
  rw [adjacent, List.mem_mergeSort, List.mem_append, mem_sights_iff hout,
    mem_sights_iff hinto, ← exists_or]
  refine exists_congr fun e => ?_
  rw [← and_or_left, ← and_or_left, ← and_or_left]

/-- What is seen from a node is what an edge joins it with. -/
theorem Sound.exists_adjacent_iff (h : s.Sound) {u v : NodeId} :
    (∃ a ∈ s.adjacent u relationships direction, a.neighbor = v) ↔
      s.Joined relationships direction u v := by
  constructor
  · rintro ⟨a, ha, rfl⟩
    obtain ⟨e, he, hadmits, -, hends⟩ := h.mem_adjacent.mp ha
    exact ⟨e, Array.mem_of_getElem? he, hadmits, hends⟩
  · rintro ⟨e, he, hadmits, hends⟩
    obtain ⟨i, hi⟩ := Array.mem_iff_getElem?.mp he
    exact ⟨⟨v, i, e.relationship⟩, h.mem_adjacent.mpr ⟨e, hi, hadmits, rfl, hends⟩, rfl⟩

theorem Sound.mem_neighbors (h : s.Sound) {u v : NodeId} {r : Relationship} :
    v ∈ s.neighbors u r direction ↔ s.Joined [r] direction u v := by
  rw [neighbors, Sorting.mem_dropRepeats, List.mem_map]
  exact h.exists_adjacent_iff

/-- Both ends of an edge are nodes. -/
theorem Sound.mem_of_joined (h : s.Sound) {u v : NodeId}
    (hj : s.Joined relationships direction u v) : u ∈ s.nodes ∧ v ∈ s.nodes := by
  obtain ⟨e, he, -, ⟨-, rfl, rfl⟩ | ⟨-, rfl, rfl⟩⟩ := hj
  · exact h.ends e he
  · exact (h.ends e he).symm

end CodeGraph.Store

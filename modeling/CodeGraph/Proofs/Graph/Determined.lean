import CodeGraph.Proofs.Graph.Reachable
/-! # A reachable store is determined by its nodes and edges

    Two stores that changes led to in different ways are the same as soon as
    they have the same nodes and the same edges.

    * Every index holds what a scan finds, so two indexes give the same answers.
    * No index has a key with nothing under it (`Filled`), so they are the same
      maps.
    * The length of the embeddings is that of any node that has one. -/

namespace CodeGraph.Store

open Std

/-! ## Indexes without idle keys -/

section Filled

variable {κ β : Type} [Ord κ] [TransCmp (compare : κ → κ → Ordering)]

/-- No key of an index has nothing under it. -/
def Filled (nothing : β) (index : ExtTreeMap κ β) : Prop :=
  ∀ key : κ, index[key]? ≠ some nothing

theorem filled_empty (nothing : β) : Filled nothing (∅ : ExtTreeMap κ β) := by
  intro key h
  rw [ExtTreeMap.getElem?_empty] at h
  cases h

/-- Indexes that answer alike are the same. -/
theorem Filled.eq_of_getD [LawfulEqCmp (compare : κ → κ → Ordering)] {nothing : β}
    {index index' : ExtTreeMap κ β} (h : Filled nothing index) (h' : Filled nothing index')
    (hsame : ∀ key, index.getD key nothing = index'.getD key nothing) : index = index' := by
  refine ExtTreeMap.ext_getElem? fun key => ?_
  have hkey := hsame key
  have hne := h key
  have hne' := h' key
  rw [ExtTreeMap.getD_eq_getD_getElem?, ExtTreeMap.getD_eq_getD_getElem?] at hkey
  cases hindex : index[key]? with
  | none =>
      cases hindex' : index'[key]? with
      | none => rfl
      | some b =>
          rw [hindex, hindex', Option.getD_none, Option.getD_some] at hkey
          rw [hindex', ← hkey] at hne'
          exact absurd rfl hne'
  | some a =>
      cases hindex' : index'[key]? with
      | none =>
          rw [hindex, hindex', Option.getD_none, Option.getD_some] at hkey
          rw [hindex, hkey] at hne
          exact absurd rfl hne
      | some b =>
          rw [hindex, hindex', Option.getD_some, Option.getD_some] at hkey
          rw [hkey]

/-- An index that gains an identifier keeps no idle key. -/
theorem Filled.enroll {index : ExtTreeMap κ (ExtTreeSet NodeId)} (h : Filled ∅ index)
    (key : κ) (id : NodeId) : Filled ∅ (enroll index key id) := by
  intro k hk
  rw [Store.enroll, ExtTreeMap.getElem?_alter] at hk
  split at hk
  · have hmem : id ∈ (index[key]?.getD ∅).insert id := ExtTreeSet.mem_insert_self
    rw [Option.some.inj hk] at hmem
    exact ExtTreeSet.not_mem_empty hmem
  · exact h k hk

theorem Filled.mark {index : ExtTreeMap κ (Array Nat)} (h : Filled #[] index)
    (key : κ) (i : Nat) : Filled #[] (mark index key i) := by
  intro k hk
  rw [Store.mark, ExtTreeMap.getElem?_alter] at hk
  split at hk
  · have hsize := congrArg Array.size (Option.some.inj hk)
    rw [Array.size_push] at hsize
    cases hsize
  · exact h k hk

end Filled

/-- Every index has something under each of its keys. -/
structure Tidy (s : Store) : Prop where
  byKind : Filled ∅ s.byKind
  byName : Filled ∅ s.byName
  byRelationship : Filled #[] s.byRelationship
  outgoing : Filled #[] s.outgoing
  incoming : Filled #[] s.incoming

theorem tidy_empty : ({} : Store).Tidy :=
  ⟨filled_empty _, filled_empty _, filled_empty _, filled_empty _, filled_empty _⟩

/-- Every change keeps the indexes of a reachable store tidy. -/
theorem Reachable.tidy {s : Store} (h : s.Reachable) : s.Tidy := by
  induction h with
  | empty => exact tidy_empty
  | addNode _ hok ih =>
      obtain ⟨-, rfl⟩ := addNode_ok hok
      refine ⟨ih.byKind.enroll _ _, ?_, ih.byRelationship, ih.outgoing, ih.incoming⟩
      dsimp only
      split
      · exact ih.byName.enroll _ _
      · exact ih.byName
  | addEdge _ hok ih =>
      obtain ⟨-, rfl⟩ := addEdge_ok hok
      exact ⟨ih.byKind, ih.byName, ih.byRelationship.mark _ _, ih.outgoing.mark _ _,
        ih.incoming.mark _ _⟩
  | enrich _ hok ih =>
      rcases enrich_ok hok with rfl | ⟨node, -, -, rfl⟩
      · exact ih
      · refine ⟨ih.byKind, ?_, ih.byRelationship, ih.outgoing, ih.incoming⟩
        dsimp only
        split
        · split
          · exact ih.byName.enroll _ _
          · exact ih.byName
        · exact ih.byName
  | attachEmbedding _ hok ih =>
      obtain ⟨-, node, -, rfl⟩ := attachEmbedding_ok hok
      exact ⟨ih.byKind, ih.byName, ih.byRelationship, ih.outgoing, ih.incoming⟩

/-! ## Extensionality -/

section Extensionality

variable {s s' : Store} (h : s.Sound) (h' : s'.Sound) (hnodes : s.nodes = s'.nodes)

include h h' hnodes

/-- If one store has embeddings of some length, so has the other. -/
theorem embeddingDimension_of_nodes_eq {d : Nat} (hd : s.embeddingDimension = some d) :
    s'.embeddingDimension = some d := by
  obtain ⟨id, n, hn, hembedded⟩ := h.embedded (by rw [hd]; rfl)
  obtain ⟨v, hv⟩ := Option.isSome_iff_exists.mp hembedded
  have hsize := h.dimension id n v hn hv
  rw [hd] at hsize
  rw [hsize]
  rw [hnodes] at hn
  exact h'.dimension id n v hn hv

end Extensionality

/-- **A reachable store is determined by its nodes and edges.** -/
theorem Reachable.ext {s s' : Store} (h : s.Reachable) (h' : s'.Reachable)
    (hnodes : s.nodes = s'.nodes) (hedges : s.edges = s'.edges) : s = s' := by
  have hs := h.sound
  have hs' := h'.sound
  have hpositions : ∀ p, s.positions p = s'.positions p := by
    intro p
    rw [positions, positions, hedges]
  -- every index lists what the nodes or the edges say, and has no empty entries
  have hkind : s.byKind = s'.byKind := by
    refine h.tidy.byKind.eq_of_getD h'.tidy.byKind fun kind => ExtTreeSet.ext_mem fun id => ?_
    rw [hs.byKind, hs'.byKind, hnodes]
  have hname : s.byName = s'.byName := by
    refine h.tidy.byName.eq_of_getD h'.tidy.byName fun name => ExtTreeSet.ext_mem fun id => ?_
    rw [hs.byName, hs'.byName, hnodes]
  have hrelationship : s.byRelationship = s'.byRelationship := by
    refine h.tidy.byRelationship.eq_of_getD h'.tidy.byRelationship fun r => ?_
    rw [← Array.toList_inj, hs.byRelationship, hs'.byRelationship, hpositions]
  have houtgoing : s.outgoing = s'.outgoing := by
    refine h.tidy.outgoing.eq_of_getD h'.tidy.outgoing fun id => ?_
    rw [← Array.toList_inj, hs.outgoing, hs'.outgoing, hpositions]
  have hincoming : s.incoming = s'.incoming := by
    refine h.tidy.incoming.eq_of_getD h'.tidy.incoming fun id => ?_
    rw [← Array.toList_inj, hs.incoming, hs'.incoming, hpositions]
  have hdimension : s.embeddingDimension = s'.embeddingDimension := by
    refine Option.ext fun d => ⟨?_, ?_⟩
    · exact embeddingDimension_of_nodes_eq hs hs' hnodes
    · exact embeddingDimension_of_nodes_eq hs' hs hnodes.symm
  cases s
  cases s'
  rw [mk.injEq]
  exact ⟨hnodes, hedges, hkind, hname, hrelationship, houtgoing, hincoming, hdimension⟩

end CodeGraph.Store

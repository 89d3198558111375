import CodeGraph.Proofs.Graph.Determined
import CodeGraph.Snapshot.Document
/-! # Rebuilding — a store from its nodes and edges

    A reachable store is rebuilt from the list of its nodes and the list of its
    edges.

    * Each node is accepted, because no other has its identifier, and each
      embedding, because all have one length (`restoreNode_ok`).
    * Each edge is accepted, because its ends are there (`addEdge_eq_ok`).
    * What is rebuilt is reachable and has the same nodes and edges, and that
      determines it (`restore_nodeList`). -/

namespace CodeGraph.Snapshot

open Std Store

/-! ## Nodes -/

/-- A vector that fits is attached to a node. -/
theorem attachEmbedding_eq_ok {s : Store} {id : NodeId} {node : Node} {v : Embedding}
    (hnode : s.nodes[id]? = some node)
    (hfits : ∀ d, s.embeddingDimension = some d → v.size = d) :
    s.attachEmbedding id v = .ok { s with
      nodes := s.nodes.insert id { node with embedding := some v }
      embeddingDimension := some v.size } := by
  have hattach : attachEmbedding.attach s id v = .ok { s with
      nodes := s.nodes.insert id { node with embedding := some v }
      embeddingDimension := some v.size } := by
    rw [attachEmbedding.attach, hnode]
  rw [attachEmbedding]
  split
  · rename_i d hd
    rw [if_pos (hfits d hd), hattach]
  · exact hattach

theorem insert_insert (nodes : ExtTreeMap NodeId Node) (id : NodeId) (n m : Node) :
    (nodes.insert id n).insert id m = nodes.insert id m := by
  refine ExtTreeMap.ext_getElem? fun a => ?_
  rw [ExtTreeMap.getElem?_insert, ExtTreeMap.getElem?_insert, ExtTreeMap.getElem?_insert]
  split <;> rfl

/-- A node with an embedding that fits is accepted under a new identifier. -/
theorem restoreNode_ok {s : Store} (h : s.Reachable) {n : Node} (hnew : n.id ∉ s.nodes)
    (hfits : ∀ v, n.embedding = some v → ∀ d, s.embeddingDimension = some d → v.size = d) :
    ∃ s', restoreNode s n = .ok s' ∧ s'.Reachable ∧ s'.nodes = s.nodes.insert n.id n ∧
      s'.edges = s.edges ∧
      s'.embeddingDimension = (n.embedding.map Array.size).or s.embeddingDimension := by
  obtain ⟨id, kind, attributes, embedding⟩ := n
  obtain ⟨s', hadd, hnodes, hedges, hdimension⟩ : ∃ s', s.addNode id kind attributes = .ok s' ∧
      s'.nodes = s.nodes.insert id ⟨id, kind, attributes, none⟩ ∧ s'.edges = s.edges ∧
      s'.embeddingDimension = s.embeddingDimension := ⟨_, if_neg hnew, rfl, rfl, rfl⟩
  have hadded := h.addNode hadd
  cases embedding with
  | none =>
      refine ⟨s', ?_, hadded, hnodes, hedges, hdimension⟩
      rw [restoreNode, hadd]
      rfl
  | some v =>
      have hnode : s'.nodes[id]? = some ⟨id, kind, attributes, none⟩ := by
        rw [hnodes]
        exact ExtTreeMap.getElem?_insert_self
      have hattach := attachEmbedding_eq_ok hnode fun d hd => hfits v rfl d (hdimension ▸ hd)
      refine ⟨_, ?_, hadded.attachEmbedding hattach, ?_, hedges, rfl⟩
      · rw [restoreNode, hadd]
        exact hattach
      · rw [hnodes]
        exact insert_insert ..

/-- Nodes under new identifiers, each its own, are accepted in turn, if their
    embeddings have the length of those that there are. -/
theorem foldlM_restoreNode {d : Nat} {l : List Node} {s : Store} (h : s.Reachable)
    (hdistinct : l.Pairwise fun a b => a.id ≠ b.id) (hnew : ∀ n ∈ l, n.id ∉ s.nodes)
    (hsize : ∀ n ∈ l, ∀ v, n.embedding = some v → v.size = d)
    (hdimension : ∀ e, s.embeddingDimension = some e → e = d) :
    ∃ s', l.foldlM restoreNode s = .ok s' ∧ s'.Reachable ∧ s'.edges = s.edges ∧
      ∀ (id : NodeId) (n : Node), s'.nodes[id]? = some n ↔
        s.nodes[id]? = some n ∨ n ∈ l ∧ n.id = id := by
  -- on the nodes that are still to come; what holds of the store is passed on
  induction l generalizing s with
  | nil =>
      refine ⟨s, rfl, h, rfl, fun id n => ?_⟩
      constructor
      · exact Or.inl
      · rintro (hn | ⟨hn, -⟩)
        · exact hn
        · cases hn
  | cons m l ih =>
      obtain ⟨hm, hl⟩ := List.pairwise_cons.mp hdistinct
      have hmnew := hnew m List.mem_cons_self
      obtain ⟨s₁, hok, h₁, hnodes, hedges, hdim⟩ := restoreNode_ok h hmnew fun v hv e he => by
        rw [hsize m List.mem_cons_self v hv, hdimension e he]
      have hlnew : ∀ n ∈ l, n.id ∉ s₁.nodes := by
        intro n hn hmem
        rw [hnodes, ExtTreeMap.mem_insert] at hmem
        rcases hmem with heq | hmem
        · exact hm n hn (LawfulEqCmp.eq_of_compare heq)
        · exact hnew n (List.mem_cons_of_mem m hn) hmem
      have hldimension : ∀ e, s₁.embeddingDimension = some e → e = d := by
        intro e he
        rw [hdim] at he
        cases hv : m.embedding with
        | none =>
            rw [hv] at he
            exact hdimension e he
        | some v =>
            rw [hv] at he
            cases he
            exact hsize m List.mem_cons_self v hv
      obtain ⟨s', hfold, h', hedges', hnodes'⟩ := ih h₁ hl hlnew
        (fun n hn => hsize n (List.mem_cons_of_mem m hn)) hldimension
      refine ⟨s', ?_, h', hedges'.trans hedges, fun id n => ?_⟩
      · rw [List.foldlM_cons, hok]
        exact hfold
      · rw [hnodes', hnodes, getElem?_insert_iff, List.mem_cons]
        constructor
        · rintro ((⟨rfl, rfl⟩ | ⟨-, hn⟩) | ⟨hn, hid⟩)
          · exact Or.inr ⟨Or.inl rfl, rfl⟩
          · exact Or.inl hn
          · exact Or.inr ⟨Or.inr hn, hid⟩
        · rintro (hn | ⟨rfl | hn, hid⟩)
          · exact Or.inl (Or.inr ⟨ne_of_new hmnew hn, hn⟩)
          · exact Or.inl (Or.inl ⟨hid.symm, rfl⟩)
          · exact Or.inr ⟨hn, hid⟩

/-! ## Edges -/

/-- Edges between nodes are accepted in turn. -/
theorem foldlM_addEdge {l : List Edge} {s : Store} (h : s.Reachable)
    (hends : ∀ e ∈ l, e.source ∈ s.nodes ∧ e.target ∈ s.nodes) :
    ∃ s', l.foldlM Store.addEdge s = .ok s' ∧ s'.Reachable ∧ s'.nodes = s.nodes ∧
      s'.edges.toList = s.edges.toList ++ l := by
  induction l generalizing s with
  | nil => exact ⟨s, rfl, h, rfl, (List.append_nil _).symm⟩
  | cons e l ih =>
      obtain ⟨hsource, htarget⟩ := hends e List.mem_cons_self
      have hfind : [e.source, e.target].find? (fun id => decide (id ∉ s.nodes)) = none := by
        simp [hsource, htarget]
      have hadd : s.addEdge e = .ok { s with
          edges := s.edges.push e
          byRelationship := mark s.byRelationship e.relationship s.edges.size
          outgoing := mark s.outgoing e.source s.edges.size
          incoming := mark s.incoming e.target s.edges.size } := by
        rw [addEdge, hfind]
      obtain ⟨s', hfold, h', hnodes, hedges⟩ := ih (h.addEdge hadd)
        fun f hf => hends f (List.mem_cons_of_mem e hf)
      refine ⟨s', ?_, h', hnodes, ?_⟩
      · rw [List.foldlM_cons, hadd]
        exact hfold
      · rw [hedges, Array.toList_push, List.append_assoc]
        rfl

/-! ## The whole -/

theorem mem_nodeList {s : Store} {n : Node} :
    n ∈ s.nodeList ↔ ∃ id : NodeId, s.nodes[id]? = some n := by
  rw [nodeList, List.mem_map]
  constructor
  · rintro ⟨⟨id, n⟩, hn, rfl⟩
    exact ⟨id, ExtTreeMap.mem_toList_iff_getElem?_eq_some.mp hn⟩
  · rintro ⟨id, hn⟩
    exact ⟨⟨id, n⟩, ExtTreeMap.mem_toList_iff_getElem?_eq_some.mpr hn, rfl⟩

/-- **A reachable store is rebuilt from its nodes and edges.** -/
theorem restore_nodeList {s : Store} (h : s.Reachable) :
    restore s.nodeList s.edges.toList = .ok s := by
  have hs := h.sound
  have hdistinct : s.nodeList.Pairwise fun a b => a.id ≠ b.id := by
    refine List.pairwise_map.mpr (ExtTreeMap.distinct_keys_toList.imp_of_mem ?_)
    rintro ⟨a, n⟩ ⟨b, m⟩ hn hm hne heq
    rw [ExtTreeMap.mem_toList_iff_getElem?_eq_some] at hn hm
    rw [hs.keyed a n hn, hs.keyed b m hm] at heq
    exact hne (LawfulEqCmp.compare_eq_iff_eq.mpr heq)
  have hsize : ∀ n ∈ s.nodeList, ∀ v, n.embedding = some v →
      v.size = s.embeddingDimension.getD 0 := by
    intro n hn v hv
    obtain ⟨id, hn⟩ := mem_nodeList.mp hn
    rw [hs.dimension id n v hn hv, Option.getD_some]
  obtain ⟨s₁, hnodesOk, h₁, hedges₁, hnodes₁⟩ := foldlM_restoreNode Reachable.empty hdistinct
    (fun n _ => ExtTreeMap.not_mem_empty) hsize nofun
  have hnodes : s₁.nodes = s.nodes := by
    refine ExtTreeMap.ext_getElem? fun id => Option.ext fun n => ?_
    rw [hnodes₁, mem_nodeList]
    constructor
    · rintro (hn | ⟨⟨a, hn⟩, rfl⟩)
      · cases hn
      · rw [hs.keyed a n hn]
        exact hn
    · intro hn
      exact Or.inr ⟨⟨id, hn⟩, hs.keyed id n hn⟩
  obtain ⟨s₂, hedgesOk, h₂, hnodes₂, hedges₂⟩ := foldlM_addEdge h₁ fun e he => by
    rw [hnodes]
    exact hs.ends e (Array.mem_toList_iff.mp he)
  -- reachable stores with the same nodes and edges are the same, indexes included
  have hsame : s₂ = s := by
    refine h₂.ext h (hnodes₂.trans hnodes) ?_
    rw [← Array.toList_inj, hedges₂, hedges₁]
    rfl
  rw [restore, hnodesOk]
  exact hedgesOk.trans (congrArg _ hsame)

end CodeGraph.Snapshot

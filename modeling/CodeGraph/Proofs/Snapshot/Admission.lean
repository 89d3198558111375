import CodeGraph.Proofs.Files.Tree
import CodeGraph.Proofs.Snapshot.Rebuild
/-! # Admission — which nodes and edges make a graph

    Nodes and edges are added in turn, and one that is refused ends the rebuilding.

    * What is refused is refused for what stands before it: an identifier that was
      there, an embedding of another length, an end that is not there.
    * So the order within the nodes and within the edges plays no part, and a list of
      nodes and a list of edges make a graph exactly if they are `Admissible`
      (`exists_restore_iff`).
    * The graph has these nodes and edges and no others (`restore_ok`). -/

namespace CodeGraph.Snapshot

open Std Store

variable {nodes : List Node} {edges : List Edge} {s s' : Store}

/-- Nodes and edges that make a graph: no identifier twice, no edge without its ends,
    and embeddings of one length. -/
structure Admissible (nodes : List Node) (edges : List Edge) : Prop where
  distinct : (nodes.map (·.id)).Nodup
  ends : ∀ e ∈ edges, e.source ∈ nodes.map (·.id) ∧ e.target ∈ nodes.map (·.id)
  oneLength : ∃ d, ∀ n ∈ nodes, ∀ v, n.embedding = some v → v.size = d

/-- A store with given nodes and edges, and no others. -/
structure Holds (nodes : List Node) (edges : List Edge) (s : Store) : Prop where
  nodes : ∀ (id : NodeId) (n : Node), s.nodes[id]? = some n ↔ n ∈ nodes ∧ n.id = id
  edges : s.edges.toList = edges

/-! ## What is refused -/

/-- A node is accepted only under a new identifier, and only with an embedding that
    fits. -/
theorem of_restoreNode_ok {n : Node} (hok : restoreNode s n = .ok s') :
    n.id ∉ s.nodes ∧
      ∀ v, n.embedding = some v → ∀ d, s.embeddingDimension = some d → v.size = d := by
  obtain ⟨t, hadd, hattach⟩ := FileTree.bind_ok hok
  obtain ⟨hnew, rfl⟩ := addNode_ok hadd
  refine ⟨hnew, fun v hv d hd => ?_⟩
  rw [hv] at hattach
  exact (attachEmbedding_ok hattach).1 d hd

/-- Nodes that are accepted in turn have identifiers of their own, and embeddings of the
    length that there was. -/
theorem of_foldlM_restoreNode_ok {l : List Node} (h : s.Reachable)
    (hok : l.foldlM restoreNode s = .ok s') :
    l.Pairwise (fun a b => a.id ≠ b.id) ∧ (∀ n ∈ l, n.id ∉ s.nodes) ∧
      ∃ d, (∀ n ∈ l, ∀ v, n.embedding = some v → v.size = d) ∧
        ∀ e, s.embeddingDimension = some e → e = d := by
  induction l generalizing s with
  | nil => exact ⟨List.Pairwise.nil, nofun, s.embeddingDimension.getD 0, nofun,
      fun e he => by rw [he, Option.getD_some]⟩
  | cons m l ih =>
      rw [List.foldlM_cons] at hok
      obtain ⟨t, hm, hok⟩ := FileTree.bind_ok hok
      obtain ⟨hnew, hfits⟩ := of_restoreNode_ok hm
      obtain ⟨t', ht, hreach, hnodes, -, hdim⟩ := restoreNode_ok h hnew hfits
      cases hm.symm.trans ht
      obtain ⟨hdistinct, hlnew, d, hsize, hd⟩ := ih hreach hok
      have hother : ∀ n ∈ l, m.id ≠ n.id ∧ n.id ∉ s.nodes := by
        intro n hn
        have hnot := hlnew n hn
        rw [hnodes, ExtTreeMap.mem_insert, not_or] at hnot
        exact ⟨fun heq => hnot.1 (LawfulEqCmp.compare_eq_iff_eq.mpr heq), hnot.2⟩
      refine ⟨List.pairwise_cons.mpr ⟨fun n hn => (hother n hn).1, hdistinct⟩,
        List.forall_mem_cons.mpr ⟨hnew, fun n hn => (hother n hn).2⟩, d,
        List.forall_mem_cons.mpr ⟨fun v hv => hd _ ?_, hsize⟩, fun e he => ?_⟩
      · rw [hdim, hv]
        rfl
      · -- the first embedding that there is sets the length
        cases hv : m.embedding with
        | none =>
            refine hd e ?_
            rw [hdim, hv]
            exact he
        | some v =>
            rw [← hfits v hv e he]
            refine hd _ ?_
            rw [hdim, hv]
            rfl

/-- Edges that are accepted in turn have their ends in the store. -/
theorem of_foldlM_addEdge_ok {l : List Edge} (hok : l.foldlM Store.addEdge s = .ok s') :
    ∀ e ∈ l, e.source ∈ s.nodes ∧ e.target ∈ s.nodes := by
  induction l generalizing s with
  | nil => nofun
  | cons e l ih =>
      rw [List.foldlM_cons] at hok
      obtain ⟨t, he, hok⟩ := FileTree.bind_ok hok
      obtain ⟨hends, rfl⟩ := addEdge_ok he
      have hrest := ih hok
      exact List.forall_mem_cons.mpr ⟨hends, hrest⟩

/-! ## What is accepted -/

/-- What `Admissible` asks for makes a graph. -/
theorem restore_of_admissible (h : Admissible nodes edges) :
    ∃ s, restore nodes edges = .ok s ∧ s.Reachable ∧ Holds nodes edges s := by
  obtain ⟨d, hsize⟩ := h.oneLength
  obtain ⟨s₁, hnodesOk, h₁, hedges₁, hnodes₁⟩ := foldlM_restoreNode Reachable.empty
    (List.pairwise_map.mp h.distinct) (fun n _ => ExtTreeMap.not_mem_empty) hsize nofun
  have hholds : ∀ (id : NodeId) (n : Node), s₁.nodes[id]? = some n ↔ n ∈ nodes ∧ n.id = id := by
    intro id n
    rw [hnodes₁]
    exact ⟨fun hn => hn.resolve_left nofun, Or.inr⟩
  have hmem : ∀ id ∈ nodes.map (·.id), id ∈ s₁.nodes := by
    intro id hid
    obtain ⟨n, hn, rfl⟩ := List.mem_map.mp hid
    rw [ExtTreeMap.mem_iff_isSome_getElem?, (hholds n.id n).mpr ⟨hn, rfl⟩]
    rfl
  obtain ⟨s₂, hedgesOk, h₂, hnodes₂, hedges₂⟩ := foldlM_addEdge h₁ fun e he =>
    ⟨hmem _ (h.ends e he).1, hmem _ (h.ends e he).2⟩
  refine ⟨s₂, ?_, h₂, fun id n => ?_, ?_⟩
  · rw [restore, hnodesOk]
    exact hedgesOk
  · rw [hnodes₂]
    exact hholds id n
  · rw [hedges₂, hedges₁]
    rfl

/-- **What makes a graph is admissible, and the graph holds just that.** -/
theorem restore_ok (hok : restore nodes edges = .ok s) :
    Admissible nodes edges ∧ s.Reachable ∧ Holds nodes edges s := by
  have hadmissible : Admissible nodes edges := by
    obtain ⟨s₁, hnodesOk, hedgesOk⟩ := FileTree.bind_ok hok
    obtain ⟨hdistinct, hnew, d, hsize, -⟩ := of_foldlM_restoreNode_ok Reachable.empty hnodesOk
    obtain ⟨s₁', hnodesOk', -, -, hnodes⟩ := foldlM_restoreNode Reachable.empty hdistinct hnew
      hsize nofun
    cases hnodesOk.symm.trans hnodesOk'
    have hids : ∀ id ∈ s₁.nodes, id ∈ nodes.map (·.id) := by
      intro id hid
      have hn := (hnodes id _).mp (ExtTreeMap.getElem?_eq_some_getElem hid)
      obtain ⟨hn, hid⟩ := hn.resolve_left nofun
      exact List.mem_map.mpr ⟨_, hn, hid⟩
    have hends := of_foldlM_addEdge_ok hedgesOk
    exact ⟨List.pairwise_map.mpr hdistinct,
      fun e he => ⟨hids _ (hends e he).1, hids _ (hends e he).2⟩, d, hsize⟩
  obtain ⟨s', hok', hreach, hholds⟩ := restore_of_admissible hadmissible
  cases hok.symm.trans hok'
  exact ⟨hadmissible, hreach, hholds⟩

/-- **Nodes and edges make a graph exactly if they are admissible.** -/
theorem exists_restore_iff : (∃ s, restore nodes edges = .ok s) ↔ Admissible nodes edges :=
  ⟨fun ⟨_, hok⟩ => (restore_ok hok).1, fun h => (restore_of_admissible h).imp fun _ h => h.1⟩

/-! ## Documents that are accepted -/

theorem graph_eq_ok_iff {d : Document} {path : String} {g : FrozenGraph} :
    d.graph path = .ok g ↔ checksum d.nodes d.edges = d.checksum ∧
      restore d.nodes d.edges = .ok g.store ∧ g.id = d.graphId := by
  rw [Document.graph]
  by_cases hsealed : checksum d.nodes d.edges = d.checksum
  · rw [if_neg (not_not_intro hsealed)]
    cases hrestore : restore d.nodes d.edges with
    | error e => exact ⟨nofun, fun h => nomatch h.2.1⟩
    | ok s =>
        constructor
        · intro h
          cases h
          exact ⟨hsealed, rfl, rfl⟩
        · rintro ⟨-, hs, hid⟩
          cases hs
          exact congrArg Except.ok (by rw [← hid])
  · rw [if_pos hsealed]
    exact ⟨nofun, fun h => absurd h.1 hsealed⟩

/-- A text is accepted if it is a document that is sealed by its checksum and makes a
    graph. -/
theorem read_eq_ok_iff {path text : String} {g : FrozenGraph} : read path text = .ok g ↔
    ∃ d, Document.parse text = .ok d ∧ checksum d.nodes d.edges = d.checksum ∧
      restore d.nodes d.edges = .ok g.store ∧ g.id = d.graphId := by
  constructor
  · intro h
    obtain ⟨d, hparse, hgraph⟩ := FileTree.bind_ok h
    exact ⟨d, hparse, graph_eq_ok_iff.mp hgraph⟩
  · rintro ⟨d, hparse, hgraph⟩
    rw [read, hparse]
    exact graph_eq_ok_iff.mpr hgraph

end CodeGraph.Snapshot

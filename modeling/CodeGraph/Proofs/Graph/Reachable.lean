import CodeGraph.Graph.Store
/-! # Reachable stores — every index is a scan

    A store is reachable if the changes that succeed lead to it from the empty
    store.  The route to what its questions answer:

    * each change has one inversion lemma, which says under which condition it
      succeeds and which store comes out;
    * `Sound` says of each index that it holds what a scan of the nodes or of
      the edges would find, and of the embeddings that they have one length;
    * every change keeps a sound store sound, so every reachable store is
      sound (`Reachable.sound`). -/

namespace CodeGraph.Store

open Std

/-- The stores that successful changes lead to from the empty store. -/
inductive Reachable : Store → Prop
  | empty : Reachable {}
  | addNode {s s' : Store} {id : NodeId} {kind : NodeKind} {attributes : Attributes} :
      Reachable s → s.addNode id kind attributes = .ok s' → Reachable s'
  | addEdge {s s' : Store} {e : Edge} :
      Reachable s → s.addEdge e = .ok s' → Reachable s'
  | enrich {s s' : Store} {id : NodeId} {key : String} {value : Json} :
      Reachable s → s.enrich id key value = .ok s' → Reachable s'
  | attachEmbedding {s s' : Store} {id : NodeId} {vector : Embedding} :
      Reachable s → s.attachEmbedding id vector = .ok s' → Reachable s'

/-! ## What each change does -/

/-- A node is added only under a new identifier. -/
theorem addNode_ok {s s' : Store} {id : NodeId} {kind : NodeKind}
    {attributes : Attributes} (h : s.addNode id kind attributes = .ok s') :
    id ∉ s.nodes ∧ s' = { s with
      nodes := s.nodes.insert id ⟨id, kind, attributes, none⟩
      byKind := enroll s.byKind kind id
      byName := match attributes[Attribute.name]?.bind Json.asString? with
        | some name => enroll s.byName name id
        | none => s.byName } := by
  unfold Store.addNode at h
  split at h
  · cases h
  · rename_i hnew
    exact ⟨hnew, (Except.ok.inj h).symm⟩

/-- An edge is added only between nodes. -/
theorem addEdge_ok {s s' : Store} {e : Edge} (h : s.addEdge e = .ok s') :
    (e.source ∈ s.nodes ∧ e.target ∈ s.nodes) ∧ s' = { s with
      edges := s.edges.push e
      byRelationship := mark s.byRelationship e.relationship s.edges.size
      outgoing := mark s.outgoing e.source s.edges.size
      incoming := mark s.incoming e.target s.edges.size } := by
  unfold Store.addEdge at h
  split at h
  · cases h
  · rename_i hends
    refine ⟨?_, (Except.ok.inj h).symm⟩
    simpa using hends

/-- An attribute that is there stays, and only a value that agrees with it is not refused;
    where there is none the value is set. -/
theorem enrich_cases {s s' : Store} {id : NodeId} {key : String} {value : Json}
    (h : s.enrich id key value = .ok s') :
    ∃ node, s.nodes[id]? = some node ∧
      ((∃ old, node.attributes[key]? = some old ∧ old.agrees value ∧ s' = s) ∨
        (node.attributes[key]? = none ∧ s' = { s with
          nodes := s.nodes.insert id
            { node with attributes := node.attributes.insert key value }
          byName :=
            if key = Attribute.name then
              match value.asString? with
              | some name => enroll s.byName name id
              | none => s.byName
            else s.byName })) := by
  unfold Store.enrich at h
  split at h
  · cases h
  · rename_i node hnode
    refine ⟨node, hnode, ?_⟩
    split at h
    · rename_i old hold
      split at h
      · rename_i hagrees
        exact Or.inl ⟨old, hold, hagrees, (Except.ok.inj h).symm⟩
      · cases h
    · rename_i hkey
      exact Or.inr ⟨hkey, (Except.ok.inj h).symm⟩

/-- An attribute is set only where there is none; one that agrees stays. -/
theorem enrich_ok {s s' : Store} {id : NodeId} {key : String} {value : Json}
    (h : s.enrich id key value = .ok s') :
    s' = s ∨ ∃ node, s.nodes[id]? = some node ∧ node.attributes[key]? = none ∧
      s' = { s with
        nodes := s.nodes.insert id
          { node with attributes := node.attributes.insert key value }
        byName :=
          if key = Attribute.name then
            match value.asString? with
            | some name => enroll s.byName name id
            | none => s.byName
          else s.byName } := by
  obtain ⟨node, hnode, ⟨old, -, -, heq⟩ | ⟨hkey, heq⟩⟩ := enrich_cases h
  · exact Or.inl heq
  · exact Or.inr ⟨node, hnode, hkey, heq⟩

/-- A vector is attached only to a node, and only if it has the length of those
    that are there. -/
theorem attachEmbedding_ok {s s' : Store} {id : NodeId} {vector : Embedding}
    (h : s.attachEmbedding id vector = .ok s') :
    (∀ d, s.embeddingDimension = some d → vector.size = d) ∧
      ∃ node, s.nodes[id]? = some node ∧ s' = { s with
        nodes := s.nodes.insert id { node with embedding := some vector }
        embeddingDimension := some vector.size } := by
  have hattach : attachEmbedding.attach s id vector = .ok s' →
      ∃ node, s.nodes[id]? = some node ∧ s' = { s with
        nodes := s.nodes.insert id { node with embedding := some vector }
        embeddingDimension := some vector.size } := by
    intro ha
    unfold attachEmbedding.attach at ha
    split at ha
    · cases ha
    · rename_i node hnode
      exact ⟨node, hnode, (Except.ok.inj ha).symm⟩
  unfold Store.attachEmbedding at h
  split at h
  · rename_i expected hdim
    split at h
    · rename_i hsize
      refine ⟨?_, hattach h⟩
      intro d hd
      rw [hdim] at hd
      exact hsize.trans (Option.some.inj hd)
    · cases h
  · rename_i hdim
    refine ⟨?_, hattach h⟩
    intro d hd
    rw [hdim] at hd
    cases hd

/-! ## Sound stores -/

/-- The positions of the edges with a property, ascending. -/
def positions (s : Store) (p : Edge → Bool) : List Nat :=
  (List.range s.edges.size).filter fun i => s.edges[i]?.any p

/-- Every index holds what a scan would find. -/
structure Sound (s : Store) : Prop where
  keyed : ∀ (id : NodeId) (n : Node), s.nodes[id]? = some n → n.id = id
  ends : ∀ e ∈ s.edges, e.source ∈ s.nodes ∧ e.target ∈ s.nodes
  byKind : ∀ (kind : NodeKind) (id : NodeId), id ∈ s.byKind.getD kind ∅ ↔
    ∃ n, s.nodes[id]? = some n ∧ n.kind = kind
  byName : ∀ (name : String) (id : NodeId), id ∈ s.byName.getD name ∅ ↔
    ∃ n, s.nodes[id]? = some n ∧ n.text? Attribute.name = some name
  byRelationship : ∀ r : Relationship, (s.byRelationship.getD r #[]).toList =
    s.positions fun e => e.relationship = r
  outgoing : ∀ id : NodeId, (s.outgoing.getD id #[]).toList =
    s.positions fun e => e.source = id
  incoming : ∀ id : NodeId, (s.incoming.getD id #[]).toList =
    s.positions fun e => e.target = id
  dimension : ∀ (id : NodeId) (n : Node) (v : Embedding), s.nodes[id]? = some n →
    n.embedding = some v → s.embeddingDimension = some v.size
  embedded : s.embeddingDimension.isSome →
    ∃ (id : NodeId) (n : Node), s.nodes[id]? = some n ∧ n.embedding.isSome

/-- Enrolling adds one identifier under one key. -/
theorem mem_getD_enroll {κ : Type} [Ord κ]
    [TransCmp (compare : κ → κ → Ordering)] [LawfulEqCmp (compare : κ → κ → Ordering)]
    (index : ExtTreeMap κ (ExtTreeSet NodeId)) (key k : κ) (id a : NodeId) :
    a ∈ (enroll index key id).getD k ∅ ↔ (key = k ∧ a = id) ∨ a ∈ index.getD k ∅ := by
  unfold enroll
  rw [ExtTreeMap.getD_alter]
  by_cases hk : key = k
  · subst hk
    rw [if_pos ReflCmp.compare_self, Option.getD_some, ExtTreeSet.mem_insert,
      ← ExtTreeMap.getD_eq_getD_getElem?, LawfulEqCmp.compare_eq_iff_eq]
    constructor
    · rintro (h | h)
      · exact Or.inl ⟨rfl, h.symm⟩
      · exact Or.inr h
    · rintro (⟨-, h⟩ | h)
      · exact Or.inl h.symm
      · exact Or.inr h
  · rw [if_neg (fun h => hk (LawfulEqCmp.eq_of_compare h))]
    simp [hk]

/-- Marking adds one position under one key. -/
theorem getD_mark {κ : Type} [Ord κ] [DecidableEq κ]
    [TransCmp (compare : κ → κ → Ordering)] [LawfulEqCmp (compare : κ → κ → Ordering)]
    (index : ExtTreeMap κ (Array Nat)) (key k : κ) (i : Nat) :
    ((mark index key i).getD k #[]).toList =
      (index.getD k #[]).toList ++ if key = k then [i] else [] := by
  unfold mark
  rw [ExtTreeMap.getD_alter]
  by_cases hk : key = k
  · subst hk
    rw [if_pos ReflCmp.compare_self, if_pos rfl, Option.getD_some,
      ← ExtTreeMap.getD_eq_getD_getElem?, Array.toList_push]
  · rw [if_neg (fun h => hk (LawfulEqCmp.eq_of_compare h)), if_neg hk, List.append_nil]

/-- Enrolling under the key that there may be. -/
theorem mem_getD_enroll? {κ : Type} [Ord κ]
    [TransCmp (compare : κ → κ → Ordering)] [LawfulEqCmp (compare : κ → κ → Ordering)]
    (index : ExtTreeMap κ (ExtTreeSet NodeId)) {index' : ExtTreeMap κ (ExtTreeSet NodeId)}
    (key? : Option κ) {id : NodeId}
    (hsome : ∀ key, key? = some key → index' = enroll index key id)
    (hnone : key? = none → index' = index) (k : κ) (a : NodeId) :
    a ∈ index'.getD k ∅ ↔ (key? = some k ∧ a = id) ∨ a ∈ index.getD k ∅ := by
  cases key? with
  | none => simp [hnone rfl]
  | some key => rw [hsome key rfl, mem_getD_enroll, Option.some.injEq]

/-- A new edge has the last position. -/
theorem positions_push (s : Store) (e : Edge) (p : Edge → Bool) :
    ({ s with edges := s.edges.push e } : Store).positions p =
      s.positions p ++ if p e then [s.edges.size] else [] := by
  unfold positions
  rw [Array.size_push, List.range_succ, List.filter_append]
  have hold : (List.range s.edges.size).filter (fun i => (s.edges.push e)[i]?.any p) =
      (List.range s.edges.size).filter fun i => s.edges[i]?.any p := by
    refine List.filter_congr ?_
    intro i hi
    rw [Array.getElem?_push, if_neg (Nat.ne_of_lt (List.mem_range.mp hi))]
  rw [hold]
  cases hp : p e <;> simp [hp]

theorem mem_positions {s : Store} {p : Edge → Bool} {i : Nat} :
    i ∈ s.positions p ↔ ∃ e, s.edges[i]? = some e ∧ p e = true := by
  unfold positions
  rw [List.mem_filter, List.mem_range, Option.any_eq_true]
  constructor
  · rintro ⟨-, h⟩
    exact h
  · rintro ⟨e, he, hp⟩
    exact ⟨(Array.getElem?_eq_some_iff.mp he).1, e, he, hp⟩

/-! ## Changes keep stores sound -/

theorem sound_empty : ({} : Store).Sound where
  keyed := by intro id n h; simp at h
  ends := by intro e h; simp at h
  byKind := by intro kind id; simp
  byName := by intro name id; simp
  byRelationship := by intro r; simp [positions]
  outgoing := by intro id; simp [positions]
  incoming := by intro id; simp [positions]
  dimension := by intro id n v h; simp at h
  embedded := by intro h; simp at h

/-- After a node is set, it is the one under its identifier, and the others are
    those that were there. -/
theorem getElem?_insert_iff {nodes : ExtTreeMap NodeId Node} {id a : NodeId}
    {n m : Node} :
    (nodes.insert id n)[a]? = some m ↔
      (a = id ∧ m = n) ∨ (a ≠ id ∧ nodes[a]? = some m) := by
  rw [ExtTreeMap.getElem?_insert]
  by_cases h : id = a
  · subst h
    rw [if_pos ReflCmp.compare_self, Option.some.injEq]
    constructor
    · intro hm
      exact Or.inl ⟨rfl, hm.symm⟩
    · rintro (⟨-, hm⟩ | ⟨hne, -⟩)
      · exact hm.symm
      · exact absurd rfl hne
  · rw [if_neg (fun hc => h (LawfulEqCmp.eq_of_compare hc))]
    constructor
    · intro hm
      exact Or.inr ⟨fun ha => h ha.symm, hm⟩
    · rintro (⟨ha, -⟩ | ⟨-, hm⟩)
      · exact absurd ha.symm h
      · exact hm

/-- A node that is there does not have a new identifier. -/
theorem ne_of_new {s : Store} {id a : NodeId} {n : Node} (hnew : id ∉ s.nodes)
    (hn : s.nodes[a]? = some n) : a ≠ id := by
  rintro rfl
  rw [ExtTreeMap.getElem?_eq_none hnew] at hn
  cases hn

/-- A set of nodes with one more, or with one replaced that did not have this
    value of `f`: the value is taken at one more identifier if the node has it. -/
theorem exists_insert_iff_or {β : Type} {nodes : ExtTreeMap NodeId Node} {id : NodeId}
    (new : Node) (f : Node → β) (b : β)
    (hold : ∀ (old : Node), nodes[id]? = some old → f old ≠ b) (a : NodeId) :
    (∃ n, (nodes.insert id new)[a]? = some n ∧ f n = b) ↔
      (f new = b ∧ a = id) ∨ ∃ n, nodes[a]? = some n ∧ f n = b := by
  constructor
  · rintro ⟨n, hn, hb⟩
    rcases getElem?_insert_iff.mp hn with ⟨rfl, rfl⟩ | ⟨-, hn⟩
    · exact Or.inl ⟨hb, rfl⟩
    · exact Or.inr ⟨n, hn, hb⟩
  · rintro (⟨hb, rfl⟩ | ⟨n, hn, hb⟩)
    · exact ⟨new, getElem?_insert_iff.mpr (Or.inl ⟨rfl, rfl⟩), hb⟩
    · refine ⟨n, getElem?_insert_iff.mpr (Or.inr ⟨?_, hn⟩), hb⟩
      rintro rfl
      exact hold n hn hb

/-- Setting a node under its own identifier keeps every node under its own. -/
theorem Sound.keyed_insert {s : Store} (h : s.Sound) {id : NodeId} {new : Node}
    (hid : new.id = id) (a : NodeId) (n : Node) (hn : (s.nodes.insert id new)[a]? = some n) :
    n.id = a := by
  rcases getElem?_insert_iff.mp hn with ⟨rfl, rfl⟩ | ⟨-, hn⟩
  · exact hid
  · exact h.keyed a n hn

/-- Setting a node takes no end from an edge. -/
theorem Sound.ends_insert {s : Store} (h : s.Sound) (id : NodeId) (new : Node) (e : Edge)
    (he : e ∈ s.edges) :
    e.source ∈ s.nodes.insert id new ∧ e.target ∈ s.nodes.insert id new := by
  obtain ⟨hs, ht⟩ := h.ends e he
  exact ⟨ExtTreeMap.mem_insert.mpr (Or.inr hs), ExtTreeMap.mem_insert.mpr (Or.inr ht)⟩

theorem Sound.addNode {s s' : Store} {id : NodeId} {kind : NodeKind}
    {attributes : Attributes} (h : s.Sound) (hok : s.addNode id kind attributes = .ok s') :
    s'.Sound := by
  obtain ⟨hnew, rfl⟩ := addNode_ok hok
  -- there is no old node under the identifier, with whatever value
  have hnone : ∀ {β : Type} (f : Node → β) (b : β) (old : Node),
      s.nodes[id]? = some old → f old ≠ b := by
    intro β f b old hold
    exact absurd rfl (ne_of_new hnew hold)
  refine ⟨h.keyed_insert rfl, h.ends_insert id _, ?_, ?_, h.byRelationship, h.outgoing,
    h.incoming, ?_, ?_⟩
  · intro k a
    rw [mem_getD_enroll, h.byKind]
    exact (exists_insert_iff_or ⟨id, kind, attributes, none⟩ Node.kind k (hnone _ k) a).symm
  · intro name a
    refine (mem_getD_enroll? s.byName (attributes[Attribute.name]?.bind Json.asString?)
      (fun key hk => by rw [hk]) (fun hk => by rw [hk]) name a).trans ?_
    rw [h.byName]
    exact (exists_insert_iff_or ⟨id, kind, attributes, none⟩
      (fun n => n.text? Attribute.name) (some name) (hnone _ (some name)) a).symm
  · intro a n v hn hv
    rcases getElem?_insert_iff.mp hn with ⟨rfl, rfl⟩ | ⟨-, hn⟩
    · cases hv
    · exact h.dimension a n v hn hv
  · intro hd
    obtain ⟨a, n, hn, hv⟩ := h.embedded hd
    exact ⟨a, n, getElem?_insert_iff.mpr (Or.inr ⟨ne_of_new hnew hn, hn⟩), hv⟩

theorem Sound.addEdge {s s' : Store} {e : Edge} (h : s.Sound)
    (hok : s.addEdge e = .ok s') : s'.Sound := by
  obtain ⟨hends, rfl⟩ := addEdge_ok hok
  refine ⟨h.keyed, ?_, h.byKind, h.byName, ?_, ?_, ?_, h.dimension, h.embedded⟩
  · intro e' he'
    rcases Array.mem_push.mp he' with he' | rfl
    · exact h.ends e' he'
    · exact hends
  · intro r
    refine (getD_mark s.byRelationship e.relationship r s.edges.size).trans ?_
    refine Eq.trans ?_ (positions_push s e _).symm
    rw [h.byRelationship]
    simp only [decide_eq_true_eq]
  · intro id
    refine (getD_mark s.outgoing e.source id s.edges.size).trans ?_
    refine Eq.trans ?_ (positions_push s e _).symm
    rw [h.outgoing]
    simp only [decide_eq_true_eq]
  · intro id
    refine (getD_mark s.incoming e.target id s.edges.size).trans ?_
    refine Eq.trans ?_ (positions_push s e _).symm
    rw [h.incoming]
    simp only [decide_eq_true_eq]

/-- A set of nodes with one of them replaced by a node that agrees with it in
    `f`: the value of `f` is taken at the same identifiers. -/
theorem exists_insert_iff {β : Type} {nodes : ExtTreeMap NodeId Node} {id : NodeId}
    {old new : Node} (f : Node → β) (hold : nodes[id]? = some old) (hf : f new = f old)
    (a : NodeId) (b : β) :
    (∃ n, (nodes.insert id new)[a]? = some n ∧ f n = b) ↔
      ∃ n, nodes[a]? = some n ∧ f n = b := by
  constructor
  · rintro ⟨n, hn, hb⟩
    rcases getElem?_insert_iff.mp hn with ⟨rfl, rfl⟩ | ⟨-, hn⟩
    · exact ⟨old, hold, hf ▸ hb⟩
    · exact ⟨n, hn, hb⟩
  · rintro ⟨n, hn, hb⟩
    by_cases ha : a = id
    · subst ha
      rw [hold] at hn
      cases hn
      exact ⟨new, getElem?_insert_iff.mpr (Or.inl ⟨rfl, rfl⟩), hf.trans hb⟩
    · exact ⟨n, getElem?_insert_iff.mpr (Or.inr ⟨ha, hn⟩), hb⟩

/-- The text under a key once an attribute is set. -/
theorem text?_insert {n : Node} {key k : String} {value : Json} :
    ({ n with attributes := n.attributes.insert key value } : Node).text? k =
      if key = k then value.asString? else n.text? k := by
  unfold Node.text?
  rw [ExtTreeMap.getElem?_insert]
  by_cases hk : key = k
  · subst hk
    rw [if_pos ReflCmp.compare_self, if_pos rfl, Option.bind_some]
  · rw [if_neg (fun hc => hk (LawfulEqCmp.eq_of_compare hc)), if_neg hk]

theorem Sound.enrich {s s' : Store} {id : NodeId} {key : String} {value : Json}
    (h : s.Sound) (hok : s.enrich id key value = .ok s') : s'.Sound := by
  rcases enrich_ok hok with rfl | ⟨node, hnode, hkey, rfl⟩
  · exact h
  refine ⟨h.keyed_insert (h.keyed id node hnode), h.ends_insert id _, ?_, ?_,
    h.byRelationship, h.outgoing, h.incoming, ?_, ?_⟩
  · intro k a
    exact (h.byKind k a).trans (exists_insert_iff Node.kind hnode (by rfl) a k).symm
  · intro name a
    by_cases hname : key = Attribute.name
    · -- the node had no name so far, so no name of another node goes away
      subst hname
      have hnone : node.text? Attribute.name = none := by
        unfold Node.text?
        rw [hkey, Option.bind_none]
      rw [if_pos rfl]
      refine (mem_getD_enroll? s.byName value.asString? (fun key hk => by rw [hk])
        (fun hk => by rw [hk]) name a).trans ?_
      have hold : ∀ (old : Node), s.nodes[id]? = some old →
          old.text? Attribute.name ≠ some name := by
        intro old hold
        cases hnode.symm.trans hold
        rw [hnone]
        exact (Option.some_ne_none name).symm
      rw [h.byName, exists_insert_iff_or _ (fun n => n.text? Attribute.name) (some name) hold,
        text?_insert, if_pos rfl]
    · rw [if_neg hname]
      refine (h.byName name a).trans
        (exists_insert_iff (fun n => n.text? Attribute.name) hnode ?_ a (some name)).symm
      exact text?_insert.trans (if_neg hname)
  · intro a n v hn hv
    rcases getElem?_insert_iff.mp hn with ⟨rfl, rfl⟩ | ⟨-, hn⟩
    · exact h.dimension a node v hnode hv
    · exact h.dimension a n v hn hv
  · intro hd
    obtain ⟨a, n, hn, hv⟩ := h.embedded hd
    exact ⟨a, (exists_insert_iff (fun n => n.embedding.isSome) hnode (by rfl) a true).mpr
      ⟨n, hn, hv⟩⟩

theorem Sound.attachEmbedding {s s' : Store} {id : NodeId} {vector : Embedding}
    (h : s.Sound) (hok : s.attachEmbedding id vector = .ok s') : s'.Sound := by
  obtain ⟨hsize, node, hnode, rfl⟩ := attachEmbedding_ok hok
  refine ⟨h.keyed_insert (h.keyed id node hnode), h.ends_insert id _, ?_, ?_,
    h.byRelationship, h.outgoing, h.incoming, ?_, ?_⟩
  · intro k a
    exact (h.byKind k a).trans (exists_insert_iff Node.kind hnode (by rfl) a k).symm
  · intro name a
    exact (h.byName name a).trans (exists_insert_iff (fun n => n.text? Attribute.name) hnode
      (by rfl) a (some name)).symm
  · intro a n v hn hv
    rcases getElem?_insert_iff.mp hn with ⟨rfl, rfl⟩ | ⟨-, hn⟩
    · cases hv
      rfl
    · -- the others were embedded before, so the dimension was set and is kept
      have hdim := h.dimension a n v hn hv
      exact congrArg some (hsize _ hdim)
  · intro _
    exact ⟨id, _, getElem?_insert_iff.mpr (Or.inl ⟨rfl, rfl⟩), rfl⟩

/-- **Every index of a reachable store is a scan.** -/
theorem Reachable.sound {s : Store} (h : s.Reachable) : s.Sound := by
  induction h with
  | empty => exact sound_empty
  | addNode _ hok ih => exact ih.addNode hok
  | addEdge _ hok ih => exact ih.addEdge hok
  | enrich _ hok ih => exact ih.enrich hok
  | attachEmbedding _ hok ih => exact ih.attachEmbedding hok

/-! ## Small graphs -/

/-- Adds a node of a kind unless it is refused. -/
def withNode (kind : NodeKind) (s : Store) (id : String) : Store :=
  match s.addNode ⟨id⟩ kind ∅ with
  | .ok s' => s'
  | .error _ => s

/-- Adds an edge of a relationship unless it is refused. -/
def withEdge (r : Relationship) (s : Store) (p : String × String) : Store :=
  match s.addEdge { source := ⟨p.1⟩, target := ⟨p.2⟩, relationship := r } with
  | .ok s' => s'
  | .error _ => s

/-- Attaches a vector unless it is refused. -/
def withEmbedding (vector : Embedding) (s : Store) (id : String) : Store :=
  match s.attachEmbedding ⟨id⟩ vector with
  | .ok s' => s'
  | .error _ => s

/-- The functions of some names, and calls between them. -/
def callGraph (names : List String) (calls : List (String × String)) : Store :=
  calls.foldl (withEdge .calls) (names.foldl (withNode .function) {})

theorem Reachable.withNode {s : Store} (h : s.Reachable) (kind : NodeKind) (id : String) :
    (s.withNode kind id).Reachable := by
  rw [Store.withNode]
  split
  · rename_i s' hok
    exact h.addNode hok
  · exact h

theorem Reachable.withEdge {s : Store} (h : s.Reachable) (r : Relationship)
    (p : String × String) : (s.withEdge r p).Reachable := by
  rw [Store.withEdge]
  split
  · rename_i s' hok
    exact h.addEdge hok
  · exact h

theorem Reachable.withEmbedding {s : Store} (h : s.Reachable) (vector : Embedding) (id : String) :
    (s.withEmbedding vector id).Reachable := by
  rw [Store.withEmbedding]
  split
  · rename_i s' hok
    exact h.attachEmbedding hok
  · exact h

theorem reachable_callGraph (names : List String) (calls : List (String × String)) :
    (callGraph names calls).Reachable :=
  List.foldlRecOn calls _
    (List.foldlRecOn names _ Reachable.empty fun _ h id _ => h.withNode .function id)
    fun _ h p _ => h.withEdge .calls p

end CodeGraph.Store

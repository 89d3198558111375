import CodeGraph.Proofs.Graph.Scan
/-! # Embedding a store — how far the work gets

    Vectors are attached to the nodes in the order of their identifiers.  The
    work may stop at any node, and all that it leaves behind are vectors on the
    nodes before that one.

    * `Attached` says what a store is after some vectors were attached to it: the
      same in everything but these vectors and their length.
    * Within a batch the vectors are attached one by one until one has another
      length (`exists_attachAll`).
    * A batch is the first one of what is left, so what is known of the rest
      holds of the whole with the positions moved (`gives_add`), and the batches
      add up (`exists_attachBatches`). -/

namespace CodeGraph.Retrieval

open Std Store

variable {s s' t : Store} {made made' : List (NodeId × Embedding)}

/-! ## Attached vectors -/

/-- A node with the vector that a list has under its identifier, if there is one. -/
def withVector (made : List (NodeId × Embedding)) (n : Node) : Node :=
  match made.lookup n.id with
  | some v => { n with embedding := some v }
  | none => n

/-- Vectors were attached to nodes of a store, and nothing else was done. -/
structure Attached (made : List (NodeId × Embedding)) (s s' : Store) : Prop where
  nodes : ∀ id : NodeId, s'.nodes[id]? = s.nodes[id]?.map (withVector made)
  dimension : ∀ p ∈ made, s'.embeddingDimension = some p.2.size
  kept : ∀ d, s.embeddingDimension = some d → s'.embeddingDimension = some d
  rest : s' = { s with nodes := s'.nodes, embeddingDimension := s'.embeddingDimension }

/-- A vector does not change what a node is called. -/
theorem withVector_id (made : List (NodeId × Embedding)) (n : Node) :
    (withVector made n).id = n.id := by
  rw [withVector]
  split <;> rfl

theorem withVector_nil (n : Node) : withVector [] n = n := rfl

/-- Of two lists one of which says nothing about a node, the other counts. -/
theorem withVector_append (n : Node)
    (h : made.lookup n.id = none ∨ made'.lookup n.id = none) :
    withVector made' (withVector made n) = withVector (made ++ made') n := by
  rw [withVector, withVector_id, withVector, withVector, List.lookup_append]
  rcases h with h | h
  · rw [h, Option.none_or]
  · rw [h, Option.or_none]

theorem attached_nil (s : Store) : Attached [] s s where
  nodes id := by
    rw [show withVector [] = fun n => n from funext withVector_nil, Option.map_id']
  dimension _ hp := nomatch hp
  kept _ hd := hd
  rest := rfl

/-- Vectors that are attached later go to other nodes. -/
theorem Attached.append (h : Attached made s t) (h' : Attached made' t s')
    (hdisjoint : ∀ id ∈ made.map (·.1), id ∉ made'.map (·.1)) :
    Attached (made ++ made') s s' where
  nodes id := by
    rw [h'.nodes, h.nodes, Option.map_map]
    refine congrArg (Option.map · s.nodes[id]?) (funext fun n => withVector_append n ?_)
    rw [List.lookup_eq_none_iff, List.lookup_eq_none_iff]
    by_cases hmem : n.id ∈ made.map (·.1)
    · refine Or.inr fun p hp => ?_
      have hne : n.id ≠ p.1 := fun heq => hdisjoint n.id hmem (heq ▸ List.mem_map_of_mem hp)
      exact bne_iff_ne.mpr hne
    · refine Or.inl fun p hp => ?_
      have hne : n.id ≠ p.1 := fun heq => hmem (heq ▸ List.mem_map_of_mem hp)
      exact bne_iff_ne.mpr hne
  dimension := by
    intro p hp
    rcases List.mem_append.mp hp with hp | hp
    · exact h'.kept _ (h.dimension p hp)
    · exact h'.dimension p hp
  kept d hd := h'.kept d (h.kept d hd)
  rest := by
    rw [h'.rest, h.rest]

/-- A vector is attached to the node of a store. -/
theorem attached_of_ok (hs : s.Reachable) {id : NodeId} {v : Embedding}
    (hok : s.attachEmbedding id v = .ok s') : Attached [(id, v)] s s' := by
  obtain ⟨hsize, node, hnode, rfl⟩ := attachEmbedding_ok hok
  have hid : node.id = id := hs.sound.keyed id node hnode
  refine ⟨fun a => Option.ext fun n => ?_, ?_, ?_, rfl⟩
  · -- a node is looked up under its own identifier, so only one has the vector
    rw [getElem?_insert_iff, Option.map_eq_some_iff]
    constructor
    · rintro (⟨rfl, rfl⟩ | ⟨hne, hn⟩)
      · refine ⟨node, hnode, ?_⟩
        rw [withVector, hid, List.lookup_cons_self]
      · refine ⟨n, hn, ?_⟩
        have hother : n.id ≠ id := fun heq => hne ((hs.sound.keyed a n hn).symm.trans heq)
        rw [withVector, List.lookup_cons, beq_false_of_ne hother]
        rfl
    · rintro ⟨m, hm, rfl⟩
      have hkey := hs.sound.keyed a m hm
      by_cases ha : a = id
      · subst ha
        cases hnode.symm.trans hm
        refine Or.inl ⟨rfl, ?_⟩
        rw [withVector, hid, List.lookup_cons_self]
      · refine Or.inr ⟨ha, ?_⟩
        have hother : m.id ≠ id := fun heq => ha (hkey.symm.trans heq)
        rw [withVector, List.lookup_cons, beq_false_of_ne hother]
        exact hm
  · rintro p hp
    rw [List.mem_singleton.mp hp]
  · intro d hd
    rw [hsize d hd]

/-- A vector for a node is refused for its length alone. -/
theorem attachEmbedding_cases {id : NodeId} (hid : id ∈ s.nodes) (v : Embedding) :
    (∃ s', s.attachEmbedding id v = .ok s') ∨
      ∃ d, s.embeddingDimension = some d ∧ v.size ≠ d ∧
        s.attachEmbedding id v = .error (.embeddingDimension id d v.size) := by
  have hattach : ∃ s', attachEmbedding.attach s id v = .ok s' := by
    rw [attachEmbedding.attach, ExtTreeMap.getElem?_eq_some_getElem hid]
    exact ⟨_, rfl⟩
  rw [attachEmbedding]
  split
  · rename_i d hd
    by_cases hsize : v.size = d
    · rw [if_pos hsize]
      exact Or.inl hattach
    · rw [if_neg hsize]
      exact Or.inr ⟨d, hd, hsize, rfl⟩
  · exact Or.inl hattach

/-! ## Within a batch -/

/-- Vectors add no nodes and remove none. -/
theorem Attached.mem_nodes (h : Attached made s s') {id : NodeId} :
    id ∈ s'.nodes ↔ id ∈ s.nodes := by
  rw [ExtTreeMap.mem_iff_isSome_getElem?, ExtTreeMap.mem_iff_isSome_getElem?, h.nodes,
    Option.isSome_map]

/-- Of pairs for nodes of a store those in front of the first with a wrong length are
    attached, and that one is what the work stops at. -/
theorem exists_attachAll (hs : s.Reachable) {pairs : List (NodeId × Embedding)}
    (hnodup : (pairs.map (·.1)).Nodup) (hmem : ∀ p ∈ pairs, p.1 ∈ s.nodes) :
    ∃ made rest, pairs = made ++ rest ∧ Attached made s (attachAll s pairs).1 ∧
      (rest = [] ∧ (attachAll s pairs).2 = .ok () ∨
        ∃ p more d, rest = p :: more ∧
          (attachAll s pairs).1.embeddingDimension = some d ∧ p.2.size ≠ d ∧
          (attachAll s pairs).2 = .error (.graph (.embeddingDimension p.1 d p.2.size))) := by
  induction pairs generalizing s with
  | nil => exact ⟨[], [], rfl, attached_nil s, Or.inl ⟨rfl, rfl⟩⟩
  | cons p pairs ih =>
      obtain ⟨id, v⟩ := p
      rw [List.map_cons, List.nodup_cons] at hnodup
      rw [attachAll]
      rcases attachEmbedding_cases (hmem (id, v) List.mem_cons_self) v with
        ⟨t, hok⟩ | ⟨d, hd, hsize, herror⟩
      · have hfirst := attached_of_ok hs hok
        have hnodes : ∀ p ∈ pairs, p.1 ∈ t.nodes := fun p hp =>
          hfirst.mem_nodes.mpr (hmem p (List.mem_cons_of_mem _ hp))
        obtain ⟨made, rest, rfl, hmade, hend⟩ := ih (hs.attachEmbedding hok) hnodup.2 hnodes
        rw [hok]
        refine ⟨(id, v) :: made, rest, rfl, ?_, hend⟩
        refine hfirst.append hmade fun a ha hin => ?_
        rw [List.mem_singleton.mp ha] at hin
        rw [List.map_append, List.mem_append] at hnodup
        exact hnodup.1 (Or.inl hin)
      · rw [herror]
        exact ⟨[], (id, v) :: pairs, rfl, attached_nil s,
          Or.inr ⟨(id, v), pairs, d, rfl, hd, hsize, rfl⟩⟩

/-! ## Batch by batch -/

variable {embedder : Embedder} {texts : List String} {text : String} {v : Embedding} {i : Nat}

/-- The texts of the batch that a position falls into. -/
def batchAt (texts : List String) (i : Nat) : List String :=
  (texts.drop (i / batchSize * batchSize)).take batchSize

/-- The embedder answers the batch of a position with as many vectors as there are texts,
    and at this position with a vector for a text. -/
def Gives (embedder : Embedder) (texts : List String) (i : Nat) (text : String)
    (v : Embedding) : Prop :=
  ∃ vectors, embedder.embed (batchAt texts i) = .ok vectors ∧
    vectors.length = (batchAt texts i).length ∧
    (batchAt texts i)[i % batchSize]? = some text ∧ vectors[i % batchSize]? = some v

theorem batchAt_of_lt (h : i < batchSize) : batchAt texts i = texts.take batchSize := by
  rw [batchAt, Nat.div_eq_of_lt h, Nat.zero_mul, List.drop_zero]

/-- Later batches are those of the remaining texts. -/
theorem batchAt_add (texts : List String) (i : Nat) :
    batchAt texts (batchSize + i) = batchAt (texts.drop batchSize) i := by
  rw [batchAt, batchAt, List.drop_drop, Nat.add_div_left i (by decide), Nat.succ_mul,
    Nat.add_comm]

/-- In the first batch positions count from its front. -/
theorem gives_of_lt (h : i < batchSize) : Gives embedder texts i text v ↔
    ∃ vectors, embedder.embed (texts.take batchSize) = .ok vectors ∧
      vectors.length = (texts.take batchSize).length ∧
      texts[i]? = some text ∧ vectors[i]? = some v := by
  rw [Gives, batchAt_of_lt h, Nat.mod_eq_of_lt h, List.getElem?_take_of_lt h]

/-- What is given behind the first batch is given for the rest of the texts. -/
theorem gives_add : Gives embedder texts (batchSize + i) text v ↔
    Gives embedder (texts.drop batchSize) i text v := by
  rw [Gives, Gives, batchAt_add, Nat.add_mod_left]

/-- The text that a vector is given for is the one at the position. -/
theorem Gives.getElem? (h : Gives embedder texts i text v) : texts[i]? = some text := by
  obtain ⟨vectors, -, -, htext, -⟩ := h
  have hlt : i % batchSize < batchSize := Nat.mod_lt i (by decide)
  rw [batchAt, List.getElem?_take_of_lt hlt, List.getElem?_drop, Nat.mul_comm,
    Nat.div_add_mod] at htext
  exact htext

/-- What an embedding run did: the vectors it attached, the store it left and how it
    ended. -/
structure Progress (embedder : Embedder) (items : List (NodeId × String)) (s : Store)
    (made : List (NodeId × Embedding)) (s' : Store) (r : Except EmbeddingError Unit) :
    Prop where
  attached : Attached made s s'
  given : ∀ i p, made[i]? = some p → ∃ text, items[i]? = some (p.1, text) ∧
    Gives embedder (items.map (·.2)) i text p.2
  stopped : ∀ text v, Gives embedder (items.map (·.2)) made.length text v →
    ∃ d, s'.embeddingDimension = some d ∧ v.size ≠ d
  ok_iff : r = .ok () ↔ made.length = items.length

variable {items : List (NodeId × String)} {vectors : List Embedding}

/-- Nothing is attached if the first batch is not answered as it has to be. -/
theorem progress_nil (hne : items ≠ []) {e : EmbeddingError}
    (h : ∀ text v, ¬ Gives embedder (items.map (·.2)) 0 text v) :
    Progress embedder items s [] s (.error e) where
  attached := attached_nil s
  given _ _ hp := nomatch hp
  stopped text v hgives := absurd hgives (h text v)
  ok_iff := by
    have hlength : 0 ≠ items.length := fun heq => hne (List.length_eq_zero_iff.mp heq.symm)
    exact iff_of_false nofun hlength

/-- What stands at a position of the first batch, if it is answered as it has to be. -/
theorem given_of_answered
    (hanswer : embedder.embed ((items.take batchSize).map (·.2)) = .ok vectors)
    (hlength : vectors.length = (items.take batchSize).length) {p : NodeId × Embedding}
    (hp : (((items.take batchSize).map (·.1)).zip vectors)[i]? = some p) :
    ∃ text, items[i]? = some (p.1, text) ∧ Gives embedder (items.map (·.2)) i text p.2 := by
  obtain ⟨hid, hv⟩ := List.getElem?_zip_eq_some.mp hp
  rw [List.getElem?_map, List.getElem?_take] at hid
  obtain ⟨hlt, item, hitem, hid⟩ : i < batchSize ∧
      ∃ item, items[i]? = some item ∧ item.1 = p.1 := by
    split at hid
    · rename_i hlt
      exact ⟨hlt, Option.map_eq_some_iff.mp hid⟩
    · cases hid
  refine ⟨item.2, hid ▸ hitem, (gives_of_lt hlt).mpr ⟨vectors, ?_, ?_, ?_, hv⟩⟩
  · rw [← List.map_take]
    exact hanswer
  · rw [← List.map_take, List.length_map]
    exact hlength
  · rw [List.getElem?_map, hitem]
    rfl

/-- The pairs of the first batch are for nodes of the store, each once. -/
theorem pairs_of_batch (hlength : vectors.length = (items.take batchSize).length) :
    (((items.take batchSize).map (·.1)).zip vectors).map (·.1) =
      (items.map (·.1)).take batchSize := by
  rw [List.map_take, List.map_fst_zip]
  rw [← List.map_take, List.length_map]
  exact Nat.le_of_eq hlength.symm

/-- The vectors of a batch are attached in front of the first that is refused. -/
theorem exists_attachAll_batch (hs : s.Reachable) (hnodup : (items.map (·.1)).Nodup)
    (hmem : ∀ x ∈ items, x.1 ∈ s.nodes)
    (hlength : vectors.length = (items.take batchSize).length) :
    ∃ made rest, ((items.take batchSize).map (·.1)).zip vectors = made ++ rest ∧
      Attached made s (attachAll s (((items.take batchSize).map (·.1)).zip vectors)).1 ∧
      (rest = [] ∧ (attachAll s (((items.take batchSize).map (·.1)).zip vectors)).2 = .ok () ∨
        ∃ p more d, rest = p :: more ∧
          (attachAll s (((items.take batchSize).map (·.1)).zip vectors)).1.embeddingDimension =
            some d ∧ p.2.size ≠ d ∧
          (attachAll s (((items.take batchSize).map (·.1)).zip vectors)).2 =
            .error (.graph (.embeddingDimension p.1 d p.2.size))) := by
  refine exists_attachAll hs ?_ ?_
  · rw [pairs_of_batch hlength]
    exact hnodup.sublist (List.take_sublist _ _)
  · intro p hp
    have hid : p.1 ∈ (items.map (·.1)).take batchSize := by
      rw [← pairs_of_batch hlength]
      exact List.mem_map_of_mem hp
    obtain ⟨x, hx, heq⟩ := List.mem_map.mp (List.mem_of_mem_take hid)
    rw [← heq]
    exact hmem x hx

/-- A batch that is refused half-way ends the run. -/
theorem progress_of_refused
    (hanswer : embedder.embed ((items.take batchSize).map (·.2)) = .ok vectors)
    (hlength : vectors.length = (items.take batchSize).length) {p : NodeId × Embedding}
    {more : List (NodeId × Embedding)} {d : Nat} {e : EmbeddingError}
    (hpairs : ((items.take batchSize).map (·.1)).zip vectors = made ++ p :: more)
    (hmade : Attached made s s') (hd : s'.embeddingDimension = some d) (hsize : p.2.size ≠ d) :
    Progress embedder items s made s' (.error e) := by
  have hat : (((items.take batchSize).map (·.1)).zip vectors)[made.length]? = some p := by
    rw [hpairs, List.getElem?_append_right (Nat.le_refl _), Nat.sub_self]
    rfl
  obtain ⟨text, hitem, hgiven⟩ := given_of_answered hanswer hlength hat
  refine ⟨hmade, ?_, ?_, ?_⟩
  · intro i q hq
    refine given_of_answered hanswer hlength ?_
    rw [hpairs, List.getElem?_append_left (List.getElem?_eq_some_iff.mp hq).1]
    exact hq
  · -- the next vector is the one that was refused
    intro text' v hgives
    obtain ⟨vectors₁, hanswer₁, -, -, hp⟩ := hgiven
    obtain ⟨vectors₂, hanswer₂, -, -, hv⟩ := hgives
    rw [hanswer₁] at hanswer₂
    cases hanswer₂
    rw [hp] at hv
    cases hv
    exact ⟨d, hd, hsize⟩
  · have hlt := (List.getElem?_eq_some_iff.mp hitem).1
    exact iff_of_false nofun (Nat.ne_of_lt hlt)

/-- A batch that is attached as a whole goes in front of what is attached later. -/
theorem progress_append {r : Except EmbeddingError Unit}
    (hanswer : embedder.embed ((items.take batchSize).map (·.2)) = .ok vectors)
    (hlength : vectors.length = (items.take batchSize).length)
    (hnodup : (items.map (·.1)).Nodup)
    (hmade : Attached (((items.take batchSize).map (·.1)).zip vectors) s t)
    (hrest : Progress embedder (items.drop batchSize) t made s' r) :
    Progress embedder items s (((items.take batchSize).map (·.1)).zip vectors ++ made) s' r := by
  have hfirst : (((items.take batchSize).map (·.1)).zip vectors).length =
      min batchSize items.length := by
    rw [List.length_zip, List.length_map, hlength, Nat.min_self, List.length_take]
  refine ⟨hmade.append hrest.attached ?_, ?_, ?_, ?_⟩
  · -- the later vectors are for nodes behind the batch
    intro id hid hin
    rw [pairs_of_batch hlength] at hid
    obtain ⟨p, hp, rfl⟩ := List.mem_map.mp hin
    obtain ⟨i, hi⟩ := List.mem_iff_getElem?.mp hp
    obtain ⟨text, hitem, -⟩ := hrest.given i p hi
    have hlater : p.1 ∈ (items.map (·.1)).drop batchSize := by
      rw [← List.map_drop]
      exact List.mem_map_of_mem (List.mem_of_getElem? hitem)
    exact List.disjoint_take_drop hnodup (Nat.le_refl _) hid hlater
  · intro i p hp
    -- an index lies in the batch, or so far behind it in the rest
    by_cases hlt : i < (((items.take batchSize).map (·.1)).zip vectors).length
    · rw [List.getElem?_append_left hlt] at hp
      exact given_of_answered hanswer hlength hp
    · rw [List.getElem?_append_right (Nat.le_of_not_lt hlt)] at hp
      obtain ⟨text, hitem, hgives⟩ := hrest.given _ p hp
      have hinside := (List.getElem?_eq_some_iff.mp hitem).1
      rw [List.length_drop] at hinside
      obtain ⟨j, rfl⟩ : ∃ j, i = batchSize + j := ⟨i - batchSize, by omega⟩
      rw [hfirst, Nat.min_eq_left (by omega), Nat.add_sub_cancel_left] at hitem hgives
      rw [List.getElem?_drop] at hitem
      rw [List.map_drop] at hgives
      exact ⟨text, hitem, gives_add.mpr hgives⟩
  · intro text v hgives
    have hinside := (List.getElem?_eq_some_iff.mp hgives.getElem?).1
    rw [List.length_append, hfirst, List.length_map] at hinside
    rw [List.length_append, hfirst, Nat.min_eq_left (by omega), gives_add, ← List.map_drop]
      at hgives
    exact hrest.stopped text v hgives
  · rw [hrest.ok_iff, List.length_append, hfirst, List.length_drop]
    omega

/-- A run attaches vectors to the nodes in front of the one it stops at. -/
theorem exists_attachBatches (embedder : Embedder) (items : List (NodeId × String))
    (hs : s.Reachable) (hnodup : (items.map (·.1)).Nodup) (hmem : ∀ x ∈ items, x.1 ∈ s.nodes) :
    ∃ made, Progress embedder items s made (attachBatches embedder s items).1
      (attachBatches embedder s items).2 := by
  -- on the batches: none is left, no answer, too few vectors, one is refused, or all are
  -- attached
  fun_induction attachBatches embedder s items with
  | case1 s =>
      refine ⟨[], attached_nil s, ?_, ?_, iff_of_true rfl rfl⟩
      · intro i p hp
        cases hp
      · intro text v hgives
        cases hgives.getElem?
  | case2 s item items batch e herror =>
      refine ⟨[], progress_nil (List.cons_ne_nil _ _) fun text v hgives => ?_⟩
      obtain ⟨vectors, hanswer, -⟩ := (gives_of_lt (by decide)).mp hgives
      rw [← List.map_take, herror] at hanswer
      cases hanswer
  | case3 s item items batch vectors hanswer hcount =>
      refine ⟨[], progress_nil (List.cons_ne_nil _ _) fun text v hgives => ?_⟩
      obtain ⟨vectors', hanswer', hlength, -⟩ := (gives_of_lt (by decide)).mp hgives
      rw [← List.map_take, hanswer] at hanswer'
      cases hanswer'
      rw [← List.map_take, List.length_map] at hlength
      exact hcount hlength
  | case4 s item items batch vectors hanswer hcount s' e hattach =>
      have hlength : vectors.length = batch.length := not_not.mp hcount
      obtain ⟨made, rest, hpairs, hmade, hend⟩ := exists_attachAll_batch hs hnodup hmem hlength
      rw [hattach] at hmade hend
      obtain ⟨-, hok⟩ | ⟨p, more, d, rfl, hd, hsize, -⟩ := hend
      · cases hok
      · exact ⟨made, progress_of_refused hanswer hlength hpairs hmade hd hsize⟩
  | case5 s item items batch vectors hanswer hcount s' hattach ih =>
      have hlength : vectors.length = batch.length := not_not.mp hcount
      obtain ⟨made, rest, hpairs, hmade, hend⟩ := exists_attachAll_batch hs hnodup hmem hlength
      have hreach := hs.attachAll ((batch.map (·.1)).zip vectors)
      rw [hattach] at hmade hend hreach
      obtain ⟨rfl, -⟩ | ⟨p, more, d, -, -, -, herror⟩ := hend
      · rw [List.append_nil] at hpairs
        rw [← hpairs] at hmade
        have hlater : (((item :: items).drop batchSize).map (·.1)).Nodup := by
          rw [List.map_drop]
          exact hnodup.sublist (List.drop_sublist _ _)
        obtain ⟨later, hprogress⟩ := ih hreach hlater fun x hx =>
          hmade.mem_nodes.mpr (hmem x (List.mem_of_mem_drop hx))
        exact ⟨_, progress_append hanswer hlength hnodup hmade hprogress⟩
      · cases herror

/-! ## The whole store -/

/-- An embedding run over a store: vectors were attached to a front of its nodes, each
    the one that the embedder gave for the text of the node, and nothing else is
    different.  The run ended with the number of nodes exactly if the front is all of
    them. -/
structure Front (embedder : Embedder) (s : Store) (made : List (NodeId × Embedding))
    (s' : Store) (r : Except EmbeddingError Nat) : Prop where
  ids : made.map (·.1) <+: s.nodeList.map (·.id)
  embedded : ∀ i p, made[i]? = some p → ∃ n, s.nodes[p.1]? = some n ∧
    Gives embedder (s.nodeList.map nodeText) i (nodeText n) p.2 ∧
    s'.nodes[p.1]? = some { n with embedding := some p.2 }
  others : ∀ id ∉ made.map (·.1), s'.nodes[id]? = s.nodes[id]?
  rest : s' = { s with nodes := s'.nodes, embeddingDimension := s'.embeddingDimension }
  stopped : ∀ text v, Gives embedder (s.nodeList.map nodeText) made.length text v →
    ∃ d, s'.embeddingDimension = some d ∧ v.size ≠ d
  ok_iff : ∀ m, r = .ok m ↔ made.map (·.1) = s.nodeList.map (·.id) ∧ m = s.nodeCount
  sameLength : made.map (·.1) = s.nodeList.map (·.id) →
    ∃ d, ∀ n ∈ s'.nodeList, ∃ v, n.embedding = some v ∧ v.size = d

/-- The nodes with their texts, as they are given to the embedder. -/
def textItems (s : Store) : List (NodeId × String) := s.nodeList.map fun n => (n.id, nodeText n)

theorem ids_textItems (s : Store) : (textItems s).map (·.1) = s.nodeList.map (·.id) := by
  rw [textItems, List.map_map]
  rfl

theorem texts_textItems (s : Store) : (textItems s).map (·.2) = s.nodeList.map nodeText := by
  rw [textItems, List.map_map]
  rfl

/-- No node is listed twice. -/
theorem nodup_ids (h : s.Reachable) : (s.nodeList.map (·.id)).Nodup := by
  refine List.pairwise_map.mpr (h.sound.pairwise_nodeList.imp ?_)
  intro a b hlt heq
  have hself : compare b.id b.id = .eq := ReflCmp.compare_self
  rw [heq, hself] at hlt
  cases hlt

theorem mem_nodes_of_mem_textItems (h : s.Reachable) {x : NodeId × String}
    (hx : x ∈ textItems s) : x.1 ∈ s.nodes := by
  obtain ⟨n, hn, rfl⟩ := List.mem_map.mp hx
  rw [ExtTreeMap.mem_iff_isSome_getElem?, h.sound.mem_nodeList_iff.mp ⟨hn, rfl⟩]
  rfl

/-- A pair of a list without repeated keys is what is found under its key. -/
theorem lookup_of_mem (hnodup : (made.map (·.1)).Nodup) {p : NodeId × Embedding}
    (hp : p ∈ made) : made.lookup p.1 = some p.2 := by
  obtain ⟨before, behind, rfl⟩ := List.append_of_mem hp
  refine List.lookup_eq_some_iff.mpr ⟨before, behind, rfl, fun q hq => ?_⟩
  rw [List.map_append, List.map_cons, List.nodup_middle, List.nodup_cons] at hnodup
  have hne : p.1 ≠ q.1 := fun heq =>
    hnodup.1 (List.mem_append_left _ (heq ▸ List.mem_map_of_mem hq))
  exact bne_iff_ne.mpr hne

/-- Vectors are attached to the items from the front on. -/
theorem Progress.ids_front {r : Except EmbeddingError Unit}
    (h : Progress embedder items s made s' r) : made.map (·.1) <+: items.map (·.1) := by
  rw [List.prefix_iff_getElem?]
  intro i hi
  rw [List.length_map] at hi
  obtain ⟨text, hitem, -⟩ := h.given i made[i] (List.getElem?_eq_getElem hi)
  rw [List.getElem?_map, hitem, List.getElem_map]
  rfl

/-- A front is the whole exactly if it is as long. -/
theorem Progress.length_eq_iff {r : Except EmbeddingError Unit}
    (h : Progress embedder items s made s' r) :
    made.length = items.length ↔ made.map (·.1) = items.map (·.1) := by
  constructor
  · intro heq
    refine h.ids_front.eq_of_length ?_
    rw [List.length_map, List.length_map, heq]
  · intro heq
    have hlength := congrArg List.length heq
    rw [List.length_map, List.length_map] at hlength
    exact hlength

theorem Progress.front {r : Except EmbeddingError Unit} (h : s.Reachable) (h' : s'.Reachable)
    (hrun : Progress embedder (textItems s) s made s' r) :
    Front embedder s made s' (r.map fun _ => (textItems s).length) := by
  have hids := hrun.ids_front
  have hwhole := hrun.length_eq_iff
  rw [ids_textItems] at hids hwhole
  -- no node has two vectors, so the vector of a node is the one that is looked up
  have hnodup : (made.map (·.1)).Nodup := (nodup_ids h).sublist hids.sublist
  refine ⟨hids, ?_, ?_, hrun.attached.rest, ?_, ?_, ?_⟩
  · -- the texts are those of the nodes in their order
    intro i p hp
    obtain ⟨text, hitem, hgives⟩ := hrun.given i p hp
    rw [textItems, List.getElem?_map, Option.map_eq_some_iff] at hitem
    obtain ⟨n, hn, hpair⟩ := hitem
    obtain ⟨hid, rfl⟩ := Prod.mk.inj hpair
    have hnode : s.nodes[p.1]? = some n :=
      h.sound.mem_nodeList_iff.mp ⟨List.mem_of_getElem? hn, hid⟩
    rw [texts_textItems] at hgives
    refine ⟨n, hnode, hgives, ?_⟩
    rw [hrun.attached.nodes, hnode, Option.map_some, withVector, hid,
      lookup_of_mem hnodup (List.mem_of_getElem? hp)]
  · -- a node without a vector is left as it was
    intro id hid
    rw [hrun.attached.nodes]
    cases hn : s.nodes[id]? with
    | none => rfl
    | some n =>
        have hnone : made.lookup n.id = none := by
          rw [List.lookup_eq_none_iff]
          intro p hp
          have hne : n.id ≠ p.1 := fun heq =>
            hid (h.sound.keyed id n hn ▸ heq ▸ List.mem_map_of_mem hp)
          exact bne_iff_ne.mpr hne
        rw [Option.map_some, withVector, hnone]
  · intro text v hgives
    rw [← texts_textItems] at hgives
    exact hrun.stopped text v hgives
  · intro m
    rw [← hwhole, ← hrun.ok_iff, ← length_nodeList]
    have hlength : (textItems s).length = s.nodeList.length := List.length_map _
    cases r with
    | error e => exact iff_of_false nofun fun hm => nomatch hm.1
    | ok u =>
        rw [hlength]
        exact ⟨fun hm => ⟨rfl, (Except.ok.inj hm).symm⟩, fun hm => congrArg Except.ok hm.2.symm⟩
  · -- the dimension was set with the first vector, and all others have it
    intro hall
    refine ⟨s'.embeddingDimension.getD 0, fun m hm => ?_⟩
    obtain ⟨id, hid⟩ := Store.mem_nodeList.mp hm
    have hembedded := hid
    rw [hrun.attached.nodes, Option.map_eq_some_iff] at hembedded
    obtain ⟨n, hn, rfl⟩ := hembedded
    have hmem : n.id ∈ made.map (·.1) := by
      rw [hall]
      exact List.mem_map_of_mem (Store.mem_nodeList.mpr ⟨id, hn⟩)
    obtain ⟨p, hp, heq⟩ := List.mem_map.mp hmem
    have hv : (withVector made n).embedding = some p.2 := by
      rw [withVector, ← heq, lookup_of_mem hnodup hp]
    refine ⟨p.2, hv, ?_⟩
    rw [h'.sound.dimension id _ p.2 hid hv, Option.getD_some]

/-- The vectors that a run attaches to the nodes of a store. -/
theorem exists_progress (h : s.Reachable) (embedder : Embedder) :
    ∃ made, Progress embedder (textItems s) s made (attachBatches embedder s (textItems s)).1
      (attachBatches embedder s (textItems s)).2 := by
  have hnodup : ((textItems s).map (·.1)).Nodup := by
    rw [ids_textItems]
    exact nodup_ids h
  exact exists_attachBatches embedder (textItems s) h hnodup
    fun x hx => mem_nodes_of_mem_textItems h hx

theorem fst_attachEmbeddings (s : Store) (embedder : Embedder) :
    (attachEmbeddings s embedder).1 = (attachBatches embedder s (textItems s)).1 := by
  rw [attachEmbeddings, ← textItems]
  split <;> rename_i heq <;> rw [heq]

/-- Whatever the embedder answers, nothing but vectors is attached. -/
theorem exists_attached (h : s.Reachable) (embedder : Embedder) :
    ∃ made, Attached made s (attachEmbeddings s embedder).1 := by
  obtain ⟨made, hrun⟩ := exists_progress h embedder
  rw [fst_attachEmbeddings]
  exact ⟨made, hrun.attached⟩

/-- **Embedding a store attaches vectors to a front of its nodes,** however the embedder
    behaves. -/
theorem attachEmbeddings_front (h : s.Reachable) (embedder : Embedder) :
    ∃ made, Front embedder s made (attachEmbeddings s embedder).1
      (attachEmbeddings s embedder).2 := by
  obtain ⟨made, hrun⟩ := exists_progress h embedder
  have hfront := hrun.front h (h.attachBatches embedder (textItems s))
  refine ⟨made, ?_⟩
  rw [attachEmbeddings, ← textItems]
  split
  · rename_i t heq
    rw [heq] at hfront
    exact hfront
  · rename_i t e heq
    rw [heq] at hfront
    exact hfront

/-- An embedder that answers every batch with vectors of two lengths. -/
def uneven : Embedder where
  model := "uneven"
  dimension := 1
  embed _ := .ok [#[0], #[0, 0]]

/-- Of two nodes only the first gets its vector, the other is refused its own. -/
theorem attachEmbeddings_uneven :
    (callGraph ["a", "b"] []).Reachable ∧
      (attachEmbeddings (callGraph ["a", "b"] []) uneven).2 =
        .error (.graph (.embeddingDimension ⟨"b"⟩ 1 2)) ∧
      ∃ made, Front uneven (callGraph ["a", "b"] []) made
        (attachEmbeddings (callGraph ["a", "b"] []) uneven).1
        (attachEmbeddings (callGraph ["a", "b"] []) uneven).2 :=
  ⟨reachable_callGraph _ _, by decide +kernel,
    attachEmbeddings_front (reachable_callGraph _ _) uneven⟩

end CodeGraph.Retrieval

import CodeGraph.Graph.Update
import CodeGraph.Proofs.Graph.Determined
import CodeGraph.Proofs.Retrieval.Attachment
/-! # Frames — what a change leaves alone

    A change is made as a whole or not at all, and what was there before it is
    there after it.

    * A store that is changed in place goes through the same maps one after the
      other.  All that can be refused is refused before the first of them is
      touched, so the old store is left (`outcome_addNode` and the like).
    * `Change.Effect` says what a change makes of the nodes and the edges.  It is
      all that the change does: no other store that can be reached has these
      nodes and edges (`Effect.unique`).
    * `Keeps` is what every change has in common, and it adds up over any run
      (`keeps_foldl`). -/

namespace CodeGraph.Store

open Std

variable {s s' t : Store}

/-! ## Changes in place -/

/-- The answer of a change and the store behind it, which is the old one if the change
    is refused. -/
def settled {α : Type} (answer : α) (s : Store) :
    Except GraphError Store → Except GraphError α × Store
  | .ok s' => (.ok answer, s')
  | .error e => (.error e, s)

theorem outcome_get {α : Type} (f : Store → Update α) :
    Update.outcome (get >>= f) s = (f s).outcome s := rfl

/-- A node is added in place as it is added to a copy, and a refusal leaves the store alone.
    -/
theorem outcome_addNode (s : Store) (id : NodeId) (kind : NodeKind)
    (attributes : Attributes) : (Update.addNode id kind attributes).outcome s =
      settled () s (s.addNode id kind attributes) := by
  rw [Update.addNode, outcome_get, Store.addNode]
  by_cases h : id ∈ s.nodes
  · rw [if_pos h, if_pos h]
    rfl
  · rw [if_neg h, if_neg h]
    cases attributes[Attribute.name]?.bind Json.asString? <;> rfl

/-- An end that is missing stops the change before anything is stored. -/
theorem outcome_checkEnd {α : Type} (s : Store) (e : Edge) (id : NodeId) (u : Update α) :
    Update.outcome (do Update.checkEnd e id; u) s =
      if id ∈ s.nodes then u.outcome s
      else (.error (.danglingEndpoint e.source e.target e.relationship id), s) := by
  rw [Update.checkEnd, bind_assoc, outcome_get]
  by_cases h : id ∈ s.nodes
  · rw [if_neg (not_not_intro h), if_pos h]
    rfl
  · rw [if_pos h, if_neg h]
    rfl

/-- An edge is added in place once both ends were found. -/
theorem outcome_addEdge (s : Store) (e : Edge) :
    (Update.addEdge e).outcome s = settled s.edges.size s (s.addEdge e) := by
  rw [Update.addEdge, outcome_checkEnd, outcome_checkEnd, Store.addEdge, List.find?_cons]
  by_cases hsource : e.source ∈ s.nodes
  · by_cases htarget : e.target ∈ s.nodes
    · simp only [hsource, htarget, not_true_eq_false, decide_false, List.find?_cons,
        List.find?_nil, if_true]
      rfl
    · simp only [hsource, htarget, not_true_eq_false, not_false_eq_true, decide_false,
        decide_true, List.find?_cons, if_true, if_false]
      rfl
  · simp only [hsource, not_false_eq_true, decide_true, if_false]
    rfl

theorem outcome_enrich (s : Store) (id : NodeId) (key : String) (value : Json) :
    (Update.enrich id key value).outcome s = settled () s (s.enrich id key value) := by
  rw [Update.enrich, outcome_get, Store.enrich]
  cases s.nodes[id]? with
  | none => rfl
  | some node =>
      dsimp only
      cases node.attributes[key]? with
      | some old =>
          dsimp only
          cases old.agrees value <;> rfl
      | none =>
          dsimp only
          by_cases h : key = Attribute.name
          · rw [if_pos h, if_pos h]
            cases value.asString? <;> rfl
          · rw [if_neg h, if_neg h]
            rfl

/-- The length of a vector is checked before it becomes the length for all. -/
theorem outcome_attachEmbedding (s : Store) (id : NodeId) (vector : Embedding) :
    (Update.attachEmbedding id vector).outcome s =
      settled () s (s.attachEmbedding id vector) := by
  rw [Update.attachEmbedding, outcome_get, Store.attachEmbedding]
  cases s.embeddingDimension with
  | none =>
      dsimp only
      rw [outcome_get, attachEmbedding.attach]
      cases s.nodes[id]? <;> rfl
  | some d =>
      dsimp only
      by_cases h : vector.size = d
      · rw [if_pos h, if_neg (not_not_intro h), outcome_get, attachEmbedding.attach]
        cases s.nodes[id]? <;> rfl
      · rw [if_neg h, if_pos h]
        rfl

theorem outcome_map {α β : Type} (f : α → β) (u : Update α) (s : Store) :
    Update.outcome (f <$> u) s = ((u.outcome s).1.map f, (u.outcome s).2) := by
  rw [Update.outcome, ExceptT.run_map, StateT.run_map]
  rfl

/-- The program of a change in place.  An embedding run is many changes. -/
def Change.update? : Change → Option (Update Unit)
  | .addNode id kind attributes => some (Update.addNode id kind attributes)
  | .addEdge e => some ((fun _ => ()) <$> Update.addEdge e)
  | .enrich id key value => some (Update.enrich id key value)
  | .attachEmbedding id vector => some (Update.attachEmbedding id vector)
  | .attachEmbeddings _ => none

/-- What comes of a change; an embedding run is never refused as a whole. -/
def Change.result (s : Store) : Change → Except GraphError Store
  | .addNode id kind attributes => s.addNode id kind attributes
  | .addEdge e => s.addEdge e
  | .enrich id key value => s.enrich id key value
  | .attachEmbedding id vector => s.attachEmbedding id vector
  | .attachEmbeddings embedder => .ok (Retrieval.attachEmbeddings s embedder).1

/-- A change that is refused leaves the store as it was. -/
theorem Change.perform_eq (s : Store) (c : Change) :
    c.perform s = (c.result s).toOption.getD s := by
  cases c <;> rfl

/-- A change in place is refused exactly if the change is, and then the old store is
    left. -/
theorem Change.outcome_update {c : Change} {u : Update Unit} (hu : c.update? = some u)
    (s : Store) : u.outcome s = settled () s (c.result s) := by
  cases c with
  | addNode id kind attributes =>
      cases hu
      exact outcome_addNode s id kind attributes
  | addEdge e =>
      cases hu
      rw [outcome_map, outcome_addEdge, Change.result]
      cases s.addEdge e <;> rfl
  | enrich id key value =>
      cases hu
      exact outcome_enrich s id key value
  | attachEmbedding id vector =>
      cases hu
      exact outcome_attachEmbedding s id vector
  | attachEmbeddings embedder => cases hu

/-! ## What a change is about -/

/-- The nodes of a store are those of another but for one, which is given. -/
def DiffersAt (id : NodeId) (node : Node) (s s' : Store) : Prop :=
  ∀ a : NodeId, s'.nodes[a]? = if a = id then some node else s.nodes[a]?

/-- A node with an attribute under a key, which is the one it has if there is one. -/
def withAttribute (n : Node) (key : String) (value : Json) : Node :=
  if key ∈ n.attributes then n else { n with attributes := n.attributes.insert key value }

/-- What a change that is made does to the nodes and the edges. -/
def Change.Effect (s s' : Store) : Change → Prop
  | .addNode id kind attributes => id ∉ s.nodes ∧ s'.edges = s.edges ∧
      DiffersAt id ⟨id, kind, attributes, none⟩ s s'
  | .addEdge e => s'.edges = s.edges.push e ∧ s'.nodes = s.nodes
  | .enrich id key value => ∃ n, s.nodes[id]? = some n ∧ s'.edges = s.edges ∧
      DiffersAt id (withAttribute n key value) s s'
  | .attachEmbedding id vector => ∃ n, s.nodes[id]? = some n ∧ s'.edges = s.edges ∧
      DiffersAt id { n with embedding := some vector } s s'
  | .attachEmbeddings _ => ∃ made : List (NodeId × Embedding), s'.edges = s.edges ∧
      ∀ a : NodeId, s'.nodes[a]? = s.nodes[a]?.map (Retrieval.withVector made)

theorem differsAt_insert {nodes : ExtTreeMap NodeId Node} (id : NodeId) (node : Node)
    (a : NodeId) :
    (nodes.insert id node)[a]? = if a = id then some node else nodes[a]? := by
  refine Option.ext fun m => ?_
  rw [getElem?_insert_iff]
  by_cases ha : a = id
  · rw [if_pos ha, Option.some.injEq]
    exact ⟨fun h => h.elim (·.2.symm) fun h => absurd ha h.1, fun h => Or.inl ⟨ha, h.symm⟩⟩
  · rw [if_neg ha]
    exact ⟨fun h => h.elim (fun h => absurd h.1 ha) (·.2), fun h => Or.inr ⟨ha, h⟩⟩

/-- A node that is there is where it was. -/
theorem differsAt_self {id : NodeId} {n : Node} (hn : s.nodes[id]? = some n) :
    DiffersAt id n s s := by
  intro a
  split
  · rename_i ha
    rw [ha, hn]
  · rfl

/-- A change that is made has its effect. -/
theorem Change.effect_of_ok (h : s.Reachable) {c : Change} (hok : c.result s = .ok s') :
    c.Effect s s' := by
  cases c with
  | addNode id kind attributes =>
      obtain ⟨hnew, rfl⟩ := addNode_ok hok
      exact ⟨hnew, rfl, differsAt_insert id _⟩
  | addEdge e =>
      obtain ⟨-, rfl⟩ := addEdge_ok hok
      exact ⟨rfl, rfl⟩
  | enrich id key value =>
      rw [Change.result] at hok
      -- an attribute that is there already was given the value that it has
      obtain ⟨n, hn, ⟨old, hold, -, rfl⟩ | ⟨hkey, rfl⟩⟩ := enrich_cases hok
      · have hset : key ∈ n.attributes := by
          rw [ExtTreeMap.mem_iff_isSome_getElem?, hold]
          rfl
        refine ⟨n, hn, rfl, ?_⟩
        rw [withAttribute, if_pos hset]
        exact differsAt_self hn
      · have hnew : key ∉ n.attributes := by
          rw [ExtTreeMap.mem_iff_isSome_getElem?, hkey]
          exact Bool.false_ne_true
        refine ⟨n, hn, rfl, ?_⟩
        rw [withAttribute, if_neg hnew]
        exact differsAt_insert id _
  | attachEmbedding id vector =>
      obtain ⟨-, n, hn, rfl⟩ := attachEmbedding_ok hok
      exact ⟨n, hn, rfl, differsAt_insert id _⟩
  | attachEmbeddings embedder =>
      cases hok
      obtain ⟨made, hmade⟩ := Retrieval.exists_attached h embedder
      refine ⟨made, ?_, hmade.nodes⟩
      rw [hmade.rest]

/-- **A change does nothing but its effect:** no other store that can be reached has the
    same nodes and edges. -/
theorem Change.Effect.unique {c : Change} {u : Update Unit} (hu : c.update? = some u)
    (h : c.Effect s s') (h' : c.Effect s t) (hs' : s'.Reachable) (ht : t.Reachable) :
    s' = t := by
  have hnodes : ∀ {id : NodeId} {n : Node}, DiffersAt id n s s' → DiffersAt id n s t →
      s'.nodes = t.nodes := fun hd hd' =>
    ExtTreeMap.ext_getElem? fun a => (hd a).trans (hd' a).symm
  cases c with
  | addNode id kind attributes =>
      obtain ⟨-, hedges, hd⟩ := h
      obtain ⟨-, hedges', hd'⟩ := h'
      exact hs'.ext ht (hnodes hd hd') (hedges.trans hedges'.symm)
  | addEdge e =>
      exact hs'.ext ht (h.2.trans h'.2.symm) (h.1.trans h'.1.symm)
  | enrich id key value =>
      obtain ⟨n, hn, hedges, hd⟩ := h
      obtain ⟨n', hn', hedges', hd'⟩ := h'
      cases hn.symm.trans hn'
      exact hs'.ext ht (hnodes hd hd') (hedges.trans hedges'.symm)
  | attachEmbedding id vector =>
      obtain ⟨n, hn, hedges, hd⟩ := h
      obtain ⟨n', hn', hedges', hd'⟩ := h'
      cases hn.symm.trans hn'
      exact hs'.ext ht (hnodes hd hd') (hedges.trans hedges'.symm)
  | attachEmbeddings embedder => cases hu

/-! ## What every change keeps -/

/-- A node is another one to which attributes and a vector may have been added. -/
structure Grows (n n' : Node) : Prop where
  id : n'.id = n.id
  kind : n'.kind = n.kind
  attributes : ∀ (key : String) (value : Json),
    n.attributes[key]? = some value → n'.attributes[key]? = some value

theorem Grows.refl (n : Node) : Grows n n := ⟨rfl, rfl, fun _ _ h => h⟩

/-- What grows twice has grown. -/
theorem Grows.trans {n₁ n₂ n₃ : Node} (h : Grows n₁ n₂) (h' : Grows n₂ n₃) :
    Grows n₁ n₃ where
  id := h'.id.trans h.id
  kind := h'.kind.trans h.kind
  attributes key value hvalue := h'.attributes key value (h.attributes key value hvalue)

/-- Every node and every edge of a store is in another one, the edges at their positions
    and the nodes with the attributes that they had. -/
structure Keeps (s s' : Store) : Prop where
  nodes : ∀ (a : NodeId) (n : Node), s.nodes[a]? = some n →
    ∃ n', s'.nodes[a]? = some n' ∧ Grows n n'
  edges : s.edges.toList <+: s'.edges.toList

theorem Keeps.refl (s : Store) : s.Keeps s where
  nodes _ n hn := ⟨n, hn, Grows.refl n⟩
  edges := List.prefix_rfl

/-- What is kept twice is kept. -/
theorem Keeps.trans (h : s.Keeps t) (h' : t.Keeps s') : s.Keeps s' where
  nodes a n hn := by
    obtain ⟨n', hn', hgrows⟩ := h.nodes a n hn
    obtain ⟨n'', hn'', hgrows'⟩ := h'.nodes a n' hn'
    exact ⟨n'', hn'', hgrows.trans hgrows'⟩
  edges := h.edges.trans h'.edges

/-- An edge is found where it was. -/
theorem Keeps.edge (h : s.Keeps s') {i : Nat} {e : Edge} (he : s.edges[i]? = some e) :
    s'.edges[i]? = some e := by
  rw [← Array.getElem?_toList] at he ⊢
  obtain ⟨hi, rfl⟩ := List.getElem?_eq_some_iff.mp he
  exact List.prefix_iff_getElem?.mp h.edges i hi

/-- A node with one more attribute has grown. -/
theorem grows_withAttribute (n : Node) (key : String) (value : Json) :
    Grows n (withAttribute n key value) := by
  rw [withAttribute]
  split
  · exact Grows.refl n
  · rename_i hnew
    refine ⟨rfl, rfl, fun k v hv => ?_⟩
    -- the key that is set is not one that the node has
    have hne : key ≠ k := by
      rintro rfl
      rw [ExtTreeMap.getElem?_eq_none hnew] at hv
      cases hv
    rw [ExtTreeMap.getElem?_insert, if_neg fun hc => hne (LawfulEqCmp.eq_of_compare hc)]
    exact hv

/-- A node that is given its vector has grown. -/
theorem grows_withVector (made : List (NodeId × Embedding)) (n : Node) :
    Grows n (Retrieval.withVector made n) := by
  rw [Retrieval.withVector]
  split
  · exact ⟨rfl, rfl, fun _ _ h => h⟩
  · exact Grows.refl n

/-- A store that differs at one node keeps the nodes if it keeps that one. -/
theorem DiffersAt.nodes {id : NodeId} {m : Node} (h : DiffersAt id m s s')
    (hm : ∀ n, s.nodes[id]? = some n → Grows n m) (a : NodeId) (n : Node)
    (hn : s.nodes[a]? = some n) : ∃ n', s'.nodes[a]? = some n' ∧ Grows n n' := by
  rw [h a]
  by_cases ha : a = id
  · subst ha
    exact ⟨m, if_pos rfl, hm n hn⟩
  · exact ⟨n, (if_neg ha).trans hn, Grows.refl n⟩

/-- An effect of whatever kind keeps what was there. -/
theorem Change.Effect.keeps {c : Change} (h : c.Effect s s') : s.Keeps s' := by
  cases c with
  | addNode id kind attributes =>
      obtain ⟨hnew, hedges, hd⟩ := h
      refine ⟨hd.nodes fun n hn => ?_, hedges ▸ List.prefix_rfl⟩
      exact absurd rfl (ne_of_new hnew hn)
  | addEdge e =>
      obtain ⟨hedges, hnodes⟩ := h
      refine ⟨fun a n hn => ⟨n, hnodes ▸ hn, Grows.refl n⟩, ?_⟩
      rw [hedges, Array.toList_push]
      exact List.prefix_append _ _
  | enrich id key value =>
      obtain ⟨node, hnode, hedges, hd⟩ := h
      refine ⟨hd.nodes fun n hn => ?_, hedges ▸ List.prefix_rfl⟩
      cases hnode.symm.trans hn
      exact grows_withAttribute node key value
  | attachEmbedding id vector =>
      obtain ⟨node, hnode, hedges, hd⟩ := h
      refine ⟨hd.nodes fun n hn => ?_, hedges ▸ List.prefix_rfl⟩
      cases hnode.symm.trans hn
      exact ⟨rfl, rfl, fun _ _ h => h⟩
  | attachEmbeddings embedder =>
      obtain ⟨made, hedges, hnodes⟩ := h
      refine ⟨fun a n hn => ?_, hedges ▸ List.prefix_rfl⟩
      refine ⟨Retrieval.withVector made n, ?_, grows_withVector made n⟩
      rw [hnodes, hn, Option.map_some]

/-- **No change takes anything away:** nodes keep their attributes, and edges their positions.
    -/
theorem Change.keeps_perform (h : s.Reachable) (c : Change) : s.Keeps (c.perform s) := by
  rw [Change.perform_eq]
  cases hresult : c.result s with
  | error e => exact Keeps.refl s
  | ok s' => exact (Change.effect_of_ok h hresult).keeps

/-- Whatever is asked of a store in a run, what was there stays there. -/
theorem keeps_foldl (changes : List Change) (h : s.Reachable) :
    s.Keeps (changes.foldl Change.perform s) := by
  induction changes generalizing s with
  | nil => exact Keeps.refl s
  | cons c changes ih => exact (Change.keeps_perform h c).trans (ih (h.perform c))

/-- What holds of changes in place at a store, refused and made ones, and of runs from
    there. -/
structure Framed (s : Store) : Prop where
  refused : ∀ (c : Change) (u : Update Unit) (e : GraphError) (s' : Store),
    c.update? = some u → u.outcome s = (.error e, s') → s' = s
  made : ∀ (c : Change) (u : Update Unit) (s' : Store),
    c.update? = some u → u.outcome s = (.ok (), s') → s.Keeps s' ∧
      (∀ (i : Nat) (e : Edge), s.edges[i]? = some e → s'.edges[i]? = some e) ∧
      c.Effect s s' ∧ ∀ t : Store, t.Reachable → c.Effect s t → t = s'
  position : ∀ (e : Edge) (i : Nat) (s' : Store),
    (Update.addEdge e).outcome s = (.ok i, s') → i = s.edges.size ∧ s'.edges[i]? = some e
  performed : ∀ (c : Change) (u : Update Unit),
    c.update? = some u → (u.outcome s).2 = c.perform s
  run : ∀ changes : List Change, s.Keeps (changes.foldl Change.perform s)

/-- A settled change was refused and left the old store, or it was made. -/
theorem settled_eq {α : Type} {a : α} {r : Except GraphError Store}
    {answer : Except GraphError α} (h : settled a s r = (answer, s')) :
    (∃ e, r = .error e ∧ answer = .error e ∧ s' = s) ∨ (r = .ok s' ∧ answer = .ok a) := by
  cases r with
  | error e =>
      obtain ⟨h₁, h₂⟩ := Prod.mk.inj h
      exact Or.inl ⟨e, rfl, h₁.symm, h₂.symm⟩
  | ok t =>
      obtain ⟨h₁, h₂⟩ := Prod.mk.inj h
      exact Or.inr ⟨congrArg Except.ok h₂, h₁.symm⟩

/-- **A change is made as a whole or not at all, and what was there stays there.** -/
theorem Reachable.framed (h : s.Reachable) : s.Framed where
  refused := by
    intro c u e s' hu hrun
    rw [Change.outcome_update hu] at hrun
    obtain ⟨_, -, -, hs'⟩ | ⟨-, hok⟩ := settled_eq hrun
    · exact hs'
    · cases hok
  made := by
    intro c u s' hu hrun
    rw [Change.outcome_update hu] at hrun
    obtain ⟨_, -, herror, -⟩ | ⟨hok, -⟩ := settled_eq hrun
    · cases herror
    have heffect := Change.effect_of_ok h hok
    have hreach : s'.Reachable := by
      have hperform := h.perform c
      rw [Change.perform_eq, hok] at hperform
      exact hperform
    refine ⟨heffect.keeps, fun _ _ => heffect.keeps.edge, heffect, ?_⟩
    exact fun t ht heffect' => heffect'.unique hu heffect ht hreach
  position := by
    intro e i s' hrun
    rw [outcome_addEdge] at hrun
    obtain ⟨_, -, herror, -⟩ | ⟨hok, hi⟩ := settled_eq hrun
    · cases herror
    cases hi
    obtain ⟨-, rfl⟩ := addEdge_ok hok
    exact ⟨rfl, Array.getElem?_push_size⟩
  performed := by
    intro c u hu
    rw [Change.outcome_update hu, Change.perform_eq]
    cases c.result s <;> rfl
  run changes := keeps_foldl changes h

/-- A node that is there is not added again, and a second call gets the second place. -/
theorem framed_callGraph :
    (callGraph ["a", "b"] [("a", "b")]).Reachable ∧ (callGraph ["a", "b"] [("a", "b")]).Framed ∧
      (Update.addNode ⟨"a"⟩ .file ∅).outcome (callGraph ["a", "b"] [("a", "b")]) =
        (.error (.duplicateNode ⟨"a"⟩), callGraph ["a", "b"] [("a", "b")]) ∧
      ((Update.addEdge ⟨⟨"b"⟩, ⟨"a"⟩, .calls, ∅⟩).outcome
        (callGraph ["a", "b"] [("a", "b")])).1 = .ok 1 :=
  ⟨reachable_callGraph _ _, Reachable.framed (reachable_callGraph _ _), by decide +kernel,
    by decide +kernel⟩

end CodeGraph.Store

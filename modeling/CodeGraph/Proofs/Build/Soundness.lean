import CodeGraph.Build.Construction
import CodeGraph.Proofs.Graph.Reachable
/-! # Soundness — what a build keeps true of its store

    A construction changes its store in three ways only: it adds a node, sets an
    attribute, or joins two nodes whose kinds the schema allows to be joined.

    * `Kept` says that a property holds of the empty store and survives these
      three changes.
    * Each phase of a construction keeps such a property, and so does the whole
      (`Kept.construct`).
    * Hence a store that was built is reachable, and all its edges are allowed. -/

namespace CodeGraph.Build

/-- A property of stores that the changes of a build keep. -/
structure Kept (P : Store → Prop) : Prop where
  empty : P {}
  addNode : ∀ (s s' : Store) (id : NodeId) (kind : NodeKind) (a : Attributes),
    P s → s.addNode id kind a = .ok s' → P s'
  enrich : ∀ (s s' : Store) (id : NodeId) (key : String) (value : Json),
    P s → s.enrich id key value = .ok s' → P s'
  addEdge : ∀ (s s' : Store) (e : Edge) (a b : Node), P s →
    s.nodes[e.source]? = some a → s.nodes[e.target]? = some b →
    e.relationship.allows a.kind b.kind = true → s.addEdge e = .ok s' → P s'

namespace Kept

variable {P : Store → Prop} {d : Draft}

/-! ## Changes of a draft -/

/-- A draft adds a node or notes that it is there already. -/
theorem insertNode (h : Kept P) (hd : P d.store) (id : NodeId) (kind : NodeKind)
    (a : Attributes) : P (d.insertNode id kind a).store := by
  rw [Draft.insertNode]
  split
  · rename_i s hok
    exact h.addNode _ s id kind a hd hok
  · exact hd

theorem ensureNode (h : Kept P) (hd : P d.store) (id : NodeId) (kind : NodeKind)
    (a : Attributes) : P (d.ensureNode id kind a).store := by
  rw [Draft.ensureNode]
  split
  · exact hd
  · exact h.insertNode hd id kind a

theorem setAttribute (h : Kept P) (hd : P d.store) (id : NodeId) (key : String)
    (value : Json) : P (d.enrich id key value).store := by
  rw [Draft.enrich]
  split
  · rename_i s hok
    exact h.enrich _ s id key value hd hok
  · exact hd

/-- A draft joins an edge whose ends are of the right kinds, or leaves it out. -/
theorem connect (h : Kept P) (hd : P d.store) (e : Edge) : P (d.connect e).store := by
  rw [Draft.connect]
  split
  · rename_i a b ha hb
    split
    · rename_i hallows
      rw [Draft.connect.add]
      split
      · rename_i s hok
        exact h.addEdge _ s e a b hd ha hb hallows hok
      · exact hd
    · exact hd
  · rename_i hmissing
    rw [Draft.connect.add]
    split
    · -- An edge that was added has nodes at both its ends.
      rename_i s hok
      obtain ⟨⟨hsource, htarget⟩, -⟩ := Store.addEdge_ok hok
      exact absurd (Std.ExtTreeMap.getElem?_eq_some_getElem htarget)
        (hmissing _ _ (Std.ExtTreeMap.getElem?_eq_some_getElem hsource))
    · exact hd

/-- A step that keeps a property keeps it however often it is taken. -/
theorem foldl {α : Type} {f : Draft → α → Draft} (xs : List α)
    (hf : ∀ (d : Draft) (x : α), P d.store → P (f d x).store) (hd : P d.store) :
    P (xs.foldl f d).store :=
  List.foldlRecOn xs f (motive := fun d => P d.store) hd fun d hd x _ => hf d x hd

/-! ## Phases -/

/-- Files and definitions are added one after the other. -/
theorem addSources (h : Kept P) (config : Config) (inputs : Inputs) :
    P (addSources config inputs).1.store := by
  rw [Build.addSources]
  refine List.foldlRecOn inputs.definitions _
    (motive := fun p : Draft × Array Edge => P p.1.store) ?_ ?_
  · refine foldl inputs.files ?_ h.empty
    intro d f hd
    rw [addFile]
    split
    · exact hd
    · exact h.insertNode hd _ _ _
  · rintro ⟨d, edges⟩ hd f -
    rw [addDefinition]
    dsimp only
    split
    · exact h.insertNode (h.ensureNode hd _ _ _) _ _ _
    · exact hd

/-- Imports add packages, and notes on what was not found. -/
theorem resolveImports (h : Kept P) (config : Config) (inputs : Inputs) (hd : P d.store) :
    P (resolveImports config inputs d).draft.store := by
  rw [Build.resolveImports]
  refine List.foldlRecOn inputs.imports _
    (motive := fun p : ImportPhase => P p.draft.store) hd ?_
  intro p hp i _
  cases resolveImport d.store (moduleIndex d.store) config.aliases i with
  | error x => exact hp
  | ok target =>
      cases target with
      | inside m => exact hp
      | outside package => exact h.ensureNode hp _ _ _

/-- **What the changes of a draft keep holds when all nodes are there.** -/
theorem addNodes (h : Kept P) (config : Config) (inputs : Inputs) :
    P (addNodes config inputs).1.store := by
  have hsources := h.addSources config inputs
  rw [Build.addNodes]
  revert hsources
  rcases Build.addSources config inputs with ⟨d, defines⟩
  intro hsources
  dsimp only at hsources ⊢
  refine foldl _ ?_ (h.resolveImports config inputs ?_)
  · intro d f hd
    rw [markFailure]
    split
    · exact h.setAttribute hd _ _ _
    · exact hd
  · refine foldl _ (fun d _ hd => h.ensureNode hd _ _ _) ?_
    exact foldl _ (fun d _ hd => h.ensureNode hd _ _ _) hsources

/-- Resolving references changes no store. -/
theorem store_resolveReferences (inputs : Inputs) (imported : Imported) (d : Draft) :
    (resolveReferences inputs imported d).draft.store = d.store := by
  rw [resolveReferences]
  refine List.foldlRecOn inputs.inherits _
    (motive := fun p : ReferencePhase => p.draft.store = d.store) ?_ ?_
  · refine List.foldlRecOn inputs.calls _
      (motive := fun p : ReferencePhase => p.draft.store = d.store) rfl ?_
    intro p hp c _
    cases resolveCall d.store imported c with
    | edge e => exact hp
    | noCaller => exact hp
    | noCallee caller => exact hp
  · intro p hp i _
    cases resolveInherit d.store imported i with
    | ok e => exact hp
    | error x => exact hp

/-- **A construction keeps what its changes keep.** -/
theorem construct (h : Kept P) (config : Config) (inputs : Inputs) :
    P (construct config inputs).store := by
  have hnodes := h.addNodes config inputs
  rw [Build.construct]
  revert hnodes
  rcases Build.addNodes config inputs with ⟨d, edges, imported⟩
  intro hnodes
  dsimp only at hnodes ⊢
  rw [← Array.foldl_toList]
  refine foldl _ (fun d _ hd => h.setAttribute hd _ _ _) ?_
  refine foldl _ (fun d e hd => h.connect hd e) ?_
  rw [store_resolveReferences]
  exact foldl _ (fun d e hd => h.connect hd e) hnodes

/-- **What the changes of a draft keep holds of every graph that is built.** -/
theorem ofBatches (h : Kept P) (config : Config) (batches : List Batch) :
    P (ofBatches config batches).1 :=
  h.construct config _

end Kept

/-! ## What a build yields -/

/-- A node of a kind has an identifier. -/
def HasKind (s : Store) (id : NodeId) (kind : NodeKind) : Prop :=
  ∃ n, s.nodes[id]? = some n ∧ n.kind = kind

/-- A reachable store whose edges join only what their relationships allow. -/
structure Typed (s : Store) : Prop where
  reachable : s.Reachable
  allowed : ∀ e ∈ s.edges, ∃ a b, HasKind s e.source a ∧ HasKind s e.target b ∧
    e.relationship.allows a b = true

/-- Edges stay allowed as long as nodes keep their kinds. -/
theorem allowed_mono {s s' : Store} {e : Edge}
    (hkind : ∀ (id : NodeId) (k : NodeKind), HasKind s id k → HasKind s' id k)
    (h : ∃ a b, HasKind s e.source a ∧ HasKind s e.target b ∧
      e.relationship.allows a b = true) :
    ∃ a b, HasKind s' e.source a ∧ HasKind s' e.target b ∧
      e.relationship.allows a b = true := by
  obtain ⟨a, b, ha, hb, hallows⟩ := h
  exact ⟨a, b, hkind _ a ha, hkind _ b hb, hallows⟩

theorem kept_typed : Kept Typed where
  empty := ⟨.empty, by intro e he; simp at he⟩
  addNode := by
    intro s s' id kind a h hok
    refine ⟨h.reachable.addNode hok, ?_⟩
    obtain ⟨hnew, rfl⟩ := Store.addNode_ok hok
    intro e he
    refine allowed_mono ?_ (h.allowed e he)
    rintro i k ⟨n, hn, hk⟩
    exact ⟨n, Store.getElem?_insert_iff.mpr (Or.inr ⟨Store.ne_of_new hnew hn, hn⟩), hk⟩
  enrich := by
    intro s s' id key value h hok
    refine ⟨h.reachable.enrich hok, ?_⟩
    rcases Store.enrich_ok hok with rfl | ⟨node, hnode, -, rfl⟩
    · exact h.allowed
    · intro e he
      refine allowed_mono ?_ (h.allowed e he)
      intro i k
      exact (Store.exists_insert_iff Node.kind hnode (by rfl) i k).mpr
  addEdge := by
    intro s s' e a b h ha hb hallows hok
    refine ⟨h.reachable.addEdge hok, ?_⟩
    obtain ⟨-, rfl⟩ := Store.addEdge_ok hok
    intro e' he'
    rcases Array.mem_push.mp he' with he' | rfl
    · exact h.allowed e' he'
    · exact ⟨a.kind, b.kind, ⟨a, ha, rfl⟩, ⟨b, hb, rfl⟩, hallows⟩

/-- **Every graph that is built is reachable, and its edges are allowed.** -/
theorem typed_ofBatches (config : Config) (batches : List Batch) :
    Typed (ofBatches config batches).1 :=
  kept_typed.ofBatches config batches

end CodeGraph.Build

import CodeGraph.Proofs.Build.Gathering
import CodeGraph.Proofs.Build.Order
import Mathlib.Algebra.Order.BigOperators.Group.List
import Mathlib.Algebra.Order.Group.Nat
/-! # Balance — every fact is accounted for

    A reference among the facts becomes an edge or is dropped with a diagnostic,
    never both and never neither.

    * Edges that can be joined are joined, each at the end of the edge list
      (`joined_foldl`).
    * Resolving calls and inheritances adds an edge, or drops one and says why;
      a call of an unknown function is also counted for its caller
      (`ReferencePhase.Balanced`).
    * At the end the counts become attributes, which nothing prevents
      (`counted_foldl`).
    * `Balanced` collects what is true of the store and the report of every
      build (`balanced_ofBatches`). -/

namespace CodeGraph.Build

open Std

variable {d d' : Draft}

/-! ## Joining edges -/

/-- Some edges were added, and nothing else happened. -/
structure Draft.Joined (d : Draft) (es : List Edge) (d' : Draft) : Prop where
  nodes : d'.store.nodes = d.store.nodes
  edges : d'.store.edges.toList = d.store.edges.toList ++ es
  diagnostics : d'.diagnostics = d.diagnostics
  dropped : d'.dropped = d.dropped

/-- An edge that can be joined is joined. -/
theorem joined_connect {e : Edge} (h : Joinable d.store e) : d.Joined [e] (d.connect e) := by
  obtain ⟨a, b, ⟨m, hm, rfl⟩, ⟨n, hn, rfl⟩, hallows⟩ := h
  have hsource : e.source ∈ d.store.nodes :=
    ExtTreeMap.mem_iff_isSome_getElem?.mpr (by rw [hm]; rfl)
  have htarget : e.target ∈ d.store.nodes :=
    ExtTreeMap.mem_iff_isSome_getElem?.mpr (by rw [hn]; rfl)
  have hends : [e.source, e.target].find? (· ∉ d.store.nodes) = none := by
    simp [hsource, htarget]
  rw [Draft.connect, hm, hn]
  dsimp only
  rw [if_pos hallows, Draft.connect.add, Store.addEdge, hends]
  exact ⟨rfl, Array.toList_push, rfl, rfl⟩

/-- Edges that can be joined are all joined, in their order: none of them takes away what the
    next one needs. -/
theorem joined_foldl {es : List Edge} (h : ∀ e ∈ es, Joinable d.store e) :
    d.Joined es (es.foldl Draft.connect d) := by
  induction es generalizing d with
  | nil => exact ⟨rfl, (List.append_nil _).symm, rfl, rfl⟩
  | cons e es ih =>
      have hfirst := joined_connect (h e List.mem_cons_self)
      have hsame : Grown d.store (d.connect e).store := .of_nodes_eq hfirst.nodes
      have hrest := ih fun e' he' => hsame.joinable (h e' (List.mem_cons_of_mem e he'))
      refine ⟨hrest.nodes.trans hfirst.nodes, ?_, hrest.diagnostics.trans hfirst.diagnostics,
        hrest.dropped.trans hfirst.dropped⟩
      rw [List.foldl_cons, hrest.edges, hfirst.edges, List.append_assoc]
      rfl

/-- Joined edges leave the report as it was. -/
theorem Draft.Joined.honest {es : List Edge} (h : d.Joined es d') (hd : d.Honest) :
    d'.Honest where
  faultless := by
    rw [h.diagnostics]
    exact hd.faultless
  dropped := by
    rw [h.dropped, h.diagnostics]
    exact hd.dropped

theorem kept_sound : Kept Store.Sound where
  empty := Store.sound_empty
  addNode _ _ _ _ _ h hok := h.addNode hok
  enrich _ _ _ _ _ h hok := h.enrich hok
  addEdge _ _ _ _ _ h _ _ _ hok := h.addEdge hok

/-- Joined edges keep the labels of the nodes. -/
theorem labelled_foldl_connect (h : Labelled d.store) {es : List Edge}
    (hes : ∀ e ∈ es, Joinable d.store e) : Labelled (es.foldl Draft.connect d).store := by
  refine ⟨Kept.foldl es (fun d e hd => kept_sound.connect hd e) h.sound, ?_⟩
  intro id n hn
  rw [(joined_foldl hes).nodes] at hn
  exact h.described id n hn

/-! ## Resolving references -/

/-- So many references after a draft, each has become an edge or is left out, and
    unresolved calls are counted for their callers, which are functions. -/
structure ReferencePhase.Balanced (d : Draft) (k : Nat) (p : ReferencePhase) : Prop where
  store : p.draft.store = d.store
  honest : p.draft.Honest
  references : ∀ e ∈ p.edges, e.relationship = .calls ∨
    e.relationship = .inherits ∧ e.source ≠ e.target
  joinable : ∀ e ∈ p.edges, Joinable d.store e
  count : p.edges.size + p.draft.dropped = k + d.dropped
  positive : ∀ (id : NodeId) (c : Nat), p.unresolved[id]? = some c →
    0 < c ∧ HasKind d.store id .function
  calls : ∀ callers : List NodeId, callers.Nodup →
    (∀ id, HasKind d.store id .function → id ∈ callers) →
    (callers.map fun id => p.unresolved.getD id 0).sum =
      p.draft.diagnostics.countP Diagnostic.isUnresolvedCall

/-- One more for one caller is one more for all callers. -/
theorem sum_getD_alter {ids : List NodeId} (hnodup : ids.Nodup) {id : NodeId}
    (hid : id ∈ ids) (m : ExtTreeMap NodeId Nat) :
    (ids.map fun i => (m.alter id fun n => some (n.getD 0 + 1)).getD i 0).sum =
      (ids.map fun i => m.getD i 0).sum + 1 := by
  have hpoint : ∀ i, (m.alter id fun n => some (n.getD 0 + 1)).getD i 0 =
      m.getD i 0 + if id = i then 1 else 0 := by
    intro i
    rw [ExtTreeMap.getD_alter]
    by_cases hi : id = i
    · subst hi
      rw [if_pos ReflCmp.compare_self, if_pos rfl, Option.getD_some,
        ← ExtTreeMap.getD_eq_getD_getElem?]
    · rw [if_neg (hi ∘ LawfulEqCmp.eq_of_compare), if_neg hi, Nat.add_zero]
  simp only [hpoint, List.sum_map_add, Store.sum_ite_eq_one hnodup hid]

section Phase

variable {k : Nat} {p : ReferencePhase}

/-- A reference that is left out, other than a called function. -/
theorem ReferencePhase.Balanced.drop (h : p.Balanced d k) {x : Diagnostic}
    (homission : x.isOmission = true) (hcall : x.isUnresolvedCall = false) :
    ReferencePhase.Balanced d (k + 1) { p with draft := p.draft.drop x } where
  store := h.store
  honest := h.honest.drop homission
  references := h.references
  joinable := h.joinable
  count := by
    show p.edges.size + (p.draft.dropped + 1) = k + 1 + d.dropped
    have hcount := h.count
    omega
  positive := h.positive
  calls := by
    intro callers hnodup hcallers
    show _ = (p.draft.note x).diagnostics.countP Diagnostic.isUnresolvedCall
    rw [Draft.countP_note, hcall, ← h.calls callers hnodup hcallers]
    rfl

/-- A reference that means something becomes an edge. -/
theorem ReferencePhase.Balanced.push (h : p.Balanced d k) {e : Edge}
    (hrel : e.relationship = .calls ∨ e.relationship = .inherits ∧ e.source ≠ e.target)
    (hj : Joinable d.store e) :
    ReferencePhase.Balanced d (k + 1) { p with edges := p.edges.push e } where
  store := h.store
  honest := h.honest
  references := by
    intro e' he'
    rcases Array.mem_push.mp he' with he' | rfl
    · exact h.references e' he'
    · exact hrel
  joinable := by
    intro e' he'
    rcases Array.mem_push.mp he' with he' | rfl
    · exact h.joinable e' he'
    · exact hj
  count := by
    show (p.edges.push e).size + p.draft.dropped = k + 1 + d.dropped
    have hcount := h.count
    rw [Array.size_push]
    omega
  positive := h.positive
  calls := h.calls

/-- A call becomes an edge or is left out, and if only its callee is unknown it is counted at
    its caller. -/
theorem ReferencePhase.Balanced.addCall (hlabelled : Labelled d.store)
    (h : p.Balanced d k) (imported : Imported) (c : CallFact) :
    (p.addCall c (resolveCall d.store imported c)).Balanced d (k + 1) := by
  cases hresolve : resolveCall d.store imported c with
  | edge e =>
      have hshows := resolveCall_edge hlabelled hresolve
      exact h.push (Or.inl hshows.relationship) hshows.joinable
  | noCaller => exact h.drop rfl rfl
  | noCallee caller =>
      have hcaller := resolveCall_noCallee hlabelled hresolve
      refine ⟨h.store, h.honest.drop rfl, h.references, h.joinable, ?_, ?_, ?_⟩
      · show p.edges.size + (p.draft.dropped + 1) = k + 1 + d.dropped
        have hcount := h.count
        omega
      · intro id n hn
        change (p.unresolved.alter caller _)[id]? = some n at hn
        rw [ExtTreeMap.getElem?_alter] at hn
        split at hn
        · rename_i hid
          cases hn
          rw [← LawfulEqCmp.eq_of_compare hid]
          exact ⟨Nat.succ_pos _, hcaller⟩
        · exact h.positive id n hn
      · intro callers hnodup hcallers
        show (callers.map fun id => (p.unresolved.alter caller _).getD id 0).sum =
          (p.draft.note _).diagnostics.countP Diagnostic.isUnresolvedCall
        rw [sum_getD_alter hnodup (hcallers caller hcaller), Draft.countP_note,
          h.calls callers hnodup hcallers]
        rfl

/-- A base class becomes an edge or is left out. -/
theorem ReferencePhase.Balanced.addInherit (hlabelled : Labelled d.store)
    (h : p.Balanced d k) (imported : Imported) (i : InheritFact) :
    (p.addInherit (resolveInherit d.store imported i)).Balanced d (k + 1) := by
  cases hresolve : resolveInherit d.store imported i with
  | ok e =>
      have hshows := resolveInherit_ok hlabelled hresolve
      exact h.push (Or.inr ⟨hshows.relationship, hshows.loopless⟩) hshows.joinable
  | error x =>
      obtain ⟨homission, hcall⟩ := resolveInherit_error hresolve
      exact h.drop homission hcall

end Phase

/-- **Calls and base classes are balanced,** one by one. -/
theorem balanced_resolveReferences (hlabelled : Labelled d.store) (hhonest : d.Honest)
    (hcallless : d.diagnostics.countP Diagnostic.isUnresolvedCall = 0) (inputs : Inputs)
    (imported : Imported) : (resolveReferences inputs imported d).Balanced d
      (inputs.calls.length + inputs.inherits.length) := by
  have hstart : ReferencePhase.Balanced d 0 { draft := d } := by
    refine ⟨rfl, hhonest, ?_, ?_, ?_, ?_, ?_⟩
    · intro e he
      simp at he
    · intro e he
      simp at he
    · simp
    · intro id c hc
      simp at hc
    · simp [hcallless]
  have hcalls := foldl_counted (motive := ReferencePhase.Balanced d)
    (fun _ _ c hp => hp.addCall hlabelled imported c) inputs.calls hstart
  rw [Nat.zero_add] at hcalls
  rw [resolveReferences]
  exact foldl_counted (motive := ReferencePhase.Balanced d)
    (fun _ _ i hp => hp.addInherit hlabelled imported i) inputs.inherits hcalls

/-! ## Counting unresolved calls -/

/-- A node with the number of its unresolved calls. -/
def counted (n : Node) (c : Nat) : Node :=
  { n with attributes := n.attributes.insert Attribute.unresolvedCalls (.ofNat c) }

/-- Some counts became attributes, and nothing else happened. -/
structure Draft.Counted (d : Draft) (counts : List (NodeId × Nat)) (d' : Draft) : Prop where
  edges : d'.store.edges = d.store.edges
  diagnostics : d'.diagnostics = d.diagnostics
  dropped : d'.dropped = d.dropped
  inside : ∀ u ∈ counts, ∀ n, d.store.nodes[u.1]? = some n →
    d'.store.nodes[u.1]? = some (counted n u.2)
  outside : ∀ id, (∀ u ∈ counts, u.1 ≠ id) → d'.store.nodes[id]? = d.store.nodes[id]?

/-- One count is written to its node. -/
theorem counted_enrich {id : NodeId} {n : Node} (hn : d.store.nodes[id]? = some n)
    (hnone : n.attributes[Attribute.unresolvedCalls]? = none) (c : Nat) :
    d.Counted [(id, c)] (d.enrich id Attribute.unresolvedCalls (.ofNat c)) := by
  rw [Draft.enrich, Store.enrich, hn]
  dsimp only
  rw [hnone]
  refine ⟨rfl, rfl, rfl, ?_, ?_⟩
  · intro u hu m hm
    rw [List.mem_singleton.mp hu] at hm ⊢
    cases hn.symm.trans hm
    exact ExtTreeMap.getElem?_insert_self
  · intro i hi
    have hne : id ≠ i := hi (id, c) List.mem_cons_self
    exact ExtTreeMap.getElem?_insert.trans (if_neg (hne ∘ LawfulEqCmp.eq_of_compare))

/-- Counts of different nodes are written to all of them. -/
theorem counted_foldl {counts : List (NodeId × Nat)}
    (hdistinct : counts.Pairwise fun u v => u.1 ≠ v.1)
    (hnodes : ∀ u ∈ counts, ∃ n, d.store.nodes[u.1]? = some n ∧
      n.attributes[Attribute.unresolvedCalls]? = none) :
    d.Counted counts (counts.foldl
      (fun d u => d.enrich u.1 Attribute.unresolvedCalls (.ofNat u.2)) d) := by
  induction counts generalizing d with
  | nil => exact ⟨rfl, rfl, rfl, nofun, fun _ _ => rfl⟩
  | cons u counts ih =>
      obtain ⟨hu, hrest⟩ := List.pairwise_cons.mp hdistinct
      obtain ⟨n, hn, hnone⟩ := hnodes u List.mem_cons_self
      have hfirst := counted_enrich hn hnone u.2
      -- the first count leaves the other nodes as they are, so they still have none
      have hsame : ∀ v ∈ counts, (d.enrich u.1 Attribute.unresolvedCalls
          (.ofNat u.2)).store.nodes[v.1]? = d.store.nodes[v.1]? := by
        intro v hv
        refine hfirst.outside v.1 ?_
        intro w hw
        rw [List.mem_singleton.mp hw]
        exact hu v hv
      have hlast := ih (d := d.enrich u.1 Attribute.unresolvedCalls (.ofNat u.2)) hrest (by
        intro v hv
        rw [hsame v hv]
        exact hnodes v (List.mem_cons_of_mem u hv))
      refine ⟨hlast.edges.trans hfirst.edges, hlast.diagnostics.trans hfirst.diagnostics,
        hlast.dropped.trans hfirst.dropped, ?_, ?_⟩
      · intro v hv m hm
        rcases List.mem_cons.mp hv with rfl | hv
        · rw [List.foldl_cons, hlast.outside v.1 fun w hw => (hu w hw).symm]
          exact hfirst.inside v List.mem_cons_self m hm
        · exact hlast.inside v hv m ((hsame v hv).trans hm)
      · intro i hi
        rw [List.foldl_cons, hlast.outside i fun w hw => hi w (List.mem_cons_of_mem u hw)]
        refine hfirst.outside i ?_
        intro w hw
        rw [List.mem_singleton.mp hw]
        exact hi u List.mem_cons_self

/-- Each node bears its count, and a node without a count is as it was. -/
theorem Draft.Counted.getElem?_eq {m : ExtTreeMap NodeId Nat} (h : d.Counted m.toList d')
    (hin : ∀ (id : NodeId) (c : Nat), m[id]? = some c → ∃ n, d.store.nodes[id]? = some n)
    (id : NodeId) : d'.store.nodes[id]? =
      (d.store.nodes[id]?).map fun n => ((m[id]?).map (counted n)).getD n := by
  cases hm : m[id]? with
  | none =>
      rw [h.outside id]
      · simp
      · rintro ⟨i, c⟩ hu rfl
        rw [ExtTreeMap.mem_toList_iff_getElem?_eq_some.mp hu] at hm
        cases hm
  | some c =>
      obtain ⟨n, hn⟩ := hin id c hm
      have hu : (id, c) ∈ m.toList := ExtTreeMap.mem_toList_iff_getElem?_eq_some.mpr hm
      rw [h.inside (id, c) hu n hn, hn]
      rfl

theorem Described.counted {n : Node} (h : Described n) (c : Nat) :
    Described (counted n c) :=
  h.insert _ (by decide) (by decide)

/-- Nodes that were not counted before keep what they have. -/
theorem grown_of_counted {m : ExtTreeMap NodeId Nat} (heq : ∀ id : NodeId, d'.store.nodes[id]? =
      (d.store.nodes[id]?).map fun n => ((m[id]?).map (counted n)).getD n)
    (hnone : ∀ (id : NodeId) (n : Node), d.store.nodes[id]? = some n →
      n.attributes[Attribute.unresolvedCalls]? = none) : Grown d.store d'.store := by
  intro id n hn
  refine ⟨_, by rw [heq, hn]; rfl, ?_, ?_⟩
  · cases m[id]? <;> rfl
  · intro key v hv
    cases m[id]? with
    | none => exact hv
    | some c =>
        have hne : Attribute.unresolvedCalls ≠ key := by
          rintro rfl
          rw [hnone id n hn] at hv
          cases hv
        refine Eq.trans ?_ hv
        exact ExtTreeMap.getElem?_insert.trans (if_neg (hne ∘ LawfulEqCmp.eq_of_compare))

/-- The attribute is there if there is something to count. -/
theorem unresolvedCalls_of_counted {m : ExtTreeMap NodeId Nat}
    (heq : ∀ id : NodeId, d'.store.nodes[id]? =
      (d.store.nodes[id]?).map fun n => ((m[id]?).map (counted n)).getD n)
    (hnone : ∀ (id : NodeId) (n : Node), d.store.nodes[id]? = some n →
      n.attributes[Attribute.unresolvedCalls]? = none) {id : NodeId} {n : Node}
    (hn : d'.store.nodes[id]? = some n) :
    n.attributes[Attribute.unresolvedCalls]? = (m[id]?).map Json.ofNat := by
  rw [heq] at hn
  obtain ⟨n₀, hn₀, rfl⟩ := Option.map_eq_some_iff.mp hn
  cases m[id]? with
  | none => exact hnone id n₀ hn₀
  | some c => exact ExtTreeMap.getElem?_insert_self

/-- A count is there if and only if it is positive. -/
theorem map_ofNat_eq_ite {m : ExtTreeMap NodeId Nat} {id : NodeId}
    (hpositive : ∀ c, m[id]? = some c → 0 < c) : (m[id]?).map Json.ofNat =
      if m.getD id 0 = 0 then none else some (.ofNat (m.getD id 0)) := by
  simp only [ExtTreeMap.getD_eq_getD_getElem?]
  cases hc : m[id]? with
  | none => rfl
  | some c => exact (if_neg (Nat.ne_of_gt (hpositive c hc))).symm

/-! ## The whole build -/

/-- What is true of a draft that is finished. -/
structure Built (inputs : Inputs) (d : Draft) : Prop where
  labelled : Labelled d.store
  honest : d.Honest
  joinable : ∀ e ∈ d.store.edges, Joinable d.store e
  loopless : ∀ e ∈ d.store.edges, e.relationship = .imports ∨ e.relationship = .inherits →
    e.source ≠ e.target
  defines : ∀ e ∈ d.store.edges, e.relationship = .defines → Defines d.store e
  count : d.store.edges.toList.countP isReference + d.dropped =
    inputs.imports.length + (inputs.calls.length + inputs.inherits.length)
  calls : ∃ count : NodeId → Nat,
    (∀ n ∈ d.store.nodeList, n.attributes[Attribute.unresolvedCalls]? =
      if count n.id = 0 then none else some (.ofNat (count n.id))) ∧
    (d.store.nodeList.map fun n => count n.id).sum =
      d.diagnostics.countP Diagnostic.isUnresolvedCall

/-- The phases of a build: nodes are gathered, the edges known by then are joined,
    references are resolved, their edges are joined, and unresolved calls counted. -/
structure Phases (config : Config) (inputs : Inputs) (d₀ d₁ d₂ : Draft) (edges : List Edge)
    (imported : Imported) (p : ReferencePhase) : Prop where
  nodes : addNodes config inputs = (d₀, edges, imported)
  gathered : Gathered inputs d₀ edges
  joined : d₀.Joined edges d₁
  labelled : Labelled d₁.store
  resolved : p = resolveReferences inputs imported d₁
  balanced : p.Balanced d₁ (inputs.calls.length + inputs.inherits.length)
  late : p.draft.Joined p.edges.toList d₂
  counted : d₂.Counted p.unresolved.toList (construct config inputs)

/-- Every construction goes through its phases. -/
theorem exists_phases (config : Config) (inputs : Inputs) :
    ∃ d₀ d₁ d₂ edges imported p, Phases config inputs d₀ d₁ d₂ edges imported p := by
  have hgathered := gathered_addNodes config inputs
  have hconstruct : construct config inputs = construct config inputs := rfl
  conv_rhs at hconstruct => rw [construct]
  generalize hnodes : addNodes config inputs = nodes at hgathered hconstruct
  obtain ⟨d₀, edges, imported⟩ := nodes
  dsimp only at hgathered hconstruct
  -- each phase is generalized once its lemma is at hand, so that the next one is small
  rw [← Array.foldl_toList] at hconstruct
  have hearly := fun e he => (hgathered.known e he).joinable
  have hjoined := joined_foldl hearly
  have hlabelled := labelled_foldl_connect hgathered.tidy.labelled hearly
  generalize edges.foldl Draft.connect d₀ = d₁ at hconstruct hjoined hlabelled
  have hbalanced := balanced_resolveReferences hlabelled (hjoined.honest hgathered.tidy.honest)
    (by rw [hjoined.diagnostics, hgathered.tidy.callless]) inputs imported
  generalize hp : resolveReferences inputs imported d₁ = p at hconstruct hbalanced
  have hlate : p.draft.Joined p.edges.toList (p.edges.toList.foldl Draft.connect p.draft) := by
    refine joined_foldl ?_
    intro e he
    rw [hbalanced.store]
    exact hbalanced.joinable e (Array.mem_toList_iff.mp he)
  generalize p.edges.toList.foldl Draft.connect p.draft = d₂ at hconstruct hlate
  refine ⟨d₀, d₁, d₂, edges, imported, p, hnodes, hgathered, hjoined, hlabelled, hp.symm,
    hbalanced, hlate, ?_⟩
  rw [hconstruct]
  refine counted_foldl ?_ ?_
  · refine ExtTreeMap.distinct_keys_toList.imp ?_
    intro u v hne heq
    exact hne (by rw [heq]; exact ReflCmp.compare_self)
  · rintro ⟨id, c⟩ hu
    have hc := ExtTreeMap.mem_toList_iff_getElem?_eq_some.mp hu
    obtain ⟨n, hn, -⟩ := (hbalanced.positive id c hc).2
    rw [hlate.nodes, hbalanced.store]
    rw [hjoined.nodes] at hn ⊢
    exact ⟨n, hn, (hgathered.tidy.regular id n hn).uncounted⟩

namespace Phases

variable {config : Config} {inputs : Inputs} {d₀ d₁ d₂ : Draft} {edges : List Edge}
  {imported : Imported} {p : ReferencePhase}

/-- No node is added once all nodes are gathered. -/
theorem nodes_eq (h : Phases config inputs d₀ d₁ d₂ edges imported p) :
    d₂.store.nodes = d₀.store.nodes := by
  rw [h.late.nodes, h.balanced.store, h.joined.nodes]

/-- Before the counts are written no node has one. -/
theorem uncounted (h : Phases config inputs d₀ d₁ d₂ edges imported p) {id : NodeId} {n : Node}
    (hn : d₂.store.nodes[id]? = some n) : n.attributes[Attribute.unresolvedCalls]? = none := by
  rw [h.nodes_eq] at hn
  exact (h.gathered.tidy.regular id n hn).uncounted

/-- At the end a node has the number of its unresolved calls, if there are any. -/
theorem getElem?_construct (h : Phases config inputs d₀ d₁ d₂ edges imported p) (id : NodeId) :
    (construct config inputs).store.nodes[id]? =
      (d₂.store.nodes[id]?).map fun n => ((p.unresolved[id]?).map (Build.counted n)).getD n := by
  refine h.counted.getElem?_eq ?_ id
  intro id c hc
  obtain ⟨n, hn, -⟩ := (h.balanced.positive id c hc).2
  rw [h.nodes_eq, ← h.joined.nodes]
  exact ⟨n, hn⟩

theorem grown_late (h : Phases config inputs d₀ d₁ d₂ edges imported p) :
    Grown d₂.store (construct config inputs).store :=
  grown_of_counted h.getElem?_construct fun _ _ => h.uncounted

theorem grown_joined (h : Phases config inputs d₀ d₁ d₂ edges imported p) :
    Grown d₁.store (construct config inputs).store :=
  (Grown.of_nodes_eq (h.nodes_eq.trans h.joined.nodes.symm)).trans h.grown_late

/-- Nodes stay while edges are joined and counts are written. -/
theorem grown (h : Phases config inputs d₀ d₁ d₂ edges imported p) :
    Grown d₀.store (construct config inputs).store :=
  (Grown.of_nodes_eq h.nodes_eq).trans h.grown_late

/-- The edges at the end are those known early, and then those of calls and
    inheritances. -/
theorem edges_eq (h : Phases config inputs d₀ d₁ d₂ edges imported p) :
    (construct config inputs).store.edges.toList = edges ++ p.edges.toList := by
  rw [h.counted.edges, h.late.edges, h.balanced.store, h.joined.edges,
    h.gathered.tidy.edgeless]
  rfl

/-- An edge is one of those known early, or stems from a call or an inheritance. -/
theorem edge_cases (h : Phases config inputs d₀ d₁ d₂ edges imported p) {e : Edge}
    (he : e ∈ (construct config inputs).store.edges) :
    Known (construct config inputs).store e ∨ e ∈ p.edges := by
  rw [← Array.mem_toList_iff, h.edges_eq] at he
  rcases List.mem_append.mp he with he | he
  · exact Or.inl (h.grown.known (h.gathered.known e he))
  · exact Or.inr (Array.mem_toList_iff.mp he)

/-- Behind the references nothing is reported any more. -/
theorem diagnostics_eq (h : Phases config inputs d₀ d₁ d₂ edges imported p) :
    (construct config inputs).diagnostics = p.draft.diagnostics := by
  rw [h.counted.diagnostics, h.late.diagnostics]

/-- Behind the references nothing is left out any more. -/
theorem dropped_eq (h : Phases config inputs d₀ d₁ d₂ edges imported p) :
    (construct config inputs).dropped = p.draft.dropped := by
  rw [h.counted.dropped, h.late.dropped]

/-- **What the phases leave behind is sound,** and accounts for every reference. -/
theorem built (h : Phases config inputs d₀ d₁ d₂ edges imported p)
    (hsound : (construct config inputs).store.Sound) :
    Built inputs (construct config inputs) := by
  refine ⟨⟨hsound, ?_⟩, ⟨?_, ?_⟩, ?_, ?_, ?_, ?_, ?_⟩
  · -- a description does not read the count of unresolved calls
    intro id n hn
    rw [h.getElem?_construct, h.nodes_eq] at hn
    obtain ⟨m, hm, rfl⟩ := Option.map_eq_some_iff.mp hn
    have hdescribed := (h.gathered.tidy.regular id m hm).described
    cases p.unresolved[id]? with
    | none => exact hdescribed
    | some c => exact hdescribed.counted c
  · rw [h.diagnostics_eq]
    exact h.balanced.honest.faultless
  · rw [h.dropped_eq, h.diagnostics_eq]
    exact h.balanced.honest.dropped
  · -- each edge was there before the references, or is one of them
    intro e he
    rcases h.edge_cases he with hk | he
    · exact hk.joinable
    · exact h.grown_joined.joinable (h.balanced.joinable e he)
  · intro e he hr
    rcases h.edge_cases he with hk | he
    · exact hk.loopless hr
    · rcases h.balanced.references e he with hcall | ⟨-, hne⟩
      · rw [hcall] at hr
        simp at hr
      · exact hne
  · intro e he hr
    rcases h.edge_cases he with hk | he
    · exact hk.of_defines hr
    · rcases h.balanced.references e he with hcall | ⟨hinherits, -⟩
      · rw [hcall] at hr
        cases hr
      · rw [hinherits] at hr
        cases hr
  · -- only calls and inheritances come with the references, so each of those edges counts
    have hfull : p.edges.toList.countP isReference = p.edges.size := by
      rw [← Array.length_toList, List.countP_eq_length]
      intro e he
      rw [isReference]
      rcases h.balanced.references e (Array.mem_toList_iff.mp he) with hr | ⟨hr, -⟩ <;> rw [hr]
    rw [h.edges_eq, List.countP_append, hfull, h.dropped_eq, ← h.gathered.count]
    have hcount := h.balanced.count
    rw [h.joined.dropped] at hcount
    omega
  · -- what a node has not in the map of counts is none
    refine ⟨fun id => p.unresolved.getD id 0, ?_, ?_⟩
    · intro n hn
      obtain ⟨id, hid⟩ := Store.mem_nodeList.mp hn
      rw [hsound.keyed id n hid,
        unresolvedCalls_of_counted h.getElem?_construct (fun _ _ => h.uncounted) hid]
      exact map_ofNat_eq_ite fun c hc => (h.balanced.positive id c hc).1
    · -- the nodes are listed once each, so no count is added twice
      rw [h.diagnostics_eq,
        ← h.balanced.calls ((construct config inputs).store.nodeList.map (·.id)), List.map_map]
      · rfl
      · refine List.pairwise_map.mpr (hsound.pairwise_nodeList.imp ?_)
        intro a b hlt heq
        have hself : compare b.id b.id = .eq := ReflCmp.compare_self
        rw [heq, hself] at hlt
        cases hlt
      · intro id hid
        obtain ⟨n, hn, -⟩ := h.grown_joined.hasKind hid
        exact List.mem_map.mpr ⟨n, hsound.mem_nodeList_iff.mpr hn⟩

end Phases

/-- **What is constructed is accounted for,** phase by phase. -/
theorem built_construct (config : Config) (inputs : Inputs) :
    Built inputs (construct config inputs) := by
  obtain ⟨d₀, d₁, d₂, edges, imported, p, h⟩ := exists_phases config inputs
  exact h.built (kept_sound.construct config inputs)

/-! ## Facts and diagnostics -/

/-- Whether a fact is a reference. -/
def Fact.isReference : Fact → Bool
  | .call _ | .import _ | .inherit _ => true
  | .file _ | .definition _ | .manifest _ => false

theorem length_sortBy {α : Type} (cmp : α → α → Ordering) (xs : List α) :
    (sortBy cmp xs).length = xs.length :=
  List.length_mergeSort xs

/-- The references of a batch are its imports, calls and inheritances. -/
theorem length_references (b : Batch) :
    (Inputs.gather b).imports.length +
        ((Inputs.gather b).calls.length + (Inputs.gather b).inherits.length) =
      b.facts.countP Fact.isReference := by
  simp only [Inputs.gather, length_sortBy]
  induction b.facts with
  | nil => rfl
  | cons f facts ih =>
      cases f <;>
        simp only [List.filterMap_cons, Inputs.import?, Inputs.call?, Inputs.inherit?,
          List.length_cons, List.countP_cons, Fact.isReference] <;>
        simp <;> omega

/-- The number of unresolved calls that a node has. -/
def unresolvedCalls (n : Node) : Nat := (n.nat? Attribute.unresolvedCalls).getD 0

/-- A number of 64 bits is read back from its attribute. -/
theorem unresolvedCalls_eq {n : Node} {c : Nat} (hc : c < 18446744073709551616)
    (h : n.attributes[Attribute.unresolvedCalls]? =
      if c = 0 then none else some (.ofNat c)) : unresolvedCalls n = c := by
  rw [unresolvedCalls, Node.nat?, h]
  split
  · rename_i hzero
    exact hzero.symm
  · rw [Option.bind_some, Json.ofNat, Json.Number.ofNat, dif_pos hc, Json.asNat?,
      if_pos (Int.natCast_nonneg c)]
    rfl

/-- A store and a report that account for some facts. -/
structure Balanced (facts : List Fact) (s : Store) (r : Report) : Prop where
  joinable : ∀ e ∈ s.edges, ∃ a b, HasKind s e.source a ∧ HasKind s e.target b ∧
    e.relationship.allows a b = true
  loopless : ∀ e ∈ s.edges, e.relationship = .imports ∨ e.relationship = .inherits →
    e.source ≠ e.target
  faultless : ∀ x ∈ r.diagnostics, x.isFault = false
  dropped : r.edgesDropped = r.diagnostics.countP Diagnostic.isOmission
  references : s.edges.toList.countP isReference + r.edgesDropped =
    facts.countP Fact.isReference
  attributes : ∃ count : NodeId → Nat,
    (∀ n ∈ s.nodeList, n.attributes[Attribute.unresolvedCalls]? =
      if count n.id = 0 then none else some (.ofNat (count n.id))) ∧
    (s.nodeList.map fun n => count n.id).sum =
      r.diagnostics.countP Diagnostic.isUnresolvedCall
  /-- The same with the numbers read back, which have 64 bits. -/
  total : r.diagnostics.countP Diagnostic.isUnresolvedCall < 18446744073709551616 →
    (s.nodeList.map unresolvedCalls).sum = r.diagnostics.countP Diagnostic.isUnresolvedCall

/-- **Every build is balanced.** -/
theorem balanced_ofBatches (config : Config) (batches : List Batch) :
    Balanced (batches.flatMap (·.facts)) (ofBatches config batches).1
      (ofBatches config batches).2 := by
  have hbuilt := built_construct config (Inputs.gather (batches.foldl Batch.merge {}))
  obtain ⟨count, hattributes, hsum⟩ := hbuilt.calls
  rw [← Array.countP_toList] at hsum
  refine ⟨hbuilt.joinable, hbuilt.loopless, ?_, ?_, ?_, ⟨count, hattributes, hsum⟩, ?_⟩
  · intro x hx
    exact hbuilt.honest.faultless x (Array.mem_toList_iff.mp hx)
  · exact hbuilt.honest.dropped.trans (Array.countP_toList).symm
  · have hcount := hbuilt.count
    rw [length_references, (foldl_merge batches {}).1] at hcount
    exact hcount
  · intro hlt
    refine Eq.trans (congrArg List.sum (List.map_congr_left fun n hn => ?_)) hsum
    have hle := List.single_le_sum (fun _ _ => Nat.zero_le _) _
      (List.mem_map_of_mem (f := fun n => count n.id) hn)
    exact unresolvedCalls_eq (Nat.lt_of_le_of_lt (hle.trans (Nat.le_of_eq hsum)) hlt)
      (hattributes n hn)

end CodeGraph.Build

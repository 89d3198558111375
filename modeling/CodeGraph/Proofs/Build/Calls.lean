import CodeGraph.Proofs.Build.Imports
import CodeGraph.Proofs.Build.Ownership
import CodeGraph.Proofs.Module.Specifier
/-! # Calls — what becomes of each call

    Calls are resolved in turn, each by itself, while the graph is not finished.
    Whatever is added later changes nothing for them.

    * The edges of calls are those of the calls that resolve, in their order
      (`edgesByRelationship_calls`), and a call of an unknown function is
      reported (`mem_diagnostics_construct`).
    * A definition of the graph is that of the leading fact
      (`exists_leadingDefinition`), so what is known of a caller or a callee is
      what that fact says.
    * The caller is a function of the file of the call
      (`callers_ofBatches`), and the callee is found by its last name
      (`exactly_named_resolves_iff`). -/

namespace CodeGraph.Build

open Std

/-! ## The edges of calls -/

/-- The edge that a call leads to. -/
def CallOutcome.edge? : CallOutcome → Option Edge
  | .edge e => some e
  | .noCaller | .noCallee _ => none

section Phase

variable (outcome : CallFact → CallOutcome) (s : Store) (imported : Imported)

theorem edges_addCalls (calls : List CallFact) (p : ReferencePhase) :
    (calls.foldl (fun p c => p.addCall c (outcome c)) p).edges.toList =
      p.edges.toList ++ calls.filterMap fun c => (outcome c).edge? := by
  induction calls generalizing p with
  | nil => exact (List.append_nil _).symm
  | cons c calls ih =>
      rw [List.foldl_cons, ih, List.filterMap_cons]
      cases outcome c with
      | edge e =>
          show (p.edges.push e).toList ++ _ = p.edges.toList ++ e :: _
          rw [Array.toList_push, List.append_assoc]
          rfl
      | noCaller => rfl
      | noCallee caller => rfl

/-- Unresolved calls are reported as they come. -/
theorem mem_diagnostics_addCalls {x : Diagnostic} (hx : x.isUnresolvedCall = true)
    (calls : List CallFact) (p : ReferencePhase) :
    x ∈ (calls.foldl (fun p c => p.addCall c (outcome c)) p).draft.diagnostics ↔
      x ∈ p.draft.diagnostics ∨ ∃ c ∈ calls, (∃ caller, outcome c = .noCallee caller) ∧
        x = .unresolvedReference .call c.file c.callee := by
  induction calls generalizing p with
  | nil => simp
  | cons c calls ih =>
      rw [List.foldl_cons, ih]
      -- the first call reports something of the kind only if its callee is unknown
      have hfirst : x ∈ (p.addCall c (outcome c)).draft.diagnostics ↔
          x ∈ p.draft.diagnostics ∨ (∃ caller, outcome c = .noCallee caller) ∧
            x = .unresolvedReference .call c.file c.callee := by
        cases outcome c with
        | edge e => simp [ReferencePhase.addCall]
        | noCaller =>
            have hne : x ≠ .unresolvedReference .caller c.file c.caller := by
              rintro rfl
              cases hx
            simp [ReferencePhase.addCall, Draft.drop, Draft.note, hne]
        | noCallee caller => simp [ReferencePhase.addCall, Draft.drop, Draft.note]
      rw [hfirst, or_assoc]
      simp only [List.mem_cons, exists_eq_or_imp]

/-- Inheritances add no edges of calls and report no unresolved calls. -/
theorem addInherits_spec (hlabelled : Labelled s) (inherits : List InheritFact)
    (p : ReferencePhase) :
    let p' := inherits.foldl (fun p i => p.addInherit (resolveInherit s imported i)) p
    p'.edges.toList.filter (fun e => e.relationship = .calls) =
        p.edges.toList.filter (fun e => e.relationship = .calls) ∧
      ∀ x : Diagnostic, x.isUnresolvedCall = true →
        (x ∈ p'.draft.diagnostics ↔ x ∈ p.draft.diagnostics) := by
  intro p'
  -- what one inheritance leaves as it is, all of them do
  refine List.foldlRecOn inherits _ (motive := fun p' : ReferencePhase =>
    p'.edges.toList.filter (fun e => e.relationship = .calls) =
        p.edges.toList.filter (fun e => e.relationship = .calls) ∧
      ∀ x : Diagnostic, x.isUnresolvedCall = true →
        (x ∈ p'.draft.diagnostics ↔ x ∈ p.draft.diagnostics)) ⟨rfl, fun _ _ => Iff.rfl⟩ ?_
  rintro q ⟨hedges, hdiagnostics⟩ i -
  cases hresolve : resolveInherit s imported i with
  | ok e =>
      refine ⟨?_, hdiagnostics⟩
      have hrel := (resolveInherit_ok hlabelled hresolve).relationship
      show (q.edges.push e).toList.filter _ = _
      rw [Array.toList_push, List.filter_append, hedges, List.filter_cons_of_neg (by simp [hrel]),
        List.filter_nil, List.append_nil]
  | error y =>
      refine ⟨hedges, ?_⟩
      intro x hx
      rw [← hdiagnostics x hx]
      have hne : x ≠ y := by
        rintro rfl
        rw [(resolveInherit_error hresolve).2] at hx
        cases hx
      show x ∈ q.draft.diagnostics.push y ↔ _
      rw [Array.mem_push, or_iff_left hne]

end Phase

section Construction

variable (config : Config) (inputs : Inputs)

/-- The modules that files import, as they are known once imports are resolved. -/
def importedPaths : Imported :=
  (resolveImports config inputs (addPackages config inputs)).imported

/-- What a call leads to in the finished graph. -/
def outcome (c : CallFact) : CallOutcome :=
  resolveCall (construct config inputs).store (importedPaths config inputs) c

/-- A call leads where it would have led before imports were resolved, given what they
    mean. -/
theorem outcome_eq (c : CallFact) : outcome config inputs c =
    resolveCall (addPackages config inputs).store (importedPaths config inputs) c :=
  (Settled.construct config inputs).resolveCall (labelled_addPackages config inputs)
    (built_construct config inputs).labelled _ c

variable {config inputs}

/-- While references are resolved a call leads where it leads in the end. -/
theorem Phases.resolveCall_eq {d₀ d₁ d₂ : Draft} {edges : List Edge} {imported : Imported}
    {p : ReferencePhase} (h : Phases config inputs d₀ d₁ d₂ edges imported p) (c : CallFact) :
    resolveCall d₁.store imported c = outcome config inputs c := by
  have himported : importedPaths config inputs = imported :=
    congrArg (fun n : Draft × List Edge × Imported => n.2.2) h.nodes
  have hsettled : Settled (addPackages config inputs).store d₁.store := by
    refine (Settled.addNodes config inputs).trans (.of_nodes_eq ?_)
    rw [h.joined.nodes, h.nodes]
  rw [outcome_eq, himported]
  exact hsettled.resolveCall (labelled_addPackages config inputs) h.labelled imported c

/-- **The edges of calls are those of the calls that resolve,** in the same order. -/
theorem edgesByRelationship_calls :
    (construct config inputs).store.edgesByRelationship .calls =
      inputs.calls.filterMap fun c => (outcome config inputs c).edge? := by
  obtain ⟨d₀, d₁, d₂, edges, imported, p, h⟩ := exists_phases config inputs
  have hknown : edges.filter (fun e => e.relationship = .calls) = [] := by
    rw [List.filter_eq_nil_iff]
    intro e he
    rw [decide_eq_true_eq]
    intro hrel
    cases h.gathered.known e he with
    | contains hr | imports hr =>
        rw [hrel] at hr
        cases hr
    | defines hd =>
        have hr := hd.1
        rw [hrel] at hr
        cases hr
  have hcalls : ∀ e ∈ inputs.calls.filterMap (fun c => (outcome config inputs c).edge?),
      e.relationship = .calls := by
    intro e he
    obtain ⟨c, -, hc⟩ := List.mem_filterMap.mp he
    cases houtcome : outcome config inputs c with
    | edge e' =>
        rw [houtcome] at hc
        cases hc
        exact (resolveCall_edge (built_construct config inputs).labelled houtcome).relationship
    | noCaller | noCallee =>
        rw [houtcome] at hc
        cases hc
  -- calls are resolved against the nodes alone, so it does not matter which edges are there
  have hresolve : (fun c => (resolveCall d₁.store imported c).edge?) =
      fun c => (outcome config inputs c).edge? :=
    funext fun c => congrArg CallOutcome.edge? (h.resolveCall_eq c)
  rw [(kept_sound.construct config inputs).edgesByRelationship_eq, h.edges_eq,
    List.filter_append, hknown, List.nil_append, h.resolved, resolveReferences,
    (addInherits_spec d₁.store imported h.labelled inputs.inherits _).1,
    edges_addCalls fun c => resolveCall d₁.store imported c, hresolve,
    filter_relationship (by simpa using hcalls), if_pos rfl]
  rfl

/-- **A call is reported if its caller is known and its callee is not.** -/
theorem mem_diagnostics_construct {x : Diagnostic} (hx : x.isUnresolvedCall = true) :
    x ∈ (construct config inputs).diagnostics ↔ ∃ c ∈ inputs.calls,
      (∃ caller, outcome config inputs c = .noCallee caller) ∧
        x = .unresolvedReference .call c.file c.callee := by
  obtain ⟨d₀, d₁, d₂, edges, imported, p, h⟩ := exists_phases config inputs
  have hearly : x ∉ d₁.diagnostics := by
    intro hin
    have hpositive := Array.countP_pos_iff.mpr ⟨x, hin, hx⟩
    rw [h.joined.diagnostics, h.gathered.tidy.callless] at hpositive
    cases hpositive
  rw [h.diagnostics_eq, h.resolved, resolveReferences,
    (addInherits_spec d₁.store imported h.labelled inputs.inherits _).2 x hx,
    mem_diagnostics_addCalls (fun c => resolveCall d₁.store imported c) hx, or_iff_right hearly]
  simp only [h.resolveCall_eq]

/-- A call whose caller is found leads to an edge if some function has its last name, and
    else its callee is unknown. -/
theorem exists_edge?_iff {c : CallFact} {caller : NodeId}
    (hcaller : localDefinition? (construct config inputs).store c.file c.caller .function =
      some caller) : (∃ e, (outcome config inputs c).edge? = some e) ↔
      ∃ (id : NodeId) (n : Node), (construct config inputs).store.nodes[id]? = some n ∧
        n.kind = .function ∧ n.text? Attribute.name = some (Callee.last c.callee) := by
  have hcandidates := exists_pickDefinition? (kept_sound.construct config inputs)
    (importedPaths config inputs) (r := calleeReference c)
  have hcandidate : ∀ n : Node, Candidate (calleeReference c) n ↔
      n.kind = .function ∧ n.text? Attribute.name = some (Callee.last c.callee) := by
    intro n
    constructor
    · intro h
      exact ⟨h.kind, h.name⟩
    · rintro ⟨hkind, hname⟩
      exact ⟨hkind, hname, nofun⟩
  simp only [hcandidate] at hcandidates
  rw [← hcandidates, outcome, resolveCall, hcaller]
  cases pickDefinition? (construct config inputs).store (importedPaths config inputs)
    (calleeReference c) with
  | none => simp [CallOutcome.edge?]
  | some callee => simp [CallOutcome.edge?]

/-- The edges of calls in the graph are those that its calls lead to. -/
theorem mem_edges_calls_iff {e : Edge} :
    e ∈ (construct config inputs).store.edges ∧ e.relationship = .calls ↔
      ∃ c ∈ inputs.calls, (outcome config inputs c).edge? = some e := by
  rw [← List.mem_filterMap, ← edgesByRelationship_calls,
    (kept_sound.construct config inputs).edgesByRelationship_eq, List.mem_filter,
    Array.mem_toList_iff, decide_eq_true_eq]

/-- The caller of a call whose callee is unknown is found. -/
theorem localDefinition?_of_noCallee {c : CallFact} {caller : NodeId}
    (h : outcome config inputs c = .noCallee caller) :
    localDefinition? (construct config inputs).store c.file c.caller .function =
      some caller := by
  rw [outcome, resolveCall] at h
  split at h
  · cases h
  · rename_i id hid
    split at h
    · cases h
    · cases h
      exact hid

/-- A call that leads to an edge has a caller. -/
theorem exists_caller_of_edge? {c : CallFact} {e : Edge}
    (h : (outcome config inputs c).edge? = some e) : ∃ caller callee,
      localDefinition? (construct config inputs).store c.file c.caller .function =
        some caller ∧ e = callEdge c caller callee := by
  rw [outcome, resolveCall] at h
  split at h
  · cases h
  · rename_i caller hcaller
    split at h
    · cases h
      exact ⟨caller, _, hcaller, rfl⟩
    · cases h

end Construction

/-! ## What facts say of definitions -/

theorem tag_function (file name : String) :
    (NodeId.function file name).tag = NodeKind.function.tag :=
  tag_definitionId (rfl : NodeKind.function.isDefinition = true) file name

/-- The node of a definition says what its fact says. -/
structure Tells (f : DefinitionFact) (n : Node) : Prop where
  kind : n.kind = nodeKindOf f.kind
  name : n.text? Attribute.name = some f.name
  qualifiedName : n.text? Attribute.qualifiedName = some f.qualifiedName
  definingFile : n.text? Attribute.definingFile = some f.file

theorem Tells.filePath? {f : DefinitionFact} {n : Node} (h : Tells f n) :
    n.filePath? = some f.file := by
  rw [Node.filePath?, h.kind, ← h.definingFile]
  cases f.kind with
  | function => rfl
  | «class» => rfl

theorem tells_definitionNode (f : DefinitionFact) : Tells f (definitionNode f) := by
  have hfield : ∀ key : String, key ∉ [Attribute.lineNumber, Attribute.returnType,
      Attribute.parentClass, Attribute.signature, Attribute.doc] →
      (definitionNode f).attributes[key]? =
        [(Attribute.name, Json.string f.name),
          (Attribute.qualifiedName, .string f.qualifiedName),
          (Attribute.definingFile, .string f.file),
          (Attribute.parameters, .ofStrings f.parameters)].lookup key := by
    intro key hkey
    simp only [List.mem_cons, List.not_mem_nil, or_false, not_or] at hkey
    obtain ⟨hline, hreturn, hparent, hsignature, hdoc⟩ := hkey
    show (definitionAttributes f)[key]? = _
    rw [definitionAttributes, getElem?_setOptional_of_ne _ (Ne.symm hdoc),
      getElem?_setOptional_of_ne _ (Ne.symm hsignature),
      getElem?_setOptional_of_ne _ (Ne.symm hparent),
      getElem?_setOptional_of_ne _ (Ne.symm hreturn),
      getElem?_setOptional_of_ne _ (Ne.symm hline), getElem?_ofFields]
    exact (by decide : [Attribute.name, Attribute.qualifiedName, Attribute.definingFile,
      Attribute.parameters].Nodup)
  refine ⟨rfl, ?_, ?_, ?_⟩
  · rw [Node.text?, hfield _ (by decide)]
    rfl
  · rw [Node.text?, hfield _ (by decide)]
    rfl
  · rw [Node.text?, hfield _ (by decide)]
    rfl

/-- **A definition of the graph is that of the leading fact.** -/
theorem exists_leadingDefinition (config : Config) (b : Batch) {id : NodeId} {n : Node}
    (hn : (construct config (Inputs.gather b)).store.nodes[id]? = some n)
    (hdef : n.kind.isDefinition = true) :
    ∃ f, leadingDefinition? b.facts id = some f ∧ Tells f n := by
  have htag := (built_construct config (Inputs.gather b)).labelled.tag_of_getElem? hn
  have hkind : ∀ kind : NodeKind, kind.isDefinition = false → n.kind ≠ kind := by
    rintro kind hkind rfl
    rw [hdef] at hkind
    cases hkind
  obtain ⟨g, hg, hnamed, hid⟩ := mem_addSources_definition htag (hkind .file rfl)
    (mem_addSources_of_mem htag (hkind .directory rfl) (hkind .dependency rfl)
      (ExtTreeMap.getElem?_eq_some_iff.mp hn).1)
  obtain ⟨f, hf⟩ : ∃ f, leadingDefinition? b.facts id = some f := by
    rw [← Option.isSome_iff_exists, leadingDefinition?, List.isSome_find?, List.any_eq_true]
    exact ⟨g, hg, by rw [hnamed, decide_eq_true hid]; rfl⟩
  refine ⟨f, hf, ?_⟩
  obtain ⟨hfid, m, hm, hmkind, hattributes⟩ :=
    holds_of_find?_proposals config _ (find?_proposals_definition config b hf)
  rw [hfid, hn] at hm
  cases hm
  have htext : ∀ key ∉ marks, n.text? key = (definitionNode f).text? key := by
    intro key hkey
    rw [Node.text?, Node.text?, hattributes key hkey]
  have htells := tells_definitionNode f
  exact ⟨hmkind, (htext _ (by decide)).trans htells.name,
    (htext _ (by decide)).trans htells.qualifiedName,
    (htext _ (by decide)).trans htells.definingFile⟩

/-! ## Callees -/

/-- The edge that a call leads to in the graph of some batches. -/
def callEdge? (config : Config) (batches : List Batch) (c : CallFact) : Option Edge :=
  (outcome config (Inputs.gather (batches.foldl Batch.merge {})) c).edge?

theorem mem_calls_iff {batches : List Batch} {c : CallFact} :
    c ∈ (Inputs.gather (batches.foldl Batch.merge {})).calls ↔
      c ∈ (batches.flatMap (·.facts)).filterMap Inputs.call? := by
  rw [← facts_merged]
  exact List.mem_mergeSort

/-- A call resolves if an edge leads from it to a function, and it is not reported. -/
structure Resolves (config : Config) (batches : List Batch) (c : CallFact) : Prop where
  edge : ∃ e ∈ (ofBatches config batches).1.edges, callEdge? config batches c = some e ∧
    e.relationship = .calls ∧ HasKind (ofBatches config batches).1 e.target .function
  unreported :
    .unresolvedReference .call c.file c.callee ∉ (ofBatches config batches).2.diagnostics

/-- Some function of a store has a name. -/
def Names (s : Store) (name : String) : Prop :=
  ∃ (id : NodeId) (n : Node), s.nodes[id]? = some n ∧ n.kind = .function ∧
    n.text? Attribute.name = some name

/-- **A call whose caller is found resolves if and only if some function has its last
    name.** -/
theorem resolves_iff {config : Config} {batches : List Batch} {c : CallFact}
    (hc : c ∈ (batches.flatMap (·.facts)).filterMap Inputs.call?)
    (hcaller : ∃ caller, localDefinition? (ofBatches config batches).1 c.file c.caller .function =
      some caller) :
    Resolves config batches c ↔ Names (ofBatches config batches).1 (Callee.last c.callee) := by
  obtain ⟨caller, hcaller⟩ := hcaller
  have hlabelled :=
    (built_construct config (Inputs.gather (batches.foldl Batch.merge {}))).labelled
  constructor
  · rintro ⟨⟨e, -, he, -, -⟩, -⟩
    exact (exists_edge?_iff hcaller).mp ⟨e, he⟩
  · intro hnames
    obtain ⟨e, he⟩ := (exists_edge?_iff hcaller).mpr hnames
    refine ⟨⟨e, ?_⟩, ?_⟩
    · obtain ⟨hedge, hrel⟩ := mem_edges_calls_iff.mpr ⟨c, mem_calls_iff.mpr hc, he⟩
      refine ⟨hedge, he, hrel, ?_⟩
      cases houtcome : outcome config (Inputs.gather (batches.foldl Batch.merge {})) c with
      | edge e' =>
          rw [houtcome] at he
          cases he
          obtain ⟨_, callee, -, hcallee, rfl⟩ := resolveCall_edge hlabelled houtcome
          exact hcallee.hasKind
      | noCaller | noCallee =>
          rw [houtcome] at he
          cases he
    · intro hreported
      -- another call of the same callee in the same file would be reported alike
      obtain ⟨c', -, ⟨caller', hnone⟩, hsame⟩ :=
        (mem_diagnostics_construct rfl).mp (Array.mem_toList_iff.mp hreported)
      obtain ⟨-, hfile, hcallee⟩ := Diagnostic.unresolvedReference.inj hsame
      have hcaller' : localDefinition? (ofBatches config batches).1 c'.file c'.caller .function =
          some caller' := localDefinition?_of_noCallee hnone
      rw [hcallee] at hnames
      obtain ⟨e', he'⟩ := (exists_edge?_iff hcaller').mpr hnames
      rw [hnone] at he'
      cases he'

/-- The call of a function by itself. -/
def ownCall (name : String) : CallFact := { file := "a.py", caller := name, callee := name }

/-- A function that calls itself by its name. -/
def selfCall (name : String) : Batch :=
  ⟨[.definition { file := "a.py", name, kind := .function }, .call (ownCall name)], [], []⟩

section SelfCall

variable (name : String)

theorem definition?_selfCall : (selfCall name).facts.filterMap Inputs.definition? =
    [{ file := "a.py", name, kind := .function }] := by
  rw [selfCall, List.filterMap_cons, List.filterMap_cons, Inputs.definition?,
    Telling.normalize_path]
  rfl

theorem mem_ownCall :
    ownCall name ∈ ([selfCall name].flatMap (·.facts)).filterMap Inputs.call? := by
  refine List.mem_filterMap.mpr ⟨_, List.mem_cons_of_mem _ List.mem_cons_self, ?_⟩
  rw [ownCall, Inputs.call?, Telling.normalize_path]
  rfl

/-- The function is in the graph if it has a name. -/
theorem mem_construct_selfCall (config : Config) (hname : name ≠ "") :
    NodeId.function "a.py" name ∈
      (construct config (Inputs.gather (selfCall name))).store.nodes := by
  have hmem : ({ file := "a.py", name, kind := .function } : DefinitionFact) ∈
      (selfCall name).facts.filterMap Inputs.definition? := by
    rw [definition?_selfCall]
    exact List.mem_singleton_self _
  have hnamed : isNamed { file := "a.py", name, kind := .function } = true := by
    simp [isNamed, hname]
  obtain ⟨g, -, hid, -, m, hm, -⟩ := exists_accepted config (selfCall name) hmem hnamed
  have hid : (definitionNode g).id = .function "a.py" name := hid
  rw [hid] at hm
  exact (ExtTreeMap.getElem?_eq_some_iff.mp hm).1

/-- No other function is in the graph. -/
theorem name_of_selfCall (config : Config) {id : NodeId} {n : Node}
    (hn : (construct config (Inputs.gather (selfCall name))).store.nodes[id]? = some n)
    (hkind : n.kind = .function) : n.text? Attribute.name = some name := by
  obtain ⟨f, hf, htells⟩ := exists_leadingDefinition config (selfCall name) hn (by rw [hkind]; rfl)
  have hmem := List.mem_mergeSort.mp (List.mem_of_find?_eq_some hf)
  rw [definition?_selfCall, List.mem_singleton] at hmem
  rw [htells.name, hmem]

/-- The caller of a self-call is found, and the function has the name that is called; but
    the call resolves only if this name is its own last name. -/
theorem selfCall_spec (hname : name ≠ "") :
    let s := (ofBatches {} [selfCall name]).1
    localDefinition? s "a.py" name .function = some (.function "a.py" name) ∧ Names s name ∧
      (Resolves {} [selfCall name] (ownCall name) ↔ Callee.last name = name) := by
  intro s
  have hin := mem_construct_selfCall name {} hname
  have hcaller : localDefinition? s "a.py" name .function = some (.function "a.py" name) :=
    (localDefinition?_eq_some_iff (kept_sound.construct {} _)).mpr (Or.inl ⟨hin, rfl⟩)
  have hlabelled := (built_construct {} (Inputs.gather (selfCall name))).labelled
  obtain ⟨n, hn, hkind⟩ := (hlabelled.hasKind_iff (tag_function "a.py" name)).mpr hin
  have hnames : Names s name := ⟨_, n, hn, hkind, name_of_selfCall name {} hn hkind⟩
  refine ⟨hcaller, hnames, ?_⟩
  rw [resolves_iff (mem_ownCall name) ⟨_, hcaller⟩]
  constructor
  · rintro ⟨id, m, hm, hmkind, hmname⟩
    rw [name_of_selfCall name {} hm hmkind] at hmname
    exact (Option.some.inj hmname).symm
  · intro hlast
    show Names s (Callee.last name)
    rw [hlast]
    exact hnames

end SelfCall

/-- **Exact names resolve if and only if the called name is its own last name.**  The calls
    that resolve whenever some function is named as their callee is written are those
    whose callee cleaning leaves as it is, and which is not cut or has nothing in it but
    separators and names of the caller's own object. -/
theorem exactly_named_resolves_iff (callee : String) :
    (∀ (config : Config) (batches : List Batch),
      ∀ c ∈ (batches.flatMap (·.facts)).filterMap Inputs.call?, c.callee = callee →
        (∃ caller, localDefinition? (ofBatches config batches).1 c.file c.caller .function =
          some caller) →
        Names (ofBatches config batches).1 callee → Resolves config batches c) ↔
      Callee.clean callee = callee ∧
        ((∀ ch ∈ callee.toList, Callee.isSeparator ch = false) ∨ Callee.parts callee = []) := by
  rw [← Callee.last_eq_self_iff]
  constructor
  · intro hall
    by_cases hempty : callee = ""
    · subst hempty
      decide
    · obtain ⟨hcaller, hnames, hresolves⟩ := selfCall_spec callee hempty
      exact hresolves.mp (hall {} _ _ (mem_ownCall callee) rfl ⟨_, hcaller⟩ hnames)
  · intro hlast config batches c hc hcallee hcaller hnames
    rw [resolves_iff hc hcaller, hcallee, hlast]
    exact hnames

/-- The name of an operator is cut, so a call of it does not resolve although the function
    with exactly this name is there. -/
theorem operator_unresolved :
    let s := (ofBatches {} [selfCall "operator->"]).1
    ownCall "operator->" ∈ ([selfCall "operator->"].flatMap (·.facts)).filterMap Inputs.call? ∧
      localDefinition? s "a.py" "operator->" .function = some (.function "a.py" "operator->") ∧
      Names s "operator->" ∧ ¬Resolves {} [selfCall "operator->"] (ownCall "operator->") := by
  intro s
  obtain ⟨hcaller, hnames, hresolves⟩ := selfCall_spec "operator->" (by decide)
  refine ⟨mem_ownCall _, hcaller, hnames, ?_⟩
  rw [hresolves]
  decide

/-! ## Callers -/

theorem function_injective {file name name' : String}
    (h : NodeId.function file name = NodeId.function file name') : name = name' :=
  (String.append_right_inj _).mp (congrArg NodeId.text h)

/-- A function calls if it is in the file of the call, and has the qualified name of the
    caller; or else the last name of the caller, if no node has the identifier that the
    caller would have. -/
structure Calling (s : Store) (c : CallFact) (n : Node) : Prop where
  file : n.text? Attribute.definingFile = some c.file
  name : n.text? Attribute.qualifiedName = some c.caller ∨
    NodeId.function c.file c.caller ∉ s.nodes ∧
      n.text? Attribute.name = some (Callee.last c.caller)

/-- **A call comes from a function that calls,** unless the identifier of its caller belongs
    to a definition in another file. -/
theorem calling_construct (config : Config) (b : Batch) {c : CallFact} {e : Edge}
    (he : (outcome config (Inputs.gather b) c).edge? = some e) :
    ∃ n, (construct config (Inputs.gather b)).store.nodes[e.source]? = some n ∧
      n.kind = .function ∧
      ((∀ f ∈ b.facts.filterMap Inputs.definition?,
        nodeIdOf f = .function c.file c.caller → f.file = c.file) →
        Calling (construct config (Inputs.gather b)).store c n) := by
  have hlabelled := (built_construct config (Inputs.gather b)).labelled
  obtain ⟨caller, callee, hcaller, rfl⟩ := exists_caller_of_edge? he
  rw [localDefinition?_eq_some_iff hlabelled.sound] at hcaller
  rcases hcaller with ⟨hin, rfl⟩ | ⟨hout, n, hn, hlocal, -⟩
  · obtain ⟨n, hn, hkind⟩ := (hlabelled.hasKind_iff (tag_function c.file c.caller)).mpr hin
    refine ⟨n, hn, hkind, ?_⟩
    intro hown
    obtain ⟨f, hf, htells⟩ := exists_leadingDefinition config b hn (by rw [hkind]; rfl)
    have hid := List.find?_some hf
    rw [Bool.and_eq_true, decide_eq_true_eq] at hid
    have hfile := hown f (List.mem_mergeSort.mp (List.mem_of_find?_eq_some hf)) hid.2
    refine ⟨by rw [htells.definingFile, hfile], Or.inl ?_⟩
    -- the two identifiers begin alike, so they end alike
    have hname := hid.2
    rw [nodeIdOf, ← htells.kind, hkind, hfile] at hname
    rw [htells.qualifiedName, function_injective hname]
  · refine ⟨n, hn, hlocal.kind, ?_⟩
    intro _
    have hfile := hlocal.file
    rw [Node.filePath?, hlocal.kind] at hfile
    exact ⟨hfile, Or.inr ⟨hout, hlocal.name⟩⟩

/-- **Every edge of a call stems from a call, and every call that leads to an edge comes
    from a function that calls,** unless the identifier of its caller belongs to a
    definition in another file. -/
theorem callers_ofBatches (config : Config) (batches : List Batch) :
    let facts := batches.flatMap (·.facts)
    let s := (ofBatches config batches).1
    (∀ e : Edge, e ∈ s.edges ∧ e.relationship = .calls ↔
      ∃ c ∈ facts.filterMap Inputs.call?, callEdge? config batches c = some e) ∧
    ∀ (c : CallFact) (e : Edge), callEdge? config batches c = some e →
      ∃ n, s.nodes[e.source]? = some n ∧ n.kind = .function ∧
        ((∀ f ∈ facts.filterMap Inputs.definition?,
          nodeIdOf f = .function c.file c.caller → f.file = c.file) → Calling s c n) := by
  intro facts s
  refine ⟨?_, ?_⟩
  · intro e
    rw [show (e ∈ s.edges ∧ e.relationship = .calls) ↔ _ from mem_edges_calls_iff]
    exact exists_congr fun c => and_congr_left fun _ => mem_calls_iff
  · intro c e he
    have hfacts : facts = (batches.foldl Batch.merge {}).facts := (facts_merged batches).symm
    rw [hfacts]
    exact calling_construct config _ he

/-- A function in the file of a call that is named as its caller is written, or as its
    dotted form. -/
def NamedAsWritten (c : CallFact) (n : Node) : Prop :=
  n.text? Attribute.definingFile = some c.file ∧
    ∃ key ∈ [Attribute.name, Attribute.qualifiedName],
      n.text? key = some c.caller ∨ n.text? key = some (Callee.dotted c.caller)

instance (c : CallFact) (n : Node) : Decidable (NamedAsWritten c n) :=
  inferInstanceAs (Decidable (_ ∧ ∃ key ∈ _, _))

/-- A definition that a call comes from though it is not named as the caller is written. -/
def Misnamed (f : DefinitionFact) (c : CallFact) : Prop :=
  let batches : List Batch := [⟨[.definition f, .call c], [], []⟩]
  ∃ e n, callEdge? {} batches c = some e ∧
    (ofBatches {} batches).1.nodes[e.source]? = some n ∧ ¬NamedAsWritten c n

theorem misnamed_of {f : DefinitionFact} {c : CallFact}
    (h : ((callEdge? {} [⟨[.definition f, .call c], [], []⟩] c).bind fun e =>
      ((ofBatches {} [⟨[.definition f, .call c], [], []⟩]).1.nodes[e.source]?).map fun n =>
        decide (NamedAsWritten c n)) = some false) : Misnamed f c := by
  obtain ⟨e, he, hnode⟩ := Option.bind_eq_some_iff.mp h
  obtain ⟨n, hn, hnamed⟩ := Option.map_eq_some_iff.mp hnode
  exact ⟨e, n, he, hn, of_decide_eq_false hnamed⟩

/-- A caller need not be named as it is written: its qualification is left out if that
    finds a function, and its identifier may belong to a definition in another file. -/
theorem callers_not_as_written :
    Misnamed { file := "a.py", name := "run", kind := .function }
        { file := "a.py", caller := "pkg.run", callee := "run" } ∧
      Misnamed { file := "a", name := "f", kind := .function, parentClass := some "b:K" }
        { file := "a:b", caller := "K.f", callee := "f" } := by
  constructor
  · exact misnamed_of (by decide +kernel)
  · exact misnamed_of (by decide +kernel)

end CodeGraph.Build

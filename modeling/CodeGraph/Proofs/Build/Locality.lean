import CodeGraph.Proofs.Build.Calls
import CodeGraph.Proofs.Build.Leaders
/-! # Locality — what one more definition changes

    A definition in a file that is known brings no file, no directory and no
    package, so whatever an import meant it means still.

    * All that is new before references are resolved is the node of the
      definition (`Widened`, `widened_addPackages`).
    * A call from another file keeps its caller, and it keeps its callee if the
      file of the definition is worse for the call (`Widened.resolveCall`).
    * So it leads to the same edge as before (`resolution_local`). -/

namespace CodeGraph.Build

open Std

/-! ## One more node -/

/-- A store with the node of one more definition, at most. -/
structure Widened (s s' : Store) (d : DefinitionFact) : Prop where
  kept : ∀ (id : NodeId), id ≠ nodeIdOf d → s'.nodes[id]? = s.nodes[id]?
  new : nodeIdOf d ∉ s.nodes
  only : ∀ (m : Node), s'.nodes[nodeIdOf d]? = some m → m = definitionNode d

namespace Widened

variable {s s' : Store} {d : DefinitionFact} (h : Widened s s' d)

include h

theorem getElem? {id : NodeId} {m : Node} (hm : s.nodes[id]? = some m) :
    s'.nodes[id]? = some m := by
  rw [h.kept id, hm]
  rintro rfl
  exact h.new (ExtTreeMap.getElem?_eq_some_iff.mp hm).1

theorem cases {id : NodeId} {m : Node} (hm : s'.nodes[id]? = some m) :
    s.nodes[id]? = some m ∨ id = nodeIdOf d ∧ m = definitionNode d := by
  by_cases hid : id = nodeIdOf d
  · subst hid
    exact Or.inr ⟨rfl, h.only m hm⟩
  · rw [h.kept id hid] at hm
    exact Or.inl hm

theorem mem_iff {id : NodeId} (hid : id ≠ nodeIdOf d) : id ∈ s'.nodes ↔ id ∈ s.nodes := by
  rw [ExtTreeMap.mem_iff_isSome_getElem?, h.kept id hid, ExtTreeMap.mem_iff_isSome_getElem?]

/-- Nodes of other kinds are the same. -/
theorem nodesByKind_eq (hs : s.Sound) (hs' : s'.Sound) {kind : NodeKind}
    (hkind : kind.isDefinition = false) : s'.nodesByKind kind = s.nodesByKind kind := by
  rw [hs.nodesByKind_eq, hs'.nodesByKind_eq]
  refine Store.eq_of_ascending (hs'.pairwise_nodeList.filter _) (hs.pairwise_nodeList.filter _) ?_
  intro m
  rw [List.mem_filter, List.mem_filter, Store.mem_nodeList, Store.mem_nodeList, decide_eq_true_eq]
  refine and_congr_left fun hm => ⟨?_, ?_⟩
  · rintro ⟨id, hid⟩
    rcases h.cases hid with hid | ⟨-, rfl⟩
    · exact ⟨id, hid⟩
    · rw [← hm] at hkind
      have hdef : (definitionNode d).kind.isDefinition = true := isDefinition_nodeKindOf d.kind
      rw [hdef] at hkind
      cases hkind
  · rintro ⟨id, hid⟩
    exact ⟨id, h.getElem? hid⟩

/-- Imports mean the same. -/
theorem resolveImport_eq (hs : s.Sound) (hs' : s'.Sound) (aliases : Aliases) (i : ImportFact) :
    resolveImport s' (moduleIndex s') aliases i = resolveImport s (moduleIndex s) aliases i := by
  have hindex : moduleIndex s' = moduleIndex s := by
    rw [moduleIndex_eq, moduleIndex_eq, modulesOf, modulesOf, h.nodesByKind_eq hs hs' rfl,
      h.nodesByKind_eq hs hs' rfl]
  have hcontains : s'.contains (.file i.file) = s.contains (.file i.file) := by
    rw [Bool.eq_iff_iff]
    exact h.mem_iff (nodeIdOf_ne_file d i.file).symm
  rw [resolveImport, resolveImport, hindex, hcontains]

/-- A name in another file means the same definition. -/
theorem localDefinition? (hs : s.Sound) (hs' : s'.Sound) {file name : String} {id : NodeId}
    (hfile : d.file ≠ file) (hne : nodeIdOf d ≠ .function file name)
    (hid : localDefinition? s file name .function = some id) :
    localDefinition? s' file name .function = some id := by
  rw [localDefinition?_eq_some_iff hs] at hid
  rw [localDefinition?_eq_some_iff hs']
  have hmem : definitionId .function file name ∈ s'.nodes ↔
      definitionId .function file name ∈ s.nodes := h.mem_iff hne.symm
  rw [hmem]
  refine hid.imp_right ?_
  rintro ⟨hout, n, hn, hlocal, hleast⟩
  refine ⟨hout, n, h.getElem? hn, hlocal, ?_⟩
  intro i m hm hother
  rcases h.cases hm with hm | ⟨-, rfl⟩
  · exact hleast i m hm hother
  · have hpath := hother.file
    rw [(tells_definitionNode d).filePath?, Option.some.injEq] at hpath
    exact absurd hpath hfile

/-- A reference means the same definition if the file of the new one is worse. -/
theorem pickDefinition? (hs : s.Sound) (hs' : s'.Sound) {imported : Imported} {r : Reference}
    {id : NodeId} (hid : pickDefinition? s imported r = some id)
    (htier : ∀ n : Node, s.nodes[id]? = some n → n.kind = r.kind →
      tier imported r n < tier imported r (definitionNode d)) :
    pickDefinition? s' imported r = some id := by
  rw [pickDefinition?_eq_some_iff hs] at hid
  rw [pickDefinition?_eq_some_iff hs']
  obtain ⟨n, hn, hcandidate, hleast⟩ := hid
  refine ⟨n, h.getElem? hn, hcandidate, ?_⟩
  intro i m hm hother
  rcases h.cases hm with hm | ⟨-, rfl⟩
  · exact hleast i m hm hother
  · exact rank_lt_of_tier (htier n hn hcandidate.kind)

/-- **A call from another file leads to the same edge** if the file of the new definition
    is worse than that of the callee. -/
theorem resolveCall (hs : s.Sound) (hs' : s'.Sound) {imported : Imported} {c : CallFact}
    {e : Edge} (hfile : d.file ≠ c.file) (hne : nodeIdOf d ≠ .function c.file c.caller)
    (he : (resolveCall s imported c).edge? = some e)
    (htier : ∀ n : Node, s.nodes[e.target]? = some n → n.kind = .function →
      tier imported (calleeReference c) n <
        tier imported (calleeReference c) (definitionNode d)) :
    (resolveCall s' imported c).edge? = some e := by
  rw [Build.resolveCall] at he
  split at he
  · cases he
  · rename_i caller hcaller
    split at he
    · rename_i callee hcallee
      cases he
      rw [Build.resolveCall, h.localDefinition? hs hs' hfile hne hcaller]
      dsimp only
      rw [h.pickDefinition? hs hs' hcallee htier]
      rfl
    · cases he

end Widened

/-! ## One more definition -/

/-- Facts with one more definition somewhere among them. -/
def Adds (d : DefinitionFact) (facts facts' : List Fact) : Prop :=
  ∃ front rest fact, facts = front ++ rest ∧ facts' = front ++ fact :: rest ∧
    Inputs.definition? fact = some d

section Facts

variable {facts facts' : List Fact} {d : DefinitionFact} (h : Adds d facts facts')

include h

/-- Other facts are the same. -/
theorem Adds.filterMap_eq {α : Type} {g : Fact → Option α}
    (hg : ∀ f : DefinitionFact, g (.definition f) = none) :
    facts'.filterMap g = facts.filterMap g := by
  obtain ⟨front, rest, fact, rfl, rfl, hfact⟩ := h
  cases fact with
  | definition f =>
      rw [List.filterMap_append, List.filterMap_append, List.filterMap_cons_none (hg f)]
  | _ => cases hfact

/-- There is one definition more. -/
theorem Adds.exists_definitions : ∃ front rest,
    facts.filterMap Inputs.definition? = front ++ rest ∧
      facts'.filterMap Inputs.definition? = front ++ d :: rest := by
  obtain ⟨front, rest, fact, rfl, rfl, hfact⟩ := h
  refine ⟨front.filterMap Inputs.definition?, rest.filterMap Inputs.definition?,
    List.filterMap_append, ?_⟩
  rw [List.filterMap_append, List.filterMap_cons_some hfact]

/-- For any other identifier the same definition counts. -/
theorem Adds.leadingDefinition?_eq {id : NodeId} (hid : nodeIdOf d ≠ id) :
    leadingDefinition? facts' id = leadingDefinition? facts id := by
  obtain ⟨front, rest, hfacts, hfacts'⟩ := h.exists_definitions
  have hdrop : ((d :: rest).filter fun f => isNamed f && nodeIdOf f = id) =
      rest.filter fun f => isNamed f && nodeIdOf f = id :=
    List.filter_cons_of_neg (by simp [hid])
  -- the definition is left out before the others are sorted
  rw [leadingDefinition?, leadingDefinition?, ← List.head?_filter, ← List.head?_filter, sortBy,
    sortBy, Sorting.filter_mergeSort, Sorting.filter_mergeSort, hfacts, hfacts',
    List.filter_append, List.filter_append, hdrop]

/-- For a new identifier the new definition counts, if any. -/
theorem Adds.leadingDefinition?_self (hnew : leadingDefinition? facts (nodeIdOf d) = none)
    {f : DefinitionFact} (hf : leadingDefinition? facts' (nodeIdOf d) = some f) : f = d := by
  obtain ⟨front, rest, hfacts, hfacts'⟩ := h.exists_definitions
  have hmem := List.mem_mergeSort.mp (List.mem_of_find?_eq_some hf)
  have hcounts := List.find?_some hf
  rw [leadingDefinition?, List.find?_eq_none] at hnew
  rw [hfacts', List.mem_append, List.mem_cons, or_left_comm, ← List.mem_append, ← hfacts] at hmem
  refine hmem.resolve_right ?_
  intro hold
  exact hnew f (List.mem_mergeSort.mpr hold) hcounts

end Facts

section Build

variable {config : Config} {b b' : Batch} {d : DefinitionFact} (h : Adds d b.facts b'.facts)

include h

theorem Adds.entryPaths_eq : entryPaths b'.facts = entryPaths b.facts := by
  rw [entryPaths, entryPaths, h.filterMap_eq fun _ => rfl]

variable (hfile : NodeId.file d.file ∈ (addSources config (Inputs.gather b)).1.store.nodes)

include hfile

/-- No file is known by the new definition alone. -/
theorem any_file_of_adds {path : String} (hpath : path ≠ "")
    (hunreported : leadingFile? b.facts path = none) :
    ((b'.facts.filterMap Inputs.definition?).any fun f => isNamed f && f.file = path) =
      (b.facts.filterMap Inputs.definition?).any fun f => isNamed f && f.file = path := by
  obtain ⟨front, rest, hfacts, hfacts'⟩ := h.exists_definitions
  rw [hfacts', hfacts, List.any_append, List.any_append, List.any_cons]
  by_cases hd : d.file = path
  · -- its file is there already, so it stems from another definition
    subst hd
    rw [ExtTreeMap.mem_iff_isSome_getElem?, getElem?_addSources,
      find?_sourceNodes_file config b hpath, hunreported, Option.map_none, Option.none_or,
      hfacts, List.any_append] at hfile
    split at hfile
    · rename_i hold
      rw [hold, Bool.or_left_comm, hold, Bool.or_true]
    · cases hfile
  · rw [decide_eq_false hd, Bool.and_false, Bool.false_or]

/-- Under any other identifier the same node is proposed first. -/
theorem find?_sourceNodes_of_adds {id : NodeId} (hid : nodeIdOf d ≠ id) :
    ((sourceNodes config (Inputs.gather b')).find? fun n => n.id = id) =
      (sourceNodes config (Inputs.gather b)).find? fun n => n.id = id := by
  by_cases hpath : ∃ path, id = .file path
  · obtain ⟨path, rfl⟩ := hpath
    by_cases hempty : path = ""
    · subst hempty
      rw [find?_sourceNodes_pathless, find?_sourceNodes_pathless]
    · have hleading : leadingFile? b'.facts path = leadingFile? b.facts path := by
        rw [leadingFile?, leadingFile?, h.filterMap_eq fun _ => rfl]
      rw [find?_sourceNodes_file config b' hempty, find?_sourceNodes_file config b hempty,
        hleading, h.entryPaths_eq]
      cases hreported : leadingFile? b.facts path with
      | some f => rfl
      | none => rw [any_file_of_adds h hfile hempty hreported]
  · have hne := not_exists.mp hpath
    rw [find?_sourceNodes config b' hne, find?_sourceNodes config b hne,
      h.leadingDefinition?_eq hid]

variable (hnew : nodeIdOf d ∉ (addSources config (Inputs.gather b)).1.store.nodes)

include hnew

/-- Of files and definitions there is one more at most. -/
theorem widened_addSources : Widened (addSources config (Inputs.gather b)).1.store
    (addSources config (Inputs.gather b')).1.store d where
  kept := by
    intro id hid
    rw [getElem?_addSources, getElem?_addSources, find?_sourceNodes_of_adds h hfile hid.symm]
  new := hnew
  only := by
    intro m hm
    rw [ExtTreeMap.mem_iff_isSome_getElem?, getElem?_addSources,
      find?_sourceNodes config b (nodeIdOf_ne_file d)] at hnew
    rw [getElem?_addSources, find?_sourceNodes config b' (nodeIdOf_ne_file d)] at hm
    obtain ⟨f, hf, rfl⟩ := Option.map_eq_some_iff.mp hm
    rw [Option.isSome_map, Bool.not_eq_true, Option.isSome_eq_false_iff,
      Option.isNone_iff_eq_none] at hnew
    rw [h.leadingDefinition?_self hnew hf]

/-- **Before references are resolved there is one node more at most.** -/
theorem widened_addPackages : Widened (addPackages config (Inputs.gather b)).store
    (addPackages config (Inputs.gather b')).store d := by
  have hsources := widened_addSources h hfile hnew
  have hpaths : filePaths (addSources config (Inputs.gather b')).1.store =
      filePaths (addSources config (Inputs.gather b)).1.store := by
    rw [filePaths, filePaths, hsources.nodesByKind_eq
      (addSources_spec config _).1.labelled.sound (addSources_spec config _).1.labelled.sound rfl]
  have hdeclared : (Inputs.gather b').declared = (Inputs.gather b).declared := by
    show (declarations b'.facts).foldl Inputs.declare ∅ =
      (declarations b.facts).foldl Inputs.declare ∅
    rw [declarations, declarations, h.filterMap_eq fun _ => rfl]
  have hout : nodeIdOf d ∉ (addPackages config (Inputs.gather b)).store.nodes := by
    rw [mem_addPackages]
    rintro (hin | ⟨q, -, hid⟩ | ⟨package, -, hid⟩)
    · exact hnew hin
    · exact nodeIdOf_ne (tag_directory q) rfl d hid
    · exact nodeIdOf_ne (tag_dependency package) rfl d hid
  refine ⟨?_, hout, ?_⟩
  · intro id hid
    rw [getElem?_addPackages, getElem?_addPackages, proposals, proposals, hpaths, hdeclared,
      List.find?_append, find?_sourceNodes_of_adds h hfile hid.symm, ← List.find?_append]
  · intro m hm
    -- neither a directory nor a package is called so, before or after
    rw [ExtTreeMap.mem_iff_isSome_getElem?, getElem?_addPackages, proposals, List.find?_append,
      Bool.not_eq_true, Option.isSome_eq_false_iff, Option.isNone_iff_eq_none,
      Option.or_eq_none_iff] at hout
    rw [getElem?_addPackages, proposals, List.find?_append, hpaths, hdeclared, hout.2,
      Option.or_none, ← getElem?_addSources] at hm
    exact hsources.only m hm

/-- Files import what they imported. -/
theorem importedPaths_of_adds :
    importedPaths config (Inputs.gather b') = importedPaths config (Inputs.gather b) := by
  have hwidened := widened_addPackages h hfile hnew
  have himports : (Inputs.gather b').imports = (Inputs.gather b).imports := by
    show sortBy importOrder _ = sortBy importOrder _
    rw [h.filterMap_eq fun _ => rfl]
  rw [importedPaths, importedPaths, resolveImports, resolveImports, himports]
  refine List.foldl_rel (r := fun p p' : ImportPhase => p.imported = p'.imported) rfl ?_
  rintro i - p p' hp
  rw [hwidened.resolveImport_eq (labelled_addPackages config _).sound
    (labelled_addPackages config _).sound]
  cases resolveImport (addPackages config (Inputs.gather b)).store _ config.aliases i with
  | error x => exact hp
  | ok target => exact congrArg (Imported.note · i target) hp

end Build

/-! ## Calls from other files -/

/-- Without colons the identifier of a function tells the file. -/
theorem file_of_nodeIdOf_eq {d : DefinitionFact} {file name : String}
    (hcolon : ':' ∉ d.file.toList) (hcolon' : ':' ∉ file.toList)
    (hid : nodeIdOf d = .function file name) : d.file = file := by
  have hkind : nodeKindOf d.kind = .function := by
    have htag := tag_definitionId (isDefinition_nodeKindOf d.kind) d.file d.qualifiedName
    rw [← nodeIdOf, hid, tag_function] at htag
    exact (NodeKind.tag_injective htag).symm
  rw [nodeIdOf, hkind] at hid
  have htext : ("function:" ++ d.file ++ ":" ++ d.qualifiedName).toList =
      ("function:" ++ file ++ ":" ++ name).toList :=
    congrArg String.toList (congrArg NodeId.text hid)
  simp only [String.toList_append, List.append_assoc] at htext
  -- the file ends where the first colon stands
  have hbefore : ∀ {file : String} (rest : List Char), ':' ∉ file.toList →
      (file.toList ++ (":".toList ++ rest)).takeWhile (fun ch => ch ≠ ':') = file.toList := by
    intro file rest hfile
    rw [List.takeWhile_append_of_pos]
    · exact List.append_nil _
    · intro ch hch
      rw [decide_eq_true_eq]
      rintro rfl
      exact hfile hch
  have heq := congrArg (List.takeWhile fun ch => ch ≠ ':') (List.append_cancel_left htext)
  rw [hbefore _ hcolon, hbefore _ hcolon'] at heq
  exact String.toList_inj.mp heq

/-- How good the file of a node is for a call; the smallest is best. -/
def callTier (config : Config) (batches : List Batch) (c : CallFact) (n : Node) : Nat :=
  tier (importedPaths config (Inputs.gather (batches.foldl Batch.merge {}))) (calleeReference c) n

/-- **A definition changes calls from other files only if its file is as good as that of the
    callee.**  If it is worse, then a call that leads to an edge leads to the same edge, with
    the same caller and the same callee, wherever the definition stands among the facts. -/
theorem resolution_local {config : Config} {batches batches' : List Batch} {d : DefinitionFact}
    (h : Adds d (batches.flatMap (·.facts)) (batches'.flatMap (·.facts)))
    (hfile : NodeId.file d.file ∈ (ofBatches config batches).1.nodes)
    (hnew : nodeIdOf d ∉ (ofBatches config batches).1.nodes)
    {c : CallFact} (hc : c ∈ (batches.flatMap (·.facts)).filterMap Inputs.call?)
    (hother : d.file ≠ c.file) (hcolon : ':' ∉ d.file.toList) (hcolon' : ':' ∉ c.file.toList)
    {e : Edge} (he : callEdge? config batches c = some e)
    {n : Node} (hn : (ofBatches config batches).1.nodes[e.target]? = some n)
    (htier : callTier config batches c n < callTier config batches c (definitionNode d)) :
    callEdge? config batches' c = some e ∧ e ∈ (ofBatches config batches').1.edges := by
  have hcall : c ∈ (batches'.flatMap (·.facts)).filterMap Inputs.call? := by
    rw [h.filterMap_eq fun _ => rfl]
    exact hc
  rw [← facts_merged, ← facts_merged batches'] at h
  have hfile' := mem_addSources_of_mem (tag_file d.file) nofun nofun hfile
  have hnew' := fun hin => hnew (mem_construct_of_mem (mem_addPackages.mpr (Or.inl hin)))
  have hlabelled := labelled_addPackages config (Inputs.gather (batches.foldl Batch.merge {}))
  have hlabelled' := labelled_addPackages config (Inputs.gather (batches'.foldl Batch.merge {}))
  have hedge : callEdge? config batches' c = some e := by
    rw [callEdge?, outcome_eq] at he ⊢
    rw [importedPaths_of_adds h hfile' hnew']
    refine (widened_addPackages h hfile' hnew').resolveCall hlabelled.sound hlabelled'.sound hother
      (hother ∘ file_of_nodeIdOf_eq hcolon hcolon') he ?_
    intro m hm hkind
    -- the callee looks the same in the finished graph
    obtain ⟨n', hn', hlooks⟩ := (Settled.construct config _).shows hlabelled.sound
      (built_construct config _).labelled.sound _ m hm (by rw [hkind]; rfl)
    cases hn'.symm.trans hn
    rw [← hlooks.tier_eq]
    exact htier
  exact ⟨hedge, (mem_edges_calls_iff.mpr ⟨c, mem_calls_iff.mpr hcall, hedge⟩).1⟩

/-- A function that calls itself does so still if another file defines its name. -/
theorem resolution_local_selfCall :
    let other : Batch := ⟨[.file { path := "b.py" }], [], []⟩
    let d : DefinitionFact := { file := "b.py", name := "f", kind := .function }
    let batches := [other, selfCall "f"]
    let batches' := [other, ⟨[.definition d], [], []⟩, selfCall "f"]
    let e := callEdge (ownCall "f") (.function "a.py" "f") (.function "a.py" "f")
    Adds d (batches.flatMap (·.facts)) (batches'.flatMap (·.facts)) ∧
      NodeId.file d.file ∈ (ofBatches {} batches).1.nodes ∧
      nodeIdOf d ∉ (ofBatches {} batches).1.nodes ∧
      callEdge? {} batches (ownCall "f") = some e ∧
      (∃ n, (ofBatches {} batches).1.nodes[e.target]? = some n ∧
        callTier {} batches (ownCall "f") n <
          callTier {} batches (ownCall "f") (definitionNode d)) ∧
      callEdge? {} batches' (ownCall "f") = some e ∧ e ∈ (ofBatches {} batches').1.edges := by
  intro other d batches batches' e
  have hadds : Adds d (batches.flatMap (·.facts)) (batches'.flatMap (·.facts)) := by
    refine ⟨other.facts, (selfCall "f").facts, .definition d, rfl, rfl, ?_⟩
    decide +kernel
  have hfile : NodeId.file d.file ∈ (ofBatches {} batches).1.nodes := by decide +kernel
  have hnew : nodeIdOf d ∉ (ofBatches {} batches).1.nodes := by decide +kernel
  have hc : ownCall "f" ∈ (batches.flatMap (·.facts)).filterMap Inputs.call? := by decide +kernel
  have he : callEdge? {} batches (ownCall "f") = some e := by decide +kernel
  -- the callee is in the file of the call, the definition in a file that is not imported
  have htier : ((ofBatches {} batches).1.nodes[e.target]?.map fun n =>
      decide (callTier {} batches (ownCall "f") n <
        callTier {} batches (ownCall "f") (definitionNode d))) = some true := by
    decide +kernel
  obtain ⟨n, hn, htier⟩ := Option.map_eq_some_iff.mp htier
  have htier := of_decide_eq_true htier
  exact ⟨hadds, hfile, hnew, he, ⟨n, hn, htier⟩, resolution_local hadds hfile hnew hc (by decide)
    (by decide) (by decide) he hn htier⟩

end CodeGraph.Build

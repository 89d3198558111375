import CodeGraph.Proofs.Build.Leaders
import CodeGraph.Proofs.Build.Origins
/-! # Coverage — what a clean report vouches for

    If nothing is reported, nothing was left out, with one exception: a file
    whose path is empty in normal form is passed over without a word.

    * A diagnostic is never taken back, so a draft without any was clean all the
      way (`Draft.Clean`).
    * A step that leaves a draft clean inserted its node or resolved its
      reference (`shown_foldl`).
    * `Covered` collects what a clean report vouches for
      (`covered_of_isClean`). -/

namespace CodeGraph.Build

open Std

variable {d d' : Draft}

/-! ## Clean drafts -/

/-- Nothing is reported so far. -/
def Draft.Clean (d : Draft) : Prop := d.diagnostics = #[]

namespace Draft

theorem not_clean_note (d : Draft) (x : Diagnostic) : ¬(d.note x).Clean := by
  intro h
  have hsize := congrArg Array.size h
  rw [note, Array.size_push] at hsize
  cases hsize

/-- A node that is inserted without a word is new. -/
theorem clean_of_insertNode {id : NodeId} {kind : NodeKind} {a : Attributes}
    (h : (d.insertNode id kind a).Clean) : d.Clean ∧ d.store.contains id = false := by
  rw [insertNode] at h
  split at h
  · rename_i s hok
    refine ⟨h, ?_⟩
    rw [Store.contains, ← Bool.not_eq_true, ← ExtTreeMap.mem_iff_contains]
    exact (Store.addNode_ok hok).1
  · exact absurd h (not_clean_note d _)

theorem clean_of_ensureNode {id : NodeId} {kind : NodeKind} {a : Attributes}
    (h : (d.ensureNode id kind a).Clean) : d.Clean := by
  rw [ensureNode] at h
  split at h
  · exact h
  · exact (clean_of_insertNode h).1

theorem clean_of_enrich {id : NodeId} {key : String} {value : Json}
    (h : (d.enrich id key value).Clean) : d.Clean := by
  rw [enrich] at h
  split at h
  · exact h
  · exact absurd h (not_clean_note d _)

theorem clean_of_foldl {α : Type} {f : Draft → α → Draft} (hf : ∀ d x, Clean (f d x) → d.Clean)
    (xs : List α) (h : (xs.foldl f d).Clean) : d.Clean := by
  induction xs generalizing d with
  | nil => exact h
  | cons x xs ih => exact hf d x (ih h)

end Draft

/-! ## References -/

/-- **If each step reports or adds an edge that shows its fact,** a run without a
    report adds an edge for each fact, in the same order. -/
theorem shown_foldl {σ φ : Type} (draft : σ → Draft) (edges : σ → Array Edge) {step : σ → φ → σ}
    {shows : φ → Edge → Prop} (hstep : ∀ p x, (draft (step p x)).Clean →
      (draft p).Clean ∧ ∃ e, shows x e ∧ edges (step p x) = (edges p).push e)
    (xs : List φ) (p : σ) (h : (draft (xs.foldl step p)).Clean) :
    (draft p).Clean ∧ ∃ es, (edges (xs.foldl step p)).toList = (edges p).toList ++ es ∧
      List.Forall₂ shows xs es := by
  induction xs generalizing p with
  | nil => exact ⟨h, [], (List.append_nil _).symm, .nil⟩
  | cons x xs ih =>
      obtain ⟨hclean, es, hes, hshown⟩ := ih (step p x) h
      obtain ⟨hclean, e, he, hpush⟩ := hstep p x hclean
      refine ⟨hclean, e :: es, ?_, .cons he hshown⟩
      rw [List.foldl_cons, hes, hpush, Array.toList_push, List.append_assoc]
      rfl

theorem shown_add (config : Config) (inputs : Inputs) (hlabelled : Labelled d.store)
    (p : ImportPhase) (i : ImportFact)
    (h : (p.add inputs.declared i (resolveImport d.store (moduleIndex d.store)
      config.aliases i)).draft.Clean) :
    p.draft.Clean ∧ ∃ e, ShowsImport d.store config.aliases i e ∧
      (p.add inputs.declared i (resolveImport d.store (moduleIndex d.store)
        config.aliases i)).edges = p.edges.push e := by
  cases hresolve : resolveImport d.store (moduleIndex d.store) config.aliases i with
  | error x =>
      rw [hresolve] at h
      exact absurd h (p.draft.not_clean_note x)
  | ok target =>
      rw [hresolve] at h
      obtain ⟨hfile, hmeant, hne⟩ := resolveImport_ok hlabelled hresolve
      refine ⟨?_, importEdge i target, ⟨hfile, target, hmeant, hne, rfl⟩, rfl⟩
      cases target with
      | inside m => exact h
      | outside package => exact Draft.clean_of_ensureNode h

theorem shown_addCall (hlabelled : Labelled d.store) (imported : Imported)
    (p : ReferencePhase) (c : CallFact)
    (h : (p.addCall c (resolveCall d.store imported c)).draft.Clean) :
    p.draft.Clean ∧ ∃ e, ShowsCall d.store c e ∧
      (p.addCall c (resolveCall d.store imported c)).edges = p.edges.push e := by
  cases hresolve : resolveCall d.store imported c with
  | edge e =>
      rw [hresolve] at h
      exact ⟨h, e, resolveCall_edge hlabelled hresolve, rfl⟩
  | noCaller =>
      rw [hresolve] at h
      exact absurd h (p.draft.not_clean_note _)
  | noCallee caller =>
      rw [hresolve] at h
      exact absurd h (p.draft.not_clean_note _)

theorem shown_addInherit (hlabelled : Labelled d.store) (imported : Imported)
    (p : ReferencePhase) (i : InheritFact)
    (h : (p.addInherit (resolveInherit d.store imported i)).draft.Clean) :
    p.draft.Clean ∧ ∃ e, ShowsInherit d.store i e ∧
      (p.addInherit (resolveInherit d.store imported i)).edges = p.edges.push e := by
  cases hresolve : resolveInherit d.store imported i with
  | ok e =>
      rw [hresolve] at h
      exact ⟨h, e, resolveInherit_ok hlabelled hresolve, rfl⟩
  | error x =>
      rw [hresolve] at h
      exact absurd h (p.draft.not_clean_note x)

/-- Imports that are resolved without a word are shown by edges. -/
theorem shown_resolveImports {config : Config} {inputs : Inputs} (hlabelled : Labelled d.store)
    (h : (resolveImports config inputs d).draft.Clean) :
    d.Clean ∧ List.Forall₂ (ShowsImport d.store config.aliases) inputs.imports
      (resolveImports config inputs d).edges.toList := by
  obtain ⟨hclean, es, hes, hshown⟩ := shown_foldl ImportPhase.draft ImportPhase.edges
    (shown_add config inputs hlabelled) inputs.imports { draft := d } h
  refine ⟨hclean, ?_⟩
  rw [resolveImports, hes]
  exact hshown

/-- Calls and inheritances that are resolved without a word are shown by edges. -/
theorem shown_resolveReferences {inputs : Inputs} {imported : Imported}
    (hlabelled : Labelled d.store) (h : (resolveReferences inputs imported d).draft.Clean) :
    d.Clean ∧ ∃ calls inherits,
      (resolveReferences inputs imported d).edges.toList = calls ++ inherits ∧
      List.Forall₂ (ShowsCall d.store) inputs.calls calls ∧
      List.Forall₂ (ShowsInherit d.store) inputs.inherits inherits := by
  obtain ⟨hmiddle, inherits, hinherits, hshownInherits⟩ := shown_foldl ReferencePhase.draft
    ReferencePhase.edges (shown_addInherit hlabelled imported) inputs.inherits _ h
  obtain ⟨hclean, calls, hcalls, hshownCalls⟩ := shown_foldl ReferencePhase.draft
    ReferencePhase.edges (shown_addCall hlabelled imported) inputs.calls { draft := d } hmiddle
  refine ⟨hclean, calls, inherits, ?_, hshownCalls, hshownInherits⟩
  rw [resolveReferences, hinherits, hcalls]
  rfl

/-! ## Files and definitions -/

/-- **If each step reports or adds its node,** a run without a report adds a node for
    each fact, all under different identifiers that are new. -/
theorem nodup_foldl {σ φ : Type} (draft : σ → Draft) {step : σ → φ → σ} {key : φ → NodeId}
    {ok : φ → Prop} (hstep : ∀ p x, (draft (step p x)).Clean →
      (draft p).Clean ∧ ok x ∧ (draft p).store.contains (key x) = false)
    (hgrow : ∀ p x id, ok x → (draft p).store.contains id = true ∨ key x = id →
      (draft (step p x)).store.contains id = true)
    (xs : List φ) (p : σ) (h : (draft (xs.foldl step p)).Clean) :
    (draft p).Clean ∧ (xs.map key).Nodup ∧
      ∀ x ∈ xs, ok x ∧ (draft p).store.contains (key x) = false := by
  induction xs generalizing p with
  | nil => exact ⟨h, List.nodup_nil, nofun⟩
  | cons x xs ih =>
      obtain ⟨hclean, hnodup, hnew⟩ := ih (step p x) h
      obtain ⟨hclean, hok, hx⟩ := hstep p x hclean
      -- what is new after the step was new before, and is not what the step added
      have hbefore : ∀ y ∈ xs,
          ¬((draft p).store.contains (key y) = true ∨ key x = key y) := by
        intro y hy hold
        have hafter := hgrow p x (key y) hok hold
        rw [(hnew y hy).2] at hafter
        cases hafter
      refine ⟨hclean, ?_, ?_⟩
      · rw [List.map_cons, List.nodup_cons, List.mem_map]
        refine ⟨?_, hnodup⟩
        rintro ⟨y, hy, heq⟩
        exact hbefore y hy (Or.inr heq.symm)
      · intro y hy
        rcases List.mem_cons.mp hy with rfl | hy
        · exact ⟨hok, hx⟩
        · exact ⟨(hnew y hy).1, Bool.eq_false_iff.mpr fun hold => hbefore y hy (Or.inl hold)⟩

/-- Files that are added without a word have different paths. -/
theorem nodup_addFiles (config : Config) (paths : List String) (fs : List FileFact)
    (h : (fs.foldl (addFile config paths) d).Clean) :
    d.Clean ∧ ((fs.filter fun f => f.path ≠ "").map fun f => NodeId.file f.path).Nodup := by
  -- only files with a path make a step
  have hskip : addFile config paths = fun d f => if decide (f.path ≠ "") = true then
      d.insertNode (.file f.path) .file (fileNodeAttributes config paths f) else d := by
    funext d f
    by_cases hf : f.path = ""
    · rw [addFile, if_pos hf, if_neg (by simpa using hf)]
    · rw [addFile, if_neg hf, if_pos (decide_eq_true hf)]
      rfl
  rw [hskip, ← List.foldl_filter] at h
  have hstep : ∀ (d : Draft) (f : FileFact), (d.insertNode (.file f.path) .file
      (fileNodeAttributes config paths f)).Clean →
        d.Clean ∧ True ∧ d.store.contains (.file f.path) = false := by
    intro d f hd
    obtain ⟨hclean, hnew⟩ := Draft.clean_of_insertNode hd
    exact ⟨hclean, trivial, hnew⟩
  have hgrow : ∀ (d : Draft) (f : FileFact) (id : NodeId), True →
      d.store.contains id = true ∨ NodeId.file f.path = id → (d.insertNode (.file f.path) .file
        (fileNodeAttributes config paths f)).store.contains id = true := by
    intro d f i _ hold
    rw [(d.takes_insertNode _ _ _).contains i, Bool.or_eq_true]
    refine hold.imp_right fun hi => ?_
    rw [List.any_cons, List.any_nil, Bool.or_false]
    exact decide_eq_true hi
  obtain ⟨hclean, hnodup, -⟩ := nodup_foldl id hstep hgrow _ d h
  exact ⟨hclean, hnodup⟩

/-- Definitions that are added without a word are named and have different
    identifiers. -/
theorem nodup_addDefinitions (config : Config) (paths : List String) (fs : List DefinitionFact)
    {p : Draft × Array Edge} (h : (fs.foldl (addDefinition config paths) p).1.Clean) :
    p.1.Clean ∧ (∀ f ∈ fs, isNamed f = true) ∧ (fs.map nodeIdOf).Nodup := by
  have hstep : ∀ (p : Draft × Array Edge) (f : DefinitionFact),
      (addDefinition config paths p f).1.Clean →
        p.1.Clean ∧ isNamed f = true ∧ p.1.store.contains (nodeIdOf f) = false := by
    rintro ⟨d, edges⟩ f hd
    rw [addDefinition] at hd
    dsimp only at hd
    split at hd
    · rename_i hnamed
      obtain ⟨hensured, hnew⟩ := Draft.clean_of_insertNode hd
      rw [(d.takes_ensureNode _ _ _).contains, Bool.or_eq_false_iff] at hnew
      exact ⟨Draft.clean_of_ensureNode hensured, hnamed, hnew.1⟩
    · exact absurd hd (d.not_clean_note _)
  have hgrow : ∀ (p : Draft × Array Edge) (f : DefinitionFact) (id : NodeId), isNamed f = true →
      p.1.store.contains id = true ∨ nodeIdOf f = id →
        (addDefinition config paths p f).1.store.contains id = true := by
    intro p f id hnamed hold
    rw [(takes_addDefinition config paths p f).contains, definitionProposals, if_pos hnamed,
      Bool.or_eq_true]
    refine hold.imp_right fun hid => List.any_eq_true.mpr ⟨definitionNode f, ?_, decide_eq_true hid⟩
    exact List.mem_cons_of_mem _ List.mem_cons_self
  obtain ⟨hclean, hnodup, hall⟩ := nodup_foldl Prod.fst hstep hgrow fs p h
  exact ⟨hclean, fun f hf => (hall f hf).1, hnodup⟩

/-- Edges to different nodes are all new. -/
theorem foldl_addNew {es new : List Edge} (h : ((es ++ new).map Edge.target).Nodup) :
    new.foldl addNew es = es ++ new := by
  induction new generalizing es with
  | nil => exact (List.append_nil es).symm
  | cons e new ih =>
      have hnew : (es.any fun e' => e'.target = e.target) = false := by
        rw [List.any_eq_false]
        intro e' he'
        rw [decide_eq_true_eq]
        rw [List.map_append, List.map_cons, List.nodup_append] at h
        exact h.2.2 _ (List.mem_map_of_mem he') _ List.mem_cons_self
      rw [List.foldl_cons, addNew, if_neg (by rw [hnew]; decide), ih, List.append_assoc]
      · rfl
      · rw [List.append_assoc]
        exact h

/-! ## The phases of a clean build -/

/-- All nodes are gathered without a word only if files, definitions and imports are
    so. -/
theorem clean_addNodes {config : Config} {inputs : Inputs}
    (h : (addNodes config inputs).1.Clean) : (addSources config inputs).1.Clean ∧
      List.Forall₂ (ShowsImport (addPackages config inputs).store config.aliases) inputs.imports
        (resolveImports config inputs (addPackages config inputs)).edges.toList := by
  have hmark : ∀ (d : Draft) (f : ParseFailure), (markFailure d f).Clean → d.Clean := by
    intro d f hd
    rw [markFailure] at hd
    split at hd
    · exact Draft.clean_of_enrich hd
    · exact hd
  have himports : (resolveImports config inputs (addPackages config inputs)).draft.Clean :=
    Draft.clean_of_foldl hmark (firstFailures inputs.failures) h
  obtain ⟨hpackages, hshown⟩ :=
    shown_resolveImports (tidy_addPackages config inputs).labelled himports
  have hdirectories : (addDirectories (addSources config inputs).1).Clean :=
    Draft.clean_of_foldl (fun _ _ => Draft.clean_of_ensureNode) inputs.declared.keys hpackages
  refine ⟨?_, hshown⟩
  exact Draft.clean_of_foldl (fun _ _ => Draft.clean_of_ensureNode)
    ((filePaths (addSources config inputs).1.store).flatMap Path.ancestors) hdirectories

/-- The edges of a build without a report, relationship by relationship. -/
theorem edges_of_clean {config : Config} {inputs : Inputs}
    (h : (construct config inputs).Clean) : (addSources config inputs).1.Clean ∧
      ∃ imports calls inherits, (construct config inputs).store.edges.toList =
          containsEdges (filePaths (addSources config inputs).1.store) ++
            (addSources config inputs).2.toList ++ imports ++ (calls ++ inherits) ∧
        List.Forall₂ (ShowsImport (construct config inputs).store config.aliases) inputs.imports
          imports ∧
        List.Forall₂ (ShowsCall (construct config inputs).store) inputs.calls calls ∧
        List.Forall₂ (ShowsInherit (construct config inputs).store) inputs.inherits inherits := by
  obtain ⟨d₀, d₁, d₂, edges, imported, p, hphases⟩ := exists_phases config inputs
  -- backwards through the phases, since nothing that is reported is taken back
  have hclean : p.draft.Clean := by
    rw [Draft.Clean, ← hphases.diagnostics_eq]
    exact h
  rw [hphases.resolved] at hclean
  obtain ⟨hjoined, calls, inherits, hedges, hcalls, hinherits⟩ :=
    shown_resolveReferences hphases.labelled hclean
  have hgathered : d₀.Clean := by
    rw [Draft.Clean, ← hphases.joined.diagnostics]
    exact hjoined
  have hfirst : (addNodes config inputs).1 = d₀ := by rw [hphases.nodes]
  have hknown : containsEdges (filePaths (addSources config inputs).1.store) ++
      (addSources config inputs).2.toList ++
        (resolveImports config inputs (addPackages config inputs)).edges.toList = edges :=
    congrArg (fun n : Draft × List Edge × Imported => n.2.1) hphases.nodes
  obtain ⟨hsources, himports⟩ := clean_addNodes (by rw [hfirst]; exact hgathered)
  -- an edge shows in the finished store what it showed when its fact was resolved
  have hgrown := grown_addNodes config inputs
  rw [hfirst] at hgrown
  refine ⟨hsources, _, calls, inherits, ?_,
    himports.imp fun _ _ hi => hi.mono (hgrown.trans hphases.grown),
    hcalls.imp fun _ _ hc => hc.mono hphases.grown_joined,
    hinherits.imp fun _ _ hi => hi.mono hphases.grown_joined⟩
  rw [hphases.edges_eq, ← hknown, hphases.resolved, hedges]

theorem forall_of_forall₂ {φ : Type} {shows : φ → Edge → Prop} {xs : List φ} {es : List Edge}
    (h : List.Forall₂ shows xs es) {r : Relationship}
    (hr : ∀ {x e}, shows x e → e.relationship = r) : ∀ e ∈ es, e.relationship = r := by
  induction h with
  | nil => exact nofun
  | cons hshows _ ih =>
      intro e he
      rcases List.mem_cons.mp he with rfl | he
      · exact hr hshows
      · exact ih e he

/-- Of the edges of a build without a report those of one relationship stand together,
    and show the facts in their order. -/
theorem shown_of_clean {config : Config} {inputs : Inputs} (h : (construct config inputs).Clean) :
    let s := (construct config inputs).store
    (∀ e ∈ (addSources config inputs).2.toList, e ∈ s.edges) ∧
      List.Forall₂ (ShowsCall s) inputs.calls (s.edgesByRelationship .calls) ∧
      List.Forall₂ (ShowsImport s config.aliases) inputs.imports
        (s.edgesByRelationship .imports) ∧
      List.Forall₂ (ShowsInherit s) inputs.inherits (s.edgesByRelationship .inherits) := by
  intro s
  obtain ⟨-, imports, calls, inherits, hedges, himports, hcalls, hinherits⟩ := edges_of_clean h
  have hdefines := (addSources_spec config inputs).2.2
  -- each of the five lists has one relationship only
  have hrelated : ∀ r, s.edgesByRelationship r =
      (if .contains = r then containsEdges (filePaths (addSources config inputs).1.store)
        else []) ++
        (if .defines = r then (addSources config inputs).2.toList else []) ++
        (if .imports = r then imports else []) ++
        ((if .calls = r then calls else []) ++ (if .inherits = r then inherits else [])) := by
    intro r
    rw [(kept_sound.construct config inputs).edgesByRelationship_eq, hedges]
    simp only [List.filter_append]
    rw [filter_relationship (fun e he => (exists_of_mem_containsEdges he).1),
      filter_relationship (fun e he => (hdefines e (Array.mem_toList_iff.mp he)).1),
      filter_relationship (forall_of_forall₂ himports ShowsImport.relationship),
      filter_relationship (forall_of_forall₂ hcalls ShowsCall.relationship),
      filter_relationship (forall_of_forall₂ hinherits ShowsInherit.relationship)]
  refine ⟨?_, ?_, ?_, ?_⟩
  · intro e he
    rw [← Array.mem_toList_iff, hedges]
    simp only [List.mem_append]
    exact Or.inl (Or.inl (Or.inr he))
  · rw [hrelated]
    simpa using hcalls
  · rw [hrelated]
    simpa using himports
  · rw [hrelated]
    simpa using hinherits

/-! ## What a clean report vouches for -/

/-- Facts and edges correspond to each other, one to one. -/
def Matched {φ : Type} (shows : φ → Edge → Prop) (xs : List φ) (es : List Edge) : Prop :=
  ∃ ys, ys.Perm xs ∧ List.Forall₂ shows ys es

/-- No fact is left out but files without a path. -/
structure Covered (config : Config) (facts : List Fact) (s : Store) : Prop where
  files : ∀ f ∈ facts.filterMap Inputs.file?, f.path ≠ "" →
    Holds s (fileNode config (entryPaths facts) f)
  /-- No two facts tell of the same file. -/
  distinctFiles : (((facts.filterMap Inputs.file?).filter fun f => f.path ≠ "").map
    fun f => NodeId.file f.path).Nodup
  /-- A file without a path is passed over. -/
  pathless : NodeId.file "" ∉ s.nodes
  definitions : ∀ f ∈ facts.filterMap Inputs.definition?,
    Holds s (definitionNode f) ∧ definesEdge f ∈ s.edges
  /-- No two facts tell of the same definition. -/
  distinctDefinitions : ((facts.filterMap Inputs.definition?).map nodeIdOf).Nodup
  calls : Matched (ShowsCall s) (facts.filterMap Inputs.call?) (s.edgesByRelationship .calls)
  imports : Matched (ShowsImport s config.aliases) (facts.filterMap Inputs.import?)
    (s.edgesByRelationship .imports)
  inherits : Matched (ShowsInherit s) (facts.filterMap Inputs.inherit?)
    (s.edgesByRelationship .inherits)

/-- What stands alone in a list is found. -/
theorem find?_eq_some_of_unique {α : Type} {xs : List α} {p : α → Bool} {x : α} (hx : x ∈ xs)
    (hp : p x = true) (hunique : ∀ y ∈ xs, p y = true → y = x) : xs.find? p = some x := by
  cases hfound : xs.find? p with
  | none => exact absurd hp (List.find?_eq_none.mp hfound x hx)
  | some y => rw [hunique y (List.mem_of_find?_eq_some hfound) (List.find?_some hfound)]

/-- Among files with different paths each one leads. -/
theorem leadingFile?_eq_some {facts : List Fact}
    (h : (((facts.filterMap Inputs.file?).filter fun f => f.path ≠ "").map
      fun f => NodeId.file f.path).Nodup) {f : FileFact}
    (hf : f ∈ facts.filterMap Inputs.file?) (hpath : f.path ≠ "") :
    leadingFile? facts f.path = some f := by
  refine find?_eq_some_of_unique hf (decide_eq_true rfl) ?_
  intro g hg heq
  rw [decide_eq_true_eq] at heq
  have hin : ∀ e ∈ facts.filterMap Inputs.file?, e.path ≠ "" →
      e ∈ (facts.filterMap Inputs.file?).filter fun e => e.path ≠ "" :=
    fun e he hne => List.mem_filter.mpr ⟨he, decide_eq_true hne⟩
  refine List.inj_on_of_nodup_map h (hin g hg ?_) (hin f hf hpath) (congrArg NodeId.file heq)
  rw [heq]
  exact hpath

/-- Among named definitions with different identifiers each one leads. -/
theorem leadingDefinition?_eq_some {facts : List Fact}
    (h : ((facts.filterMap Inputs.definition?).map nodeIdOf).Nodup) {f : DefinitionFact}
    (hf : f ∈ facts.filterMap Inputs.definition?) (hnamed : isNamed f = true) :
    leadingDefinition? facts (nodeIdOf f) = some f := by
  refine find?_eq_some_of_unique (List.mem_mergeSort.mpr hf) ?_ ?_
  · rw [hnamed, decide_eq_true rfl]
    rfl
  · intro g hg heq
    rw [Bool.and_eq_true, decide_eq_true_eq] at heq
    exact List.inj_on_of_nodup_map h (List.mem_mergeSort.mp hg) hf heq.2

/-- **A build without a report leaves nothing out** but files without a path. -/
theorem covered_of_clean (config : Config) (b : Batch)
    (h : (construct config (Inputs.gather b)).Clean) :
    Covered config b.facts (construct config (Inputs.gather b)).store := by
  obtain ⟨hdefines, hcalls, himports, hinherits⟩ := shown_of_clean h
  have hsorted : (Inputs.gather b).files.Perm (b.facts.filterMap Inputs.file?) ∧
      (Inputs.gather b).definitions.Perm (b.facts.filterMap Inputs.definition?) :=
    ⟨List.mergeSort_perm _ _, List.mergeSort_perm _ _⟩
  obtain ⟨hsources, hnamed, hids⟩ := nodup_addDefinitions config (Inputs.gather b).entryPaths
    (Inputs.gather b).definitions (edges_of_clean h).1
  obtain ⟨-, hpaths⟩ := nodup_addFiles config (Inputs.gather b).entryPaths
    (Inputs.gather b).files hsources
  have hjoined : (addSources config (Inputs.gather b)).2.toList =
      (Inputs.gather b).definitions.map definesEdge := by
    rw [addSources, toList_addDefinitions config _ _ (led_addFiles config (Inputs.gather b) _ rfl),
      List.filter_eq_self.mpr hnamed]
    refine foldl_addNew ?_
    rw [List.nil_append, List.map_map]
    exact hids
  -- from here on the facts stand in the order of the stream
  rw [((hsorted.1.filter _).map _).nodup_iff] at hpaths
  rw [(hsorted.2.map _).nodup_iff] at hids
  refine ⟨?_, hpaths, pathless_not_mem config _, ?_, hids,
    ⟨_, List.mergeSort_perm _ _, hcalls⟩, ⟨_, List.mergeSort_perm _ _, himports⟩,
    ⟨_, List.mergeSort_perm _ _, hinherits⟩⟩
  · intro f hf hpath
    have hfound := find?_proposals_file config b hpath (leadingFile?_eq_some hpaths hf hpath)
    exact (holds_of_find?_proposals config _ hfound).2
  · intro f hf
    have hin := hsorted.2.mem_iff.mpr hf
    have hfound := find?_proposals_definition config b
      (leadingDefinition?_eq_some hids hf (hnamed f hin))
    refine ⟨(holds_of_find?_proposals config _ hfound).2, hdefines _ ?_⟩
    rw [hjoined]
    exact List.mem_map_of_mem hin

/-- **A clean report vouches for every fact** but files without a path. -/
theorem covered_of_isClean (config : Config) (batches : List Batch)
    (h : (ofBatches config batches).2.isClean = true) :
    Covered config (batches.flatMap (·.facts)) (ofBatches config batches).1 := by
  have hmerged := (foldl_merge batches {}).1
  rw [List.nil_append] at hmerged
  rw [← hmerged]
  refine covered_of_clean config _ ?_
  rw [Report.isClean, Bool.and_eq_true, List.isEmpty_iff] at h
  exact Array.toList_eq_nil_iff.mp h.1

/-- A file, a function in it that calls itself, and a package that it imports. -/
theorem covered_smallest :
    let batches : List Batch := [⟨[.file { path := "a.py" },
      .definition { file := "a.py", name := "f", kind := .function },
      .call { file := "a.py", caller := "f", callee := "f" },
      .import { file := "a.py", module := "numpy" }], [], []⟩]
    (ofBatches {} batches).2.isClean = true ∧
      Covered {} (batches.flatMap (·.facts)) (ofBatches {} batches).1 := by
  intro batches
  have hclean : (ofBatches {} batches).2.isClean = true := by decide +kernel
  exact ⟨hclean, covered_of_isClean {} batches hclean⟩

/-- A file whose path means the root is passed over, and nothing is reported. -/
theorem pathless_file_isClean :
    let (s, r) := ofBatches {} [⟨[.file { path := "./" }], [], []⟩]
    r.isClean = true ∧ s.nodeCount = 0 := by
  decide +kernel

end CodeGraph.Build

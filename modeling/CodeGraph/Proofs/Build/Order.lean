import CodeGraph.Build.Construction
import CodeGraph.Proofs.Sorting
/-! # Order — the order of facts does not matter

    A build sorts its facts before it looks at them.  So the graph depends on
    which facts there are, not on the order in which they were gathered nor on
    how they were divided into batches, as long as they are coherent.

    * Each list of facts is sorted by an order that tells coherent facts apart.
    * `Inputs.Alike`: inputs that differ in what is reported about them at most;
      `Inputs.Akin` leaves files and definitions aside.
    * `Draft.Same`: drafts that differ in their diagnostics at most; each phase
      of a construction takes alike inputs to same drafts. -/

namespace CodeGraph.Build

open Std

/-! ## Orders -/

instance : TransCmp fileOrder := inferInstanceAs (TransCmp (compareOn _))

instance : TransCmp definitionOrder :=
  inferInstanceAs (TransCmp (compareLex _ (compareLex _ (compareLex _ _))))

instance : TransCmp callOrder :=
  inferInstanceAs (TransCmp (compareLex _ (compareLex _ (compareLex _ (compareLex _ _)))))

instance : TransCmp importOrder :=
  inferInstanceAs (TransCmp (compareLex _ (compareLex _ (compareLex _ _))))

instance : TransCmp inheritOrder :=
  inferInstanceAs (TransCmp (compareLex _ (compareLex _ (compareLex _ _))))

instance : TransCmp failureOrder := inferInstanceAs (TransCmp (compareOn _))

/-- The order of definitions tells apart what a coherent list tells apart. -/
theorem definitionOrder_eq {d e : DefinitionFact} (h : definitionOrder d e = .eq) :
    d.file = e.file ∧ d.qualifiedName = e.qualifiedName ∧ d.kind = e.kind ∧
      d.lineNumber = e.lineNumber := by
  simp only [definitionOrder, compareLex_eq_eq, compareOn, Std.compare_eq_iff_eq] at h
  obtain ⟨hfile, hname, hkind, hline⟩ := h
  refine ⟨hfile, hname, ?_, hline⟩
  revert hkind
  cases d.kind <;> cases e.kind <;> decide

/-- The order of calls tells all calls apart. -/
theorem callOrder_eq {c c' : CallFact} (h : callOrder c c' = .eq) : c = c' := by
  simp only [callOrder, compareLex_eq_eq, compareOn, Std.compare_eq_iff_eq] at h
  obtain ⟨hfile, hcaller, hcallee, hhint, hline⟩ := h
  cases c
  cases c'
  simp_all

/-- The order of imports tells all imports apart. -/
theorem importOrder_eq {i i' : ImportFact} (h : importOrder i i' = .eq) : i = i' := by
  simp only [importOrder, compareLex_eq_eq, compareOn, Std.compare_eq_iff_eq] at h
  obtain ⟨hfile, hmodule, hname, hline⟩ := h
  cases i
  cases i'
  simp_all

/-- The order of inheritances tells all inheritances apart. -/
theorem inheritOrder_eq {i i' : InheritFact} (h : inheritOrder i i' = .eq) : i = i' := by
  simp only [inheritOrder, compareLex_eq_eq, compareOn, Std.compare_eq_iff_eq] at h
  obtain ⟨hfile, hclass, hbase, hhint⟩ := h
  cases i
  cases i'
  simp_all

/-! ## Coherent facts -/

/-- The packages that the manifests among some facts declare. -/
def declarations (facts : List Fact) : List DeclaredDependency :=
  (facts.filterMap Inputs.manifest?).flatMap (·.dependencies)

/-- Facts that do not contradict each other: one file for a path, one definition
    for a line and a name, and at most one version for a package. -/
structure Coherent (facts : List Fact) : Prop where
  files : ∀ (f g : FileFact), f ∈ facts.filterMap Inputs.file? →
    g ∈ facts.filterMap Inputs.file? → f.path = g.path → f = g
  definitions : ∀ (d e : DefinitionFact), d ∈ facts.filterMap Inputs.definition? →
    e ∈ facts.filterMap Inputs.definition? → d.file = e.file →
    d.qualifiedName = e.qualifiedName → d.kind = e.kind →
    d.lineNumber = e.lineNumber → d = e
  versions : ∀ (d e : DeclaredDependency), d ∈ declarations facts →
    e ∈ declarations facts → d.name = e.name →
    ∀ (v w : String), d.version = some v → e.version = some w → v = w

/-- Two declarations that agree on the version can be made in either order. -/
theorem declare_right_comm (m : ExtTreeMap String (Option String))
    {d e : DeclaredDependency} (h : d.name = e.name →
      ∀ (v w : String), d.version = some v → e.version = some w → v = w) :
    Inputs.declare (Inputs.declare m d) e = Inputs.declare (Inputs.declare m e) d := by
  refine ExtTreeMap.ext_getElem? fun k => ?_
  simp only [Inputs.declare, ExtTreeMap.getElem?_insert, ExtTreeMap.getD_insert,
    Std.compare_eq_iff_eq]
  by_cases hname : d.name = e.name
  · rw [hname] at h ⊢
    have hversion := h rfl
    by_cases hk : e.name = k
    · simp only [hk, if_true]
      rcases m.getD k none with _ | v
      · rcases hd : d.version with _ | v <;> rcases he : e.version with _ | w
        · rfl
        · rfl
        · rfl
        · rw [hversion v w hd he]
      · rfl
    · simp only [hk, if_false]
  · by_cases hd : d.name = k
    · by_cases he : e.name = k
      · exact absurd (hd.trans he.symm) hname
      · simp only [hd, he, if_true, if_false]
    · by_cases he : e.name = k
      · simp only [hd, he, if_true, if_false]
      · simp only [hd, he, if_false]

/-! ## Inputs -/

/-- Inputs that are the same once files and definitions are added, but for the
    wording of failures and the lines that were left out. -/
structure Inputs.Akin (i i' : Inputs) : Prop where
  calls : i.calls = i'.calls
  imports : i.imports = i'.imports
  inherits : i.inherits = i'.inherits
  declared : i.declared = i'.declared
  failures : i.failures.map (·.path) = i'.failures.map (·.path)

/-- Inputs that differ in what is reported about them at most: in the wording of
    failures, in lines that were left out, and in how often and in which order
    entry points are named. -/
structure Inputs.Alike (i i' : Inputs) : Prop extends i.Akin i' where
  files : i.files = i'.files
  definitions : i.definitions = i'.definitions
  entryPaths : ∀ (path : String), i.entryPaths.contains path = i'.entryPaths.contains path

/-- Sorted by path, failures are known by their paths up to the wording. -/
theorem map_path_sortBy (fs : List ParseFailure) :
    (sortBy failureOrder fs).map (·.path) = sortBy compare (fs.map (·.path)) := by
  rw [sortBy, sortBy, List.map_mergeSort]
  intro f _ g _
  rfl

/-- References and failures are sorted out alike, in whichever order they are
    gathered. -/
theorem Inputs.gather_akin {b b' : Batch} (hfacts : b.facts.Perm b'.facts)
    (hfailures : b.failures.Perm b'.failures)
    (hdeclared : (gather b).declared = (gather b').declared) :
    (gather b).Akin (gather b') where
  calls := Sorting.mergeSort_eq_of_perm (hfacts.filterMap call?)
    fun _ _ _ _ => callOrder_eq
  imports := Sorting.mergeSort_eq_of_perm (hfacts.filterMap import?)
    fun _ _ _ _ => importOrder_eq
  inherits := Sorting.mergeSort_eq_of_perm (hfacts.filterMap inherit?)
    fun _ _ _ _ => inheritOrder_eq
  declared := hdeclared
  failures := by
    show List.map (·.path) (sortBy failureOrder _) = List.map (·.path) (sortBy failureOrder _)
    rw [map_path_sortBy, map_path_sortBy]
    exact Sorting.mergeSort_eq_of_perm ((hfailures.map _).map _)
      fun _ _ _ _ => Std.compare_eq_iff_eq.mp

/-- The order of facts does not matter for which entry points are named. -/
theorem Inputs.contains_entryPaths {b b' : Batch} (hfacts : b.facts.Perm b'.facts)
    (path : String) :
    (gather b).entryPaths.contains path = (gather b').entryPaths.contains path :=
  (((hfacts.filterMap manifest?).flatMap_right _).map Path.normalize).contains_eq

/-- **Coherent facts are sorted out alike,** in whichever order they are gathered. -/
theorem Inputs.gather_alike {b b' : Batch} (hfacts : b.facts.Perm b'.facts)
    (hfailures : b.failures.Perm b'.failures) (hcoherent : Coherent b.facts) :
    (gather b).Alike (gather b') where
  toAkin := by
    refine gather_akin hfacts hfailures ?_
    refine ((hfacts.filterMap manifest?).flatMap_right _).foldl_eq' ?_ ∅
    intro d hd e he m
    exact declare_right_comm m (hcoherent.versions d e hd he)
  files := by
    refine Sorting.mergeSort_eq_of_perm (hfacts.filterMap file?) fun f g hf hg h => ?_
    exact hcoherent.files f g hf hg (Std.compare_eq_iff_eq.mp h)
  definitions := by
    refine Sorting.mergeSort_eq_of_perm (hfacts.filterMap definition?) fun d e hd he h => ?_
    obtain ⟨hfile, hname, hkind, hline⟩ := definitionOrder_eq h
    exact hcoherent.definitions d e hd he hfile hname hkind hline
  entryPaths := contains_entryPaths hfacts

/-! ## Drafts -/

/-- Drafts that differ in their diagnostics at most. -/
structure Draft.Same (d d' : Draft) : Prop where
  store : d.store = d'.store
  dropped : d.dropped = d'.dropped

namespace Draft.Same

variable {d d' : Draft}

theorem note (h : d.Same d') (x x' : Diagnostic) : (d.note x).Same (d'.note x') :=
  ⟨h.store, h.dropped⟩

theorem drop (h : d.Same d') (x x' : Diagnostic) : (d.drop x).Same (d'.drop x') :=
  ⟨h.store, congrArg (· + 1) h.dropped⟩

theorem insertNode (h : d.Same d') (id : NodeId) (kind : NodeKind) (a : Attributes) :
    (d.insertNode id kind a).Same (d'.insertNode id kind a) := by
  rw [Draft.insertNode, Draft.insertNode, h.store]
  split
  · exact ⟨rfl, h.dropped⟩
  · exact h.note _ _

theorem ensureNode (h : d.Same d') (id : NodeId) (kind : NodeKind) (a : Attributes) :
    (d.ensureNode id kind a).Same (d'.ensureNode id kind a) := by
  rw [Draft.ensureNode, Draft.ensureNode, h.store]
  split
  · exact h
  · exact h.insertNode id kind a

theorem enrich (h : d.Same d') (id : NodeId) (key : String) (value : Json) :
    (d.enrich id key value).Same (d'.enrich id key value) := by
  rw [Draft.enrich, Draft.enrich, h.store]
  split
  · exact ⟨rfl, h.dropped⟩
  · exact h.note _ _

theorem connect (h : d.Same d') (e : Edge) : (d.connect e).Same (d'.connect e) := by
  have hadd : (connect.add d e).Same (connect.add d' e) := by
    rw [connect.add, connect.add, h.store]
    split
    · exact ⟨rfl, h.dropped⟩
    · exact h.drop _ _
  rw [Draft.connect, Draft.connect, h.store]
  split
  · split
    · exact hadd
    · exact h.drop _ _
  · exact hadd

/-- A step that keeps drafts the same does so however often it is taken. -/
theorem foldl {α : Type} {f : Draft → α → Draft}
    (hf : ∀ {d d' : Draft}, d.Same d' → ∀ (x : α), (f d x).Same (f d' x))
    (h : d.Same d') (xs : List α) : (xs.foldl f d).Same (xs.foldl f d') :=
  List.foldl_rel h fun x _ _ _ h => hf h x

end Draft.Same

/-! ## Phases -/

variable (config : Config) {inputs inputs' : Inputs}

/-- The attributes of files depend on which entry points are named, and on nothing
    else of their list. -/
theorem fileAttributes_congr {entryPaths entryPaths' : List String}
    (h : ∀ (path : String), entryPaths.contains path = entryPaths'.contains path) :
    fileAttributes config entryPaths = fileAttributes config entryPaths' := by
  funext path
  rw [fileAttributes, fileAttributes, isEntryPath, isEntryPath, h path]

/-- Sources that are the same in the graph and in the edges to be joined. -/
abbrev SameSources (config : Config) (inputs inputs' : Inputs) : Prop :=
  (addSources config inputs).1.Same (addSources config inputs').1 ∧
    (addSources config inputs).2 = (addSources config inputs').2

/-- Files and definitions are added alike. -/
theorem addSources_alike (h : inputs.Alike inputs') : SameSources config inputs inputs' := by
  unfold SameSources
  have hfile : ∀ {d d' : Draft}, d.Same d' → ∀ (f : FileFact),
      (addFile config inputs.entryPaths d f).Same (addFile config inputs'.entryPaths d' f) := by
    intro d d' hd f
    rw [addFile, addFile, fileAttributes_congr config h.entryPaths]
    split
    · exact hd
    · exact hd.insertNode _ _ _
  rw [addSources, addSources, ← h.files, ← h.definitions]
  refine List.foldl_rel (r := fun p p' : Draft × Array Edge => p.1.Same p'.1 ∧ p.2 = p'.2)
    ⟨List.foldl_rel (r := Draft.Same) ⟨rfl, rfl⟩ fun f _ _ _ hd => hfile hd f, rfl⟩ ?_
  rintro f - ⟨d, edges⟩ ⟨d', edges'⟩ ⟨hd, rfl⟩
  rw [addDefinition, addDefinition, fileAttributes_congr config h.entryPaths]
  dsimp only
  split
  · have hd := hd.ensureNode (.file f.file) .file
      ((fileAttributes config inputs'.entryPaths f.file).insert Attribute.implicit (.bool true))
    refine ⟨hd.insertNode _ _ _, ?_⟩
    rw [hd.store]
  · exact ⟨hd.note _ _, rfl⟩

/-- Imports whose resolution differs in diagnostics at most. -/
structure ImportPhase.Same (p p' : ImportPhase) : Prop where
  draft : p.draft.Same p'.draft
  edges : p.edges = p'.edges
  imported : p.imported = p'.imported

/-- Imports are resolved alike. -/
theorem resolveImports_alike (h : inputs.Akin inputs') {d d' : Draft} (hd : d.Same d') :
    (resolveImports config inputs d).Same (resolveImports config inputs' d') := by
  rw [resolveImports, resolveImports, ← h.imports, ← h.declared, ← hd.store]
  refine List.foldl_rel (r := ImportPhase.Same) ⟨hd, rfl, rfl⟩ ?_
  rintro i - p p' ⟨hd, hedges, himported⟩
  cases resolveImport d.store (moduleIndex d.store) config.aliases i with
  | error x => exact ⟨hd.drop x x, hedges, himported⟩
  | ok target =>
      refine ⟨?_, congrArg (·.push (importEdge i target)) hedges,
        congrArg (·.note i target) himported⟩
      cases target with
      | inside m => exact hd
      | outside package => exact hd.ensureNode _ _ _

/-- References whose resolution differs in diagnostics at most. -/
structure ReferencePhase.Same (p p' : ReferencePhase) : Prop where
  draft : p.draft.Same p'.draft
  edges : p.edges = p'.edges
  unresolved : p.unresolved = p'.unresolved

/-- Calls and inheritances are resolved alike. -/
theorem resolveReferences_alike (h : inputs.Akin inputs') {d d' : Draft} (hd : d.Same d')
    (imported : Imported) :
    (resolveReferences inputs imported d).Same (resolveReferences inputs' imported d') := by
  rw [resolveReferences, resolveReferences, ← h.calls, ← h.inherits, ← hd.store]
  refine List.foldl_rel (r := ReferencePhase.Same)
    (List.foldl_rel (r := ReferencePhase.Same) ⟨hd, rfl, rfl⟩ ?_) ?_
  · rintro c - p p' ⟨hd, hedges, hunresolved⟩
    cases resolveCall d.store imported c with
    | edge e => exact ⟨hd, congrArg (·.push e) hedges, hunresolved⟩
    | noCaller => exact ⟨hd.drop _ _, hedges, hunresolved⟩
    | noCallee caller =>
        refine ⟨hd.drop _ _, hedges, ?_⟩
        show p.unresolved.alter caller _ = p'.unresolved.alter caller _
        rw [hunresolved]
  · rintro i - p p' ⟨hd, hedges, hunresolved⟩
    cases resolveInherit d.store imported i with
    | ok e => exact ⟨hd, congrArg (·.push e) hedges, hunresolved⟩
    | error x => exact ⟨hd.drop x x, hedges, hunresolved⟩

/-- Which paths fail does not depend on the wording of failures. -/
theorem map_path_firstFailures {fs fs' : List ParseFailure}
    (h : fs.map (·.path) = fs'.map (·.path)) :
    (firstFailures fs).map (·.path) = (firstFailures fs').map (·.path) := by
  induction fs using firstFailures.induct generalizing fs' with
  | case1 =>
      rw [List.map_eq_nil_iff.mp h.symm]
  | case2 f rest ih =>
      obtain ⟨g, rest', rfl, hpath, hrest⟩ := List.map_eq_cons_iff.mp h.symm
      rw [firstFailures, firstFailures, List.map_cons, List.map_cons, hpath]
      refine congrArg (f.path :: ·) (ih ?_)
      have hdrop : ∀ (gs : List ParseFailure),
          (gs.dropWhile fun g => g.path = f.path).map (·.path) =
            (gs.map (·.path)).dropWhile fun path => path = f.path := by
        intro gs
        rw [List.dropWhile_map]
        rfl
      rw [hdrop, hdrop, hrest]

/-- Files are marked alike. -/
theorem markFailures_alike {fs fs' : List ParseFailure}
    (h : fs.map (·.path) = fs'.map (·.path)) {d d' : Draft} (hd : d.Same d') :
    (fs.foldl markFailure d).Same (fs'.foldl markFailure d') := by
  -- A mark depends on the path alone, so both are folds over the same paths.
  have hmark : ∀ (gs : List ParseFailure) (d : Draft), gs.foldl markFailure d =
      (gs.map (·.path)).foldl (fun d path => markFailure d ⟨path, ""⟩) d := by
    intro gs d
    rw [List.foldl_map]
    rfl
  rw [hmark, hmark, h]
  refine Draft.Same.foldl ?_ hd _
  intro d d' hd path
  rw [markFailure, markFailure, hd.store]
  split
  · exact hd.enrich _ _ _
  · exact hd

/-- **Nodes are added alike** to the same sources, and the edges known by then are
    the same. -/
theorem addNodes_alike (hsources : SameSources config inputs inputs')
    (h : inputs.Akin inputs') :
    (addNodes config inputs).1.Same (addNodes config inputs').1 ∧
      (addNodes config inputs).2 = (addNodes config inputs').2 := by
  unfold SameSources at hsources
  rw [addNodes, addNodes]
  revert hsources
  rcases addSources config inputs with ⟨d, defines⟩
  rcases addSources config inputs' with ⟨d', defines'⟩
  rintro ⟨hd, rfl⟩
  dsimp only at hd ⊢
  -- the phases follow each other: directories, packages, imports, marks
  have hdirectories := hd.foldl (f := addDirectory) (fun hd _ => hd.ensureNode _ _ _)
    ((filePaths d.store).flatMap Path.ancestors)
  have hpackages := hdirectories.foldl (f := addPackage inputs.declared)
    (fun hd _ => hd.ensureNode _ _ _) inputs.declared.keys
  have himports := resolveImports_alike config h hpackages
  rw [← hd.store, ← h.declared]
  refine ⟨markFailures_alike (map_path_firstFailures h.failures) himports.draft, ?_⟩
  rw [himports.edges, himports.imported]

/-- **Akin inputs build the same graph** on the same sources. -/
theorem construct_same (hsources : SameSources config inputs inputs')
    (h : inputs.Akin inputs') :
    (construct config inputs).Same (construct config inputs') := by
  have hnodes := addNodes_alike config hsources h
  rw [construct, construct]
  revert hnodes
  rcases addNodes config inputs with ⟨d, edges, imported⟩
  rcases addNodes config inputs' with ⟨d', edges', imported'⟩
  rintro ⟨hd, heq⟩
  obtain ⟨rfl, rfl⟩ := Prod.mk.inj heq
  have hp := resolveReferences_alike h
    (hd.foldl (f := Draft.connect) (fun hd e => hd.connect e) edges) imported
  dsimp only at hd hp ⊢
  rw [← hp.edges, ← hp.unresolved, ← Array.foldl_toList, ← Array.foldl_toList]
  have hjoined := hp.draft.foldl (f := Draft.connect) (fun hd e => hd.connect e)
    (resolveReferences inputs imported (edges.foldl Draft.connect d)).edges.toList
  refine Draft.Same.foldl ?_ hjoined _
  intro d d' hd u
  exact hd.enrich u.1 _ _

/-- **Alike inputs build the same graph.** -/
theorem construct_alike (h : inputs.Alike inputs') :
    (construct config inputs).Same (construct config inputs') :=
  construct_same config (addSources_alike config h) h.toAkin

/-! ## Facts that are in order already -/

/-- The inputs of a batch whose facts are in order already. -/
def Inputs.listed (b : Batch) : Inputs :=
  let manifests := b.facts.filterMap manifest?
  { files := b.facts.filterMap file?
    definitions := b.facts.filterMap definition?
    calls := b.facts.filterMap call?
    imports := b.facts.filterMap import?
    inherits := b.facts.filterMap inherit?
    entryPaths := (manifests.flatMap (·.entryPoints)).map Path.normalize
    declared := (manifests.flatMap (·.dependencies)).foldl declare ∅
    failures := b.failures.map fun f => { f with path := Path.normalize f.path }
    malformed := b.malformed }

/-- Facts in the order in which they are sorted. -/
def InOrder (i : Inputs) : Prop :=
  (i.files.Pairwise fun a b => (fileOrder a b).isLE) ∧
    (i.definitions.Pairwise fun a b => (definitionOrder a b).isLE) ∧
    (i.calls.Pairwise fun a b => (callOrder a b).isLE) ∧
    (i.imports.Pairwise fun a b => (importOrder a b).isLE) ∧
    (i.inherits.Pairwise fun a b => (inheritOrder a b).isLE) ∧
    i.failures.Pairwise fun a b => (failureOrder a b).isLE

instance (i : Inputs) : Decidable (InOrder i) :=
  inferInstanceAs (Decidable (_ ∧ _ ∧ _ ∧ _ ∧ _ ∧ _))

/-- Facts in order are gathered as they stand. -/
theorem gather_of_inOrder {b : Batch} (h : InOrder (Inputs.listed b)) :
    Inputs.gather b = Inputs.listed b := by
  obtain ⟨hfiles, hdefinitions, hcalls, himports, hinherits, hfailures⟩ := h
  exact (Inputs.mk.injEq ..).mpr ⟨List.mergeSort_of_pairwise hfiles,
    List.mergeSort_of_pairwise hdefinitions, List.mergeSort_of_pairwise hcalls,
    List.mergeSort_of_pairwise himports, List.mergeSort_of_pairwise hinherits, rfl, rfl,
    List.mergeSort_of_pairwise hfailures, rfl⟩

/-! ## Batches -/

/-- Batches that are merged hold what each of them holds. -/
theorem foldl_merge (bs : List Batch) (b : Batch) :
    (bs.foldl Batch.merge b).facts = b.facts ++ bs.flatMap (·.facts) ∧
      (bs.foldl Batch.merge b).failures = b.failures ++ bs.flatMap (·.failures) := by
  induction bs generalizing b with
  | nil => simp
  | cons c bs ih =>
      rw [List.foldl_cons, (ih (b.merge c)).1, (ih (b.merge c)).2]
      simp [Batch.merge]

/-- Merged batches hold the facts of all. -/
theorem facts_merged (batches : List Batch) :
    (batches.foldl Batch.merge {}).facts = batches.flatMap (·.facts) :=
  (foldl_merge batches {}).1

/-- **A build depends on which facts and failures there are** and neither on
    their order nor on how they are divided into batches, if the facts are
    coherent.  The graphs are the same down to the order of their edges. -/
theorem ofBatches_eq_of_perm (config : Config) {bs bs' : List Batch}
    (hfacts : (bs.flatMap (·.facts)).Perm (bs'.flatMap (·.facts)))
    (hfailures : (bs.flatMap (·.failures)).Perm (bs'.flatMap (·.failures)))
    (hcoherent : Coherent (bs.flatMap (·.facts))) :
    let (s, r) := ofBatches config bs
    let (s', r') := ofBatches config bs'
    s = s' ∧ r.nodesCreated = r'.nodesCreated ∧ r.edgesCreated = r'.edgesCreated ∧
      r.edgesDropped = r'.edgesDropped ∧ r.filesSkipped = r'.filesSkipped := by
  have hmerge := foldl_merge bs {}
  have hmerge' := foldl_merge bs' {}
  have halike : (Inputs.gather (bs.foldl Batch.merge {})).Alike
      (Inputs.gather (bs'.foldl Batch.merge {})) := by
    refine Inputs.gather_alike ?_ ?_ ?_
    · rw [hmerge.1, hmerge'.1]
      exact hfacts
    · rw [hmerge.2, hmerge'.2]
      exact hfailures
    · rw [hmerge.1]
      exact hcoherent
  have hsame := construct_alike config halike
  have hskipped := congrArg List.length (map_path_firstFailures halike.failures)
  rw [List.length_map, List.length_map] at hskipped
  refine ⟨hsame.store, ?_, ?_, hsame.dropped, hskipped⟩
  · exact congrArg Store.nodeCount hsame.store
  · exact congrArg Store.edgeCount hsame.store

/-- A small project: a file told of twice, a definition in a file that is not
    told of, and a package whose version one manifest leaves open. -/
def smallProject : List Fact :=
  [.manifest { entryPoints := ["./app.py"], dependencies := [⟨"numpy", none⟩] },
   .file { path := "./app.py" },
   .definition { file := "app.py", name := "run", kind := .function },
   .definition { file := "lib\\text.py", name := "wrap", kind := .function },
   .import { file := "app.py", module := "numpy" },
   .call { file := "app.py", caller := "run", callee := "wrap" },
   .manifest { dependencies := [⟨"numpy", some "2.1"⟩] },
   .file { path := "app.py" }]

theorem coherent_smallProject : Coherent smallProject where
  files := by
    have h : smallProject.filterMap Inputs.file? =
        [{ path := "app.py" }, { path := "app.py" }] := by cbv
    rw [h]
    simp
  definitions := by
    have h : smallProject.filterMap Inputs.definition? =
        [{ file := "app.py", name := "run", kind := .function },
         { file := "lib/text.py", name := "wrap", kind := .function }] := by cbv
    rw [h]
    simp only [List.mem_cons, List.not_mem_nil, or_false]
    rintro d e (rfl | rfl) (rfl | rfl) hfile
    · intro _ _ _
      rfl
    · exact absurd hfile (by decide)
    · exact absurd hfile (by decide)
    · intro _ _ _
      rfl
  versions := by
    have h : declarations smallProject = [⟨"numpy", none⟩, ⟨"numpy", some "2.1"⟩] := by cbv
    rw [h]
    simp only [List.mem_cons, List.not_mem_nil, or_false]
    rintro d e (rfl | rfl) (rfl | rfl) - v w hv hw
    · cases hv
    · cases hv
    · cases hw
    · cases hv
      cases hw
      rfl

/-- The project in one batch, and turned round in two. -/
theorem ofBatches_smallProject :
    let bs : List Batch := [⟨smallProject, [⟨"a.c", "syntax"⟩, ⟨"b.c", "encoding"⟩], []⟩]
    let bs' : List Batch :=
      [⟨smallProject.drop 4, [⟨"b.c", "encoding"⟩], []⟩,
       ⟨smallProject.take 4, [⟨"a.c", "syntax"⟩], []⟩]
    (bs.flatMap (·.facts)).Perm (bs'.flatMap (·.facts)) ∧
      (bs.flatMap (·.failures)).Perm (bs'.flatMap (·.failures)) ∧
      Coherent (bs.flatMap (·.facts)) ∧
      (ofBatches {} bs).1 = (ofBatches {} bs').1 ∧
      (ofBatches {} bs).2.edgesDropped = (ofBatches {} bs').2.edgesDropped := by
  intro bs bs'
  have hfacts : (bs.flatMap (·.facts)).Perm (bs'.flatMap (·.facts)) := by
    show (smallProject ++ []).Perm (smallProject.drop 4 ++ (smallProject.take 4 ++ []))
    rw [List.append_nil, List.append_nil]
    conv_lhs => rw [← List.take_append_drop 4 smallProject]
    exact List.perm_append_comm
  have hfailures : (bs.flatMap (·.failures)).Perm (bs'.flatMap (·.failures)) := by
    show ([⟨"a.c", "syntax"⟩, ⟨"b.c", "encoding"⟩] : List ParseFailure).Perm
      [⟨"b.c", "encoding"⟩, ⟨"a.c", "syntax"⟩]
    exact List.Perm.swap _ _ []
  have hcoherent : Coherent (bs.flatMap (·.facts)) := by
    show Coherent (smallProject ++ [])
    rw [List.append_nil]
    exact coherent_smallProject
  have h := ofBatches_eq_of_perm {} hfacts hfailures hcoherent
  exact ⟨hfacts, hfailures, hcoherent, h.1, h.2.2.2.1⟩

end CodeGraph.Build

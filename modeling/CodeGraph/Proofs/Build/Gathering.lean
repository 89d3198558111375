import CodeGraph.Proofs.Build.Resolution
/-! # Gathering — the nodes of a build, and the edges known by then

    Before anything is joined a build gathers all its nodes.  The edges that it
    collects on the way can all be joined.

    * A `defines` edge leads from a file to a definition that names it
      (`Defines`); a `contains` edge leads from a directory to what lies in it.
    * Each import becomes an edge or is left out, so the edges and the drops
      together are as many as the imports.
    * `gathered_addNodes` collects what is true then. -/

namespace CodeGraph.Build

open Std

variable {s s' : Store} {d : Draft}

/-- A fold takes as many steps as the list is long. -/
theorem foldl_counted {α β : Type} {f : β → α → β} {motive : Nat → β → Prop}
    (hstep : ∀ k b x, motive k b → motive (k + 1) (f b x)) (xs : List α) {k : Nat} {b : β}
    (h : motive k b) : motive (k + xs.length) (xs.foldl f b) := by
  induction xs generalizing k b with
  | nil => exact h
  | cons x xs ih =>
      have hrest := ih (hstep k b x h)
      rw [Nat.add_right_comm] at hrest
      exact hrest

/-- Whether an edge stems from a reference of a fact. -/
def isReference (e : Edge) : Bool :=
  match e.relationship with
  | .imports | .calls | .inherits => true
  | .contains | .defines => false

/-! ## Files and definitions -/

/-- An edge from a file to a definition that says it is in that file. -/
def Defines (s : Store) (e : Edge) : Prop :=
  e.relationship = .defines ∧ ∃ path n, e.source = .file path ∧ HasKind s e.source .file ∧
    s.nodes[e.target]? = some n ∧ n.kind.isDefinition = true ∧
    n.text? Attribute.definingFile = some path

theorem Grown.defines (h : Grown s s') {e : Edge} (he : Defines s e) : Defines s' e := by
  obtain ⟨hrel, path, n, hsource, hfile, hn, hdef, htext⟩ := he
  obtain ⟨n', hn', hkind, hattr⟩ := h _ _ hn
  rw [← hkind] at hdef
  exact ⟨hrel, path, n', hsource, h.hasKind hfile, hn', hdef, text?_mono hattr htext⟩

/-- An edge from a file to a definition in it can be joined. -/
theorem Defines.joinable {e : Edge} (h : Defines s e) : Joinable s e := by
  obtain ⟨hrel, path, n, -, hfile, hn, hdef, -⟩ := h
  refine ⟨.file, n.kind, hfile, ⟨n, hn, rfl⟩, ?_⟩
  rw [hrel]
  cases hk : n.kind with
  | function | «class» => rfl
  | file | directory | dependency =>
      rw [hk] at hdef
      cases hdef

theorem steps_addFile (config : Config) (entryPaths : List String) (d : Draft)
    (f : FileFact) : Draft.Steps d (addFile config entryPaths d f) := by
  rw [addFile]
  split
  · exact .refl
  · refine Draft.steps_insertNode ?_
    refine Regular.setOptional ?_ _ (by decide)
    exact Regular.setOptional (regular_file config entryPaths f.path) _ (by decide)

/-- A definition is added with an edge to it. -/
theorem addDefinition_spec (config : Config) (entryPaths : List String)
    {p : Draft × Array Edge} (htidy : p.1.Tidy) (hedges : ∀ e ∈ p.2, Defines p.1.store e)
    (f : DefinitionFact) :
    Draft.Steps p.1 (addDefinition config entryPaths p f).1 ∧
      ∀ e ∈ (addDefinition config entryPaths p f).2,
        Defines (addDefinition config entryPaths p f).1.store e := by
  obtain ⟨d, edges⟩ := p
  rw [addDefinition]
  dsimp only at htidy hedges ⊢
  split
  · have himplicit := (regular_file config entryPaths f.file).insert (.bool true)
      (by decide : Attribute.implicit ∉ reservedKeys)
    have hensure : Draft.Steps d _ := Draft.steps_ensureNode himplicit
    have hfile := htidy.hasKind_ensureNode himplicit
    generalize d.ensureNode (.file f.file) .file _ = d₁ at hensure hfile ⊢
    have hinsert : Draft.Steps d₁ _ := Draft.steps_insertNode (regular_definition f)
    have hsteps : Draft.Steps d _ := hensure.trans hinsert
    refine ⟨hsteps, ?_⟩
    intro e he
    split at he
    · rename_i hnew
      rcases Array.mem_push.mp he with he | rfl
      · exact hsteps.grown.defines (hedges e he)
      · have hnode := Draft.getElem?_insertNode (by simpa using hnew) (nodeKindOf f.kind)
          (definitionAttributes f)
        exact ⟨rfl, f.file, _, rfl, hinsert.grown.hasKind hfile, hnode,
          isDefinition_nodeKindOf f.kind, text?_definingFile f⟩
    · exact hsteps.grown.defines (hedges e he)
  · exact ⟨.single (.note _), hedges⟩

/-- A build starts with what was left out of the fact streams. -/
theorem tidy_start (malformed : List Malformed) :
    Draft.Tidy { diagnostics := (malformed.map Diagnostic.malformedFact).toArray } where
  sound := Store.sound_empty
  edgeless := rfl
  regular := by
    intro id n hn
    simp at hn
  honest := by
    refine ⟨?_, ?_⟩
    · intro x hx
      obtain ⟨m, -, rfl⟩ := List.mem_map.mp (List.mem_toArray.mp hx)
      rfl
    · rw [List.countP_toArray, List.countP_map]
      refine (List.countP_eq_zero.mpr ?_).symm
      intro m _ hm
      cases hm
  callless := by
    rw [List.countP_toArray, List.countP_map]
    refine List.countP_eq_zero.mpr ?_
    intro m _ hm
    cases hm

/-- **Files and definitions leave a tidy draft,** with an edge to each definition. -/
theorem addSources_spec (config : Config) (inputs : Inputs) :
    (addSources config inputs).1.Tidy ∧ (addSources config inputs).1.dropped = 0 ∧
      ∀ e ∈ (addSources config inputs).2, Defines (addSources config inputs).1.store e := by
  rw [addSources]
  have hfiles := Draft.steps_foldl (steps_addFile config inputs.entryPaths) inputs.files
    { diagnostics := (inputs.malformed.map Diagnostic.malformedFact).toArray }
  refine List.foldlRecOn inputs.definitions _
    (motive := fun p : Draft × Array Edge => p.1.Tidy ∧ p.1.dropped = 0 ∧
      ∀ e ∈ p.2, Defines p.1.store e) ?_ ?_
  · refine ⟨hfiles.tidy (tidy_start _), hfiles.dropped_eq, ?_⟩
    intro e he
    simp at he
  · rintro p ⟨htidy, hdropped, hedges⟩ f -
    obtain ⟨hsteps, hdefines⟩ := addDefinition_spec config inputs.entryPaths htidy hedges f
    exact ⟨hsteps.tidy htidy, hsteps.dropped_eq.trans hdropped, hdefines⟩

/-! ## Directories -/

theorem steps_addDirectory (d : Draft) (path : String) :
    Draft.Steps d (addDirectory d path) :=
  Draft.steps_ensureNode (regular_directory path)

/-- Every directory above a file is there. -/
theorem hasKind_addDirectories (h : d.Tidy) {paths : List String} {path : String}
    (hpath : path ∈ paths) :
    HasKind (paths.foldl addDirectory d).store (.directory path) .directory := by
  induction paths generalizing d with
  | nil => cases hpath
  | cons p paths ih =>
      have hstep := steps_addDirectory d p
      rcases List.mem_cons.mp hpath with rfl | hpath
      · have hrest := Draft.steps_foldl steps_addDirectory paths (addDirectory d path)
        exact hrest.grown.hasKind (h.hasKind_ensureNode (regular_directory path))
      · exact ih (hstep.tidy h) hpath

/-- What an edge from a directory joins. -/
theorem exists_of_mem_containsEdges {paths : List String} {e : Edge}
    (h : e ∈ containsEdges paths) : e.relationship = .contains ∧
      ∃ path ∈ paths, ∃ above ∈ Path.ancestors path, e.source = .directory above ∧
        (e.target = .file path ∨
          ∃ below ∈ Path.ancestors path, e.target = .directory below) := by
  obtain ⟨⟨a, b⟩, hpair, rfl⟩ := List.mem_map.mp h
  rw [Sorting.mem_dropRepeats, List.mem_mergeSort] at hpair
  obtain ⟨path, hpath, hpair⟩ := List.mem_flatMap.mp hpair
  obtain ⟨ha, hb⟩ := List.of_mem_zip hpair
  obtain ⟨above, habove, rfl⟩ := List.mem_map.mp ha
  refine ⟨rfl, path, hpath, above, List.mem_reverse.mp habove, rfl, ?_⟩
  rcases List.mem_cons.mp hb with rfl | hb
  · exact Or.inl rfl
  · obtain ⟨below, hbelow, rfl⟩ := List.mem_map.mp hb
    exact Or.inr ⟨below, List.mem_reverse.mp hbelow, rfl⟩

/-- Edges from directories can be joined once files and directories are there. -/
theorem joinable_of_mem_containsEdges {paths : List String} {e : Edge}
    (hfiles : ∀ path ∈ paths, HasKind s (.file path) .file)
    (hdirectories : ∀ path ∈ paths.flatMap Path.ancestors,
      HasKind s (.directory path) .directory)
    (h : e ∈ containsEdges paths) : Joinable s e := by
  obtain ⟨hrel, path, hpath, above, habove, hsource, htarget⟩ :=
    exists_of_mem_containsEdges h
  have hin : ∀ q ∈ Path.ancestors path, HasKind s (.directory q) .directory :=
    fun q hq => hdirectories q (List.mem_flatMap.mpr ⟨path, hpath, hq⟩)
  rw [Joinable, hsource, hrel]
  rcases htarget with ht | ⟨below, hbelow, ht⟩
  · rw [ht]
    exact ⟨.directory, .file, hin above habove, hfiles path hpath, rfl⟩
  · rw [ht]
    exact ⟨.directory, .directory, hin above habove, hin below hbelow, rfl⟩

/-! ## Packages and imports -/

theorem steps_addPackage (declared : ExtTreeMap String (Option String)) (d : Draft)
    (package : String) : Draft.Steps d (addPackage declared d package) :=
  Draft.steps_ensureNode (regular_dependency package _)

/-- So many imports after a draft, each has become an edge or is left out. -/
structure ImportPhase.Balanced (d : Draft) (k : Nat) (p : ImportPhase) : Prop where
  tidy : p.draft.Tidy
  grown : Grown d.store p.draft.store
  edges : ∀ e ∈ p.edges, e.relationship = .imports ∧ e.source ≠ e.target ∧
    Joinable p.draft.store e
  count : p.edges.size + p.draft.dropped = k + d.dropped

/-- An import becomes an edge, perhaps to a package that it adds, or is left out. -/
theorem ImportPhase.Balanced.add (hlabelled : Labelled d.store) {k : Nat} {p : ImportPhase}
    (h : p.Balanced d k) (declared : ExtTreeMap String (Option String)) (aliases : Aliases)
    (i : ImportFact) : (p.add declared i
      (resolveImport d.store (moduleIndex d.store) aliases i)).Balanced d (k + 1) := by
  cases hresolve : resolveImport d.store (moduleIndex d.store) aliases i with
  | error x =>
      obtain ⟨homission, hcall⟩ := resolveImport_error hresolve
      refine ⟨h.tidy.drop homission hcall, h.grown, h.edges, ?_⟩
      show p.edges.size + (p.draft.dropped + 1) = k + 1 + d.dropped
      have hcount := h.count
      omega
  | ok target =>
      obtain ⟨hsource, hmeant, hne⟩ := resolveImport_ok hlabelled hresolve
      -- the draft after the import, and that the edge can be joined there
      obtain ⟨hsteps, hjoin⟩ : Draft.Steps p.draft (p.add declared i (.ok target)).draft ∧
          Joinable (p.add declared i (.ok target)).draft.store (importEdge i target) := by
        cases target with
        | outside package =>
            have hsteps := steps_addPackage declared p.draft package
            refine ⟨hsteps, .file, .dependency, ?_, ?_, rfl⟩
            · exact (h.grown.trans hsteps.grown).hasKind hsource
            · exact h.tidy.hasKind_ensureNode (regular_dependency package _)
        | inside m =>
            refine ⟨.refl, ?_⟩
            obtain hfile | hdirectory : HasKind d.store m.id .file ∨
                HasKind d.store m.id .directory := by
              cases hmeant with
              | inside hstands => exact hstands.hasKind
            · exact ⟨.file, .file, h.grown.hasKind hsource, h.grown.hasKind hfile, rfl⟩
            · exact ⟨.file, .directory, h.grown.hasKind hsource, h.grown.hasKind hdirectory,
                rfl⟩
      refine ⟨hsteps.tidy h.tidy, h.grown.trans hsteps.grown, ?_, ?_⟩
      · intro e he
        rcases Array.mem_push.mp he with he | rfl
        · obtain ⟨hrel, hloop, hold⟩ := h.edges e he
          exact ⟨hrel, hloop, hsteps.grown.joinable hold⟩
        · exact ⟨rfl, hne.symm, hjoin⟩
      · rw [hsteps.dropped_eq]
        show (p.edges.push _).size + p.draft.dropped = k + 1 + d.dropped
        have hcount := h.count
        rw [Array.size_push]
        omega

/-- **Imports are balanced,** one by one. -/
theorem balanced_resolveImports (h : d.Tidy) (config : Config) (inputs : Inputs) :
    (resolveImports config inputs d).Balanced d inputs.imports.length := by
  have hstart : ImportPhase.Balanced d 0 { draft := d } := by
    refine ⟨h, .refl _, ?_, ?_⟩
    · intro e he
      simp at he
    · simp
  have hall := foldl_counted (motive := ImportPhase.Balanced d)
    (fun _ _ i hp => hp.add h.labelled inputs.declared config.aliases i) inputs.imports hstart
  rw [Nat.zero_add] at hall
  exact hall

/-! ## All nodes -/

/-- A failure marks its file, or nothing if there is no such file. -/
theorem steps_markFailure (d : Draft) (f : ParseFailure) :
    Draft.Steps d (markFailure d f) := by
  rw [markFailure]
  split
  · rename_i hin
    exact .single (.mark f.path hin)
  · exact .refl

/-- An edge that is known once all nodes are, of one of three relationships. -/
inductive Known (s : Store) (e : Edge) : Prop
  | contains : e.relationship = .contains → Joinable s e → Known s e
  | defines : Defines s e → Known s e
  | imports : e.relationship = .imports → e.source ≠ e.target → Joinable s e → Known s e

namespace Known

variable {e : Edge}

theorem joinable (h : Known s e) : Joinable s e := by
  cases h with
  | contains _ hj => exact hj
  | defines hd => exact hd.joinable
  | imports _ _ hj => exact hj

/-- What is known of an edge to a definition is that its definition says so. -/
theorem of_defines (h : Known s e) (hr : e.relationship = .defines) : Defines s e := by
  cases h with
  | contains hrel | imports hrel =>
      rw [hr] at hrel
      cases hrel
  | defines hd => exact hd

/-- No import leads back to its own file. -/
theorem loopless (h : Known s e) (hr : e.relationship = .imports ∨ e.relationship = .inherits) :
    e.source ≠ e.target := by
  cases h with
  | contains hrel =>
      rw [hrel] at hr
      simp at hr
  | defines hd =>
      rw [hd.1] at hr
      simp at hr
  | imports _ hne => exact hne

end Known

/-- What is known of an edge stays known while nodes are added. -/
theorem Grown.known (h : Grown s s') {e : Edge} (hk : Known s e) : Known s' e := by
  cases hk with
  | contains hrel hj => exact .contains hrel (h.joinable hj)
  | defines hd => exact .defines (h.defines hd)
  | imports hrel hne hj => exact .imports hrel hne (h.joinable hj)

/-- Only imports are references among what is known once all nodes are. -/
theorem countP_isReference {l l' : List Edge}
    (hl : ∀ e ∈ l, e.relationship = .contains ∨ e.relationship = .defines)
    (hl' : ∀ e ∈ l', e.relationship = .imports) :
    (l ++ l').countP isReference = l'.length := by
  have hnone : l.countP isReference = 0 := by
    refine List.countP_eq_zero.mpr ?_
    intro e he
    rw [isReference]
    rcases hl e he with hr | hr <;> rw [hr] <;> decide
  have hall : l'.countP isReference = l'.length := by
    refine List.countP_eq_length.mpr ?_
    intro e he
    rw [isReference, hl' e he]
  rw [List.countP_append, hnone, hall, Nat.zero_add]

/-- A draft with all its nodes, and edges that can be joined in it. -/
structure Gathered (inputs : Inputs) (d : Draft) (edges : List Edge) : Prop where
  tidy : d.Tidy
  known : ∀ e ∈ edges, Known d.store e
  count : edges.countP isReference + d.dropped = inputs.imports.length

/-- **Once all nodes are there, the edges known so far can be joined.** -/
theorem gathered_addNodes (config : Config) (inputs : Inputs) :
    Gathered inputs (addNodes config inputs).1 (addNodes config inputs).2.1 := by
  obtain ⟨htidy, hdropped, hdefines⟩ := addSources_spec config inputs
  rw [addNodes]
  generalize addSources config inputs = sources at htidy hdropped hdefines ⊢
  obtain ⟨d₀, defines⟩ := sources
  dsimp only at htidy hdropped hdefines ⊢
  -- `d₁` has the directories, `d₂` the declared packages, `p` the imports, `d₃` the failures
  have hdirectories := Draft.steps_foldl steps_addDirectory
    ((filePaths d₀.store).flatMap Path.ancestors) d₀
  have habove := fun path (hp : path ∈ (filePaths d₀.store).flatMap Path.ancestors) =>
    hasKind_addDirectories htidy hp
  generalize ((filePaths d₀.store).flatMap Path.ancestors).foldl addDirectory d₀ = d₁
    at hdirectories habove ⊢
  have hpackages := Draft.steps_foldl (steps_addPackage inputs.declared)
    inputs.declared.keys d₁
  generalize inputs.declared.keys.foldl (addPackage inputs.declared) d₁ = d₂
    at hpackages ⊢
  have hbefore : Draft.Steps d₀ d₂ := hdirectories.trans hpackages
  have himports := balanced_resolveImports (hbefore.tidy htidy) config inputs
  generalize resolveImports config inputs d₂ = p at himports ⊢
  have hfailures := Draft.steps_foldl steps_markFailure (firstFailures inputs.failures) p.draft
  generalize (firstFailures inputs.failures).foldl markFailure p.draft = d₃ at hfailures ⊢
  have hlate : Grown d₂.store d₃.store := himports.grown.trans hfailures.grown
  have hall : Grown d₀.store d₃.store := hbefore.grown.trans hlate
  have hcontains : ∀ e ∈ containsEdges (filePaths d₀.store), Joinable d₃.store e := by
    intro e he
    refine joinable_of_mem_containsEdges ?_ ?_ he
    · intro path hpath
      exact hall.hasKind (hasKind_file_of_mem_paths htidy.labelled hpath)
    · intro path hpath
      exact (hpackages.grown.trans hlate).hasKind (habove path hpath)
  refine ⟨hfailures.tidy himports.tidy, ?_, ?_⟩
  · intro e he
    rw [List.mem_append, List.mem_append] at he
    rcases he with (he | he) | he
    · exact .contains (exists_of_mem_containsEdges he).1 (hcontains e he)
    · exact hall.known (.defines (hdefines e (Array.mem_toList_iff.mp he)))
    · obtain ⟨hrel, hne, hj⟩ := himports.edges e (Array.mem_toList_iff.mp he)
      exact hfailures.grown.known (.imports hrel hne hj)
  · rw [countP_isReference, Array.length_toList, hfailures.dropped_eq, himports.count,
      hbefore.dropped_eq, hdropped, Nat.add_zero]
    · intro e he
      exact (List.mem_append.mp he).imp (fun he => (exists_of_mem_containsEdges he).1)
        fun he => (hdefines e (Array.mem_toList_iff.mp he)).1
    · intro e he
      exact (himports.edges e (Array.mem_toList_iff.mp he)).1

end CodeGraph.Build

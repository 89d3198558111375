import CodeGraph.Proofs.Build.Proposals
/-! # Origins — which phase a node or an edge comes from

    Each phase of a build adds nodes and edges of its own, and no phase takes
    any away.

    * The edges of one relationship are those that one phase collected
      (`edgesByRelationship_construct`).
    * A node is there from the sources, or it is a directory above a file, or a
      package that is declared or imported (`mem_construct_cases`).
    * A file or a definition of the sources comes from a fact
      (`mem_addSources_cases`). -/

namespace CodeGraph.Build

open Std

/-! ## Drafts between the phases -/

theorem tidy_addPackages (config : Config) (inputs : Inputs) :
    (addPackages config inputs).Tidy := by
  have hdirectories := Draft.steps_foldl steps_addDirectory
    ((filePaths (addSources config inputs).1.store).flatMap Path.ancestors)
    (addSources config inputs).1
  have hpackages := Draft.steps_foldl (steps_addPackage inputs.declared) inputs.declared.keys
    (addDirectories (addSources config inputs).1)
  exact Draft.Steps.tidy (hdirectories.trans hpackages) (addSources_spec config inputs).1

theorem grown_addNodes (config : Config) (inputs : Inputs) :
    Grown (addPackages config inputs).store (addNodes config inputs).1.store := by
  have himports := balanced_resolveImports (tidy_addPackages config inputs) config inputs
  exact himports.grown.trans
    (Draft.steps_foldl steps_markFailure (firstFailures inputs.failures) _).grown

/-! ## Edges -/

/-- The edges of a relationship that lead to a node, in the order they were added. -/
def edgesInto (s : Store) (r : Relationship) (v : NodeId) : List Edge :=
  (s.edgesByRelationship r).filter fun e => e.target = v

/-- What stands alone in a list without repetitions is all that is selected. -/
theorem filter_eq_singleton {α : Type} {xs : List α} {p : α → Bool} {x : α} (h : xs.Nodup)
    (hx : x ∈ xs) (hp : p x = true) (hunique : ∀ y ∈ xs, p y = true → y = x) :
    xs.filter p = [x] := by
  refine List.perm_singleton.mp ((List.perm_ext_iff_of_nodup (h.filter p)
    (List.nodup_singleton x)).mpr fun y => ?_)
  rw [List.mem_filter, List.mem_singleton]
  constructor
  · rintro ⟨hy, hpy⟩
    exact hunique y hy hpy
  · rintro rfl
    exact ⟨hx, hp⟩

/-- Edges of one relationship are all selected, or none is. -/
theorem filter_relationship {es : List Edge} {r' : Relationship}
    (h : ∀ e ∈ es, e.relationship = r') (r : Relationship) :
    es.filter (fun e => e.relationship = r) = if r' = r then es else [] := by
  split
  · rename_i heq
    rw [List.filter_eq_self]
    intro e he
    exact decide_eq_true ((h e he).trans heq)
  · rename_i hne
    rw [List.filter_eq_nil_iff]
    intro e he
    rw [decide_eq_true_eq, h e he]
    exact hne

variable (config : Config) (inputs : Inputs)

/-- The edges of directories, of definitions and of imports are those that were
    collected while nodes were gathered, in the same order. -/
theorem edgesByRelationship_construct :
    let s := (construct config inputs).store
    s.edgesByRelationship .contains =
        containsEdges (filePaths (addSources config inputs).1.store) ∧
      s.edgesByRelationship .defines = (addSources config inputs).2.toList ∧
      s.edgesByRelationship .imports =
        (resolveImports config inputs (addPackages config inputs)).edges.toList := by
  intro s
  obtain ⟨d₀, d₁, d₂, edges, imported, p, h⟩ := exists_phases config inputs
  have hknown : containsEdges (filePaths (addSources config inputs).1.store) ++
      (addSources config inputs).2.toList ++
        (resolveImports config inputs (addPackages config inputs)).edges.toList = edges :=
    congrArg (fun n : Draft × List Edge × Imported => n.2.1) h.nodes
  have hdefines := (addSources_spec config inputs).2.2
  have himports := (balanced_resolveImports (tidy_addPackages config inputs) config inputs).edges
  -- edges that are joined later are calls or inheritances
  have hlate : ∀ r : Relationship, r ≠ .calls → r ≠ .inherits →
      p.edges.toList.filter (fun e => e.relationship = r) = [] := by
    intro r hcalls hinherits
    rw [List.filter_eq_nil_iff]
    intro e he
    rw [decide_eq_true_eq]
    rcases h.balanced.references e (Array.mem_toList_iff.mp he) with hr | ⟨hr, -⟩
    · rw [hr]
      exact hcalls.symm
    · rw [hr]
      exact hinherits.symm
  -- of the edges known before, each list has one relationship only
  have hrelated : ∀ r : Relationship, r ≠ .calls → r ≠ .inherits → s.edgesByRelationship r =
      (if .contains = r then containsEdges (filePaths (addSources config inputs).1.store)
        else []) ++
        (if .defines = r then (addSources config inputs).2.toList else []) ++
        (if .imports = r then
          (resolveImports config inputs (addPackages config inputs)).edges.toList else []) := by
    intro r hcalls hinherits
    rw [(kept_sound.construct config inputs).edgesByRelationship_eq, h.edges_eq, ← hknown,
      List.filter_append, hlate r hcalls hinherits, List.append_nil, List.filter_append,
      List.filter_append,
      filter_relationship (fun e he => (exists_of_mem_containsEdges he).1),
      filter_relationship (fun e he => (hdefines e (Array.mem_toList_iff.mp he)).1),
      filter_relationship (fun e he => (himports e (Array.mem_toList_iff.mp he)).1)]
  refine ⟨?_, ?_, ?_⟩
  · rw [hrelated .contains nofun nofun]
    simp
  · rw [hrelated .defines nofun nofun]
    simp
  · rw [hrelated .imports nofun nofun]
    simp

/-! ## Nodes -/

section

variable {config inputs} {id : NodeId}

/-- Setting an attribute adds no node and takes none away. -/
theorem mem_enrich (d : Draft) (i : NodeId) (key : String) (value : Json) :
    id ∈ (d.enrich i key value).store.nodes ↔ id ∈ d.store.nodes := by
  rw [Draft.enrich]
  split
  · rename_i s hok
    rcases Store.enrich_ok hok with rfl | ⟨node, hnode, -, rfl⟩
    · exact Iff.rfl
    · rw [ExtTreeMap.mem_insert, or_iff_right_iff_imp]
      intro heq
      rw [← LawfulEqCmp.eq_of_compare heq]
      exact (ExtTreeMap.getElem?_eq_some_iff.mp hnode).1
  · exact Iff.rfl

theorem mem_markFailures (fs : List ParseFailure) (d : Draft) :
    id ∈ (fs.foldl markFailure d).store.nodes ↔ id ∈ d.store.nodes := by
  refine List.foldlRecOn fs markFailure
    (motive := fun d' => id ∈ d'.store.nodes ↔ id ∈ d.store.nodes) Iff.rfl ?_
  intro d' hd' f _
  rw [markFailure]
  split
  · rw [mem_enrich, hd']
  · exact hd'

/-- Once imports are resolved all nodes are there. -/
theorem mem_construct_iff : id ∈ (construct config inputs).store.nodes ↔
    id ∈ (resolveImports config inputs (addPackages config inputs)).draft.store.nodes := by
  obtain ⟨d₀, d₁, d₂, edges, imported, p, h⟩ := exists_phases config inputs
  have hfirst : (firstFailures inputs.failures).foldl markFailure
      (resolveImports config inputs (addPackages config inputs)).draft = d₀ :=
    congrArg Prod.fst h.nodes
  rw [← mem_markFailures (firstFailures inputs.failures)
      (resolveImports config inputs (addPackages config inputs)).draft, hfirst, ← h.nodes_eq,
    ExtTreeMap.mem_iff_isSome_getElem?, h.getElem?_construct, Option.isSome_map,
    ← ExtTreeMap.mem_iff_isSome_getElem?]

/-- A node that is there once imports are resolved was there before, or it is a package
    that some import leads to. -/
theorem mem_resolveImports_cases {d : Draft}
    (h : id ∈ (resolveImports config inputs d).draft.store.nodes) : id ∈ d.store.nodes ∨
      (∃ package, id = .dependency package) ∧
        ∃ e ∈ (resolveImports config inputs d).edges, e.target = id := by
  revert h
  rw [resolveImports]
  -- on the imports: what is new after some of them has an edge that leads to it
  refine List.foldlRecOn inputs.imports _ (motive := fun p : ImportPhase =>
    id ∈ p.draft.store.nodes → id ∈ d.store.nodes ∨
      (∃ package, id = .dependency package) ∧ ∃ e ∈ p.edges, e.target = id) Or.inl ?_
  intro p hp i _ h
  cases hresolve : resolveImport d.store (moduleIndex d.store) config.aliases i with
  | error x =>
      rw [hresolve] at h
      exact hp h
  | ok target =>
      rw [hresolve] at h
      -- an edge that was there before is still there
      have hkeep : id ∈ p.draft.store.nodes → id ∈ d.store.nodes ∨
          (∃ package, id = .dependency package) ∧
            ∃ e ∈ p.edges.push (importEdge i target), e.target = id := by
        intro hold
        rcases hp hold with hold | ⟨hpackage, e, he, hid⟩
        · exact Or.inl hold
        · exact Or.inr ⟨hpackage, e, Array.mem_push_of_mem _ he, hid⟩
      cases target with
      | inside m => exact hkeep h
      | outside package =>
          have hcontains := (takes_addPackage inputs.declared p.draft package).contains id
          change id ∈ (addPackage inputs.declared p.draft package).store.nodes at h
          rw [ExtTreeMap.mem_iff_contains] at h
          change Store.contains _ id = true at h
          rw [hcontains, Bool.or_eq_true, List.any_cons, List.any_nil, Bool.or_false,
            decide_eq_true_eq] at h
          rcases h with hold | rfl
          · exact hkeep (ExtTreeMap.mem_iff_contains.mpr hold)
          · exact Or.inr ⟨⟨package, rfl⟩, _, Array.mem_push_self, rfl⟩

/-- Before imports are resolved there are the nodes of the sources, the directories above
    the files, and the declared packages. -/
theorem mem_addPackages : id ∈ (addPackages config inputs).store.nodes ↔
    id ∈ (addSources config inputs).1.store.nodes ∨
      (∃ q ∈ (filePaths (addSources config inputs).1.store).flatMap Path.ancestors,
        id = .directory q) ∨
      ∃ package ∈ inputs.declared, id = .dependency package := by
  rw [ExtTreeMap.mem_iff_isSome_getElem?, getElem?_addPackages, ExtTreeMap.mem_iff_isSome_getElem?,
    getElem?_addSources, proposals, List.find?_append, List.find?_append, Option.isSome_or,
    Option.isSome_or, Bool.or_eq_true, Bool.or_eq_true, List.isSome_find?, List.isSome_find?,
    List.isSome_find?]
  refine or_congr_right (or_congr ?_ ?_)
  · simp only [List.any_map, List.any_eq_true, Function.comp, decide_eq_true_eq]
    exact exists_congr fun q => and_congr_right fun _ => eq_comm
  · simp only [List.any_map, List.any_eq_true, Function.comp, decide_eq_true_eq,
      ExtTreeMap.mem_keys]
    exact exists_congr fun q => and_congr_right fun _ => eq_comm

/-- **A node comes from the sources, or it is a directory above a file, or a package that
    is declared or imported.** -/
theorem mem_construct_cases (h : id ∈ (construct config inputs).store.nodes) :
    id ∈ (addSources config inputs).1.store.nodes ∨
      (∃ q ∈ (filePaths (addSources config inputs).1.store).flatMap Path.ancestors,
        id = .directory q) ∨
      ∃ package, id = .dependency package ∧ (package ∈ inputs.declared ∨
        ∃ e ∈ (construct config inputs).store.edgesByRelationship .imports, e.target = id) := by
  rcases mem_resolveImports_cases (mem_construct_iff.mp h) with h | ⟨⟨package, hid⟩, e, he, ht⟩
  · rcases mem_addPackages.mp h with h | h | ⟨package, hdeclared, hid⟩
    · exact Or.inl h
    · exact Or.inr (Or.inl h)
    · exact Or.inr (Or.inr ⟨package, hid, Or.inl hdeclared⟩)
  · refine Or.inr (Or.inr ⟨package, hid, Or.inr ⟨e, ?_, ht⟩⟩)
    rw [(edgesByRelationship_construct config inputs).2.2]
    exact Array.mem_toList_iff.mpr he

/-- What is neither a directory nor a package comes from the sources. -/
theorem mem_addSources_of_mem {kind : NodeKind} (htag : id.tag = kind.tag)
    (hdirectory : kind ≠ .directory) (hdependency : kind ≠ .dependency)
    (h : id ∈ (construct config inputs).store.nodes) :
    id ∈ (addSources config inputs).1.store.nodes := by
  rcases mem_construct_cases h with h | ⟨q, -, hid⟩ | ⟨package, hid, -⟩
  · exact h
  · exact absurd hid (ne_of_tag htag (tag_directory q) hdirectory)
  · exact absurd hid (ne_of_tag htag (tag_dependency package) hdependency)

/-- What is there before imports are resolved stays. -/
theorem mem_construct_of_mem (h : id ∈ (addPackages config inputs).store.nodes) :
    id ∈ (construct config inputs).store.nodes := by
  obtain ⟨n, hn, -⟩ := (Settled.construct config inputs).kept id _
    (ExtTreeMap.getElem?_eq_some_getElem h)
  exact (ExtTreeMap.getElem?_eq_some_iff.mp hn).1

/-- A node of the sources is a file that a fact tells of, a definition, or the file of a
    definition. -/
theorem mem_addSources_cases (h : id ∈ (addSources config inputs).1.store.nodes) :
    (∃ f ∈ inputs.files, f.path ≠ "" ∧ id = .file f.path) ∨
      ∃ f ∈ inputs.definitions, isNamed f = true ∧ (id = .file f.file ∨ id = nodeIdOf f) := by
  rw [ExtTreeMap.mem_iff_isSome_getElem?, getElem?_addSources, List.isSome_find?,
    List.any_eq_true] at h
  obtain ⟨n, hn, hid⟩ := h
  rw [decide_eq_true_eq] at hid
  subst hid
  rcases List.mem_append.mp hn with hn | hn
  · obtain ⟨f, hf, hn⟩ := List.mem_flatMap.mp hn
    rw [fileProposals] at hn
    split at hn
    · cases hn
    · rename_i hpath
      rw [List.mem_singleton.mp hn]
      exact Or.inl ⟨f, hf, hpath, rfl⟩
  · obtain ⟨f, hf, hn⟩ := List.mem_flatMap.mp hn
    rw [definitionProposals] at hn
    split at hn
    · rename_i hnamed
      rcases List.mem_cons.mp hn with rfl | hn
      · exact Or.inr ⟨f, hf, hnamed, Or.inl rfl⟩
      · rw [List.mem_singleton.mp hn]
        exact Or.inr ⟨f, hf, hnamed, Or.inr rfl⟩
    · cases hn

/-- A file of the sources is reported by a fact, or some definition lies in it. -/
theorem mem_addSources_file {path : String}
    (h : NodeId.file path ∈ (addSources config inputs).1.store.nodes) :
    (∃ f ∈ inputs.files, f.path = path) ∨
      ∃ f ∈ inputs.definitions, isNamed f = true ∧ f.file = path := by
  rcases mem_addSources_cases h with ⟨f, hf, -, hid⟩ | ⟨f, hf, hnamed, hid | hid⟩
  · exact Or.inl ⟨f, hf, (file_injective hid).symm⟩
  · exact Or.inr ⟨f, hf, hnamed, (file_injective hid).symm⟩
  · exact absurd hid.symm (nodeIdOf_ne_file f path)

/-- A definition of the sources is that of a fact. -/
theorem mem_addSources_definition {kind : NodeKind} (htag : id.tag = kind.tag)
    (hkind : kind ≠ .file) (h : id ∈ (addSources config inputs).1.store.nodes) :
    ∃ f ∈ inputs.definitions, isNamed f = true ∧ nodeIdOf f = id := by
  rcases mem_addSources_cases h with ⟨f, -, -, hid⟩ | ⟨f, hf, hnamed, hid | hid⟩
  · exact absurd hid (ne_of_tag htag (tag_file f.path) hkind)
  · exact absurd hid (ne_of_tag htag (tag_file f.file) hkind)
  · exact ⟨f, hf, hnamed, hid.symm⟩

end

end CodeGraph.Build

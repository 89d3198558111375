import CodeGraph.Proofs.Build.Choice
import CodeGraph.Proofs.Build.Directories
/-! # Imports — which module an import means

    The modules of a store are indexed by their last segment, and an import is
    looked up by the last segment of its specifier.

    * No module is lost in the index: the candidates of a specifier are all
      modules that answer to it (`mem_candidates_moduleIndex`).
    * The one that is meant is preferred to all other candidates
      (`exists_only?`).
    * The edges of imports are those of the imports that mean something, in their
      order (`edges_resolveImports`). -/

namespace CodeGraph.Build

open Std

section Store

variable {s : Store}

/-- The modules of a store, in the order in which they are indexed. -/
def modulesOf (s : Store) : List Module :=
  ((s.nodesByKind .file).filterMap fun n => n.text? Attribute.path).flatMap Module.ofFile ++
    ((s.nodesByKind .directory).filterMap fun n => n.text? Attribute.path).map
      Module.ofDirectory

theorem moduleIndex_eq (s : Store) : moduleIndex s = (modulesOf s).foldl ModuleIndex.add {} := by
  rw [modulesOf, List.foldl_append, List.foldl_flatMap, List.foldl_map]
  rfl

/-- The paths of a kind of nodes are those of the nodes with this kind. -/
theorem mem_paths {kind : NodeKind} {id : NodeId} {n : Node} {path : String} (h : s.Sound)
    (hn : s.nodes[id]? = some n) (hkind : n.kind = kind)
    (htext : n.text? Attribute.path = some path) :
    path ∈ (s.nodesByKind kind).filterMap fun n => n.text? Attribute.path := by
  refine List.mem_filterMap.mpr ⟨n, ?_, htext⟩
  rw [h.nodesByKind_eq, List.mem_filter, decide_eq_true_eq]
  exact ⟨Store.mem_nodeList.mpr ⟨id, hn⟩, hkind⟩

/-- The modules of a store are those that stand for its files and directories. -/
theorem mem_modulesOf (h : Labelled s) {m : Module} : m ∈ modulesOf s ↔ Stands s m := by
  rw [modulesOf, List.mem_append, List.mem_flatMap, List.mem_map]
  constructor
  · rintro (⟨path, hpath, hm⟩ | ⟨path, hpath, rfl⟩)
    · exact .file path (hasKind_file_of_mem_paths h hpath) hm
    · exact .directory path (hasKind_directory_of_mem_paths h hpath) rfl
  · intro hstands
    cases hstands with
    | file path hfile hm =>
        obtain ⟨n, hn, hkind⟩ := hfile
        have htext := (h.described _ n hn).path_of_file hkind (h.sound.keyed _ n hn)
        exact Or.inl ⟨path, mem_paths h.sound hn hkind htext, hm⟩
    | directory path hdirectory hm =>
        obtain ⟨n, hn, hkind⟩ := hdirectory
        have htext := (h.described _ n hn).path_of_directory hkind (h.sound.keyed _ n hn)
        exact Or.inr ⟨path, mem_paths h.sound hn hkind htext, hm.symm⟩

/-- **The candidates of a specifier are all modules that answer to it.** -/
theorem mem_candidates_moduleIndex (h : Labelled s) {segments : List String} {m : Module} :
    m ∈ (moduleIndex s).candidates segments ↔
      segments ≠ [] ∧ Stands s m ∧ m.answers segments = true := by
  rw [moduleIndex_eq, ModuleIndex.mem_candidates, mem_modulesOf h]

/-- **Of several modules the preferred one is meant.** -/
theorem exists_only? {importer : String} {segments : List String} {m : Module}
    (hm : m ∈ (moduleIndex s).candidates segments) (hother : m.id ≠ .file importer) :
    ∃ best ∈ (moduleIndex s).candidates segments, best.id ≠ .file importer ∧
      (moduleIndex s).only? importer segments = some best ∧
      ∀ m' ∈ (moduleIndex s).candidates segments, m'.id ≠ .file importer →
        (Module.compareFrom (Path.parent importer) m' best).isLE := by
  have hmem : ∀ {m' : Module}, m' ∈ (moduleIndex s).candidates segments →
      m'.id ≠ .file importer → m' ∈ ((moduleIndex s).candidates segments).filter
        fun m => m.id ≠ NodeId.file importer :=
    fun hin hne => List.mem_filter.mpr ⟨hin, decide_eq_true hne⟩
  obtain ⟨best, hbest, honly, hleast⟩ :=
    Module.exists_preferred? (Path.parent importer) (List.ne_nil_of_mem (hmem hm hother))
  obtain ⟨hin, hne⟩ := List.mem_filter.mp hbest
  exact ⟨best, hin, of_decide_eq_true hne, honly, fun m' hin' hne' => hleast m' (hmem hin' hne')⟩

end Store

/-! ## The edges of imports -/

/-- The edge of an import that means something. -/
def importEdge? (s : Store) (aliases : Aliases) (i : ImportFact) : Option Edge :=
  match resolveImport s (moduleIndex s) aliases i with
  | .ok target => some (importEdge i target)
  | .error _ => none

theorem edges_resolveImports (config : Config) (inputs : Inputs) (d : Draft) :
    (resolveImports config inputs d).edges.toList =
      inputs.imports.filterMap (importEdge? d.store config.aliases) := by
  have hall : ∀ (is : List ImportFact) (p : ImportPhase), (is.foldl (fun p i =>
      p.add inputs.declared i (resolveImport d.store (moduleIndex d.store) config.aliases i))
        p).edges.toList =
      p.edges.toList ++ is.filterMap (importEdge? d.store config.aliases) := by
    intro is
    induction is with
    | nil => exact fun p => (List.append_nil _).symm
    | cons i is ih =>
        intro p
        rw [List.foldl_cons, ih, List.filterMap_cons, importEdge?]
        cases resolveImport d.store (moduleIndex d.store) config.aliases i with
        | error x => rfl
        | ok target =>
            show (p.edges.push _).toList ++ _ = p.edges.toList ++ _ :: _
            rw [Array.toList_push, List.append_assoc]
            rfl
  exact hall inputs.imports { draft := d }

theorem exists_of_importEdge? {s : Store} {aliases : Aliases} {i : ImportFact} {e : Edge}
    (h : importEdge? s aliases i = some e) : ∃ target,
      resolveImport s (moduleIndex s) aliases i = .ok target ∧ e = importEdge i target := by
  rw [importEdge?] at h
  split at h
  · rename_i target htarget
    cases h
    exact ⟨target, htarget, rfl⟩
  · cases h

section Construction

variable {config : Config} {inputs : Inputs}

theorem labelled_addPackages (config : Config) (inputs : Inputs) :
    Labelled (addPackages config inputs).store :=
  (tidy_addPackages config inputs).labelled

theorem mem_imports_iff {batches : List Batch} {i : ImportFact} :
    i ∈ (Inputs.gather (batches.foldl Batch.merge {})).imports ↔
      i ∈ (batches.flatMap (·.facts)).filterMap Inputs.import? := by
  rw [← facts_merged]
  exact List.mem_mergeSort

/-- **The edges of imports are those of the imports that mean something.** -/
theorem mem_edges_imports_iff {e : Edge} :
    e ∈ (construct config inputs).store.edges ∧ e.relationship = .imports ↔
      ∃ i ∈ inputs.imports,
        importEdge? (addPackages config inputs).store config.aliases i = some e := by
  rw [← List.mem_filterMap, ← edges_resolveImports,
    ← (edgesByRelationship_construct config inputs).2.2,
    (kept_sound.construct config inputs).edgesByRelationship_eq, List.mem_filter,
    Array.mem_toList_iff, decide_eq_true_eq]

/-- Before imports are resolved all files and directories are there. -/
theorem hasKind_addPackages_iff {id : NodeId} {kind : NodeKind} (hkind : kind ≠ .dependency) :
    HasKind (addPackages config inputs).store id kind ↔
      HasKind (construct config inputs).store id kind :=
  ((Settled.construct config inputs).hasKind_iff (built_construct config inputs).labelled
    hkind).symm

end Construction

end CodeGraph.Build

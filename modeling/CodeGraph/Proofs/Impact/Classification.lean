import CodeGraph.Impact.Dependencies
import CodeGraph.Proofs.Build.Balance
import CodeGraph.Proofs.Impact.Completeness
/-! # Classification — who is listed as what

    A report lists the functions that call a target, the files that import it,
    and counts all other affected nodes.  In a graph that was built these lists
    divide what is affected, with one exception.

    * A target concerns one file only, so the walk over imports has a single
      seed, and no way leads back to it (`eq_of_mem_files`).
    * The walk over calls may have several seeds.  If it is stopped, a seed that
      was first found as a caller of another seed is still recorded one edge
      away, and it is listed as a caller of the target.
    * `Classified` says how the lists divide what is affected, and when a seed
      is among them (`analyze_classified`).  The walk behind a list of
      dependencies has the same exception. -/

namespace CodeGraph.Impact

open Std

/-! ## Graphs that were built -/

/-- A graph whose edges are allowed, whose nodes are described, and whose `defines`
    edges lead to definitions that name the file. -/
structure Charted (s : Store) : Prop where
  typed : Build.Typed s
  labelled : Build.Labelled s
  defines : ∀ e ∈ s.edges, e.relationship = .defines → Build.Defines s e

theorem charted_ofBatches (config : Build.Config) (batches : List Batch) :
    Charted (Build.ofBatches config batches).1 := by
  have hbuilt := Build.built_construct config
    (Build.Inputs.gather (batches.foldl Batch.merge {}))
  exact ⟨Build.typed_ofBatches config batches, hbuilt.labelled, hbuilt.defines⟩

variable {s : Store} {target : Node}

/-- What a file defines is a definition, and it is defined in that file. -/
theorem Charted.of_mem_definedBy (h : Charted s) {file id : NodeId}
    (hid : id ∈ definedBy s file) :
    s.definingFile? id = s.nodes[file]? ∧
      ∃ n, s.nodes[id]? = some n ∧ n.kind.isDefinition = true := by
  obtain ⟨e, he, hadmits, ⟨-, rfl, rfl⟩ | ⟨hback, -, -⟩⟩ :=
    h.labelled.sound.mem_neighbors.mp hid
  · have hrel : e.relationship = .defines := by
      simpa [Store.admits] using hadmits
    obtain ⟨-, path, n, hsource, -, hn, hdef, htext⟩ := h.defines e he hrel
    refine ⟨?_, n, hn, hdef⟩
    rw [Build.definingFile?_of_isDefinition hn hdef htext, hsource]
  · cases hback

/-- What a node is defined in is a file. -/
theorem Charted.kind_of_definingFile? (h : Charted s) {id : NodeId} {m : Node}
    (hm : s.definingFile? id = some m) : m.kind = .file := by
  have hfile : ∀ path, s.nodes[NodeId.file path]? = some m → m.kind = .file := by
    intro path hnode
    refine NodeKind.tag_injective ?_
    rw [← h.labelled.tag_of_getElem? hnode, Build.tag_file]
  obtain ⟨n, -, hm⟩ := Option.bind_eq_some_iff.mp hm
  split at hm
  · rename_i hkind
    cases hm
    exact hkind
  · obtain ⟨path, -, hnode⟩ := Option.bind_eq_some_iff.mp hm
    exact hfile path hnode
  · obtain ⟨path, -, hnode⟩ := Option.bind_eq_some_iff.mp hm
    exact hfile path hnode
  · cases hm
  · cases hm

section Target

variable (h : Charted s) (htarget : s.nodes[target.id]? = some target)

include h htarget

/-- A seed other than the target is a definition in the same file. -/
theorem seed_cases {id : NodeId} (hid : id ∈ seeds s target) : id = target.id ∨
    (∃ n, s.nodes[id]? = some n ∧ n.kind.isDefinition = true) ∧
      s.definingFile? id = s.definingFile? target.id := by
  rw [seeds, mem_sortIds, List.mem_cons] at hid
  refine hid.imp_right fun hid => ?_
  rw [members] at hid
  split at hid
  · split at hid
    · rename_i file hfile
      obtain ⟨hdefining, hdef⟩ := h.of_mem_definedBy (List.mem_filter.mp hid).1
      refine ⟨hdef, ?_⟩
      rw [hdefining, hfile, getElem?_of_definingFile? h.labelled.sound hfile]
    · cases hid
  · rename_i hkind
    obtain ⟨hdefining, hdef⟩ := h.of_mem_definedBy hid
    refine ⟨hdef, ?_⟩
    rw [hdefining, htarget, Build.definingFile?_of_file htarget hkind]
  · cases hid
  · cases hid
  · cases hid

/-- The file of a target is a file; a directory or a package stands for itself. -/
theorem file_cases {f : NodeId} (hf : f ∈ files s target) :
    (∃ m, s.definingFile? target.id = some m ∧ f = m.id) ∨
      f = target.id ∧ (target.kind = .directory ∨ target.kind = .dependency) := by
  have hdefining : f ∈ sortIds ((seeds s target).filterMap fun id =>
      (s.definingFile? id).map (·.id)) → ∃ m, s.definingFile? target.id = some m ∧ f = m.id := by
    intro hf
    rw [mem_sortIds] at hf
    obtain ⟨id, hid, hmap⟩ := List.mem_filterMap.mp hf
    obtain ⟨m, hm, rfl⟩ := Option.map_eq_some_iff.mp hmap
    rcases seed_cases h htarget hid with rfl | ⟨-, hsame⟩
    · exact ⟨m, hm, rfl⟩
    · exact ⟨m, hsame.symm.trans hm, rfl⟩
  rw [files] at hf
  split at hf
  · rename_i hkind
    exact Or.inr ⟨List.mem_singleton.mp hf, Or.inl hkind⟩
  · rename_i hkind
    exact Or.inr ⟨List.mem_singleton.mp hf, Or.inr hkind⟩
  · exact Or.inl (hdefining hf)
  · exact Or.inl (hdefining hf)
  · exact Or.inl (hdefining hf)

omit h in
/-- Directories and packages are not defined in a file. -/
theorem definingFile?_eq_none (hkind : target.kind = .directory ∨ target.kind = .dependency) :
    s.definingFile? target.id = none := by
  rw [Store.definingFile?, htarget, Option.bind_eq_bind, Option.bind_some]
  rcases hkind with hkind | hkind <;> rw [hkind]

omit h in
/-- A target that is defined in a file concerns it. -/
theorem mem_files_of_definingFile? {m : Node} (hm : s.definingFile? target.id = some m) :
    m.id ∈ files s target := by
  have hfiles : m.id ∈ sortIds ((seeds s target).filterMap fun id =>
      (s.definingFile? id).map (·.id)) := by
    rw [mem_sortIds]
    exact List.mem_filterMap.mpr ⟨target.id, self_mem_seeds s target, by rw [hm]; rfl⟩
  rw [files]
  cases hkind : target.kind with
  | file | function | «class» => exact hfiles
  | directory => cases hm.symm.trans (definingFile?_eq_none htarget (Or.inl hkind))
  | dependency => cases hm.symm.trans (definingFile?_eq_none htarget (Or.inr hkind))

/-- **A target concerns one file.** -/
theorem eq_of_mem_files {f f' : NodeId} (hf : f ∈ files s target)
    (hf' : f' ∈ files s target) : f = f' := by
  rcases file_cases h htarget hf with ⟨m, hm, rfl⟩ | ⟨rfl, hkind⟩ <;>
    rcases file_cases h htarget hf' with ⟨m', hm', rfl⟩ | ⟨rfl, hkind'⟩
  · rw [Option.some.inj (hm.symm.trans hm')]
  · cases hm.symm.trans (definingFile?_eq_none htarget hkind')
  · cases hm'.symm.trans (definingFile?_eq_none htarget hkind)
  · rfl

/-- None of the files of a target is a definition. -/
theorem isDefinition_of_mem_files {f : NodeId} (hf : f ∈ files s target) {n : Node}
    (hn : s.nodes[f]? = some n) : n.kind.isDefinition = false := by
  rcases file_cases h htarget hf with ⟨m, hm, rfl⟩ | ⟨rfl, hkind⟩
  · rw [getElem?_of_definingFile? h.labelled.sound hm] at hn
    cases hn
    rw [h.kind_of_definingFile? hm]
    rfl
  · cases htarget.symm.trans hn
    rcases hkind with hkind | hkind <;> rw [hkind] <;> rfl

theorem not_function_of_mem_files {f : NodeId} (hf : f ∈ files s target) {n : Node}
    (hn : s.nodes[f]? = some n) : n.kind ≠ .function := by
  intro hkind
  have hdef := isDefinition_of_mem_files h htarget hf hn
  rw [hkind] at hdef
  cases hdef

/-- A seed that is not a definition is the file of the target, or what stands for it. -/
theorem mem_files_of_seed {id : NodeId} (hid : id ∈ seeds s target) {kind : NodeKind}
    (hkind : Build.HasKind s id kind) (hdef : kind.isDefinition = false) :
    id ∈ files s target := by
  obtain ⟨n, hn, rfl⟩ := hkind
  rcases seed_cases h htarget hid with rfl | ⟨⟨m, hm, hdef'⟩, -⟩
  · cases htarget.symm.trans hn
    cases hkind : target.kind with
    | directory | dependency =>
        rw [files, hkind]
        exact List.mem_singleton_self _
    | file =>
        exact mem_files_of_definingFile? htarget (Build.definingFile?_of_file htarget hkind)
    | function | «class» =>
        rw [hkind] at hdef
        cases hdef
  · cases hm.symm.trans hn
    rw [hdef'] at hdef
    cases hdef

end Target

/-! ## The lists of a report -/

namespace Analysis

/-- The lists of an analysis divide what is affected, but for seeds that a stopped
    walk still holds for callers. -/
structure Classified (s : Store) (a : Analysis) : Prop where
  importing : ∀ v ∈ a.importingFiles, v ∉ a.origin ∧ v ∈ a.affected.map (·.id)
  calling : ∀ v ∈ a.directCallers s, v ∉ a.files ∧
    (v ∉ a.seeds → v ∈ a.affected.map (·.id)) ∧
    (v ∈ a.seeds → a.calls.truncated.isSome = true)
  disjoint : ∀ v ∈ a.directCallers s, v ∉ a.importingFiles
  count : a.affected.length + (a.directCallers s).countP (a.seeds.contains ·) =
    (a.directCallers s).length + a.importingFiles.length + a.transitiveReferences s

variable {a : Analysis}

theorem mem_importingFiles {v : NodeId} :
    v ∈ a.importingFiles ↔ ∃ x ∈ a.imports.visits, x.node = v ∧ x.distance = 1 := by
  rw [importingFiles, List.mem_mergeSort, List.mem_map]
  constructor
  · rintro ⟨x, hx, rfl⟩
    obtain ⟨hx, hd⟩ := List.mem_filter.mp hx
    exact ⟨x, hx, rfl, of_decide_eq_true hd⟩
  · rintro ⟨x, hx, rfl, hd⟩
    exact ⟨x, List.mem_filter.mpr ⟨hx, decide_eq_true hd⟩, rfl⟩

theorem mem_directCallers {v : NodeId} : v ∈ a.directCallers s ↔
    Build.HasKind s v .function ∧ ∃ x ∈ a.calls.visits, x.node = v ∧ x.distance = 1 := by
  rw [directCallers, List.mem_mergeSort, List.mem_filter, List.mem_map, Option.any_eq_true,
    and_comm]
  refine and_congr ?_ ?_
  · simp only [decide_eq_true_eq]
    rfl
  · constructor
    · rintro ⟨x, hx, rfl⟩
      obtain ⟨hx, hd⟩ := List.mem_filter.mp hx
      exact ⟨x, hx, rfl, of_decide_eq_true hd⟩
    · rintro ⟨x, hx, rfl, hd⟩
      exact ⟨x, List.mem_filter.mpr ⟨hx, decide_eq_true hd⟩, rfl⟩

/-- What is found outside the target is affected. -/
theorem mem_map_affected {v : NodeId} :
    v ∈ a.affected.map (·.id) ↔ v ∉ a.origin ∧ ∃ n, a.Found v n := by
  rw [List.mem_map]
  constructor
  · rintro ⟨⟨id, d⟩, hr, rfl⟩
    obtain ⟨hout, hleast⟩ := mem_affected.mp hr
    exact ⟨hout, d, hleast.1⟩
  · rintro ⟨hout, n, hn⟩
    obtain ⟨d, -, hd⟩ := exists_mem_affected_of_found hout hn
    exact ⟨⟨v, d⟩, hd, rfl⟩

theorem nodup_affected : (a.affected.map (·.id)).Nodup := by
  have hdistinct : ∀ r r' : Reached, r ∈ a.affected → r' ∈ a.affected → r.id = r'.id → r = r' := by
    rintro ⟨id, d⟩ ⟨id', d'⟩ hr hr' rfl
    rw [(mem_affected.mp hr).2.unique (mem_affected.mp hr').2]
  refine List.pairwise_map.mpr (pairwise_affected.imp_of_mem ?_)
  intro r r' hr hr' hlt heq
  rw [hdistinct r r' hr hr' heq] at hlt
  rcases hlt with hlt | ⟨-, hlt⟩
  · exact Nat.lt_irrefl _ hlt
  · exact String.lt_irrefl _ hlt

/-- If the lists stand apart, they divide what is affected. -/
theorem length_affected (hcallers : (a.directCallers s).Nodup)
    (hfiles : a.importingFiles.Nodup)
    (himporting : ∀ v ∈ a.importingFiles, v ∈ a.affected.map (·.id))
    (hcalling : ∀ v ∈ a.directCallers s, v ∉ a.seeds → v ∈ a.affected.map (·.id))
    (hdisjoint : ∀ v ∈ a.directCallers s, v ∉ a.importingFiles) :
    a.affected.length + (a.directCallers s).countP (a.seeds.contains ·) =
      (a.directCallers s).length + a.importingFiles.length + a.transitiveReferences s := by
  -- of what is affected, the two lists name all of their own but the seeds
  have hlisted : ((a.affected.map (·.id)).filter
      (a.directCallers s ++ a.importingFiles).contains).Perm
      ((a.directCallers s).filter (fun v => !a.seeds.contains v) ++ a.importingFiles) := by
    refine (List.perm_ext_iff_of_nodup (nodup_affected.filter _) ?_).mpr ?_
    · refine List.nodup_append.mpr ⟨hcallers.filter _, hfiles, ?_⟩
      rintro v hv w hw rfl
      exact hdisjoint v (List.mem_filter.mp hv).1 hw
    · intro v
      rw [List.mem_filter, List.contains_iff_mem, List.mem_append, List.mem_append,
        List.mem_filter, Bool.not_eq_true', List.contains_eq_mem, decide_eq_false_iff_not]
      constructor
      · rintro ⟨haffected, hv | hv⟩
        · refine Or.inl ⟨hv, fun hseed => ?_⟩
          exact (mem_map_affected.mp haffected).1 (List.mem_append_left _ hseed)
        · exact Or.inr hv
      · rintro (⟨hv, hseed⟩ | hv)
        · exact ⟨hcalling v hv hseed, Or.inl hv⟩
        · exact ⟨himporting v hv, Or.inr hv⟩
  have hlength := hlisted.length_eq
  rw [List.length_append, ← List.countP_eq_length_filter, ← List.countP_eq_length_filter,
    List.countP_map] at hlength
  have haffected := List.length_eq_countP_add_countP
    (fun r : Reached => (a.directCallers s ++ a.importingFiles).contains r.id) (l := a.affected)
  have hcalls := List.length_eq_countP_add_countP
    (fun v => a.seeds.contains v) (l := a.directCallers s)
  rw [transitiveReferences]
  simp only [Function.comp_def, Bool.not_eq_true, Bool.decide_eq_false]
    at hlength haffected hcalls ⊢
  omega

end Analysis

theorem nodup_atDistance {r : Walk.Result} (h : r.nodes.Nodup) (d : Nat) :
    ((r.atDistance d).map (·.node)).Nodup :=
  (List.filter_sublist.map Walk.Visit.node).nodup h

/-- No file is listed twice. -/
theorem nodup_importingFiles (hs : s.Sound) (target : Node) (limits : Limits) (depth : Nat) :
    (Analysis.of s limits target depth).importingFiles.Nodup := by
  obtain ⟨polls, heq⟩ := Analysis.exists_imports_of s limits target depth
  refine (List.mergeSort_perm _ _).nodup_iff.mpr ?_
  rw [heq]
  exact nodup_atDistance (Walk.DepthFirst.nodup_nodes hs _ _) 1

/-- Nor is a caller. -/
theorem nodup_directCallers (hs : s.Sound) (target : Node) (limits : Limits) (depth : Nat) :
    ((Analysis.of s limits target depth).directCallers s).Nodup := by
  refine (List.mergeSort_perm _ _).nodup_iff.mpr (List.Nodup.filter _ ?_)
  exact nodup_atDistance (Walk.DepthFirst.nodup_nodes hs _ _) 1

section Walks

variable (h : Charted s) (htarget : s.nodes[target.id]? = some target) (limits : Limits)
  (depth : Nat)

include h htarget

/-- A file that imports the target's file is another file, which the target does not
    include. -/
theorem importing_of_mem {v : NodeId}
    (hv : v ∈ (Analysis.of s limits target depth).importingFiles) :
    v ∉ files s target ∧ v ∉ seeds s target ∧ Build.HasKind s v .file := by
  have hs := h.labelled.sound
  obtain ⟨polls, heq⟩ := Analysis.exists_imports_of s limits target depth
  obtain ⟨x, hx, rfl, hd⟩ := Analysis.mem_importingFiles.mp hv
  rw [heq] at hx
  have hout : x.node ∉ files s target := by
    intro hin
    have hseed : x.node ∈ Walk.seeds s (files s target) :=
      Walk.mem_seeds.mpr ⟨hin, mem_nodes_of_mem_files hs htarget hin⟩
    have honly : ∀ f ∈ files s target, f = x.node :=
      fun f hf => eq_of_mem_files h htarget hf hin
    rw [Walk.DepthFirst.distance_of_only_seed hs _ hx hseed honly] at hd
    cases hd
  have hfile : Build.HasKind s x.node .file := by
    obtain ⟨f, hf, -, hleads⟩ := (Walk.route_iff_leads (List.cons_ne_nil _ _) rfl).mp
      (Walk.DepthFirst.route_of_visit hs hx).1
    refine hasKind_file_of_leads h.typed hleads ?_
    rintro rfl
    exact hout hf
  exact ⟨hout, fun hin => hout (mem_files_of_seed h htarget hin hfile rfl), hfile⟩

/-- A caller that is a seed is one only because the walk was stopped. -/
theorem calling_of_mem {v : NodeId}
    (hv : v ∈ (Analysis.of s limits target depth).directCallers s) :
    v ∉ files s target ∧ Build.HasKind s v .function ∧
      (v ∈ seeds s target →
        (Analysis.of s limits target depth).calls.truncated.isSome = true) := by
  have hs := h.labelled.sound
  obtain ⟨hkind, x, hx, rfl, hd⟩ := Analysis.mem_directCallers.mp hv
  refine ⟨?_, hkind, ?_⟩
  · intro hin
    obtain ⟨n, hn, hfunction⟩ := hkind
    exact not_function_of_mem_files h htarget hin hn hfunction
  · intro hin
    rw [Option.isSome_iff_ne_none]
    intro hdone
    rw [Analysis.calls_of] at hx hdone
    -- a walk that was not stopped has the seed at distance zero
    obtain ⟨hnearest, -⟩ := ((Walk.DepthFirst.exact_of_not_truncated hs _ _ hdone).visited
      x.node x.distance).mp ⟨x, hx, rfl, rfl⟩
    have hzero := hnearest.2 (Walk.Route.seed hin (mem_nodes_of_mem_seeds hs htarget hin))
    omega

/-- The two lists and the rest are as many as what is affected, with the seeds that
    are listed. -/
theorem classified_of : (Analysis.of s limits target depth).Classified s := by
  have hs := h.labelled.sound
  have horigin : ∀ v, v ∈ (Analysis.of s limits target depth).origin ↔
      v ∈ seeds s target ∨ v ∈ files s target := fun v => List.mem_append
  have himporting : ∀ v ∈ (Analysis.of s limits target depth).importingFiles,
      v ∉ (Analysis.of s limits target depth).origin ∧
        v ∈ (Analysis.of s limits target depth).affected.map (·.id) := by
    intro v hv
    obtain ⟨hfile, hseed, -⟩ := importing_of_mem h htarget limits depth hv
    have hout : v ∉ (Analysis.of s limits target depth).origin := by
      rw [horigin, not_or]
      exact ⟨hseed, hfile⟩
    obtain ⟨x, hx, hnode, hd⟩ := Analysis.mem_importingFiles.mp hv
    exact ⟨hout, Analysis.mem_map_affected.mpr
      ⟨hout, 1, Analysis.found_iff.mpr (Or.inr ⟨x, hx, hnode, hd⟩)⟩⟩
  have hcalling : ∀ v ∈ (Analysis.of s limits target depth).directCallers s,
      v ∉ seeds s target → v ∈ (Analysis.of s limits target depth).affected.map (·.id) := by
    intro v hv hseed
    obtain ⟨hfile, -, -⟩ := calling_of_mem h htarget limits depth hv
    obtain ⟨-, x, hx, hnode, hd⟩ := Analysis.mem_directCallers.mp hv
    refine Analysis.mem_map_affected.mpr
      ⟨?_, 1, Analysis.found_iff.mpr (Or.inl ⟨x, hx, hnode, hd⟩)⟩
    rw [horigin, not_or]
    exact ⟨hseed, hfile⟩
  -- callers are functions, and what imports is a file
  have hdisjoint : ∀ v ∈ (Analysis.of s limits target depth).directCallers s,
      v ∉ (Analysis.of s limits target depth).importingFiles := by
    intro v hv himp
    obtain ⟨-, ⟨n, hn, hfunction⟩, -⟩ := calling_of_mem h htarget limits depth hv
    obtain ⟨-, -, m, hm, hfile⟩ := importing_of_mem h htarget limits depth himp
    cases hn.symm.trans hm
    rw [hfunction] at hfile
    cases hfile
  refine ⟨himporting, ?_, hdisjoint, ?_⟩
  · intro v hv
    obtain ⟨hfile, -, hstopped⟩ := calling_of_mem h htarget limits depth hv
    exact ⟨hfile, hcalling v hv, hstopped⟩
  · exact Analysis.length_affected (nodup_directCallers hs target limits depth)
      (nodup_importingFiles hs target limits depth) (fun v hv => (himporting v hv).2) hcalling
      hdisjoint

end Walks

/-! ## Dependencies -/

/-- What is listed as a dependency was visited away from the seeds. -/
theorem exists_visit_of_mem_dependencies {id v : NodeId} {r : Walk.Result}
    (hv : v ∈ (dependencyReport id r).direct ++ (dependencyReport id r).transitive) :
    ∃ x ∈ r.visits, x.node = v ∧ 0 < x.distance := by
  rw [dependencyReport, List.partition_eq_filter_filter, List.mem_append] at hv
  have hreached : ∃ y ∈ reachedOutside r, y.id = v := by
    rcases hv with hv | hv <;> obtain ⟨y, hy, rfl⟩ := List.mem_map.mp hv
    · exact ⟨y, (List.mem_filter.mp hy).1, rfl⟩
    · exact ⟨y, (List.mem_filter.mp hy).1, rfl⟩
  obtain ⟨y, hy, rfl⟩ := hreached
  rw [reachedOutside, List.mem_mergeSort] at hy
  obtain ⟨x, hx, rfl⟩ := List.mem_map.mp hy
  obtain ⟨hx, hd⟩ := List.mem_filter.mp hx
  exact ⟨x, hx, rfl, of_decide_eq_true hd⟩

/-- What was visited one edge away is listed as a direct dependency. -/
theorem mem_direct_of_visit {id : NodeId} {r : Walk.Result} {x : Walk.Visit}
    (hx : x ∈ r.visits) (hd : x.distance = 1) : x.node ∈ (dependencyReport id r).direct := by
  rw [dependencyReport, List.partition_eq_filter_filter]
  refine List.mem_map.mpr ⟨⟨x.node, x.distance⟩, ?_, rfl⟩
  rw [List.mem_filter, reachedOutside, List.mem_mergeSort, List.mem_map]
  refine ⟨⟨x, List.mem_filter.mpr ⟨hx, ?_⟩, rfl⟩, decide_eq_true hd⟩
  rw [hd]
  rfl

/-- The target itself is a dependency only because the walk was stopped. -/
theorem truncated_of_mem_dependencies (h : Charted s)
    (htarget : s.nodes[target.id]? = some target) (limits : Limits) (depth : Nat) {id v : NodeId}
    (hv : v ∈ (dependencyReport id (dependencyWalk s limits target depth)).direct ++
      (dependencyReport id (dependencyWalk s limits target depth)).transitive)
    (horigin : v ∈ seeds s target ∨ v ∈ files s target) :
    (dependencyWalk s limits target depth).truncated.isSome = true := by
  have hs := h.labelled.sound
  obtain ⟨x, hx, rfl, hd⟩ := exists_visit_of_mem_dependencies hv
  rw [Option.isSome_iff_ne_none]
  intro hdone
  rw [dependencyWalk] at hx hdone
  obtain ⟨hnearest, -⟩ := ((Walk.DepthFirst.exact_of_not_truncated hs _ _ hdone).visited
    x.node x.distance).mp ⟨x, hx, rfl, rfl⟩
  have hnode : x.node ∈ s.nodes := horigin.elim (mem_nodes_of_mem_seeds hs htarget)
    (mem_nodes_of_mem_files hs htarget)
  have hzero := hnearest.2 (Walk.Route.seed (List.mem_append.mpr horigin) hnode)
  omega

/-! ## Every report -/

/-- **The lists of a report divide what is affected,** but for seeds that a stopped
    walk still holds for callers; and a target depends on itself only in the report
    of a stopped walk. -/
theorem analyze_classified (config : Build.Config) (batches : List Batch) (limits : Limits)
    (depth : Option Nat) {id : NodeId} (hid : id ∈ (Build.ofBatches config batches).1.nodes) :
    let s := (Build.ofBatches config batches).1
    ∃ target a q, s.nodes[id]? = some target ∧
      a = Analysis.of s limits target (depth.getD limits.maxDepth) ∧
      analyze s limits id depth = .ok (a.report s limits) ∧ a.Classified s ∧
      dependencies s limits id depth = .ok q ∧
      ∀ v ∈ q.direct ++ q.transitive, v ∈ a.origin → q.truncated.isSome = true := by
  intro s
  have h : Charted s := charted_ofBatches config batches
  obtain ⟨target, hnode⟩ := Option.isSome_iff_exists.mp
    (ExtTreeMap.mem_iff_isSome_getElem?.mp hid)
  have htarget : s.nodes[target.id]? = some target := by
    rw [h.labelled.sound.keyed id target hnode]
    exact hnode
  refine ⟨target, _, _, hnode, rfl, by rw [analyze, hnode],
    classified_of h htarget limits _, by rw [dependencies, hnode], ?_⟩
  intro v hv horigin
  exact truncated_of_mem_dependencies h htarget limits _ hv (List.mem_append.mp horigin)

/-! ## A cycle of calls -/

/-- Four functions that call each other in a cycle, three of them in one file. -/
def callCycle : Batch :=
  ⟨[.file { path := "a.py" },
    .definition { file := "a.py", name := "f", kind := .function },
    .definition { file := "a.py", name := "g", kind := .function },
    .definition { file := "a.py", name := "k", kind := .function },
    .definition { file := "b.py", name := "h", kind := .function },
    .call { file := "a.py", caller := "f", callee := "k" },
    .call { file := "a.py", caller := "g", callee := "f" },
    .call { file := "a.py", caller := "k", callee := "h" },
    .call { file := "b.py", caller := "h", callee := "g" }], [], []⟩

/-- The same, sorted out; the facts are in order already. -/
def cycleInputs : Build.Inputs where
  files := callCycle.facts.filterMap Build.Inputs.file?
  definitions := callCycle.facts.filterMap Build.Inputs.definition?
  calls := callCycle.facts.filterMap Build.Inputs.call?

theorem gather_callCycle : Build.Inputs.gather callCycle = cycleInputs :=
  Build.gather_of_inOrder (by decide +kernel)

/-- The graph of the cycle. -/
def cycleStore : Store := (Build.run {} cycleInputs).1

theorem ofBatches_callCycle : (Build.ofBatches {} [callCycle]).1 = cycleStore := by
  have hmerge : [callCycle].foldl Batch.merge {} = callCycle := by decide
  rw [Build.ofBatches, hmerge, gather_callCycle, cycleStore]

/-- The file that defines three of the functions. -/
def cycleFile : Node where
  id := .file "a.py"
  kind := .file
  attributes := Build.fileAttributes {} [] "a.py"

/-- The file and what it defines. -/
def cycleSeeds : List NodeId :=
  [.file "a.py", .function "a.py" "f", .function "a.py" "g", .function "a.py" "k"]

/-- The edges that lead from the file to what it defines. -/
def cycleDefinitions : List Adjacent :=
  [⟨.function "a.py" "f", 0, .defines⟩, ⟨.function "a.py" "g", 1, .defines⟩,
    ⟨.function "a.py" "k", 2, .defines⟩]

/-- What a report on the file reads of the graph, its walks apart.  It is stated
    at once, so that the graph is built once. -/
theorem cycleStore_reads :
    cycleStore.sightsAt [.defines] Edge.target
        (cycleStore.outgoing.getD (.file "a.py") #[]) = cycleDefinitions ∧
      cycleSeeds.filter cycleStore.contains = cycleSeeds ∧
      cycleSeeds.filterMap (fun id => (cycleStore.definingFile? id).map (·.id)) =
        List.replicate 4 (.file "a.py") ∧
      cycleStore.nodes[cycleFile.id]? = some cycleFile ∧
      cycleStore.nodes[NodeId.function "a.py" "g"]?.map (·.kind) = some .function := by
  decide +kernel

theorem seeds_cycleFile : seeds cycleStore cycleFile = cycleSeeds := by
  have hdefined : definedBy cycleStore (.file "a.py") =
      [.function "a.py" "f", .function "a.py" "g", .function "a.py" "k"] := by
    have hsights : cycleStore.adjacent (.file "a.py") [.defines] .outgoing =
        (cycleDefinitions ++ []).mergeSort Adjacent.le := by
      rw [← cycleStore_reads.1]
      rfl
    rw [definedBy, Store.neighbors, hsights, List.mergeSort_of_pairwise]
    · decide
    · decide
  show sortIds (_ :: definedBy cycleStore (.file "a.py")) = _
  rw [hdefined, sortIds, List.mergeSort_of_pairwise]
  · decide
  · decide

theorem walkSeeds_cycleSeeds : Walk.seeds cycleStore cycleSeeds = cycleSeeds := by
  rw [Walk.seeds, cycleStore_reads.2.1, List.mergeSort_of_pairwise]
  · decide
  · decide

/-- What a walk visits within a budget of three nodes, and why it stops. -/
def cycleVisits (relationships : List Relationship) (direction : Direction) :
    Option (List (NodeId × Nat) × Option Walk.Truncation) :=
  (Walk.DepthFirst.stateWithin 4 cycleStore cycleSeeds
    (({ maxNodes := 3 } : Limits).walk relationships direction 5 0)).map fun st =>
      (st.result.visits.map fun v => (v.node, v.distance), st.result.truncated)

theorem cycleVisits_incoming : cycleVisits [.calls, .inherits] .incoming =
    some ([(.file "a.py", 0), (.function "a.py" "f", 0), (.function "a.py" "g", 1)],
      some .nodeBudget) := by
  rw [cycleVisits, Walk.DepthFirst.stateWithin, Walk.DepthFirst.start, walkSeeds_cycleSeeds]
  decide +kernel

theorem cycleVisits_outgoing : cycleVisits [.calls, .imports, .inherits] .outgoing =
    some ([(.file "a.py", 0), (.function "a.py" "f", 0), (.function "a.py" "k", 1)],
      some .nodeBudget) := by
  rw [cycleVisits, Walk.DepthFirst.stateWithin, Walk.DepthFirst.start, walkSeeds_cycleSeeds]
  decide +kernel

/-- A walk that was followed within the budget visits what was found then. -/
theorem exists_visit_of_cycleVisits {relationships : List Relationship} {direction : Direction}
    {visits : List (NodeId × Nat)} {stop : Option Walk.Truncation} {v : NodeId} {d : Nat}
    (h : cycleVisits relationships direction = some (visits, stop)) (hmem : (v, d) ∈ visits) :
    ∃ x ∈ (Walk.depthFirst cycleStore cycleSeeds
      (({ maxNodes := 3 } : Limits).walk relationships direction 5 0)).visits,
      x.node = v ∧ x.distance = d := by
  obtain ⟨st, hst, hvisits⟩ := Option.map_eq_some_iff.mp h
  cases hvisits
  obtain ⟨x, hx, heq⟩ := List.mem_map.mp hmem
  cases heq
  rw [Walk.depthFirst, Walk.DepthFirst.depthFirstState_of_stateWithin hst]
  exact ⟨x, hx, rfl, rfl⟩

theorem getElem?_cycleFile : cycleStore.nodes[cycleFile.id]? = some cycleFile :=
  cycleStore_reads.2.2.2.1

theorem files_cycleFile : files cycleStore cycleFile = [.file "a.py"] := by
  show sortIds ((seeds cycleStore cycleFile).filterMap _) = _
  rw [seeds_cycleFile, cycleStore_reads.2.2.1, sortIds, List.mergeSort_of_pairwise]
  · decide
  · decide

/-- The file is a seed of the walk over dependencies once more; that changes nothing. -/
theorem dependencyWalk_cycleFile : dependencyWalk cycleStore { maxNodes := 3 } cycleFile 5 =
    Walk.depthFirst cycleStore cycleSeeds
      (({ maxNodes := 3 } : Limits).walk [.calls, .imports, .inherits] .outgoing 5 0) := by
  have hseeds : Walk.seeds cycleStore (cycleSeeds ++ [.file "a.py"]) = cycleSeeds := by
    have hcontains := List.filter_eq_self.mp cycleStore_reads.2.1
    have hkept : (NodeId.file "a.py" :: cycleSeeds).filter cycleStore.contains =
        .file "a.py" :: cycleSeeds :=
      List.filter_eq_self.mpr (List.forall_mem_cons.mpr
        ⟨hcontains _ List.mem_cons_self, hcontains⟩)
    have hperm : ((cycleSeeds ++ [NodeId.file "a.py"]).filter cycleStore.contains).Perm
        ((NodeId.file "a.py" :: cycleSeeds).filter cycleStore.contains) :=
      (List.perm_append_singleton _ _).filter _
    have hsort : List.mergeSort _ NodeId.le = List.mergeSort _ NodeId.le :=
      Sorting.mergeSort_eq_of_perm hperm fun a b _ _ => LawfulEqCmp.eq_of_compare
    rw [Walk.seeds]
    refine (congrArg Store.dropRepeats hsort).trans ?_
    rw [hkept, List.mergeSort_of_pairwise]
    · decide
    · decide
  rw [dependencyWalk, seeds_cycleFile, files_cycleFile]
  simp only [Walk.depthFirst, Walk.depthFirstState, hseeds, walkSeeds_cycleSeeds]

/-- The lists of the file's report, by the walks that are stopped after three nodes. -/
theorem callCycle_classified :
    cycleFile.id ∈ (Build.ofBatches {} [callCycle]).1.nodes ∧
      (Analysis.of (Build.ofBatches {} [callCycle]).1 { maxNodes := 3 } cycleFile 5).Classified
        (Build.ofBatches {} [callCycle]).1 := by
  have hnode : (Build.ofBatches {} [callCycle]).1.nodes[cycleFile.id]? = some cycleFile := by
    rw [ofBatches_callCycle]
    exact getElem?_cycleFile
  have hid : cycleFile.id ∈ (Build.ofBatches {} [callCycle]).1.nodes :=
    ExtTreeMap.mem_iff_isSome_getElem?.mpr (by rw [hnode]; rfl)
  obtain ⟨target, a, -, htarget, rfl, -, hclassified, -⟩ :=
    analyze_classified {} [callCycle] { maxNodes := 3 } none hid
  cases hnode.symm.trans htarget
  exact ⟨hid, hclassified⟩

/-- **The file calls itself:** the walk stops before it finds the way to `g` that
    starts at the seed `g`, so `g` is listed as a caller of its own file though it is
    not affected, and `k` as a dependency of it. -/
theorem callCycle_lists_seeds :
    let s := (Build.ofBatches {} [callCycle]).1
    let a := Analysis.of s { maxNodes := 3 } cycleFile 5
    analyze s { maxNodes := 3 } cycleFile.id none = .ok (a.report s { maxNodes := 3 }) ∧
      (∃ v ∈ a.directCallers s, v ∈ a.seeds ∧ v ∉ a.affected.map (·.id)) ∧
      ∃ q, dependencies s { maxNodes := 3 } cycleFile.id none = .ok q ∧
        ∃ v ∈ q.direct, v ∈ a.seeds := by
  intro s a
  have hs : s = cycleStore := ofBatches_callCycle
  clear_value s
  subst hs
  have hseeds : a.seeds = cycleSeeds := seeds_cycleFile
  have hcalls : a.calls = Walk.depthFirst cycleStore cycleSeeds
      (({ maxNodes := 3 } : Limits).walk [.calls, .inherits] .incoming 5 0) := by
    rw [Analysis.calls_of, seeds_cycleFile]
  obtain ⟨x, hx, hnode, hd⟩ := exists_visit_of_cycleVisits (d := 1)
    (v := .function "a.py" "g") cycleVisits_incoming (by decide)
  obtain ⟨y, hy, hcallee, hone⟩ := exists_visit_of_cycleVisits (d := 1)
    (v := .function "a.py" "k") cycleVisits_outgoing (by decide)
  have hg : NodeId.function "a.py" "g" ∈ a.seeds := by
    rw [hseeds]
    decide
  refine ⟨?_, ⟨_, ?_, hg, ?_⟩, ?_⟩
  · rw [analyze, getElem?_cycleFile]
    rfl
  · rw [Analysis.mem_directCallers, hcalls]
    refine ⟨?_, x, hx, hnode, hd⟩
    obtain ⟨n, hn, hkind⟩ := Option.map_eq_some_iff.mp cycleStore_reads.2.2.2.2
    exact ⟨n, hn, hkind⟩
  · intro hv
    exact (Analysis.mem_map_affected.mp hv).1 (List.mem_append_left _ hg)
  · refine ⟨_, by rw [dependencies, getElem?_cycleFile], y.node, ?_, ?_⟩
    · refine mem_direct_of_visit ?_ hone
      show y ∈ (dependencyWalk cycleStore { maxNodes := 3 } cycleFile 5).visits
      rw [dependencyWalk_cycleFile]
      exact hy
    · rw [hcallee, hseeds]
      decide

end CodeGraph.Impact

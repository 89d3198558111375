import CodeGraph.Proofs.Impact.Depth
/-! # Containment — a file answers for what it defines

    A function or a class and the file that defines it, analyzed at one depth.

    * What the definition stands for, the file stands for too, and both concern the same file
      (`DefinedIn.mem_definedBy`, `DefinedIn.mem_files`).  So whatever refers to the definition
      refers to the file by as many edges (`DefinedIn.refers`).
    * A walk from the file that was not stopped comes upon it, then, at most as far away
      (`exists_found_of_refers`).  It lists it unless the file defines it: that is how a node
      that the definition affects can be missing (`affected_cases`, `directCallers_cases`).
    * A node that the file defines is an entry point if the file is one, and the short walk
      from the file begins there.  So no entry point is lost (`exists_entryPointDistance_file`).

    Only the walks from the file have to be complete. -/

namespace CodeGraph.Impact

open Std

variable {s : Store} {target file : Node} {limits : Limits} {depth : Nat}

/-- A function or a class, and the file that defines it. -/
structure DefinedIn (s : Store) (target file : Node) : Prop where
  node : s.nodes[target.id]? = some target
  isDefinition : target.kind.isDefinition = true
  fileNode : s.nodes[file.id]? = some file
  kind : file.kind = .file
  defining : s.definingFile? target.id = some file
  member : target.id ∈ definedBy s file.id

/-- In a graph that was built, every definition has its file. -/
theorem exists_definedIn (config : Build.Config) (batches : List Batch)
    (htarget : (Build.ofBatches config batches).1.nodes[target.id]? = some target)
    (hdef : target.kind.isDefinition = true) :
    ∃ file, DefinedIn (Build.ofBatches config batches).1 target file := by
  have h := charted_ofBatches config batches
  obtain ⟨path, file, -, hfile, hkind, -, hdefining, hinto⟩ :=
    Build.definition_construct config htarget hdef
  have hkey : file.id = .file path := h.labelled.sound.keyed _ file hfile
  refine ⟨file, htarget, hdef, hkey ▸ hfile, hkind, hdefining, ?_⟩
  have hedge : { source := .file path, target := target.id, relationship := .defines } ∈
      (Build.ofBatches config batches).1.edges :=
    Build.mem_edges_of_mem_edgesInto h.labelled.sound (hinto ▸ List.mem_singleton_self _)
  exact h.labelled.sound.mem_neighbors.mpr ⟨_, hedge, rfl, Or.inl ⟨rfl, hkey.symm, rfl⟩⟩

/-! ## What both stand for -/

namespace DefinedIn

variable (h : DefinedIn s target file)

include h

/-- A file stands for itself and for what it defines. -/
theorem mem_seeds_iff {id : NodeId} :
    id ∈ seeds s file ↔ id = file.id ∨ id ∈ definedBy s file.id := by
  rw [seeds, mem_sortIds, List.mem_cons, members, h.kind]

/-- Whatever the definition stands for is defined in the file. -/
theorem mem_definedBy {id : NodeId} (hid : id ∈ seeds s target) : id ∈ definedBy s file.id := by
  rw [seeds, mem_sortIds, List.mem_cons] at hid
  rcases hid with rfl | hid
  · exact h.member
  · rw [members] at hid
    cases hkind : target.kind with
    | «class» =>
        rw [hkind, h.defining] at hid
        exact (List.mem_filter.mp hid).1
    | function =>
        rw [hkind] at hid
        cases hid
    | file | directory | dependency =>
        have hdef := h.isDefinition
        rw [hkind] at hdef
        cases hdef

/-- Both concern the same file. -/
theorem mem_files (hs : Charted s) {f : NodeId} (hf : f ∈ files s target) :
    f ∈ files s file := by
  have hself := Build.definingFile?_of_file h.fileNode h.kind
  rcases file_cases hs h.node hf with ⟨m, hm, rfl⟩ | ⟨-, hkind⟩
  · cases h.defining.symm.trans hm
    exact mem_files_of_definingFile? h.fileNode hself
  · have hdef := h.isDefinition
    rcases hkind with hkind | hkind <;> rw [hkind] at hdef <;> cases hdef

/-- **Whatever refers to a definition refers to its file,** by as many edges. -/
theorem refers (hs : Charted s) {n : Nat} {id : NodeId} (hr : Refers s target n id) :
    Refers s file n id := by
  rcases hr with ⟨w, hw, hleads⟩ | ⟨f, hf, hleads⟩
  · exact Or.inl ⟨w, h.mem_seeds_iff.mpr (Or.inr (h.mem_definedBy hw)), hleads⟩
  · exact Or.inr ⟨f, h.mem_files hs hf, hleads⟩

end DefinedIn

/-! ## What the walks from the file come upon -/

/-- What is found lies within the depth. -/
theorem le_depth_of_found (hs : s.Sound) {id : NodeId} {n : Nat}
    (hfound : (Analysis.of s limits target depth).Found id n) : n ≤ depth := by
  obtain ⟨polls, heq⟩ := Analysis.exists_imports_of s limits target depth
  rw [Analysis.found_iff, Analysis.calls_of, heq] at hfound
  rcases hfound with ⟨x, hx, rfl, rfl⟩ | ⟨x, hx, rfl, rfl⟩
  · exact (Walk.DepthFirst.route_of_visit hs hx).2
  · exact (Walk.DepthFirst.route_of_visit hs hx).2

/-- Whatever refers to a target by no more edges than the depth says is found, at most as far
    away, if no walk was stopped. -/
theorem exists_found_of_refers (hs : s.Sound) (htarget : s.nodes[target.id]? = some target)
    (hdone : (Analysis.of s limits target depth).Uncut) {n : Nat} {id : NodeId}
    (hr : Refers s target n id) (hn : n ≤ depth) :
    ∃ m ≤ n, (Analysis.of s limits target depth).Found id m := by
  simp only [Analysis.found_iff, calls_visit_iff hs htarget hdone,
    imports_visit_iff hs htarget hdone]
  rcases hr with hr | hr
  · obtain ⟨m, hm, hleast⟩ := Walk.exists_isLeast_le
      (C := {n | ∃ w ∈ seeds s target, s.Leads [.calls, .inherits] n id w}) hr
    exact ⟨m, hm, Or.inl ⟨hleast, Nat.le_trans hm hn⟩⟩
  · obtain ⟨m, hm, hleast⟩ := Walk.exists_isLeast_le
      (C := {n | ∃ f ∈ files s target, s.Leads [.imports] n id f}) hr
    exact ⟨m, hm, Or.inr ⟨hleast, Nat.le_trans hm hn⟩⟩

section

variable (hs : Charted s) (h : DefinedIn s target file)
  (hdone : (Analysis.of s limits file depth).Uncut)

include hs h hdone

/-- **What a definition affects its file affects,** at most as far away, or defines. -/
theorem affected_cases {r : Reached}
    (hr : r ∈ (Analysis.of s limits target depth).affected) :
    (∃ d ≤ r.distance, ⟨r.id, d⟩ ∈ (Analysis.of s limits file depth).affected) ∨
      r.id ∈ definedBy s file.id := by
  have hsound := hs.labelled.sound
  obtain ⟨hout, hrefers⟩ := refers_of_affected hsound hr
  obtain ⟨-, hfound, -⟩ := Analysis.mem_affected.mp hr
  obtain ⟨m, hm, hfound'⟩ := exists_found_of_refers hsound h.fileNode hdone (h.refers hs hrefers)
    (le_depth_of_found hsound hfound)
  by_cases hin : r.id ∈ definedBy s file.id
  · exact Or.inr hin
  · -- the file itself concerns both, so it is not affected either way
    have hfile : file.id ∈ files s target := mem_files_of_definingFile? h.node h.defining
    have hself : file.id ∈ files s file :=
      mem_files_of_definingFile? h.fileNode (Build.definingFile?_of_file h.fileNode h.kind)
    have hne : r.id ≠ file.id := fun heq => hout.2 (heq ▸ hfile)
    have hout' : r.id ∉ (Analysis.of s limits file depth).origin := by
      intro horigin
      rcases List.mem_append.mp horigin with hseed | hf
      · exact (h.mem_seeds_iff.mp hseed).elim hne hin
      · exact hne (eq_of_mem_files hs h.fileNode hf hself)
    obtain ⟨d, hd, hr'⟩ := Analysis.exists_mem_affected_of_found hout' hfound'
    exact Or.inl ⟨d, Nat.le_trans hd hm, hr'⟩

/-- **What calls a definition calls its file** or is defined there. -/
theorem directCallers_cases {v : NodeId}
    (hv : v ∈ (Analysis.of s limits target depth).directCallers s) :
    v ∈ (Analysis.of s limits file depth).directCallers s ∨ v ∈ definedBy s file.id := by
  have hsound := hs.labelled.sound
  obtain ⟨hkind, x, hx, rfl, hd⟩ := Analysis.mem_directCallers.mp hv
  rw [Analysis.calls_of] at hx
  obtain ⟨hroute, hle⟩ := Walk.DepthFirst.route_of_visit hsound hx
  obtain ⟨w, hw, -, hleads⟩ := (Walk.route_iff_leads (List.cons_ne_nil _ _) rfl).mp hroute
  obtain ⟨m, hm, hleast⟩ := Walk.exists_isLeast_le
    (C := {n | ∃ w ∈ seeds s file, s.Leads [.calls, .inherits] n x.node w})
    ⟨w, h.mem_seeds_iff.mpr (Or.inr (h.mem_definedBy hw)), hleads⟩
  rcases m with _ | m
  · obtain ⟨u, hu, hhere⟩ := hleast.1
    rw [← hhere.eq_of_zero] at hu
    refine Or.inr ((h.mem_seeds_iff.mp hu).resolve_left ?_)
    intro heq
    cases eq_of_hasKind hkind ⟨file, heq ▸ h.fileNode, h.kind⟩
  · have hone : m + 1 = 1 := by omega
    rw [hone] at hleast
    exact Or.inl (Analysis.mem_directCallers.mpr ⟨hkind,
      (calls_visit_iff hsound h.fileNode hdone).mpr ⟨hleast, hd ▸ hle⟩⟩)

/-- **A file is as near to an entry point as what it defines.** -/
theorem exists_entryPointDistance_file {d : Nat}
    (hd : (Analysis.of s limits target depth).entryPointDistance s = some d) :
    ∃ d' ≤ d, (Analysis.of s limits file depth).entryPointDistance s = some d' := by
  have hsound := hs.labelled.sound
  -- the short walk from the file comes upon what the one from the definition does
  have hclose : ∀ n v, n ≤ entryPointHops → isEntryPoint s v = true →
      (∃ w ∈ seeds s file, s.Leads [.calls, .imports, .defines, .inherits] n v w) →
      ∃ m ≤ n, (Analysis.of s limits file depth).StartsAt s m := by
    intro n v hn hentry hleads
    obtain ⟨m, hm, hleast⟩ := Walk.exists_isLeast_le (C := {n | ∃ w ∈ seeds s file,
      s.Leads [.calls, .imports, .defines, .inherits] n v w}) hleads
    obtain ⟨x, hx, hnode, rfl⟩ :=
      (near_visit_iff hsound h.fileNode hdone).mpr ⟨hleast, Nat.le_trans hm hn⟩
    exact ⟨x.distance, hm, Or.inl ⟨x, hx, hnode ▸ hentry, rfl⟩⟩
  refine Analysis.exists_entryPointDistance_of_forall ?_ hd
  rintro n (⟨x, hx, hentry, rfl⟩ | ⟨r, hr, hentry, rfl⟩)
  · obtain ⟨polls, heq⟩ := Analysis.exists_near_of s limits target depth
    rw [heq] at hx
    obtain ⟨hroute, hle⟩ := Walk.BreadthFirst.route_of_visit hsound hx
    obtain ⟨w, hw, -, hleads⟩ := (Walk.route_iff_leads (List.cons_ne_nil _ _) rfl).mp hroute
    exact hclose x.distance x.node hle hentry
      ⟨w, h.mem_seeds_iff.mpr (Or.inr (h.mem_definedBy hw)), hleads⟩
  · rcases affected_cases hs h hdone hr with ⟨d', hd', hr'⟩ | hin
    · exact ⟨d', hd', Or.inr ⟨_, hr', hentry, rfl⟩⟩
    · -- an entry point in the file makes the file one
      have hseed : r.id ∈ seeds s file := h.mem_seeds_iff.mpr (Or.inr hin)
      have hsame := definingFile?_of_mem_origin hs h.fileNode (Or.inl hseed)
      rw [isEntryPoint_congr hsame] at hentry
      obtain ⟨m, hm, hstarts⟩ := hclose 0 file.id (Nat.zero_le _) hentry
        ⟨file.id, self_mem_seeds s file, .here _⟩
      exact ⟨m, Nat.le_trans hm (Nat.zero_le _), hstarts⟩

end

/-- **A file answers for what it defines.**  In a graph that was built, every function and every
    class is defined in a file.  If no walk from the file is stopped, then at any depth each
    node that the definition affects is affected by the file, at most as far away, or defined
    there; each of its direct callers is a direct caller of the file or defined there; and if
    it is near an entry point, the file is at least as near. -/
theorem analyze_contained (config : Build.Config) (batches : List Batch) (limits : Limits)
    (depth : Option Nat) {id : NodeId} {target : Node}
    (hid : (Build.ofBatches config batches).1.nodes[id]? = some target)
    (hkind : target.kind = .function ∨ target.kind = .class) :
    let s := (Build.ofBatches config batches).1
    ∃ file a b, s.definingFile? id = some file ∧ id ∈ definedBy s file.id ∧
      a = Analysis.of s limits target (depth.getD limits.maxDepth) ∧
      b = Analysis.of s limits file (depth.getD limits.maxDepth) ∧
      analyze s limits id depth = .ok (a.report s limits) ∧
      analyze s limits file.id depth = .ok (b.report s limits) ∧
      (b.Uncut →
        (∀ r ∈ a.affected,
          (∃ d ≤ r.distance, ⟨r.id, d⟩ ∈ b.affected) ∨ r.id ∈ definedBy s file.id) ∧
        (∀ v ∈ a.directCallers s, v ∈ b.directCallers s ∨ v ∈ definedBy s file.id) ∧
        ∀ d, a.entryPointDistance s = some d → ∃ d' ≤ d, b.entryPointDistance s = some d') := by
  intro s
  have hs : Charted s := charted_ofBatches config batches
  have hkey : target.id = id := hs.labelled.sound.keyed id target hid
  subst hkey
  have hdef : target.kind.isDefinition = true := by
    rcases hkind with hkind | hkind <;> rw [hkind] <;> rfl
  obtain ⟨file, h⟩ := exists_definedIn config batches hid hdef
  refine ⟨file, _, _, h.defining, h.member, rfl, rfl, ?_, ?_, fun hdone => ⟨?_, ?_, ?_⟩⟩
  · rw [analyze, hid]
  · rw [analyze, h.fileNode]
  · exact fun r hr => affected_cases hs h hdone hr
  · exact fun v hv => directCallers_cases hs h hdone hv
  · exact fun d hd => exists_entryPointDistance_file hs h hdone hd

/-- The file that execution imports answers for its function: both affect the importing file,
    and the file is as near to it. -/
theorem analyze_contained_mainGraph :
    ∃ target file a b, mainGraph.nodes[NodeId.function "a.py" "f"]? = some target ∧
      target.kind = .function ∧
      mainGraph.definingFile? (.function "a.py" "f") = some file ∧ b.Uncut ∧
      a = Analysis.of mainGraph {} target 1 ∧ b = Analysis.of mainGraph {} file 1 ∧
      a.affected = [⟨.file "main.py", 1⟩] ∧ a.entryPointDistance mainGraph = some 1 ∧
      ((∃ d ≤ 1, ⟨.file "main.py", d⟩ ∈ b.affected) ∨
        .file "main.py" ∈ definedBy mainGraph file.id) ∧
      ∃ d ≤ 1, b.entryPointDistance mainGraph = some d := by
  obtain ⟨target, htarget, hkind, -, -, haffected, hentry⟩ := exists_analyses_mainGraph
  obtain ⟨file, a, b, hfile, -, rfl, rfl, -, -, hclaim⟩ :=
    analyze_contained {} _ {} (some 1) htarget (Or.inl hkind)
  have hdone := uncut_mainGraph file 1
  obtain ⟨hcontained, -, hnear⟩ := hclaim hdone
  refine ⟨target, file, _, _, htarget, hkind, hfile, hdone, rfl, rfl, haffected, hentry, ?_,
    hnear 1 hentry⟩
  refine hcontained ⟨.file "main.py", 1⟩ ?_
  rw [Option.getD_some]
  exact haffected ▸ List.mem_singleton_self _

end CodeGraph.Impact

import CodeGraph.Proofs.Build.Origins
import CodeGraph.Proofs.Graph.Chain
import CodeGraph.Proofs.Path
/-! # Directories — the forest above the files

    A build infers the directories from the paths of its files.  However odd
    the paths are, what comes out is a forest.

    * Going up from a path yields one pair of a directory and what it contains
      for each slash (`mem_wayUp`), so whatever lies at a path with a slash has the
      directory of its parent above it and nothing else (`mem_containsEdges`).
    * A file or a directory of the finished graph lies at its path exactly if the
      paths of the files say so (`located_iff_lies`).
    * `Forested` collects what follows for every build (`forested_ofBatches`). -/

namespace CodeGraph.Build

open Std

/-! ## Going up from a path -/

/-- The directories above something at a path, as pairs of a directory and what it
    contains. -/
def wayUp (v : NodeId) (path : String) : List (NodeId × NodeId) :=
  let above := (Path.ancestors path).reverse.map NodeId.directory
  above.zip (v :: above)

theorem wayUp_top (v : NodeId) {name : String} (h : '/' ∉ name.toList) : wayUp v name = [] := by
  rw [wayUp, Path.ancestors_top h]
  rfl

theorem wayUp_below (v : NodeId) (up : String) {name : String} (h : '/' ∉ name.toList) :
    wayUp v (up ++ "/" ++ name) = (.directory up, v) :: wayUp (.directory up) up := by
  rw [wayUp, wayUp, Path.ancestors_below up h, List.reverse_append, List.reverse_singleton]
  rfl

/-- Each pair on the way up is a directory and what lies right below it: what one started
    from, or an ancestor. -/
theorem mem_wayUp {v a b : NodeId} {path : String} : (a, b) ∈ wayUp v path ↔
    ∃ up name : String, '/' ∉ name.toList ∧ a = .directory up ∧
      (path = up ++ "/" ++ name ∧ b = v ∨
        up ++ "/" ++ name ∈ Path.ancestors path ∧ b = .directory (up ++ "/" ++ name)) := by
  -- on the path; the directory right above it is the first pair of the way
  induction path using Path.upward generalizing v with
  | top name h =>
      rw [wayUp_top v h]
      constructor
      · exact nofun
      · rintro ⟨up, name', -, -, ⟨rfl, -⟩ | ⟨hin, -⟩⟩
        · exact absurd (Path.slash_mem_below up name') h
        · rw [Path.ancestors_top h] at hin
          cases hin
  | below up name h ih =>
      rw [wayUp_below v up h, List.mem_cons, ih, Path.ancestors_below up h]
      constructor
      · rintro (heq | ⟨up', name', hname, rfl, ⟨hup, rfl⟩ | ⟨hin, rfl⟩⟩)
        · cases heq
          exact ⟨up, name, h, rfl, Or.inl ⟨rfl, rfl⟩⟩
        · refine ⟨up', name', hname, rfl, Or.inr ⟨?_, by rw [hup]⟩⟩
          rw [← hup]
          exact List.mem_append_right _ List.mem_cons_self
        · exact ⟨up', name', hname, rfl, Or.inr ⟨List.mem_append_left _ hin, rfl⟩⟩
      · rintro ⟨up', name', hname, rfl, ⟨heq, rfl⟩ | ⟨hin, rfl⟩⟩
        · -- the parent of the path is the same either way
          have hup := congrArg Path.parent heq
          rw [Path.parent_below up h, Path.parent_below up' hname] at hup
          exact Or.inl (by rw [hup])
        · refine Or.inr ⟨up', name', hname, rfl, ?_⟩
          rcases List.mem_append.mp hin with hin | hin
          · exact Or.inr ⟨hin, rfl⟩
          · rw [List.mem_singleton.mp hin]
            exact Or.inl ⟨rfl, rfl⟩

/-! ## What lies at which path -/

/-- Something lies at a path: a file of some paths, or a directory above one. -/
inductive Lies (paths : List String) : NodeId → String → Prop
  | file {path : String} : path ∈ paths → Lies paths (.file path) path
  | directory {path q : String} : path ∈ paths → q ∈ Path.ancestors path →
      Lies paths (.directory q) q

variable {paths : List String}

/-- It lies at one path only. -/
theorem Lies.eq {v : NodeId} {q q' : String} (h : Lies paths v q) (h' : Lies paths v q') :
    q = q' := by
  have htag : ∀ p p' : String, NodeId.file p ≠ .directory p' :=
    fun p p' => ne_of_tag (tag_file p) (tag_directory p') nofun
  generalize hw : v = w at h'
  cases h with
  | file =>
      cases h' with
      | file => exact file_injective hw
      | directory => exact absurd hw (htag _ _)
  | directory =>
      cases h' with
      | file => exact absurd hw.symm (htag _ _)
      | directory => exact directory_injective hw

/-- An edge from a directory leads to what lies right below it. -/
def containsEdge (up : String) (v : NodeId) : Edge where
  source := .directory up
  target := v
  relationship := .contains

/-- **The edges from directories lead to everything that lies at a path with a slash,**
    each from the directory in front of the last one. -/
theorem mem_containsEdges {e : Edge} : e ∈ containsEdges paths ↔
    ∃ up name v, '/' ∉ name.toList ∧ Lies paths v (up ++ "/" ++ name) ∧
      e = containsEdge up v := by
  rw [containsEdges, List.mem_map]
  simp only [Sorting.mem_dropRepeats, List.mem_mergeSort, List.mem_flatMap]
  constructor
  · rintro ⟨⟨a, b⟩, ⟨path, hpath, hpair⟩, rfl⟩
    obtain ⟨up, name, hname, rfl, ⟨rfl, rfl⟩ | ⟨hin, rfl⟩⟩ := mem_wayUp.mp hpair
    · exact ⟨up, name, _, hname, .file hpath, rfl⟩
    · exact ⟨up, name, _, hname, .directory hpath hin, rfl⟩
  · rintro ⟨up, name, v, hname, hlies, rfl⟩
    refine ⟨(.directory up, v), ?_, rfl⟩
    generalize hq : up ++ "/" ++ name = q at hlies
    cases hlies with
    | file hpath =>
        exact ⟨q, hpath, mem_wayUp.mpr ⟨up, name, hname, rfl, Or.inl ⟨hq.symm, rfl⟩⟩⟩
    | @directory path _ hpath hin =>
        refine ⟨path, hpath, mem_wayUp.mpr ⟨up, name, hname, rfl, Or.inr ⟨?_, by rw [hq]⟩⟩⟩
        rw [hq]
        exact hin

/-- The order of pairs as a comparison. -/
def pairOrder : NodeId × NodeId → NodeId × NodeId → Ordering :=
  compareLex (compareOn Prod.fst) (compareOn Prod.snd)

instance : TransCmp pairOrder := inferInstanceAs (TransCmp (compareLex _ _))

instance : LawfulEqCmp pairOrder where
  compare_self := ReflCmp.compare_self
  eq_of_compare {a b} h := by
    rw [pairOrder, compareLex_eq_eq, compareOn, compareOn] at h
    exact Prod.ext (LawfulEqCmp.eq_of_compare h.1) (LawfulEqCmp.eq_of_compare h.2)

/-- No directory contains anything twice. -/
theorem nodup_containsEdges (paths : List String) :
    ((containsEdges paths).map fun e => (e.source, e.target)).Nodup := by
  have hpairs : (containsEdges paths).map (fun e => (e.source, e.target)) =
      Store.dropRepeats ((paths.flatMap containment).mergeSort pairLe) := by
    rw [containsEdges, List.map_map]
    exact List.map_id _
  rw [hpairs]
  refine (Sorting.pairwise_dropRepeats (Sorting.pairwise_mergeSort pairOrder _)).imp ?_
  rintro a b hlt rfl
  have hself : pairOrder a a = .eq := ReflCmp.compare_self
  rw [hself] at hlt
  cases hlt

/-- An edge to what lies at a path comes from the directory in front of its last slash. -/
theorem eq_of_mem_containsEdges {e : Edge} {path : String} (he : e ∈ containsEdges paths)
    (h : Lies paths e.target path) : ∃ up name, '/' ∉ name.toList ∧ path = up ++ "/" ++ name ∧
      e = containsEdge up e.target := by
  obtain ⟨up, name, v, hname, h', rfl⟩ := mem_containsEdges.mp he
  exact ⟨up, name, hname, h.eq h', rfl⟩

/-- Whatever lies at a path with a slash is contained in the directory of the parent and
    nowhere else. -/
theorem filter_containsEdges_below {up name : String} {v : NodeId} (hname : '/' ∉ name.toList)
    (h : Lies paths v (up ++ "/" ++ name)) :
    ((containsEdges paths).filter fun e => e.target = v) = [containsEdge up v] := by
  refine filter_eq_singleton (nodup_containsEdges paths).of_map
    (mem_containsEdges.mpr ⟨up, name, v, hname, h, rfl⟩) (decide_eq_true rfl) ?_
  intro e he htarget
  obtain rfl : e.target = v := of_decide_eq_true htarget
  obtain ⟨up', name', hname', hpath, heq⟩ := eq_of_mem_containsEdges he h
  have hup := congrArg Path.parent hpath
  rw [Path.parent_below up hname, Path.parent_below up' hname'] at hup
  rw [hup]
  exact heq

/-- Whatever lies at no path with a slash is contained in no directory. -/
theorem filter_containsEdges_top {v : NodeId} (h : ∀ q, Lies paths v q → '/' ∉ q.toList) :
    ((containsEdges paths).filter fun e => e.target = v) = [] := by
  rw [List.filter_eq_nil_iff]
  intro e he
  obtain ⟨up, name, v', -, hlies, rfl⟩ := mem_containsEdges.mp he
  rw [decide_eq_true_eq]
  rintro rfl
  exact h _ hlies (Path.slash_mem_below up name)

/-- What is above something that lies at a path is above a file. -/
theorem Lies.exists_file {v : NodeId} {path q : String} (h : Lies paths v path)
    (hq : q ∈ Path.ancestors path) : ∃ p ∈ paths, q ∈ Path.ancestors p := by
  cases h with
  | file hpath => exact ⟨path, hpath, hq⟩
  | @directory p _ hpath hin => exact ⟨p, hpath, Path.ancestors_trans hin hq⟩

/-- **The way up has one step for each slash.**  It ends at the top, and there is no
    other. -/
theorem exists_root {s : Store} (hs : ∀ e, e ∈ s.edges ∧ e.relationship = .contains ↔
      e ∈ containsEdges paths) {v : NodeId} {path : String} (h : Lies paths v path) :
    ∃ root name, Lies paths root name ∧ '/' ∉ name.toList ∧
      s.Leads [.contains] (path.toList.count '/') root v ∧
      ∀ n u, s.Leads [.contains] n u v →
        n ≤ path.toList.count '/' ∧ (n = path.toList.count '/' → u = root) := by
  -- a chain of edges that ends at `v` has a last one, which comes from the parent
  have hlast : ∀ {n u v path}, Lies paths v path → s.Leads [.contains] (n + 1) u v →
      ∃ up name, '/' ∉ name.toList ∧ path = up ++ "/" ++ name ∧
        s.Leads [.contains] n u (.directory up) := by
    intro n u v path h hleads
    obtain ⟨e, he, hrel, rfl, hchain⟩ := hleads.exists_last
    obtain ⟨up, name, hname, hpath, heq⟩ :=
      eq_of_mem_containsEdges ((hs e).mp ⟨he, List.mem_singleton.mp hrel⟩) h
    refine ⟨up, name, hname, hpath, ?_⟩
    rw [heq] at hchain
    exact hchain
  -- on the path, one component after the other
  induction path using Path.upward generalizing v with
  | top name hname =>
      refine ⟨v, name, h, hname, ?_, ?_⟩
      · rw [List.count_eq_zero_of_not_mem hname]
        exact .here v
      · intro n u hleads
        cases n with
        | zero => exact ⟨Nat.zero_le _, fun _ => hleads.eq_of_zero⟩
        | succ n =>
            obtain ⟨up, name', -, rfl, -⟩ := hlast h hleads
            exact absurd (Path.slash_mem_below up name') hname
  | below up name hname ih =>
      have hcount := Path.count_parent (Path.slash_mem_below up name)
      rw [Path.parent_below up hname] at hcount
      obtain ⟨p, hp, hup⟩ := h.exists_file (Path.mem_ancestors.mpr ⟨name, rfl⟩)
      obtain ⟨root, last, hroot, hslash, hleads, hall⟩ := ih (.directory hp hup)
      obtain ⟨hedge, hrel⟩ :=
        (hs (containsEdge up v)).mpr (mem_containsEdges.mpr ⟨up, name, v, hname, h, rfl⟩)
      refine ⟨root, last, hroot, hslash, ?_, ?_⟩
      · rw [hcount]
        exact hleads.snoc hedge (List.mem_singleton.mpr hrel)
      · intro n u hchain
        cases n with
        | zero => exact ⟨Nat.zero_le _, fun hzero => by omega⟩
        | succ n =>
            obtain ⟨up', name', hname', hpath, hchain⟩ := hlast h hchain
            have hup := congrArg Path.parent hpath
            rw [Path.parent_below up hname, Path.parent_below up' hname'] at hup
            rw [← hup] at hchain
            obtain ⟨hle, hend⟩ := hall n u hchain
            exact ⟨by omega, fun heq => hend (by omega)⟩

/-! ## Files and directories of a graph -/

/-- A file or a directory of a graph, and the path that it has. -/
def Located (s : Store) (v : NodeId) (path : String) : Prop :=
  ∃ n, s.nodes[v]? = some n ∧ (n.kind = .file ∨ n.kind = .directory) ∧
    n.text? Attribute.path = some path

/-- A file or a directory is described by its path. -/
theorem Labelled.located_iff {s : Store} (h : Labelled s) {v : NodeId} {path : String} :
    Located s v path ↔ v = .file path ∧ HasKind s v .file ∨
      v = .directory path ∧ HasKind s v .directory := by
  constructor
  · rintro ⟨n, hn, hkind | hkind, htext⟩
    · have hid := (h.described v n hn).id_of_file hkind htext
      rw [h.sound.keyed v n hn] at hid
      exact Or.inl ⟨hid, n, hn, hkind⟩
    · have hid := (h.described v n hn).id_of_directory hkind htext
      rw [h.sound.keyed v n hn] at hid
      exact Or.inr ⟨hid, n, hn, hkind⟩
  · rintro (⟨rfl, n, hn, hkind⟩ | ⟨rfl, n, hn, hkind⟩)
    · exact ⟨n, hn, Or.inl hkind,
        (h.described _ n hn).path_of_file hkind (h.sound.keyed _ n hn)⟩
    · exact ⟨n, hn, Or.inr hkind,
        (h.described _ n hn).path_of_directory hkind (h.sound.keyed _ n hn)⟩

section Construction

variable (config : Config) (inputs : Inputs)

/-- The paths of the files from which directories are inferred. -/
def sourcePaths : List String := filePaths (addSources config inputs).1.store

variable {config inputs}

theorem mem_sourcePaths {path : String} : path ∈ sourcePaths config inputs ↔
    NodeId.file path ∈ (addSources config inputs).1.store.nodes := by
  have hlabelled := (addSources_spec config inputs).1.labelled
  rw [← hlabelled.hasKind_iff (tag_file path)]
  constructor
  · exact hasKind_file_of_mem_paths hlabelled
  · intro hfile
    obtain ⟨n, hn, hkind, htext⟩ := hlabelled.located_iff.mpr (Or.inl ⟨rfl, hfile⟩)
    obtain ⟨m, hm, hfile⟩ := hfile
    cases hm.symm.trans hn
    refine List.mem_filterMap.mpr ⟨n, ?_, htext⟩
    rw [hlabelled.sound.nodesByKind_eq, List.mem_filter]
    exact ⟨Store.mem_nodeList.mpr ⟨_, hn⟩, decide_eq_true hfile⟩

/-- The files of the graph are those from which directories are inferred. -/
theorem hasKind_file_iff {path : String} :
    HasKind (construct config inputs).store (.file path) .file ↔
      path ∈ sourcePaths config inputs := by
  rw [(built_construct config inputs).labelled.hasKind_iff (tag_file path), mem_sourcePaths]
  exact ⟨mem_addSources_of_mem (tag_file path) nofun nofun,
    fun h => mem_construct_of_mem (mem_addPackages.mpr (Or.inl h))⟩

/-- The directories of the graph are those above its files. -/
theorem hasKind_directory_iff {q : String} :
    HasKind (construct config inputs).store (.directory q) .directory ↔
      ∃ path ∈ sourcePaths config inputs, q ∈ Path.ancestors path := by
  rw [(built_construct config inputs).labelled.hasKind_iff (tag_directory q), ← List.mem_flatMap]
  constructor
  · intro h
    rcases mem_construct_cases h with h | ⟨q', hq', hid⟩ | ⟨package, hid, -⟩
    · -- the sources are files and definitions
      rcases mem_addSources_cases h with ⟨f, -, -, hid⟩ | ⟨f, -, -, hid | hid⟩
      · exact absurd hid (ne_of_tag (tag_directory q) (tag_file _) nofun)
      · exact absurd hid (ne_of_tag (tag_directory q) (tag_file _) nofun)
      · exact absurd hid.symm (nodeIdOf_ne (tag_directory q) rfl f)
    · rw [directory_injective hid]
      exact hq'
    · exact absurd hid (ne_of_tag (tag_directory q) (tag_dependency package) nofun)
  · exact fun h => mem_construct_of_mem (mem_addPackages.mpr (Or.inr (Or.inl ⟨q, h, rfl⟩)))

/-- **Files and directories of the graph lie where the paths of the files say.** -/
theorem located_iff_lies {v : NodeId} {path : String} :
    Located (construct config inputs).store v path ↔ Lies (sourcePaths config inputs) v path := by
  rw [(built_construct config inputs).labelled.located_iff]
  constructor
  · rintro (⟨rfl, hfile⟩ | ⟨rfl, hdirectory⟩)
    · exact .file (hasKind_file_iff.mp hfile)
    · obtain ⟨p, hp, hin⟩ := hasKind_directory_iff.mp hdirectory
      exact .directory hp hin
  · intro h
    cases h with
    | file hpath => exact Or.inl ⟨rfl, hasKind_file_iff.mpr hpath⟩
    | directory hpath hin => exact Or.inr ⟨rfl, hasKind_directory_iff.mpr ⟨_, hpath, hin⟩⟩

end Construction

/-! ## The forest -/

/-- The directories of a graph are a forest above its files. -/
structure Forested (s : Store) : Prop where
  /-- Files have paths, and their identifiers are made from these. -/
  files : ∀ (v : NodeId) (n : Node), s.nodes[v]? = some n → n.kind = .file →
    ∃ path, v = .file path ∧ Located s v path
  /-- So do directories. -/
  directories : ∀ (v : NodeId) (n : Node), s.nodes[v]? = some n → n.kind = .directory →
    ∃ path, v = .directory path ∧ Located s v path
  /-- The directories are those above the files. -/
  ancestors : ∀ q : String, HasKind s (.directory q) .directory ↔
    ∃ path, HasKind s (.file path) .file ∧ ∃ rest, path = q ++ "/" ++ rest
  /-- What lies at a path with a slash is contained once, in the directory in front of the
      last slash. -/
  below : ∀ (v : NodeId) (up name : String), '/' ∉ name.toList →
    Located s v (up ++ "/" ++ name) →
      edgesInto s .contains v = [containsEdge up v] ∧ HasKind s (.directory up) .directory
  /-- Nothing else is contained in a directory. -/
  top : ∀ v : NodeId, (∀ path, Located s v path → '/' ∉ path.toList) →
    edgesInto s .contains v = []
  /-- No directory contains anything twice. -/
  distinct : ((s.edgesByRelationship .contains).map fun e => (e.source, e.target)).Nodup
  /-- The way up has one step for each slash.  It ends at the top, and there is no
      other. -/
  climb : ∀ (v : NodeId) (path : String), Located s v path →
    ∃ root name, Located s root name ∧ '/' ∉ name.toList ∧
      s.Leads [.contains] (path.toList.count '/') root v ∧
      ∀ n u, s.Leads [.contains] n u v →
        n ≤ path.toList.count '/' ∧ (n = path.toList.count '/' → u = root)

theorem forested_construct (config : Config) (inputs : Inputs) :
    Forested (construct config inputs).store := by
  have hlabelled := (built_construct config inputs).labelled
  have hcontains : (construct config inputs).store.edgesByRelationship .contains =
      containsEdges (sourcePaths config inputs) :=
    (edgesByRelationship_construct config inputs).1
  have hedges : ∀ e, e ∈ (construct config inputs).store.edges ∧ e.relationship = .contains ↔
      e ∈ containsEdges (sourcePaths config inputs) := by
    intro e
    rw [← hcontains, hlabelled.sound.edgesByRelationship_eq, List.mem_filter,
      Array.mem_toList_iff, decide_eq_true_eq]
  refine ⟨?files, ?directories, ?ancestors, ?below, ?top, ?distinct, ?climb⟩
  case files =>
    intro v n hn hkind
    obtain ⟨path, hid, htext⟩ := (hlabelled.described v n hn).exists_of_file hkind
    rw [hlabelled.sound.keyed v n hn] at hid
    exact ⟨path, hid, n, hn, Or.inl hkind, htext⟩
  case directories =>
    intro v n hn hkind
    obtain ⟨path, hid, htext⟩ := (hlabelled.described v n hn).exists_of_directory hkind
    rw [hlabelled.sound.keyed v n hn] at hid
    exact ⟨path, hid, n, hn, Or.inr hkind, htext⟩
  case ancestors =>
    intro q
    simp only [hasKind_directory_iff, hasKind_file_iff, Path.mem_ancestors]
  case below =>
    intro v up name hname hlocated
    rw [located_iff_lies] at hlocated
    refine ⟨?_, ?_⟩
    · rw [edgesInto, hcontains, filter_containsEdges_below hname hlocated]
    · exact hasKind_directory_iff.mpr
        (hlocated.exists_file (Path.mem_ancestors.mpr ⟨name, rfl⟩))
  case top =>
    intro v hnone
    rw [edgesInto, hcontains]
    exact filter_containsEdges_top fun q hq => hnone q (located_iff_lies.mpr hq)
  case distinct =>
    rw [hcontains]
    exact nodup_containsEdges _
  case climb =>
    intro v path hlocated
    obtain ⟨root, name, hroot, hrest⟩ := exists_root hedges (located_iff_lies.mp hlocated)
    exact ⟨root, name, located_iff_lies.mpr hroot, hrest⟩

/-- **The directories of every graph that is built are a forest above its files.** -/
theorem forested_ofBatches (config : Config) (batches : List Batch) :
    Forested (ofBatches config batches).1 :=
  forested_construct config _

end CodeGraph.Build

import CodeGraph.Proofs.Build.Soundness
import CodeGraph.Proofs.Graph.Chain
import CodeGraph.Proofs.Impact.Affected
import CodeGraph.Proofs.Walk.DepthFirst
/-! # Completeness — a report that is not of low confidence misses nothing

    Both walks behind such a report were neither stopped nor limited, so what
    they found is all that there is to find.

    * That one node depends on another means, in the direction of the edges, that
      some edges lead from the one to the other (`Store.Leads`).
    * The target and the files it is defined in are nodes, so every route of a
      walk against the edges is such a chain (`route_iff_leads`).
    * In a graph that was built, only files import. -/

namespace CodeGraph

/-- A list with something on it admits its members and nothing else. -/
theorem Store.admits_iff {relationships : List Relationship} (h : relationships ≠ [])
    {r : Relationship} : Store.admits relationships r = true ↔ r ∈ relationships := by
  rw [Store.admits, Bool.or_eq_true, List.isEmpty_iff, List.contains_iff_mem]
  exact or_iff_right h

/-- Against the edges, a walk finds what leads to its seeds. -/
theorem Walk.route_iff_leads {s : Store} {config : Walk.Config} {ids : List NodeId}
    (hrel : config.relationships ≠ []) (hdir : config.direction = .incoming) {v : NodeId}
    {n : Nat} : Walk.Route s config ids v n ↔
      ∃ w ∈ ids, w ∈ s.nodes ∧ s.Leads config.relationships n v w := by
  constructor
  · intro hr
    induction hr with
    | @seed v hv hnode => exact ⟨v, hv, hnode, .here v⟩
    | step _ hj ih =>
        obtain ⟨w, hw, hnode, hl⟩ := ih
        obtain ⟨e, he, hr, ⟨hleaves, -, -⟩ | ⟨-, rfl, rfl⟩⟩ := hj
        · rw [hdir] at hleaves
          cases hleaves
        · exact ⟨w, hw, hnode, .step he ((Store.admits_iff hrel).mp hr) hl⟩
  · rintro ⟨w, hw, hnode, hl⟩
    induction hl with
    | here u => exact .seed hw hnode
    | @step n e w he hr _ ih =>
        refine .step (ih hw hnode) ⟨e, he, (Store.admits_iff hrel).mpr hr, Or.inr ⟨?_, rfl, rfl⟩⟩
        rw [hdir]
        rfl

namespace Impact

/-! ## Targets -/

variable {s : Store} {target : Node}

/-- The file of a node is a node. -/
theorem getElem?_of_definingFile? (hs : s.Sound) {id : NodeId} {f : Node}
    (h : s.definingFile? id = some f) : s.nodes[f.id]? = some f := by
  obtain ⟨n, hn, hf⟩ := Option.bind_eq_some_iff.mp h
  have hkey : ∀ (i : NodeId), s.nodes[i]? = some f → s.nodes[f.id]? = some f := by
    intro i hi
    rw [hs.keyed i f hi]
    exact hi
  split at hf
  · cases hf
    exact hkey id hn
  · obtain ⟨path, -, hf⟩ := Option.bind_eq_some_iff.mp hf
    exact hkey _ hf
  · obtain ⟨path, -, hf⟩ := Option.bind_eq_some_iff.mp hf
    exact hkey _ hf
  · cases hf
  · cases hf

theorem mem_sortIds {id : NodeId} {ids : List NodeId} : id ∈ sortIds ids ↔ id ∈ ids := by
  rw [sortIds, Sorting.mem_dropRepeats, List.mem_mergeSort]

/-- A target stands for itself. -/
theorem self_mem_seeds (s : Store) (target : Node) : target.id ∈ seeds s target := by
  rw [seeds, mem_sortIds]
  exact List.mem_cons_self

/-- What a target stands for are nodes. -/
theorem mem_nodes_of_mem_seeds (hs : s.Sound) (htarget : s.nodes[target.id]? = some target)
    {id : NodeId} (h : id ∈ seeds s target) : id ∈ s.nodes := by
  have hdefined : ∀ (file : NodeId), id ∈ definedBy s file → id ∈ s.nodes := by
    intro file hid
    exact (hs.mem_of_joined (hs.mem_neighbors.mp hid)).2
  rw [seeds, mem_sortIds, List.mem_cons] at h
  rcases h with rfl | h
  · exact Std.ExtTreeMap.mem_iff_isSome_getElem?.mpr (by rw [htarget]; rfl)
  · rw [members] at h
    split at h
    · split at h
      · exact hdefined _ (List.mem_filter.mp h).1
      · cases h
    · exact hdefined _ h
    · cases h
    · cases h
    · cases h

/-- The files of a target are nodes. -/
theorem mem_nodes_of_mem_files (hs : s.Sound) (htarget : s.nodes[target.id]? = some target)
    {id : NodeId} (h : id ∈ files s target) : id ∈ s.nodes := by
  have hself : s.nodes[target.id]?.isSome := by rw [htarget]; rfl
  have hdefining : id ∈ sortIds ((seeds s target).filterMap fun id =>
      (s.definingFile? id).map (·.id)) → s.nodes[id]?.isSome := by
    intro hid
    rw [mem_sortIds] at hid
    obtain ⟨i, -, hi⟩ := List.mem_filterMap.mp hid
    obtain ⟨f, hf, rfl⟩ := Option.map_eq_some_iff.mp hi
    rw [getElem?_of_definingFile? hs hf]
    rfl
  rw [Std.ExtTreeMap.mem_iff_isSome_getElem?]
  rw [files] at h
  split at h
  · rw [List.mem_singleton.mp h]
    exact hself
  · rw [List.mem_singleton.mp h]
    exact hself
  · exact hdefining h
  · exact hdefining h
  · exact hdefining h

/-! ## Complete walks -/

/-- Properties of the same numbers have the same least one. -/
theorem isLeast_congr {p q : Nat → Prop} (h : ∀ n, p n ↔ q n) {d : Nat} :
    IsLeast {n | p n} d ↔ IsLeast {n | q n} d := by
  rw [funext fun n => propext (h n)]

/-- A least element of two sets together is the least of their least elements. -/
theorem isLeast_isLeast_iff {A B : Set Nat} {d : Nat} :
    IsLeast {n | IsLeast A n ∨ IsLeast B n} d ↔ IsLeast {n | n ∈ A ∨ n ∈ B} d := by
  constructor
  · rintro ⟨hd, hle⟩
    refine ⟨hd.imp (·.1) (·.1), ?_⟩
    rintro n (hn | hn)
    · obtain ⟨m, hmn, hm⟩ := Walk.exists_isLeast_le hn
      exact Nat.le_trans (hle (Or.inl hm)) hmn
    · obtain ⟨m, hmn, hm⟩ := Walk.exists_isLeast_le hn
      exact Nat.le_trans (hle (Or.inr hm)) hmn
  · rintro ⟨hd, hle⟩
    refine ⟨?_, fun n hn => hle (hn.imp (·.1) (·.1))⟩
    exact hd.imp (fun h => ⟨h, fun n hn => hle (Or.inl hn)⟩)
      fun h => ⟨h, fun n hn => hle (Or.inr hn)⟩

section

variable {config : Walk.Config} {ids : List NodeId} {v : NodeId} {d : Nat}
  (hrel : config.relationships ≠ []) (hdir : config.direction = .incoming)
  (hids : ∀ (id : NodeId), id ∈ ids → id ∈ s.nodes)

include hrel hdir hids

/-- Against the edges, a node is as near as a shortest chain that leads to a seed is
    long. -/
theorem nearest_iff_leads : Walk.Nearest s config ids v d ↔
    IsLeast {n | ∃ w ∈ ids, s.Leads config.relationships n v w} d := by
  refine isLeast_congr fun n => ?_
  rw [Walk.route_iff_leads hrel hdir]
  constructor
  · rintro ⟨w, hw, -, hl⟩
    exact ⟨w, hw, hl⟩
  · rintro ⟨w, hw, hl⟩
    exact ⟨w, hw, hids w hw, hl⟩

/-- An exact walk against the edges comes upon everything that leads to its seeds by no
    more edges than its limit says. -/
theorem exists_visit_iff_of_exact {r : Walk.Result} (hexact : Walk.Exact s config ids r) :
    (∃ x ∈ r.visits, x.node = v ∧ x.distance = d) ↔
      IsLeast {n | ∃ w ∈ ids, s.Leads config.relationships n v w} d ∧ d ≤ config.maxDepth := by
  rw [hexact.visited, nearest_iff_leads hrel hdir hids]

/-- A walk against the edges that is neither stopped nor limited comes upon
    everything that leads to its seeds. -/
theorem exists_visit_iff_of_complete (hs : s.Sound)
    (hdone : (Walk.depthFirst s ids config).truncated = none)
    (hall : (Walk.depthFirst s ids config).depthLimitReached = false) :
    (∃ x ∈ (Walk.depthFirst s ids config).visits, x.node = v ∧ x.distance = d) ↔
      IsLeast {n | ∃ w ∈ ids, s.Leads config.relationships n v w} d := by
  have hexact := Walk.DepthFirst.exact_of_not_truncated hs config ids hdone
  rw [hexact.visited_of_complete hall, nearest_iff_leads hrel hdir hids]

end

/-- A node depends on a target at a distance: that many calls and inheritances
    lead from it to what the target stands for, or it is a file from which that
    many imports lead to one of the target's files. -/
def DependsAt (s : Store) (target : Node) (id : NodeId) (n : Nat) : Prop :=
  (∃ w ∈ seeds s target, s.Leads [.calls, .inherits] n id w) ∨
    Build.HasKind s id .file ∧ ∃ f ∈ files s target, s.Leads [.imports] n id f

/-- In a typed store only files import. -/
theorem hasKind_file_of_leads (hs : Build.Typed s) {n : Nat} {id f : NodeId}
    (h : s.Leads [.imports] n id f) (hne : id ≠ f) : Build.HasKind s id .file := by
  cases h with
  | here => exact absurd rfl hne
  | @step n e _ he hr _ =>
      obtain ⟨a, b, ha, -, hallows⟩ := hs.allowed e he
      rw [List.mem_singleton.mp hr] at hallows
      cases a with
      | file => exact ha
      | directory => cases b <;> cases hallows
      | function => cases b <;> cases hallows
      | «class» => cases b <;> cases hallows
      | dependency => cases b <;> cases hallows

/-- An analysis is not incomplete if neither long walk was stopped or limited. -/
theorem isIncomplete_eq_false_iff {a : Analysis} : a.isIncomplete = false ↔
    (a.calls.truncated = none ∧ a.calls.depthLimitReached = false) ∧
      a.imports.truncated = none ∧ a.imports.depthLimitReached = false := by
  simp [Analysis.isIncomplete]

section

variable (limits : Limits) (depth : Nat)
  (hall : (Analysis.of s limits target depth).isIncomplete = false)

include hall

/-- Complete walks come upon a node at the length of a shortest chain of calls and
    inheritances and at that of a shortest chain of imports. -/
theorem found_iff_of_complete (hs : s.Sound) (htarget : s.nodes[target.id]? = some target)
    {id : NodeId} {n : Nat} : (Analysis.of s limits target depth).Found id n ↔
      IsLeast {n | ∃ w ∈ seeds s target, s.Leads [.calls, .inherits] n id w} n ∨
        IsLeast {n | ∃ f ∈ files s target, s.Leads [.imports] n id f} n := by
  obtain ⟨⟨hcalls, hcallsAll⟩, himports, himportsAll⟩ := isIncomplete_eq_false_iff.mp hall
  obtain ⟨polls, heq⟩ := Analysis.exists_imports_of s limits target depth
  rw [Analysis.calls_of] at hcalls hcallsAll
  rw [heq] at himports himportsAll
  rw [Analysis.found_iff, Analysis.calls_of, heq]
  refine or_congr ?_ ?_
  · exact exists_visit_iff_of_complete (List.cons_ne_nil _ _) rfl
      (fun _ => mem_nodes_of_mem_seeds hs htarget) hs hcalls hcallsAll
  · exact exists_visit_iff_of_complete (List.cons_ne_nil _ _) rfl
      (fun _ => mem_nodes_of_mem_files hs htarget) hs himports himportsAll

/-- **Complete walks find exactly what depends on the target,** and at its
    distance. -/
theorem mem_affected_of_complete (hs : Build.Typed s)
    (htarget : s.nodes[target.id]? = some target) {id : NodeId} {d : Nat} :
    ⟨id, d⟩ ∈ (Analysis.of s limits target depth).affected ↔
      id ∉ seeds s target ∧ id ∉ files s target ∧
        IsLeast {n | DependsAt s target id n} d := by
  have hfound : ∀ n, (Analysis.of s limits target depth).Found id n ↔ _ :=
    fun _ => found_iff_of_complete limits depth hall hs.reachable.sound htarget
  have horigin : id ∉ (Analysis.of s limits target depth).origin ↔
      id ∉ seeds s target ∧ id ∉ files s target := by
    show id ∉ seeds s target ++ files s target ↔ _
    rw [List.mem_append, not_or]
  rw [Analysis.mem_affected, horigin, and_assoc]
  refine and_congr_right fun _ => and_congr_right fun hout => ?_
  rw [isLeast_congr hfound, isLeast_isLeast_iff]
  refine isLeast_congr fun n => or_congr_right ?_
  -- `id` is none of the files itself, so it imports something and is a file
  constructor
  · rintro ⟨f, hf, hl⟩
    refine ⟨hasKind_file_of_leads hs hl ?_, f, hf, hl⟩
    rintro rfl
    exact hout hf
  · rintro ⟨-, f, hf, hl⟩
    exact ⟨f, hf, hl⟩

end

/-- **A report that is not of low confidence is complete.**  In a graph that was
    built, it tells of everything outside a target that depends on it, nearest
    first and then by identifier, as far as the cap goes, and whether the cap
    left something out. -/
theorem analyze_complete (config : Build.Config) (batches : List Batch) (limits : Limits)
    (depth : Option Nat) {id : NodeId} (hid : id ∈ (Build.ofBatches config batches).1.nodes) :
    let s := (Build.ofBatches config batches).1
    ∃ target r, s.nodes[id]? = some target ∧ analyze s limits id depth = .ok r ∧
      (r.confidence ≠ .low → ∃ all : List Reached,
        (∀ (v : NodeId) (d : Nat), ⟨v, d⟩ ∈ all ↔ v ∉ seeds s target ∧ v ∉ files s target ∧
          IsLeast {n | DependsAt s target v n} d) ∧
        (all.Pairwise fun x y =>
          x.distance < y.distance ∨ x.distance = y.distance ∧ x.id.text < y.id.text) ∧
        r.affected = (all.take limits.affectedCap).map (·.id) ∧
        (r.affectedTruncated = true ↔ r.affected.length < all.length)) := by
  intro s
  have hs : Build.Typed s := Build.typed_ofBatches config batches
  obtain ⟨target, htarget⟩ := Option.isSome_iff_exists.mp
    (Std.ExtTreeMap.mem_iff_isSome_getElem?.mp hid)
  have hkey : target.id = id := hs.reachable.sound.keyed id target htarget
  refine ⟨target, _, htarget, by rw [analyze, htarget], fun hconfidence => ?_⟩
  have hall : (Analysis.of s limits target (depth.getD limits.maxDepth)).isIncomplete =
      false := by
    -- an incomplete analysis is of low confidence
    by_contra hnot
    refine hconfidence ?_
    show Analysis.confidence s _ = .low
    rw [Analysis.confidence, Bool.eq_true_of_not_eq_false hnot]
    rfl
  refine ⟨(Analysis.of s limits target (depth.getD limits.maxDepth)).affected, ?_,
    Analysis.pairwise_affected, rfl, ?_⟩
  · intro v d
    exact mem_affected_of_complete limits _ hall hs (hkey ▸ htarget)
  · show decide (limits.affectedCap < List.length _) = true ↔
      List.length (List.map _ (List.take _ _)) < _
    rw [decide_eq_true_iff, List.length_map, List.length_take]
    omega

/-! ## A package -/

/-- A file that imports a package. -/
def packageGraph : Store :=
  (Build.ofBatches {} [⟨[.file { path := "a.py" },
    .import { file := "a.py", module := "numpy" }], [], []⟩]).1

/-- The package. -/
def numpy : Node where
  id := .dependency "numpy"
  kind := .dependency
  attributes := .ofFields
    [(Attribute.name, .string "numpy"), (Attribute.version, .null),
     (Attribute.isExternal, .bool true)]

/-- The report on the package tells of the file and of nothing else. -/
theorem analyze_complete_numpy :
    numpy.id ∈ packageGraph.nodes ∧ ∃ r, analyze packageGraph {} numpy.id none = .ok r ∧
      r.confidence ≠ .low ∧ r.affected = [.file "a.py"] ∧ r.affectedTruncated = false ∧
      ∃ all : List Reached,
        (∀ (v : NodeId) (d : Nat), ⟨v, d⟩ ∈ all ↔
          v ∉ seeds packageGraph numpy ∧ v ∉ files packageGraph numpy ∧
            IsLeast {n | DependsAt packageGraph numpy v n} d) ∧
        r.affected = (all.take 500).map (·.id) := by
  have hid : numpy.id ∈ packageGraph.nodes := by decide +kernel
  have hnode : packageGraph.nodes[numpy.id]? = some numpy := by decide +kernel
  obtain ⟨target, r, htarget, hr, hcomplete⟩ := analyze_complete {} _ {} none hid
  have hnumpy : target = numpy := Option.some.inj (htarget.symm.trans hnode)
  subst hnumpy
  replace hr : analyze packageGraph {} numpy.id none = .ok r := hr
  obtain ⟨a, ha, hfound⟩ := Option.map_eq_some_iff.mp
    (show ((Analysis.within 3 packageGraph {} numpy 5).map fun a =>
        (a.confidence packageGraph, a.affected)) = some (.high, [⟨.file "a.py", 1⟩]) by
      decide +kernel)
  obtain ⟨hconfidence, haffected⟩ := Prod.mk.inj hfound
  have hreport : r = a.report packageGraph {} := by
    rw [← Analysis.of_eq_of_within ha]
    rw [analyze, hnode] at hr
    exact (Except.ok.inj hr).symm
  have hlow : r.confidence ≠ .low := by
    rw [hreport]
    show a.confidence packageGraph ≠ .low
    rw [hconfidence]
    decide
  obtain ⟨all, hmem, -, htake, -⟩ := hcomplete hlow
  refine ⟨hid, r, hr, hlow, ?_, ?_, all, hmem, htake⟩
  · rw [hreport, Analysis.report, haffected]
    rfl
  · rw [hreport, Analysis.report, haffected]
    rfl

end Impact

end CodeGraph

import CodeGraph.Proofs.Impact.Classification
/-! # Duality — what a function needs and what needs it

    The report on a function lists what a change to it affects, its dependencies
    list what it needs.  The two come from walks with other seeds, over other
    relationships and in opposite directions.  Between functions they agree.

    * A walk along the edges finds what its seeds lead to
      (`route_iff_leads_from`), as a walk against them finds what leads to its
      seeds.
    * A chain that ends at a function and defines nothing consists of calls, and
      functions make them (`leads_iff_leads_calls`).  So neither imports nor
      inheritances come between two functions, and no file leads to one.
    * Both reports therefore say how many calls lead from the one function to the
      other (`visited_iff_of_calls`, `visited_iff_of_dependencyWalk`). -/

namespace CodeGraph

/-! ## Walks along the edges -/

/-- The order in which seeds are given does not matter. -/
theorem Walk.seeds_eq_of_perm {s : Store} {ids ids' : List NodeId} (h : ids.Perm ids') :
    Walk.seeds s ids = Walk.seeds s ids' :=
  congrArg Store.dropRepeats (Sorting.mergeSort_eq_of_perm (h.filter _)
    fun _ _ _ _ => Std.LawfulEqCmp.eq_of_compare)

/-- Nodes in order that are all there are seeds as they are. -/
theorem Walk.seeds_eq_self {s : Store} {ids : List NodeId} (hids : ∀ id ∈ ids, s.contains id = true)
    (hsorted : ids.Pairwise fun a b => NodeId.le a b) (hdistinct : Store.dropRepeats ids = ids) :
    Walk.seeds s ids = ids := by
  rw [Walk.seeds, List.filter_eq_self.mpr hids, List.mergeSort_of_pairwise hsorted, hdistinct]

theorem Walk.seeds_singleton {s : Store} {id : NodeId} (h : s.contains id = true) :
    Walk.seeds s [id] = [id] :=
  Walk.seeds_eq_self (List.forall_mem_singleton.mpr h) (List.pairwise_singleton ..) rfl

/-- Along the edges, a walk finds what its seeds lead to. -/
theorem Walk.route_iff_leads_from {s : Store} {config : Walk.Config} {ids : List NodeId}
    (hrel : config.relationships ≠ []) (hdir : config.direction = .outgoing) {v : NodeId}
    {n : Nat} : Walk.Route s config ids v n ↔
      ∃ w ∈ ids, w ∈ s.nodes ∧ s.Leads config.relationships n w v := by
  constructor
  · intro hr
    induction hr with
    | @seed v hv hnode => exact ⟨v, hv, hnode, .here v⟩
    | step _ hj ih =>
        obtain ⟨w, hw, hnode, hl⟩ := ih
        obtain ⟨e, he, hr, ⟨-, rfl, rfl⟩ | ⟨henters, -, -⟩⟩ := hj
        · exact ⟨w, hw, hnode, hl.snoc he ((Store.admits_iff hrel).mp hr)⟩
        · rw [hdir] at henters
          cases henters
  · rintro ⟨w, hw, hnode, hl⟩
    -- a chain is built from its end, a route from its seed: any route to the
    -- start of the chain goes on along it
    have hon : ∀ m, Walk.Route s config ids w m → Walk.Route s config ids v (m + n) := by
      clear hw hnode
      induction hl with
      | here u => exact fun m hr => hr
      | @step n e w he hr _ ih =>
          intro m hm
          have hnext : Walk.Route s config ids e.target (m + 1) := by
            refine hm.step ⟨e, he, (Store.admits_iff hrel).mpr hr, Or.inl ⟨?_, rfl, rfl⟩⟩
            rw [hdir]
            rfl
          rw [Nat.add_comm n 1, ← Nat.add_assoc]
          exact ih (m + 1) hnext
    have hroute := hon 0 (.seed hw hnode)
    rwa [Nat.zero_add] at hroute

namespace Impact

variable {s : Store} {target : Node}

/-! ## Chains between functions -/

/-- A node is of one kind. -/
theorem eq_of_hasKind {id : NodeId} {k l : NodeKind} (hk : Build.HasKind s id k)
    (hl : Build.HasKind s id l) : k = l := by
  obtain ⟨n, hn, rfl⟩ := hk
  obtain ⟨m, hm, rfl⟩ := hl
  cases hn.symm.trans hm
  rfl

/-- What leads to a function without defining it calls it, and is a function. -/
theorem calls_of_leads (hs : Build.Typed s) {relationships : List Relationship}
    (hdefines : Relationship.defines ∉ relationships) {n : Nat} {v w : NodeId}
    (hw : Build.HasKind s w .function) (h : s.Leads relationships n v w) :
    Build.HasKind s v .function ∧ s.Leads [.calls] n v w := by
  induction h with
  | here u => exact ⟨hw, .here u⟩
  | @step n e w he hrel _ ih =>
      obtain ⟨htarget, hcalls⟩ := ih hw
      obtain ⟨a, b, ha, hb, hallows⟩ := hs.allowed e he
      cases eq_of_hasKind hb htarget
      -- only a call and a definition may end at a function
      cases hr : e.relationship with
      | calls =>
          rw [hr] at hallows
          cases a with
          | function => exact ⟨ha, .step he (by rw [hr]; exact List.mem_cons_self) hcalls⟩
          | file | directory | «class» | dependency => cases hallows
      | defines => exact absurd (hr ▸ hrel) hdefines
      | contains | imports | inherits =>
          rw [hr] at hallows
          cases a <;> cases hallows

/-- A chain stays one if more relationships are allowed. -/
theorem leads_mono {rs rs' : List Relationship} (hsub : ∀ r ∈ rs, r ∈ rs') {n : Nat}
    {v w : NodeId} (h : s.Leads rs n v w) : s.Leads rs' n v w := by
  induction h with
  | here u => exact .here u
  | step he hrel _ ih => exact .step he (hsub _ hrel) ih

/-- **The chains to a function are those of calls,** as long as calls are among the
    relationships and definitions are not. -/
theorem leads_iff_leads_calls (hs : Build.Typed s) (relationships : List Relationship)
    (hcalls : Relationship.calls ∈ relationships)
    (hdefines : Relationship.defines ∉ relationships) {n : Nat} {v w : NodeId}
    (hw : Build.HasKind s w .function) :
    s.Leads relationships n v w ↔ s.Leads [.calls] n v w := by
  constructor
  · exact fun h => (calls_of_leads hs hdefines hw h).2
  · refine leads_mono ?_
    intro r hr
    rw [List.mem_singleton.mp hr]
    exact hcalls

/-- A function stands for itself only. -/
theorem mem_seeds_of_function (hkind : target.kind = .function) {id : NodeId} :
    id ∈ seeds s target ↔ id = target.id := by
  rw [seeds, mem_sortIds, members, hkind]
  exact List.mem_singleton

/-! ## The walks -/

section Walks

variable (h : Charted s) (htarget : s.nodes[target.id]? = some target)
  (hkind : target.kind = .function) (limits : Limits) (depth : Nat)

include h htarget hkind

/-- A walk over calls that was not stopped comes upon what calls a function, at the
    length of a shortest chain of calls within the limit. -/
theorem visited_iff_of_calls
    (hdone : (Analysis.of s limits target depth).calls.truncated = none) {v : NodeId}
    {d : Nat} :
    (∃ x ∈ (Analysis.of s limits target depth).calls.visits, x.node = v ∧ x.distance = d) ↔
      IsLeast {n | s.Leads [.calls] n v target.id} d ∧ d ≤ depth := by
  have hs := h.labelled.sound
  rw [Analysis.calls_of] at hdone ⊢
  rw [(Walk.DepthFirst.exact_of_not_truncated hs _ _ hdone).visited]
  refine and_congr_left fun _ => isLeast_congr fun n => ?_
  rw [Walk.route_iff_leads (List.cons_ne_nil _ _) rfl,
    ← leads_iff_leads_calls h.typed [.calls, .inherits]
      List.mem_cons_self (by decide) ⟨target, htarget, hkind⟩]
  constructor
  · rintro ⟨w, hw, -, hl⟩
    rw [(mem_seeds_of_function hkind).mp hw] at hl
    exact hl
  · intro hl
    have hseed : target.id ∈ seeds s target := (mem_seeds_of_function hkind).mpr rfl
    exact ⟨target.id, hseed, mem_nodes_of_mem_seeds hs htarget hseed, hl⟩

/-- A walk along dependencies that was not stopped comes upon the functions that a
    function calls, at the length of a shortest chain of calls within the limit. -/
theorem visited_iff_of_dependencyWalk
    (hdone : (dependencyWalk s limits target depth).truncated = none) {v : NodeId}
    (hv : Build.HasKind s v .function) {d : Nat} :
    (∃ x ∈ (dependencyWalk s limits target depth).visits, x.node = v ∧ x.distance = d) ↔
      IsLeast {n | s.Leads [.calls] n target.id v} d ∧ d ≤ depth := by
  have hs := h.labelled.sound
  rw [dependencyWalk] at hdone ⊢
  rw [(Walk.DepthFirst.exact_of_not_truncated hs _ _ hdone).visited]
  refine and_congr_left fun _ => isLeast_congr fun n => ?_
  rw [Walk.route_iff_leads_from (List.cons_ne_nil _ _) rfl,
    ← leads_iff_leads_calls h.typed [.calls, .imports, .inherits]
      List.mem_cons_self (by decide) hv]
  constructor
  · rintro ⟨w, hw, -, hl⟩
    rcases List.mem_append.mp hw with hw | hw
    · rw [(mem_seeds_of_function hkind).mp hw] at hl
      exact hl
    · -- a chain to a function starts at a function, and the file is none
      have hdefines : Relationship.defines ∉ [.calls, .imports, .inherits] := by decide
      obtain ⟨n, hn, hfunction⟩ := (calls_of_leads h.typed hdefines hv hl).1
      exact absurd hfunction (not_function_of_mem_files h htarget hw hn)
  · intro hl
    have hseed : target.id ∈ seeds s target := (mem_seeds_of_function hkind).mpr rfl
    exact ⟨target.id, List.mem_append_left _ hseed, mem_nodes_of_mem_seeds hs htarget hseed, hl⟩

omit hkind in
/-- The walk over imports comes upon no function. -/
theorem not_function_of_imports {x : Walk.Visit}
    (hx : x ∈ (Analysis.of s limits target depth).imports.visits) :
    ¬ Build.HasKind s x.node .function := by
  intro hfunction
  obtain ⟨polls, heq⟩ := Analysis.exists_imports_of s limits target depth
  rw [heq] at hx
  obtain ⟨f, hf, -, hleads⟩ := (Walk.route_iff_leads (List.cons_ne_nil _ _) rfl).mp
    (Walk.DepthFirst.route_of_visit h.labelled.sound hx).1
  have hne : x.node ≠ f := by
    rintro rfl
    obtain ⟨n, hn, hkind⟩ := hfunction
    exact not_function_of_mem_files h htarget hf hn hkind
  cases eq_of_hasKind hfunction (hasKind_file_of_leads h.typed hleads hne)

/-- Another function is affected if the walk over calls comes upon it. -/
theorem mem_affected_iff_of_function {v : NodeId} (hv : Build.HasKind s v .function)
    (hne : v ≠ target.id) :
    v ∈ (Analysis.of s limits target depth).affected.map (·.id) ↔
      ∃ x ∈ (Analysis.of s limits target depth).calls.visits, x.node = v := by
  have hout : v ∉ (Analysis.of s limits target depth).origin := by
    intro hin
    rcases List.mem_append.mp hin with hin | hin
    · exact hne ((mem_seeds_of_function hkind).mp hin)
    · obtain ⟨n, hn, hfunction⟩ := hv
      exact not_function_of_mem_files h htarget hin hn hfunction
  rw [Analysis.mem_map_affected]
  constructor
  · rintro ⟨-, d, hfound⟩
    rcases Analysis.found_iff.mp hfound with ⟨x, hx, rfl, -⟩ | ⟨x, hx, rfl, -⟩
    · exact ⟨x, hx, rfl⟩
    · exact absurd hv (not_function_of_imports h htarget limits depth hx)
  · rintro ⟨x, hx, rfl⟩
    exact ⟨hout, x.distance, Analysis.found_iff.mpr (Or.inl ⟨x, hx, rfl, rfl⟩)⟩

end Walks

/-! ## The lists -/

/-- The walk over calls was not stopped if the report says that nothing was. -/
theorem calls_truncated_of_report {a : Analysis} {limits : Limits}
    (h : (a.report s limits).truncated = none) : a.calls.truncated = none := by
  cases hcalls : a.calls.truncated with
  | none => rfl
  | some t =>
      rw [Analysis.report, hcalls] at h
      cases h

/-- What was visited away from the seeds is listed as a dependency. -/
theorem mem_dependencies_iff {id v : NodeId} {r : Walk.Result} :
    v ∈ (dependencyReport id r).direct ++ (dependencyReport id r).transitive ↔
      ∃ x ∈ r.visits, x.node = v ∧ 0 < x.distance := by
  refine ⟨exists_visit_of_mem_dependencies, ?_⟩
  rintro ⟨x, hx, rfl, hd⟩
  have hreached : ⟨x.node, x.distance⟩ ∈ reachedOutside r := by
    rw [reachedOutside, List.mem_mergeSort]
    exact List.mem_map.mpr ⟨x, List.mem_filter.mpr ⟨hx, decide_eq_true hd⟩, rfl⟩
  rw [dependencyReport, List.partition_eq_filter_filter, List.mem_append]
  by_cases hone : x.distance = 1
  · exact Or.inl (List.mem_map.mpr
      ⟨_, List.mem_filter.mpr ⟨hreached, decide_eq_true hone⟩, rfl⟩)
  · refine Or.inr (List.mem_map.mpr ⟨_, List.mem_filter.mpr ⟨hreached, ?_⟩, rfl⟩)
    rw [Function.comp_apply, decide_eq_false hone, Bool.not_false]

/-- The direct dependencies are what was visited one edge away. -/
theorem mem_direct_iff {id v : NodeId} {r : Walk.Result} :
    v ∈ (dependencyReport id r).direct ↔ ∃ x ∈ r.visits, x.node = v ∧ x.distance = 1 := by
  constructor
  · intro hv
    rw [dependencyReport, List.partition_eq_filter_filter] at hv
    obtain ⟨y, hy, rfl⟩ := List.mem_map.mp hv
    obtain ⟨hy, hone⟩ := List.mem_filter.mp hy
    rw [reachedOutside, List.mem_mergeSort] at hy
    obtain ⟨x, hx, rfl⟩ := List.mem_map.mp hy
    exact ⟨x, (List.mem_filter.mp hx).1, rfl, of_decide_eq_true hone⟩
  · rintro ⟨x, hx, rfl, hd⟩
    exact mem_direct_of_visit hx hd

/-- **What a function needs and what needs it.**  If no walk behind the reports was
    stopped, a function lists another among its dependencies if and only if it is
    affected by that other one, at any depth; and among the direct ones if and only
    if it is one of the direct callers. -/
theorem dependencies_iff_affected (config : Build.Config) (batches : List Batch)
    (limits : Limits) (depth : Option Nat) {f g : NodeId}
    (hf : Build.HasKind (Build.ofBatches config batches).1 f .function)
    (hg : Build.HasKind (Build.ofBatches config batches).1 g .function) (hne : f ≠ g) :
    let s := (Build.ofBatches config batches).1
    ∃ target a q, s.nodes[g]? = some target ∧
      a = Analysis.of s limits target (depth.getD limits.maxDepth) ∧
      analyze s limits g depth = .ok (a.report s limits) ∧
      dependencies s limits f depth = .ok q ∧
      ((a.report s limits).truncated = none → q.truncated = none →
        (g ∈ q.direct ++ q.transitive ↔ f ∈ a.affected.map (·.id)) ∧
          (g ∈ q.direct ↔ f ∈ (a.report s limits).directCallers)) := by
  intro s
  have h : Charted s := charted_ofBatches config batches
  obtain ⟨caller, hcaller, hcallerKind⟩ := id hf
  obtain ⟨target, htarget, htargetKind⟩ := id hg
  obtain rfl := h.labelled.sound.keyed f caller hcaller
  obtain rfl := h.labelled.sound.keyed g target htarget
  refine ⟨target, _, _, htarget, rfl, by rw [analyze, htarget], by rw [dependencies, hcaller], ?_⟩
  intro hreport hdone
  have hcalls := calls_truncated_of_report hreport
  have hsame : ∀ d, (∃ x ∈ (dependencyWalk s limits caller (depth.getD limits.maxDepth)).visits,
      x.node = target.id ∧ x.distance = d) ↔
      ∃ x ∈ (Analysis.of s limits target (depth.getD limits.maxDepth)).calls.visits,
        x.node = caller.id ∧ x.distance = d := by
    intro d
    rw [visited_iff_of_dependencyWalk h hcaller hcallerKind limits _ hdone hg,
      visited_iff_of_calls h htarget htargetKind limits _ hcalls]
  constructor
  · rw [mem_dependencies_iff, mem_affected_iff_of_function h htarget htargetKind limits _ hf hne]
    constructor
    · rintro ⟨x, hx, hnode, -⟩
      obtain ⟨y, hy, hcaller, -⟩ := (hsame x.distance).mp ⟨x, hx, hnode, rfl⟩
      exact ⟨y, hy, hcaller⟩
    · rintro ⟨y, hy, hnode⟩
      obtain ⟨x, hx, hcallee, hd⟩ := (hsame y.distance).mpr ⟨y, hy, hnode, rfl⟩
      refine ⟨x, hx, hcallee, Nat.pos_of_ne_zero fun hzero => hne ?_⟩
      -- no call at all leads from a function to another
      obtain ⟨⟨hleads, -⟩, -⟩ := (visited_iff_of_dependencyWalk h hcaller hcallerKind limits _
        hdone hg).mp ⟨x, hx, hcallee, rfl⟩
      exact (hzero ▸ hleads).eq_of_zero
  · rw [mem_direct_iff, hsame 1]
    show _ ↔ caller.id ∈ Analysis.directCallers s _
    rw [Analysis.mem_directCallers]
    exact (and_iff_right hf).symm

/-! ## A caller and what it calls -/

/-- A walk over the cycle from seeds in their order, if it halts soon: whether it was
    stopped, and at which distance it comes upon a node. -/
def followed (ids : List NodeId) (relationships : List Relationship) (direction : Direction)
    (v : NodeId) : Option (Option Walk.Truncation × Option Nat) :=
  (Walk.haltsWithin (Walk.DepthFirst.turn cycleStore
      (({} : Limits).walk relationships direction 5 0)) 8
      { stack := ids.map fun id => ⟨id, ⟨0, none⟩⟩ }).map fun st =>
    (st.result.truncated, st.result.distance? v)

/-- What was followed is the walk itself. -/
theorem of_followed {ids : List NodeId} {relationships : List Relationship}
    {direction : Direction} {v : NodeId} {d : Option Nat}
    (hseeds : Walk.seeds cycleStore ids = ids)
    (h : followed ids relationships direction v = some (none, d)) :
    (Walk.depthFirst cycleStore ids
        (({} : Limits).walk relationships direction 5 0)).truncated = none ∧
      (Walk.depthFirst cycleStore ids
        (({} : Limits).walk relationships direction 5 0)).distance? v = d := by
  obtain ⟨st, hst, hread⟩ := Option.map_eq_some_iff.mp h
  have hwithin : Walk.DepthFirst.stateWithin 8 cycleStore ids
      (({} : Limits).walk relationships direction 5 0) = some st := by
    rw [Walk.DepthFirst.stateWithin, Walk.DepthFirst.start, hseeds]
    exact hst
  rw [Walk.depthFirst, Walk.DepthFirst.depthFirstState_of_stateWithin hwithin]
  exact ⟨congrArg Prod.fst hread, congrArg Prod.snd hread⟩

/-- What the reports on two functions of the cycle read of the graph, the nodes and then
    the walks.  It is stated at once, so that the graph is built once. -/
theorem cycleStore_functions :
    ([NodeId.function "b.py" "h", .function "a.py" "g"].map fun id =>
        cycleStore.nodes[id]?.map fun n =>
          (n.id, n.kind, seeds cycleStore n, files cycleStore n)) =
        [some (.function "b.py" "h", .function, [.function "b.py" "h"], [.file "b.py"]),
          some (.function "a.py" "g", .function, [.function "a.py" "g"], [.file "a.py"])] ∧
      (∀ id ∈ [NodeId.function "a.py" "g", .file "a.py", .file "b.py", .function "b.py" "h"],
        cycleStore.contains id = true) ∧
      [followed [.function "a.py" "g"] [.calls, .inherits] .incoming (.function "b.py" "h"),
        followed [.file "a.py"] [.imports] .incoming (.function "b.py" "h"),
        followed [.file "b.py", .function "b.py" "h"] [.calls, .imports, .inherits] .outgoing
          (.function "a.py" "g")] =
        [some (none, some 1), some (none, none), some (none, some 1)] := by
  decide +kernel

/-- The function `h` calls `g`: the one is listed as a direct dependency, and so the
    other as a direct caller. -/
theorem callCycle_dual :
    let s := (Build.ofBatches {} [callCycle]).1
    Build.HasKind s (.function "b.py" "h") .function ∧
      Build.HasKind s (.function "a.py" "g") .function ∧
      ∃ r q, analyze s {} (.function "a.py" "g") none = .ok r ∧
        dependencies s {} (.function "b.py" "h") none = .ok q ∧
        r.truncated = none ∧ q.truncated = none ∧
        .function "a.py" "g" ∈ q.direct ∧ .function "b.py" "h" ∈ r.directCallers := by
  intro s
  have hs : s = cycleStore := ofBatches_callCycle
  obtain ⟨hnodes, hcontains, hfollowed⟩ := cycleStore_functions
  simp only [List.map_cons, List.cons.injEq] at hnodes hfollowed
  obtain ⟨hcaller, hcallee, -⟩ := hnodes
  obtain ⟨hcalled, hrest⟩ := List.forall_mem_cons.mp hcontains
  obtain ⟨himported, hneeded⟩ := List.forall_mem_cons.mp hrest
  obtain ⟨hcalls, himports, hneeds, -⟩ := hfollowed
  replace hcalls := of_followed (Walk.seeds_singleton hcalled) hcalls
  replace himports := of_followed (Walk.seeds_singleton himported) himports
  replace hneeds := of_followed
    (Walk.seeds_eq_self hneeded (by decide) rfl) hneeds
  obtain ⟨caller, hcaller, hread⟩ := Option.map_eq_some_iff.mp hcaller
  obtain ⟨callee, hcallee, hread'⟩ := Option.map_eq_some_iff.mp hcallee
  simp only [Prod.mk.injEq] at hread hread'
  obtain ⟨-, hcallerKind, hcallerSeeds, hcallerFiles⟩ := hread
  obtain ⟨-, hcalleeKind, hcalleeSeeds, hcalleeFiles⟩ := hread'
  have hf : Build.HasKind s (.function "b.py" "h") .function :=
    ⟨caller, by rw [hs, hcaller], hcallerKind⟩
  have hg : Build.HasKind s (.function "a.py" "g") .function :=
    ⟨callee, by rw [hs, hcallee], hcalleeKind⟩
  -- the general result names its target anew; it is the callee
  obtain ⟨target, a, q, htarget, ha, hanalyze, hdependencies, hdual⟩ :=
    dependencies_iff_affected {} [callCycle] {} none hf hg (by decide)
  change s.nodes[_]? = _ at htarget
  change a = Analysis.of s _ _ _ at ha
  change dependencies s _ _ _ = _ at hdependencies
  rw [hs, hcallee] at htarget
  cases htarget
  rw [hs] at ha hdependencies
  -- the walks behind the reports, one after the other
  have hreport : (a.report s {}).truncated = none := by
    subst ha
    show ((Walk.depthFirst cycleStore (seeds cycleStore callee) _).truncated <|>
      (Walk.depthFirst cycleStore (files cycleStore callee) _).truncated) = none
    rw [hcalleeSeeds, hcalleeFiles]
    exact congrArg₂ (· <|> ·) hcalls.1 himports.1
  -- seeds are sorted first, so the order of the caller and its file does not matter
  have hwalk : dependencyWalk cycleStore {} caller 5 = Walk.depthFirst cycleStore
      [.file "b.py", .function "b.py" "h"]
      (({} : Limits).walk [.calls, .imports, .inherits] .outgoing 5 0) := by
    rw [dependencyWalk, hcallerSeeds, hcallerFiles, Walk.depthFirst, Walk.depthFirst,
      Walk.depthFirstState, Walk.depthFirstState,
      Walk.seeds_eq_of_perm (List.Perm.swap ..)]
    rfl
  have hq : q =
      dependencyReport (.function "b.py" "h") (dependencyWalk cycleStore {} caller 5) := by
    rw [dependencies, hcaller] at hdependencies
    exact (Except.ok.inj hdependencies).symm
  have hdone : q.truncated = none := by
    rw [hq, hwalk]
    exact hneeds.1
  have hdirect : NodeId.function "a.py" "g" ∈ q.direct := by
    rw [hq, hwalk, mem_direct_iff]
    obtain ⟨x, hfind, hx⟩ := Option.map_eq_some_iff.mp hneeds.2
    have hnode := List.find?_some hfind
    exact ⟨x, List.mem_of_find?_eq_some hfind, of_decide_eq_true hnode, hx⟩
  refine ⟨hf, hg, _, q, hanalyze, by rw [hs]; exact hdependencies, hreport, hdone, hdirect, ?_⟩
  exact (hdual hreport hdone).2.mp hdirect

end Impact

end CodeGraph

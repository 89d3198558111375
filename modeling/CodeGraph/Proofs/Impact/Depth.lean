import CodeGraph.Proofs.Impact.EntryPoints
import CodeGraph.Proofs.Walk.Budget
/-! # Depth — looking deeper revises nothing

    Two analyses of one target that differ in how far they look.  The walks of both are cut by
    their depth only, so each comes upon whatever leads to its seeds by as few edges as its
    limit says (`calls_visit_iff`, `imports_visit_iff`).

    * The deeper one finds what the other one finds at the same distances, and besides it only
      what is further away than the other one looks (`found_iff_le`).
    * A smallest distance is within the limit or not, so the same holds of what is affected,
      and the list ascends by distance: the shorter list is the front of the longer one
      (`affected_opens`).
    * The short walk to entry points does not depend on the depth.  So whatever makes a level
      high stays, and the level does not fall (`level_le_of_le`).
    * What lies one edge away is seen at every depth but zero, and at depth zero nothing is
      affected, so indirect references do not become fewer
      (`transitiveReferences_le_of_le`). -/

namespace CodeGraph.Impact

variable {s : Store} {target : Node} {limits : Limits} {depth depth' : Nat}

/-- No walk of an analysis was stopped. -/
structure Analysis.Uncut (a : Analysis) : Prop where
  calls : a.calls.truncated = none
  imports : a.imports.truncated = none
  near : a.near.truncated = none

/-- A budget for all nodes stops no walk. -/
theorem uncut_of_nodeCount_le (hs : s.Sound) (hwatch : limits.watch = .never)
    (hroom : s.nodeCount ≤ limits.maxNodes) (target : Node) (depth : Nat) :
    (Analysis.of s limits target depth).Uncut := by
  have hlater : ∀ relationships direction depth polls,
      (limits.walk relationships direction depth polls).watch = .never := by
    intro relationships direction depth polls
    rw [Limits.walk, hwatch]
    rfl
  have hfits : ∀ (config : Walk.Config) (ids : List NodeId), config.maxNodes = limits.maxNodes →
      ¬ config.maxNodes < (Walk.Within s config ids).ncard := by
    intro config ids heq
    rw [heq, Nat.not_lt]
    exact Nat.le_trans (Walk.ncard_within_le hs config ids) hroom
  obtain ⟨polls, himports⟩ := Analysis.exists_imports_of s limits target depth
  obtain ⟨polls', hnear⟩ := Analysis.exists_near_of s limits target depth
  refine ⟨?_, ?_, ?_⟩
  · exact (Walk.DepthFirst.cutOff hs (hlater _ _ _ _) _).truncated.trans (if_neg (hfits _ _ rfl))
  · rw [himports]
    exact (Walk.DepthFirst.cutOff hs (hlater _ _ _ _) _).truncated.trans (if_neg (hfits _ _ rfl))
  · rw [hnear]
    exact (Walk.BreadthFirst.cutOff hs (hlater _ _ _ _) _).truncated.trans
      (if_neg (hfits _ _ rfl))

/-- Sorted lists of identifiers with the same members are the same. -/
theorem eq_of_sorted_ids {l l' : List NodeId} (hl : (l.mergeSort NodeId.le).Nodup)
    (hl' : (l'.mergeSort NodeId.le).Nodup)
    (h : ∀ v, v ∈ l.mergeSort NodeId.le ↔ v ∈ l'.mergeSort NodeId.le) :
    l.mergeSort NodeId.le = l'.mergeSort NodeId.le := by
  have hperm := (List.perm_ext_iff_of_nodup hl hl').mpr h
  exact Sorting.mergeSort_eq_of_perm
    (((List.mergeSort_perm l _).symm.trans hperm).trans (List.mergeSort_perm l' _))
    fun _ _ _ _ => Std.LawfulEqCmp.eq_of_compare

/-! ## What walks that were not stopped come upon -/

section

variable (hs : s.Sound) (htarget : s.nodes[target.id]? = some target)

include hs htarget

theorem calls_visit_iff (hdone : (Analysis.of s limits target depth).Uncut) {v : NodeId}
    {d : Nat} :
    (∃ x ∈ (Analysis.of s limits target depth).calls.visits, x.node = v ∧ x.distance = d) ↔
      IsLeast {n | ∃ w ∈ seeds s target, s.Leads [.calls, .inherits] n v w} d ∧ d ≤ depth := by
  have hcalls := hdone.calls
  rw [Analysis.calls_of] at hcalls ⊢
  exact exists_visit_iff_of_exact (List.cons_ne_nil _ _) rfl
    (fun _ => mem_nodes_of_mem_seeds hs htarget)
    (Walk.DepthFirst.exact_of_not_truncated hs _ _ hcalls)

theorem imports_visit_iff (hdone : (Analysis.of s limits target depth).Uncut) {v : NodeId}
    {d : Nat} :
    (∃ x ∈ (Analysis.of s limits target depth).imports.visits, x.node = v ∧ x.distance = d) ↔
      IsLeast {n | ∃ f ∈ files s target, s.Leads [.imports] n v f} d ∧ d ≤ depth := by
  have himports := hdone.imports
  obtain ⟨polls, heq⟩ := Analysis.exists_imports_of s limits target depth
  rw [heq] at himports ⊢
  exact exists_visit_iff_of_exact (List.cons_ne_nil _ _) rfl
    (fun _ => mem_nodes_of_mem_files hs htarget)
    (Walk.DepthFirst.exact_of_not_truncated hs _ _ himports)

theorem near_visit_iff (hdone : (Analysis.of s limits target depth).Uncut) {v : NodeId}
    {d : Nat} :
    (∃ x ∈ (Analysis.of s limits target depth).near.visits, x.node = v ∧ x.distance = d) ↔
      IsLeast {n | ∃ w ∈ seeds s target,
        s.Leads [.calls, .imports, .defines, .inherits] n v w} d ∧ d ≤ entryPointHops := by
  have hnear := hdone.near
  obtain ⟨polls, heq⟩ := Analysis.exists_near_of s limits target depth
  rw [heq] at hnear ⊢
  exact exists_visit_iff_of_exact (List.cons_ne_nil _ _) rfl
    (fun _ => mem_nodes_of_mem_seeds hs htarget)
    (Walk.BreadthFirst.exact_of_not_truncated hs _ _ hnear)

/-! ## Two depths -/

variable (hdepth : depth ≤ depth') (hdone : (Analysis.of s limits target depth).Uncut)
  (hdone' : (Analysis.of s limits target depth').Uncut)

include hdepth hdone hdone'

/-- **An analysis finds what a deeper one finds within its depth,** at the same
    distances. -/
theorem found_iff_le {id : NodeId} {n : Nat} :
    (Analysis.of s limits target depth).Found id n ↔
      (Analysis.of s limits target depth').Found id n ∧ n ≤ depth := by
  rw [Analysis.found_iff, Analysis.found_iff, calls_visit_iff hs htarget hdone,
    calls_visit_iff hs htarget hdone', imports_visit_iff hs htarget hdone,
    imports_visit_iff hs htarget hdone']
  constructor
  · rintro (⟨hleast, hle⟩ | ⟨hleast, hle⟩)
    · exact ⟨Or.inl ⟨hleast, Nat.le_trans hle hdepth⟩, hle⟩
    · exact ⟨Or.inr ⟨hleast, Nat.le_trans hle hdepth⟩, hle⟩
  · rintro ⟨⟨hleast, -⟩ | ⟨hleast, -⟩, hle⟩
    · exact Or.inl ⟨hleast, hle⟩
    · exact Or.inr ⟨hleast, hle⟩

/-- What is affected is what a deeper analysis lists within the depth. -/
theorem mem_affected_iff_le {r : Reached} :
    r ∈ (Analysis.of s limits target depth).affected ↔
      r ∈ (Analysis.of s limits target depth').affected ∧ r.distance ≤ depth := by
  have hfound : ∀ n, (Analysis.of s limits target depth).Found r.id n ↔ _ :=
    fun _ => found_iff_le hs htarget hdepth hdone hdone'
  rw [show r = ⟨r.id, r.distance⟩ from rfl, Analysis.mem_affected, Analysis.mem_affected]
  show r.id ∉ seeds s target ++ files s target ∧ _ ↔
    (r.id ∉ seeds s target ++ files s target ∧ _) ∧ _
  rw [and_assoc]
  refine and_congr_right fun _ => ?_
  constructor
  · rintro ⟨hr, hleast⟩
    obtain ⟨hr, hle⟩ := (hfound _).mp hr
    refine ⟨⟨hr, fun n hn => ?_⟩, hle⟩
    -- a smaller distance would be within the depth as well
    rcases Nat.le_total n depth with hnd | hdn
    · exact hleast ((hfound n).mpr ⟨hn, hnd⟩)
    · exact Nat.le_trans hle hdn
  · rintro ⟨⟨hr, hleast⟩, hle⟩
    exact ⟨(hfound _).mpr ⟨hr, hle⟩, fun n hn => hleast ((hfound n).mp hn).1⟩

/-- The order of affected nodes by distance leaves those within a depth in front. -/
theorem affected_eq_filter : (Analysis.of s limits target depth).affected =
    (Analysis.of s limits target depth').affected.filter fun r => r.distance ≤ depth := by
  have hnodup := (Analysis.nodup_affected (a := Analysis.of s limits target depth)).of_map
  have hnodup' := (Analysis.nodup_affected (a := Analysis.of s limits target depth')).of_map
  have hperm := (List.perm_ext_iff_of_nodup hnodup (hnodup'.filter fun r => r.distance ≤ depth)).mpr
    fun r => by
      rw [List.mem_filter, decide_eq_true_eq]
      exact mem_affected_iff_le hs htarget hdepth hdone hdone'
  refine hperm.eq_of_pairwise ?_ Analysis.pairwise_affected (Analysis.pairwise_affected.filter _)
  rintro r r' - - (hlt | ⟨heq, hlt⟩) (hlt' | ⟨heq', hlt'⟩)
  · omega
  · omega
  · omega
  · exact absurd hlt' (String.lt_asymm hlt)

/-- **What is affected comes first in what a deeper analysis lists.** -/
theorem affected_opens : (Analysis.of s limits target depth).affected <+:
    (Analysis.of s limits target depth').affected := by
  have hfront : (Analysis.of s limits target depth').affected.Pairwise fun r r' =>
      decide (r'.distance ≤ depth) = true → decide (r.distance ≤ depth) = true := by
    refine Analysis.pairwise_affected.imp ?_
    intro r r' hlt hle
    rw [decide_eq_true_eq] at hle ⊢
    omega
  rw [affected_eq_filter hs htarget hdepth hdone hdone']
  exact ⟨_, Sorting.filter_append_filter_not hfront⟩

/-- **The nearest entry point comes no further away.** -/
theorem exists_entryPointDistance_le_of_le {d : Nat}
    (hd : (Analysis.of s limits target depth).entryPointDistance s = some d) :
    ∃ d' ≤ d, (Analysis.of s limits target depth').entryPointDistance s = some d' := by
  refine Analysis.exists_entryPointDistance_of_forall ?_ hd
  rintro n (⟨x, hx, hentry, rfl⟩ | ⟨r, hr, hentry, rfl⟩)
  · -- the short walk is the same at both depths
    obtain ⟨y, hy, hnode, hdistance⟩ := (near_visit_iff hs htarget hdone').mpr
      ((near_visit_iff hs htarget hdone).mp ⟨x, hx, rfl, rfl⟩)
    exact ⟨x.distance, Nat.le_refl _, Or.inl ⟨y, hy, hnode ▸ hentry, hdistance⟩⟩
  · have hr' := (affected_opens hs htarget hdepth hdone hdone').subset hr
    exact ⟨r.distance, Nat.le_refl _, Or.inr ⟨r, hr', hentry, rfl⟩⟩

/-- Places that differ stay so. -/
theorem spansFiles_of_le (hspans : (Analysis.of s limits target depth).spansFiles s = true) :
    (Analysis.of s limits target depth').spansFiles s = true := by
  have hsubset := (affected_opens hs htarget hdepth hdone hdone').subset
  refine Analysis.spansFiles_of_forall (fun x hx => ?_) hspans
  rcases List.mem_append.mp hx with hx | hx
  · exact List.mem_append_left _ hx
  · obtain ⟨r, hr, hrx⟩ := List.mem_filterMap.mp hx
    exact List.mem_append_right _ (List.mem_filterMap.mpr ⟨r, hsubset hr, hrx⟩)

/-! ## One edge away -/

theorem importingFiles_eq_of_le (hpos : 1 ≤ depth) :
    (Analysis.of s limits target depth).importingFiles =
      (Analysis.of s limits target depth').importingFiles := by
  have hmem : ∀ v, v ∈ (Analysis.of s limits target depth).importingFiles ↔
      v ∈ (Analysis.of s limits target depth').importingFiles := by
    intro v
    rw [Analysis.mem_importingFiles, Analysis.mem_importingFiles,
      imports_visit_iff hs htarget hdone, imports_visit_iff hs htarget hdone']
    exact and_congr_right fun _ => iff_of_true hpos (Nat.le_trans hpos hdepth)
  exact eq_of_sorted_ids (nodup_importingFiles hs target limits depth)
    (nodup_importingFiles hs target limits depth') hmem

theorem directCallers_eq_of_le (hpos : 1 ≤ depth) :
    (Analysis.of s limits target depth).directCallers s =
      (Analysis.of s limits target depth').directCallers s := by
  have hmem : ∀ v, v ∈ (Analysis.of s limits target depth).directCallers s ↔
      v ∈ (Analysis.of s limits target depth').directCallers s := by
    intro v
    rw [Analysis.mem_directCallers, Analysis.mem_directCallers, calls_visit_iff hs htarget hdone,
      calls_visit_iff hs htarget hdone']
    exact and_congr_right fun _ => and_congr_right fun _ =>
      iff_of_true hpos (Nat.le_trans hpos hdepth)
  exact eq_of_sorted_ids (nodup_directCallers hs target limits depth)
    (nodup_directCallers hs target limits depth') hmem

omit hdepth hdone' in
/-- At depth zero nothing is affected. -/
theorem affected_eq_nil (hzero : depth = 0) :
    (Analysis.of s limits target depth).affected = [] := by
  refine List.eq_nil_iff_forall_not_mem.mpr fun r hr => ?_
  obtain ⟨hout, hfound, -⟩ := Analysis.mem_affected.mp hr
  replace hfound : (Analysis.of s limits target depth).Found r.id r.distance := hfound
  rw [Analysis.found_iff, calls_visit_iff hs htarget hdone, imports_visit_iff hs htarget hdone]
    at hfound
  -- no edge leads from the node to the target, so it is part of it
  refine hout (List.mem_append.mpr ?_)
  rcases hfound with ⟨⟨⟨w, hw, hleads⟩, -⟩, hle⟩ | ⟨⟨⟨w, hw, hleads⟩, -⟩, hle⟩
  · rw [hzero, Nat.le_zero] at hle
    rw [hle] at hleads
    exact Or.inl (hleads.eq_of_zero ▸ hw)
  · rw [hzero, Nat.le_zero] at hle
    rw [hle] at hleads
    exact Or.inr (hleads.eq_of_zero ▸ hw)

/-- **Indirect references do not become fewer.** -/
theorem transitiveReferences_le_of_le :
    (Analysis.of s limits target depth).transitiveReferences s ≤
      (Analysis.of s limits target depth').transitiveReferences s := by
  rw [Analysis.transitiveReferences, Analysis.transitiveReferences]
  rcases Nat.eq_zero_or_pos depth with hzero | hpos
  · rw [affected_eq_nil hs htarget hdone hzero]
    exact Nat.zero_le _
  · rw [importingFiles_eq_of_le hs htarget hdepth hdone hdone' hpos,
      directCallers_eq_of_le hs htarget hdepth hdone hdone' hpos]
    exact (affected_opens hs htarget hdepth hdone hdone').sublist.countP_le

/-- **The level does not fall.** -/
theorem level_le_of_le : (Analysis.of s limits target depth).level s limits ≤
    (Analysis.of s limits target depth').level s limits := by
  refine Analysis.level_le ?_ (spansFiles_of_le hs htarget hdepth hdone hdone')
  rw [Analysis.level_eq_high_iff, Analysis.level_eq_high_iff]
  rintro ((⟨d, hd, hentry⟩ | ⟨r, hr, hentry⟩) | hmany)
  · obtain ⟨d', hle, hentry'⟩ :=
      exists_entryPointDistance_le_of_le hs htarget hdepth hdone hdone' hentry
    exact Or.inl (Or.inl ⟨d', Nat.le_trans hle hd, hentry'⟩)
  · exact Or.inl (Or.inr
      ⟨r, (affected_opens hs htarget hdepth hdone hdone').subset hr, hentry⟩)
  · exact Or.inr (Nat.lt_of_lt_of_le hmany
      (transitiveReferences_le_of_le hs htarget hdepth hdone hdone'))

end

/-- **Looking deeper never revises an answer.**  In a graph that was built, if no walk is
    stopped at either of two depths, what is affected at the smaller one comes first in what is
    affected at the larger one, with the same distances.  The level does not fall, and the
    nearest entry point comes no further away.  What lies one edge away is the same, unless the
    smaller depth is zero. -/
theorem analyze_deeper (config : Build.Config) (batches : List Batch) (limits : Limits)
    {depth depth' : Nat} (hdepth : depth ≤ depth') {id : NodeId}
    (hid : id ∈ (Build.ofBatches config batches).1.nodes) :
    let s := (Build.ofBatches config batches).1
    ∃ target a a', s.nodes[id]? = some target ∧ a = Analysis.of s limits target depth ∧
      a' = Analysis.of s limits target depth' ∧
      analyze s limits id (some depth) = .ok (a.report s limits) ∧
      analyze s limits id (some depth') = .ok (a'.report s limits) ∧
      (a.Uncut → a'.Uncut →
        a.affected <+: a'.affected ∧ a.level s limits ≤ a'.level s limits ∧
        (∀ d, a.entryPointDistance s = some d → ∃ d' ≤ d, a'.entryPointDistance s = some d') ∧
        (1 ≤ depth → a.directCallers s = a'.directCallers s ∧
          a.importingFiles = a'.importingFiles)) := by
  intro s
  have hs : s.Sound := (charted_ofBatches config batches).labelled.sound
  obtain ⟨target, htarget, hkey, hok⟩ := exists_analyze hs limits (some depth) hid
  obtain ⟨target', htarget', -, hok'⟩ := exists_analyze hs limits (some depth') hid
  cases htarget.symm.trans htarget'
  refine ⟨target, _, _, htarget, rfl, rfl, hok, hok', fun hdone hdone' => ?_⟩
  rw [← hkey] at htarget
  refine ⟨affected_opens hs htarget hdepth hdone hdone',
    level_le_of_le hs htarget hdepth hdone hdone',
    fun d => exists_entryPointDistance_le_of_le hs htarget hdepth hdone hdone', fun hpos => ?_⟩
  exact ⟨directCallers_eq_of_le hs htarget hdepth hdone hdone' hpos,
    importingFiles_eq_of_le hs htarget hdepth hdone hdone' hpos⟩

/-! ## An entry point that comes nearer -/

/-- No walk through the graph of the entry point is stopped. -/
theorem uncut_mainGraph (target : Node) (depth : Nat) :
    (Analysis.of mainGraph {} target depth).Uncut :=
  uncut_of_nodeCount_le (charted_ofBatches _ _).labelled.sound rfl (by decide +kernel) _ _

/-- What the function, whose file is imported where execution starts, affects at depths zero
    and one, and how near that is. -/
theorem sketches_mainGraph : (mainGraph.nodes[NodeId.function "a.py" "f"]?.bind fun n =>
    (Analysis.within 8 mainGraph {} n 0).bind fun a =>
      (Analysis.within 8 mainGraph {} n 1).map fun a' => (n.kind,
        (a.affected, a.entryPointDistance mainGraph),
        (a'.affected, a'.entryPointDistance mainGraph))) =
      some (.function, ([], some 2), ([⟨.file "main.py", 1⟩], some 1)) := by
  decide +kernel

/-- The function and its analyses. -/
theorem exists_analyses_mainGraph : ∃ target,
    mainGraph.nodes[NodeId.function "a.py" "f"]? = some target ∧ target.kind = .function ∧
      (Analysis.of mainGraph {} target 0).affected = [] ∧
      (Analysis.of mainGraph {} target 0).entryPointDistance mainGraph = some 2 ∧
      (Analysis.of mainGraph {} target 1).affected = [⟨.file "main.py", 1⟩] ∧
      (Analysis.of mainGraph {} target 1).entryPointDistance mainGraph = some 1 := by
  obtain ⟨target, htarget, hread⟩ := Option.bind_eq_some_iff.mp sketches_mainGraph
  obtain ⟨a, ha, hread⟩ := Option.bind_eq_some_iff.mp hread
  obtain ⟨a', ha', hread⟩ := Option.map_eq_some_iff.mp hread
  simp only [Prod.mk.injEq] at hread
  obtain ⟨hkind, ⟨haffected, hentry⟩, haffected', hentry'⟩ := hread
  refine ⟨target, htarget, hkind, ?_⟩
  rw [Analysis.of_eq_of_within ha, Analysis.of_eq_of_within ha']
  exact ⟨haffected, hentry, haffected', hentry'⟩

/-- At depth zero only the short walk comes upon the importing file. -/
theorem analyze_deeper_mainGraph :
    NodeId.function "a.py" "f" ∈ mainGraph.nodes ∧ ∃ target a a',
      mainGraph.nodes[NodeId.function "a.py" "f"]? = some target ∧
      a = Analysis.of mainGraph {} target 0 ∧ a' = Analysis.of mainGraph {} target 1 ∧
      a.Uncut ∧ a'.Uncut ∧ a.affected = [] ∧ a'.affected = [⟨.file "main.py", 1⟩] ∧
      a.entryPointDistance mainGraph = some 2 ∧ a'.entryPointDistance mainGraph = some 1 ∧
      a.affected <+: a'.affected ∧ a.level mainGraph {} ≤ a'.level mainGraph {} := by
  obtain ⟨target, htarget, -, haffected, hentry, haffected', hentry'⟩ :=
    exists_analyses_mainGraph
  have hid : NodeId.function "a.py" "f" ∈ mainGraph.nodes :=
    Std.ExtTreeMap.mem_iff_isSome_getElem?.mpr (by rw [htarget]; rfl)
  obtain ⟨target', a, a', htarget', rfl, rfl, -, -, hclaim⟩ :=
    analyze_deeper {} _ {} (Nat.zero_le 1) hid
  cases htarget.symm.trans htarget'
  have hdone := uncut_mainGraph target 0
  have hdone' := uncut_mainGraph target 1
  obtain ⟨hopens, hlevel, -⟩ := hclaim hdone hdone'
  exact ⟨hid, target, _, _, htarget, rfl, rfl, hdone, hdone', haffected, haffected', hentry,
    hentry', hopens, hlevel⟩

end CodeGraph.Impact

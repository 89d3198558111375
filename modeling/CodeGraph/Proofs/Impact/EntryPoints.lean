import CodeGraph.Proofs.Impact.Levels
/-! # Entry points — how near execution starts

    A third walk looks for entry points near the target, a short way against more
    relationships than the other two.  It may run out of its budget unseen.  If the
    other walks were complete it has nothing to add all the same.

    * What a target stands for belongs to one file, so all of it is an entry point or
      nothing is (`definingFile?_of_mem_origin`).
    * What two edges lead to is affected by the longer walks, or it is the file of
      something that is (`exists_refers_of_near`).  Either way an entry point that the
      short walk finds has an affected one that is as near.
    * All that is left is the distance zero of the target's own file, and for this the
      short walk has to visit its first seed only (`near_cases`).  A budget that lets
      the longer walks be complete allows that.
    * So the distance is what the longer walks say, whatever the budget of the short
      one, unless the target's own file is an entry point and a cancellation or a
      deadline strikes between the walks: then the distance is lost, and nothing in the
      report tells of it (`analyze_entryPointDistance`, `entryPointDistance_lost`). -/

namespace CodeGraph.Impact

open Std

variable {s : Store} {target : Node}

/-! ## What the target stands for -/

/-- Nodes of one file are entry points alike. -/
theorem isEntryPoint_congr {u v : NodeId} (h : s.definingFile? u = s.definingFile? v) :
    isEntryPoint s u = isEntryPoint s v := by
  rw [isEntryPoint, isEntryPoint, h]

/-- What is defined in a file belongs to it, like the file itself. -/
theorem Charted.definingFile?_of_defines (h : Charted s) {e : Edge} (he : e ∈ s.edges)
    (hrel : e.relationship = .defines) : s.definingFile? e.target = s.definingFile? e.source := by
  obtain ⟨-, path, n, hsource, ⟨file, hfile, hkind⟩, hn, hdef, htext⟩ := h.defines e he hrel
  rw [Build.definingFile?_of_isDefinition hn hdef htext, ← hsource, hfile,
    Build.definingFile?_of_file hfile hkind]

section Target

variable (h : Charted s) (htarget : s.nodes[target.id]? = some target)

include h htarget

/-- **All that a target stands for belongs to the target's file.** -/
theorem definingFile?_of_mem_origin {id : NodeId}
    (hid : id ∈ seeds s target ∨ id ∈ files s target) :
    s.definingFile? id = s.definingFile? target.id := by
  rcases hid with hid | hid
  · rcases seed_cases h htarget hid with rfl | ⟨-, hsame⟩
    · rfl
    · exact hsame
  · rcases file_cases h htarget hid with ⟨m, hm, rfl⟩ | ⟨rfl, -⟩
    · rw [hm, Build.definingFile?_of_file (getElem?_of_definingFile? h.labelled.sound hm)
        (h.kind_of_definingFile? hm)]
    · rfl

/-! ## Two edges -/

/-- What refers to a target and is a definition calls or inherits. -/
theorem Refers.of_isDefinition {n : Nat} {u : NodeId} (hu : Refers s target n u)
    {kind : NodeKind} (hkind : Build.HasKind s u kind) (hdef : kind.isDefinition = true) :
    ∃ w ∈ seeds s target, s.Leads [.calls, .inherits] n u w := by
  refine hu.resolve_right ?_
  rintro ⟨f, hf, hleads⟩
  by_cases heq : u = f
  · obtain ⟨m, hm, rfl⟩ := hkind
    rw [isDefinition_of_mem_files h htarget (heq ▸ hf) hm] at hdef
    cases hdef
  · cases eq_of_hasKind hkind (hasKind_file_of_leads h.typed hleads heq)
    cases hdef

/-- What refers to a target and is no definition imports. -/
theorem Refers.of_not_isDefinition {n : Nat} {u : NodeId} (hu : Refers s target n u)
    {kind : NodeKind} (hkind : Build.HasKind s u kind) (hdef : kind.isDefinition = false) :
    ∃ f ∈ files s target, s.Leads [.imports] n u f := by
  rcases hu with ⟨w, hw, hleads⟩ | hu
  · cases hleads with
    | here => exact ⟨u, mem_files_of_seed h htarget hw hkind hdef, .here u⟩
    | step he hrel _ =>
        obtain ⟨a, b, ha, -, hallows⟩ := h.typed.allowed _ he
        rw [eq_of_hasKind hkind ha, (isDefinition_of_allows hrel hallows).1] at hdef
        cases hdef
  · exact hu

/-- **One edge further:** what an edge leads to a referring node refers to the target by
    one edge more, or it defines that node. -/
theorem Refers.step {e : Edge} (he : e ∈ s.edges) (hrel : e.relationship ≠ .contains) {n : Nat}
    (hu : Refers s target n e.target) :
    Refers s target (n + 1) e.source ∨ e.relationship = .defines := by
  obtain ⟨a, b, -, hb, hallows⟩ := h.typed.allowed e he
  cases hr : e.relationship with
  | contains => exact absurd hr hrel
  | defines => exact Or.inr rfl
  | imports =>
      have hdef : b.isDefinition = false := by
        rw [hr] at hallows
        cases a <;> cases b <;> first | rfl | cases hallows
      obtain ⟨f, hf, hleads⟩ := hu.of_not_isDefinition h htarget hb hdef
      refine Or.inl (Or.inr ⟨f, hf, .step he ?_ hleads⟩)
      rw [hr]
      exact List.mem_singleton_self _
  | calls | inherits =>
      have hreference : e.relationship ∈ [.calls, .inherits] := by
        rw [hr]
        decide
      have hdef := (isDefinition_of_allows hreference hallows).2
      obtain ⟨w, hw, hleads⟩ := hu.of_isDefinition h htarget hb hdef
      exact Or.inl (Or.inl ⟨w, hw, .step he hreference hleads⟩)

/-- What an edge leads to a seed is the file of the target or refers to the target by
    one edge. -/
theorem exists_refers_of_edge {e : Edge} (he : e ∈ s.edges) (hrel : e.relationship ≠ .contains)
    (hw : e.target ∈ seeds s target) : ∃ m ≤ 1, Refers s target m e.source := by
  rcases Refers.step h htarget he hrel (Or.inl ⟨_, hw, .here _⟩) with hu | hdefines
  · exact ⟨1, Nat.le_refl 1, hu⟩
  · refine ⟨0, Nat.zero_le 1, Or.inr ⟨_, ?_, .here _⟩⟩
    have hsame := h.definingFile?_of_defines he hdefines
    rw [definingFile?_of_mem_origin h htarget (Or.inl hw)] at hsame
    obtain ⟨-, -, -, -, ⟨m, hm, hkind⟩, -⟩ := h.defines e he hdefines
    rw [Build.definingFile?_of_file hm hkind] at hsame
    rw [← h.labelled.sound.keyed _ m hm]
    exact mem_files_of_definingFile? htarget hsame

/-- **What the short walk finds refers to the target,** by no more edges, or it is the
    file of something that does. -/
theorem exists_refers_of_near {relationships : List Relationship}
    (hcontains : Relationship.contains ∉ relationships) {n : Nat} (hn : n ≤ entryPointHops)
    {v w : NodeId} (hw : w ∈ seeds s target) (hleads : s.Leads relationships n v w) :
    ∃ u, ∃ m ≤ n, Refers s target m u ∧ s.definingFile? u = s.definingFile? v := by
  have hne : ∀ e : Edge, e.relationship ∈ relationships → e.relationship ≠ .contains := by
    rintro e hrel hr
    exact hcontains (hr ▸ hrel)
  rcases n with _ | n
  · cases hleads.eq_of_zero
    exact ⟨v, 0, Nat.le_refl 0, Or.inl ⟨v, hw, .here v⟩, rfl⟩
  obtain ⟨e, he, hrel, rfl, hrest⟩ := hleads.exists_first
  rcases n with _ | n
  · obtain ⟨m, hm, hu⟩ :=
      exists_refers_of_edge h htarget he (hne e hrel) (hrest.eq_of_zero ▸ hw)
    exact ⟨_, m, hm, hu, rfl⟩
  obtain ⟨e', he', hrel', hsource, hlast⟩ := hrest.exists_first
  rcases n with _ | n
  · obtain ⟨m, hm, hu⟩ :=
      exists_refers_of_edge h htarget he' (hne e' hrel') (hlast.eq_of_zero ▸ hw)
    rw [hsource] at hu
    rcases hu.step h htarget he (hne e hrel) with hv | hdefines
    · exact ⟨_, m + 1, Nat.succ_le_succ hm, hv, rfl⟩
    · exact ⟨_, m, Nat.le_succ_of_le hm, hu, h.definingFile?_of_defines he hdefines⟩
  · -- that would be three edges
    rw [entryPointHops] at hn
    omega

end Target

/-! ## The short walk -/

namespace Analysis

/-- How often the two long walks look at the watch. -/
def longPolls (s : Store) (limits : Limits) (target : Node) (depth : Nat) : Nat :=
  let calls := Walk.depthFirstState s (Impact.seeds s target)
    (limits.walk [.calls, .inherits] .incoming depth 0)
  let imports := Walk.depthFirstState s (Impact.files s target)
    (limits.walk [.imports] .incoming depth calls.trail.polls)
  calls.trail.polls + imports.trail.polls

/-- The short walk with a budget of its own, after some polls. -/
def shortWalk (limits : Limits) (budget polls : Nat) : Walk.Config where
  relationships := [.calls, .imports, .defines, .inherits]
  direction := .incoming
  maxDepth := entryPointHops
  maxNodes := budget
  watch := limits.watch.later polls

/-- An analysis whose short walk has a budget of its own. -/
def ofBudget (s : Store) (limits : Limits) (target : Node) (depth budget : Nat) : Analysis :=
  { Analysis.of s limits target depth with
    near := Walk.breadthFirst s (Impact.seeds s target)
      (shortWalk limits budget (longPolls s limits target depth)) }

/-- An analysis gives all its walks the same budget. -/
theorem ofBudget_maxNodes (s : Store) (limits : Limits) (target : Node) (depth : Nat) :
    ofBudget s limits target depth limits.maxNodes = Analysis.of s limits target depth := rfl

theorem near_ofBudget (s : Store) (limits : Limits) (target : Node) (depth budget : Nat) :
    (ofBudget s limits target depth budget).near = Walk.breadthFirst s (Impact.seeds s target)
      (shortWalk limits budget (longPolls s limits target depth)) := rfl

/-- The smallest distance of an affected node where execution starts. -/
def nearestEntry (s : Store) (a : Analysis) : Option Nat :=
  ((a.affected.filter fun r => isEntryPoint s r.id).map (·.distance)).min?

/-- How near execution starts: in the target's own file, or else at the nearest affected
    node where it does. -/
def startDistance (s : Store) (a : Analysis) : Option Nat :=
  if isEntryPoint s a.target.id = true then some 0 else a.nearestEntry s

end Analysis

/-- A smallest number stays the smallest among others that are no smaller. -/
theorem min?_append_of_le {xs ys : List Nat} (h : ∀ x ∈ xs, ∃ y ∈ ys, y ≤ x) :
    (xs ++ ys).min? = ys.min? := by
  cases hys : ys.min? with
  | none =>
      cases List.min?_eq_none_iff.mp hys
      have hxs : xs = [] := by
        refine List.eq_nil_iff_forall_not_mem.mpr fun x hx => ?_
        obtain ⟨y, hy, -⟩ := h x hx
        cases hy
      rw [hxs]
      rfl
  | some d =>
      obtain ⟨hd, hle⟩ := List.min?_eq_some_iff.mp hys
      refine List.min?_eq_some_iff.mpr ⟨List.mem_append_right _ hd, fun x hx => ?_⟩
      rcases List.mem_append.mp hx with hx | hx
      · obtain ⟨y, hy, hyx⟩ := h x hx
        exact Nat.le_trans (hle y hy) hyx
      · exact hle x hx

section

variable {limits : Limits} {depth : Nat}

/-- What refers to a target and lies outside is affected, and as near, if the walks were
    complete. -/
theorem exists_mem_affected_of_refers (hs : s.Sound) (htarget : s.nodes[target.id]? = some target)
    (hall : (Analysis.of s limits target depth).isIncomplete = false) {n : Nat} {u : NodeId}
    (hu : Refers s target n u) (hout : ¬ (u ∈ seeds s target ∨ u ∈ files s target)) :
    ∃ d ≤ n, ⟨u, d⟩ ∈ (Analysis.of s limits target depth).affected := by
  obtain ⟨m, hm, hfound⟩ : ∃ m ≤ n, (Analysis.of s limits target depth).Found u m := by
    have hfound : ∀ m, (Analysis.of s limits target depth).Found u m ↔ _ :=
      fun _ => found_iff_of_complete limits depth hall hs htarget
    rcases hu with hu | hu
    · obtain ⟨m, hm, hleast⟩ := Walk.exists_isLeast_le
        (C := {n | ∃ w ∈ seeds s target, s.Leads [.calls, .inherits] n u w}) hu
      exact ⟨m, hm, (hfound m).mpr (Or.inl hleast)⟩
    · obtain ⟨m, hm, hleast⟩ := Walk.exists_isLeast_le
        (C := {n | ∃ f ∈ files s target, s.Leads [.imports] n u f}) hu
      exact ⟨m, hm, (hfound m).mpr (Or.inr hleast)⟩
  obtain ⟨d, hd, hr⟩ :=
    Analysis.exists_mem_affected_of_found (fun hin => hout (List.mem_append.mp hin)) hfound
  exact ⟨d, Nat.le_trans hd hm, hr⟩

section Budget

variable (h : Charted s) (htarget : s.nodes[target.id]? = some target)

include h htarget

variable (limits depth) in
/-- **The short walk is stopped at its first look at the watch, or it visits a seed.** -/
theorem near_cases {budget : Nat} (hbudget : 0 < budget) :
    (∃ reason, limits.watch.reason? (Analysis.longPolls s limits target depth) = some reason ∧
        (Analysis.ofBudget s limits target depth budget).near = ⟨[], some reason, false⟩) ∨
      limits.watch.reason? (Analysis.longPolls s limits target depth) = none ∧
        ∃ x ∈ (Analysis.ofBudget s limits target depth budget).near.visits,
          x.node ∈ seeds s target ∧ x.distance = 0 := by
  have hs := h.labelled.sound
  have hself := self_mem_seeds s target
  have hseed : target.id ∈ Walk.seeds s (seeds s target) :=
    Walk.mem_seeds.mpr ⟨hself, mem_nodes_of_mem_seeds hs htarget hself⟩
  obtain ⟨f, rest, hrest⟩ := List.exists_cons_of_ne_nil (List.ne_nil_of_mem hseed)
  have hfirst : (Walk.seeds s (seeds s target)).head? = some f := by rw [hrest, List.head?_cons]
  have hf : f ∈ seeds s target := (Walk.mem_seeds.mp (List.mem_of_head? hfirst)).1
  rw [Analysis.near_ofBudget, ← Walk.Watch.reason?_later]
  cases hreason : (limits.watch.later (Analysis.longPolls s limits target depth)).reason? 0 with
  | some reason =>
      exact Or.inl ⟨reason, rfl, Walk.BreadthFirst.breadthFirst_of_reason hfirst hreason⟩
  | none =>
      have hroom : 0 < (Analysis.shortWalk limits budget
        (Analysis.longPolls s limits target depth)).maxNodes := hbudget
      obtain ⟨x, hx, rfl, hd⟩ :=
        Walk.BreadthFirst.exists_visit_of_first_seed hs hfirst hroom hreason
      exact Or.inr ⟨rfl, x, hx, hf, hd⟩

/-- An entry point that the short walk finds, for a target that is none, is no nearer than
    one that is affected. -/
theorem exists_affected_entry
    (hall : (Analysis.of s limits target depth).isIncomplete = false)
    (hentry : isEntryPoint s target.id = false) {budget : Nat} {x : Walk.Visit}
    (hx : x ∈ (Analysis.ofBudget s limits target depth budget).near.visits)
    (hxentry : isEntryPoint s x.node = true) :
    ∃ r ∈ (Analysis.of s limits target depth).affected, isEntryPoint s r.id = true ∧
      r.distance ≤ x.distance := by
  have hs := h.labelled.sound
  rw [Analysis.near_ofBudget] at hx
  obtain ⟨hroute, hle⟩ := Walk.BreadthFirst.route_of_visit hs hx
  obtain ⟨w, hw, -, hleads⟩ := (Walk.route_iff_leads (List.cons_ne_nil _ _) rfl).mp hroute
  have hcontains : Relationship.contains ∉ [.calls, .imports, .defines, .inherits] := by decide
  obtain ⟨u, m, hm, hu, hsame⟩ := exists_refers_of_near h htarget hcontains hle hw hleads
  have huentry : isEntryPoint s u = true := (isEntryPoint_congr hsame).trans hxentry
  have hout : ¬ (u ∈ seeds s target ∨ u ∈ files s target) := by
    intro hin
    rw [isEntryPoint_congr (definingFile?_of_mem_origin h htarget hin), hentry] at huentry
    cases huentry
  obtain ⟨d, hd, hr⟩ := exists_mem_affected_of_refers hs htarget hall hu hout
  exact ⟨⟨u, d⟩, hr, huentry, Nat.le_trans hd hm⟩

/-- A walk that was complete had a budget. -/
theorem maxNodes_pos_of_complete
    (hall : (Analysis.of s limits target depth).isIncomplete = false) : 0 < limits.maxNodes := by
  obtain ⟨⟨hdone, hreached⟩, -⟩ := isIncomplete_eq_false_iff.mp hall
  rw [Analysis.calls_of] at hdone hreached
  have hself : target.id ∈ seeds s target := self_mem_seeds s target
  -- the target is visited, at distance zero
  obtain ⟨d, -, hleast⟩ := Walk.exists_isLeast_le
    (C := {n | ∃ w ∈ seeds s target, s.Leads [.calls, .inherits] n target.id w})
    ⟨target.id, hself, .here _⟩
  obtain ⟨x, hx, -⟩ := (exists_visit_iff_of_complete (List.cons_ne_nil _ _) rfl
    (fun _ => mem_nodes_of_mem_seeds h.labelled.sound htarget) h.labelled.sound hdone
    hreached).mpr hleast
  exact Walk.DepthFirst.maxNodes_pos_of_visit h.labelled.sound hx

/-- **The nearest entry point, whatever the budget of the short walk:** at distance zero if
    the target's own file is one and the short walk was not stopped at once, or else among
    what is affected. -/
theorem entryPointDistance_of_complete
    (hall : (Analysis.of s limits target depth).isIncomplete = false) {budget : Nat}
    (hbudget : 0 < budget) :
    (Analysis.ofBudget s limits target depth budget).entryPointDistance s =
      if isEntryPoint s target.id = true ∧
          limits.watch.reason? (Analysis.longPolls s limits target depth) = none
      then some 0 else (Analysis.of s limits target depth).nearestEntry s := by
  have hcases := near_cases limits depth h htarget hbudget
  split
  · rename_i hself
    obtain ⟨hentry, hwatch⟩ := hself
    rcases hcases with ⟨reason, hreason, -⟩ | ⟨-, x, hx, hseed, hd⟩
    · cases hwatch.symm.trans hreason
    · refine List.min?_eq_some_iff.mpr ⟨List.mem_append_left _ ?_, fun _ _ => Nat.zero_le _⟩
      refine List.mem_map.mpr ⟨x, List.mem_filter.mpr ⟨hx, ?_⟩, hd⟩
      rw [isEntryPoint_congr (definingFile?_of_mem_origin h htarget (Or.inl hseed)), hentry]
  · rename_i hself
    -- whatever the short walk adds is no smaller
    refine min?_append_of_le fun d hd => ?_
    obtain ⟨x, hx, rfl⟩ := List.mem_map.mp hd
    obtain ⟨hx, hxentry⟩ := List.mem_filter.mp hx
    rcases hcases with ⟨reason, -, hnear⟩ | ⟨hwatch, -⟩
    · rw [hnear] at hx
      cases hx
    · have hentry : isEntryPoint s target.id = false :=
        Bool.eq_false_iff.mpr fun hentry => hself ⟨hentry, hwatch⟩
      obtain ⟨r, hr, hrentry, hle⟩ := exists_affected_entry h htarget hall hentry hx hxentry
      exact ⟨r.distance, List.mem_map_of_mem (List.mem_filter.mpr ⟨hr, hrentry⟩), hle⟩

/-- **The budget of the short walk makes no difference** to the nearest entry point. -/
theorem entryPointDistance_ofBudget
    (hall : (Analysis.of s limits target depth).isIncomplete = false) {budget : Nat}
    (hbudget : 0 < budget) :
    (Analysis.ofBudget s limits target depth budget).entryPointDistance s =
      (Analysis.of s limits target depth).entryPointDistance s := by
  have hown := entryPointDistance_of_complete h htarget hall
    (maxNodes_pos_of_complete h htarget hall)
  rw [Analysis.ofBudget_maxNodes] at hown
  rw [hown, entryPointDistance_of_complete h htarget hall hbudget]

/-- Nor does it to the level. -/
theorem level_ofBudget
    (hall : (Analysis.of s limits target depth).isIncomplete = false) {budget : Nat}
    (hbudget : 0 < budget) :
    (Analysis.ofBudget s limits target depth budget).level s limits =
      (Analysis.of s limits target depth).level s limits := by
  rw [Analysis.level, Analysis.level, entryPointDistance_ofBudget h htarget hall hbudget]
  rfl

/-- No affected node is at distance zero: what is there is the target itself. -/
theorem nearestEntry_ne_zero
    (hall : (Analysis.of s limits target depth).isIncomplete = false) :
    (Analysis.of s limits target depth).nearestEntry s ≠ some 0 := by
  intro hzero
  obtain ⟨⟨id, d⟩, hr, hd⟩ := List.mem_map.mp (List.min?_eq_some_iff.mp hzero).1
  replace hd : d = 0 := hd
  subst hd
  obtain ⟨hout, hfound, -⟩ := Analysis.mem_affected.mp (List.mem_filter.mp hr).1
  refine hout (List.mem_append.mpr ?_)
  rcases (found_iff_of_complete limits depth hall h.labelled.sound htarget).mp hfound with
    ⟨⟨w, hw, hleads⟩, -⟩ | ⟨⟨f, hf, hleads⟩, -⟩
  · exact Or.inl (hleads.eq_of_zero ▸ hw)
  · exact Or.inr (hleads.eq_of_zero ▸ hf)

/-- **The distance is right exactly if it does not hang on a short walk that never began.** -/
theorem entryPointDistance_eq_startDistance_iff
    (hall : (Analysis.of s limits target depth).isIncomplete = false) :
    (Analysis.of s limits target depth).entryPointDistance s =
        (Analysis.of s limits target depth).startDistance s ↔
      isEntryPoint s target.id = false ∨
        limits.watch.reason? (Analysis.longPolls s limits target depth) = none := by
  have hdistance := entryPointDistance_of_complete h htarget hall
    (maxNodes_pos_of_complete h htarget hall)
  rw [Analysis.ofBudget_maxNodes] at hdistance
  rw [hdistance, Analysis.startDistance]
  show (if isEntryPoint s target.id = true ∧ _ then some 0 else _) =
    (if isEntryPoint s target.id = true then some 0 else _) ↔ _
  cases hentry : isEntryPoint s target.id with
  | false => simp
  | true =>
      cases limits.watch.reason? (Analysis.longPolls s limits target depth) with
      | none => simp
      | some reason => simpa using nearestEntry_ne_zero h htarget hall

/-- A short walk that is stopped at once sees nothing and adds nothing. -/
theorem entryPointDistance_of_reason
    (hall : (Analysis.of s limits target depth).isIncomplete = false)
    {reason : Walk.Truncation}
    (hreason : limits.watch.reason? (Analysis.longPolls s limits target depth) = some reason) :
    (Analysis.of s limits target depth).near = ⟨[], some reason, false⟩ ∧
      (Analysis.of s limits target depth).entryPointDistance s =
        (Analysis.of s limits target depth).nearestEntry s := by
  have hbudget := maxNodes_pos_of_complete h htarget hall
  have hcases := near_cases limits depth h htarget hbudget
  have hdistance := entryPointDistance_of_complete h htarget hall hbudget
  rw [Analysis.ofBudget_maxNodes] at hcases hdistance
  rcases hcases with ⟨reason', hreason', hnear⟩ | ⟨hnone, -⟩
  · cases hreason.symm.trans hreason'
    refine ⟨hnear, hdistance.trans (if_neg ?_)⟩
    rw [hreason]
    exact fun hself => Option.some_ne_none _ hself.2
  · cases hreason.symm.trans hnone

end Budget

/-- The report looks at the long walks only. -/
theorem truncated_report_of_complete
    (hall : (Analysis.of s limits target depth).isIncomplete = false) :
    ((Analysis.of s limits target depth).report s limits).truncated = none := by
  obtain ⟨⟨hcalls, -⟩, himports, -⟩ := isIncomplete_eq_false_iff.mp hall
  show ((Analysis.of s limits target depth).calls.truncated <|>
    (Analysis.of s limits target depth).imports.truncated) = none
  rw [hcalls, himports]
  rfl

end

/-- **The nearest entry point is what the long walks say,** unless the short one never
    began.  In a graph that was built, if neither long walk was stopped or limited, the
    reported distance is zero for a target whose own file is an entry point, and otherwise
    the smallest distance of an affected one; this fails exactly if the own file is an
    entry point and a cancellation or a deadline strikes between the walks, at the very
    first poll of the short one.  That walk is truncated then and the report is not, and
    the distance is that of an affected node.  A budget that runs out in the short walk
    changes neither the distance nor the level. -/
theorem analyze_entryPointDistance (config : Build.Config) (batches : List Batch)
    (limits : Limits) (depth : Option Nat) {id : NodeId}
    (hid : id ∈ (Build.ofBatches config batches).1.nodes) :
    let s := (Build.ofBatches config batches).1
    ∃ target a polls, s.nodes[id]? = some target ∧
      a = Analysis.of s limits target (depth.getD limits.maxDepth) ∧
      polls = Analysis.longPolls s limits target (depth.getD limits.maxDepth) ∧
      analyze s limits id depth = .ok (a.report s limits) ∧
      (a.isIncomplete = false →
        ((a.report s limits).entryPointDistance = a.startDistance s ↔
          isEntryPoint s id = false ∨ limits.watch.reason? polls = none) ∧
        (∀ reason, limits.watch.reason? polls = some reason →
          a.near = ⟨[], some reason, false⟩ ∧ (a.report s limits).truncated = none ∧
            (a.report s limits).entryPointDistance = a.nearestEntry s) ∧
        ∀ budget, 0 < budget →
          let b := Analysis.ofBudget s limits target (depth.getD limits.maxDepth) budget
          b.entryPointDistance s = a.entryPointDistance s ∧
            b.level s limits = a.level s limits) := by
  intro s
  have h : Charted s := charted_ofBatches config batches
  obtain ⟨target, htarget, rfl, hok⟩ := exists_analyze h.labelled.sound limits depth hid
  refine ⟨target, _, _, htarget, rfl, rfl, hok, fun hall => ⟨?_, ?_, ?_⟩⟩
  · exact entryPointDistance_eq_startDistance_iff h htarget hall
  · intro reason hreason
    obtain ⟨hnear, hdistance⟩ := entryPointDistance_of_reason h htarget hall hreason
    exact ⟨hnear, truncated_report_of_complete hall, hdistance⟩
  · intro budget hbudget
    exact ⟨entryPointDistance_ofBudget h htarget hall hbudget,
      level_ofBudget h htarget hall hbudget⟩

/-! ## A budget that runs out in the short walk -/

/-- A file in which execution starts and that imports another file, with a function in it. -/
def mainGraph : Store :=
  (Build.ofBatches {} [⟨[.file { path := "main.py" },
    .definition { file := "a.py", name := "f", kind := .function },
    .import { file := "main.py", module := "a" }], [], []⟩]).1

/-- Limits that let a walk visit two nodes. -/
def twoNodes : Limits := { maxNodes := 2 }

/-- What the report on the function reads of its walks: the long ones are complete, the short
    one has room for the function and its file only. -/
theorem within_mainGraph : (mainGraph.nodes[NodeId.function "a.py" "f"]?.bind fun n =>
    (Analysis.within 4 mainGraph twoNodes n 5).map fun a =>
      (a.isIncomplete, a.near.truncated, a.entryPointDistance mainGraph,
        a.level mainGraph twoNodes)) = some (false, some .nodeBudget, some 1, .high) := by
  decide +kernel

/-- The short walk does not get as far as the importing file, and yet the distance of that
    is reported, as with any other budget. -/
theorem analyze_entryPointDistance_mainGraph :
    NodeId.function "a.py" "f" ∈ mainGraph.nodes ∧ ∃ target a,
      mainGraph.nodes[NodeId.function "a.py" "f"]? = some target ∧
      a = Analysis.of mainGraph twoNodes target 5 ∧ a.isIncomplete = false ∧
      a.near.truncated = some .nodeBudget ∧ a.nearestEntry mainGraph = some 1 ∧
      ∀ budget, 0 < budget →
        (Analysis.ofBudget mainGraph twoNodes target 5 budget).entryPointDistance mainGraph =
            some 1 ∧
          (Analysis.ofBudget mainGraph twoNodes target 5 budget).level mainGraph twoNodes =
            .high := by
  obtain ⟨target, htarget, hread⟩ := Option.bind_eq_some_iff.mp within_mainGraph
  obtain ⟨a, ha, hread⟩ := Option.map_eq_some_iff.mp hread
  simp only [Prod.mk.injEq] at hread
  obtain ⟨hall, hnear, hdistance, hlevel⟩ := hread
  have hid : NodeId.function "a.py" "f" ∈ mainGraph.nodes :=
    ExtTreeMap.mem_iff_isSome_getElem?.mpr (by rw [htarget]; rfl)
  obtain ⟨target', a', polls, htarget', ha', -, -, hclaim⟩ :=
    analyze_entryPointDistance {} _ twoNodes none hid
  cases htarget.symm.trans htarget'
  obtain rfl : a = a' := (Analysis.of_eq_of_within ha).symm.trans ha'.symm
  obtain ⟨hright, -, hbudget⟩ := hclaim hall
  have hstart : a.startDistance mainGraph = some 1 :=
    (hright.mpr (Or.inr rfl)).symm.trans hdistance
  have hnearest : a.nearestEntry mainGraph = some 1 := by
    rw [Analysis.startDistance] at hstart
    split at hstart
    · cases hstart
    · exact hstart
  refine ⟨hid, target, a, htarget, ha', hall, hnear, hnearest, fun budget hpos => ?_⟩
  obtain ⟨hsame, hsameLevel⟩ := hbudget budget hpos
  exact ⟨hsame.trans hdistance, hsameLevel.trans hlevel⟩

/-! ## A deadline between the walks -/

/-- A file in which execution starts, with a function in it. -/
def startGraph : Store :=
  (Build.ofBatches {} [⟨[.file { path := "main.py" },
    .definition { file := "main.py", name := "f", kind := .function }], [], []⟩]).1

/-- Limits whose time is up when the two long walks have looked at the clock once each. -/
def lateDeadline : Limits := { watch := { expiredFrom := some 2 } }

/-- The report on the function: no reason for a high level, and none to doubt that. -/
def lostReport : Report where
  target := .function "main.py" "f"
  level := .low
  confidence := .high
  directCallers := []
  importingFiles := []
  transitiveReferences := 0
  affected := []
  affectedTruncated := false
  truncated := none
  depthLimitReached := false
  entryPointDistance := none

/-- What became of the walks, and the report. -/
theorem within_startGraph : (startGraph.nodes[NodeId.function "main.py" "f"]?.bind fun n =>
    (Analysis.within 4 startGraph lateDeadline n 5).map fun a =>
      ((a.isIncomplete, a.near.truncated, a.startDistance startGraph),
        a.report startGraph lateDeadline)) =
      some ((false, some .deadline, some 0), lostReport) := by
  decide +kernel

/-- **The distance zero is lost.**  Both long walks are complete, and the function lies in a
    file where execution starts, but the short walk does not begin in time: the report tells
    of no entry point and of no truncation, the level is low and the confidence high. -/
theorem entryPointDistance_lost :
    isEntryPoint startGraph (.function "main.py" "f") = true ∧
      ∃ target a, startGraph.nodes[NodeId.function "main.py" "f"]? = some target ∧
        a = Analysis.of startGraph lateDeadline target 5 ∧ a.isIncomplete = false ∧
        a.near.truncated = some .deadline ∧ a.startDistance startGraph = some 0 ∧
        analyze startGraph lateDeadline (.function "main.py" "f") none = .ok lostReport := by
  obtain ⟨target, htarget, hread⟩ := Option.bind_eq_some_iff.mp within_startGraph
  obtain ⟨a, ha, hread⟩ := Option.map_eq_some_iff.mp hread
  simp only [Prod.mk.injEq] at hread
  obtain ⟨⟨hall, hnear, hstart⟩, hreport⟩ := hread
  refine ⟨by decide +kernel, target, a, htarget, (Analysis.of_eq_of_within ha).symm, hall,
    hnear, hstart, ?_⟩
  rw [analyze, htarget, ← hreport, ← Analysis.of_eq_of_within ha]
  rfl

end CodeGraph.Impact

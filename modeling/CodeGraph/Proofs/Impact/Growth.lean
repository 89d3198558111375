import CodeGraph.Proofs.Impact.Completeness
import Mathlib
/-! # Growth — what more references do to an impact

    A store is compared with one that has the same nodes and more calls, imports
    and inheritances.

    * What the target stands for and where nodes are at home stays the same,
      and every route stays a route.
    * So every affected node stays affected, at most as far away, and so does
      the nearest place where execution starts.
    * The level need not stay: a new call can make an indirect reference a
      direct one, and fewer indirect references can be too few for a high
      level.  This is the only way in which a level can fall. -/

namespace CodeGraph

/-- A store has the nodes and the edges of another, and besides them calls,
    imports and inheritances at most. -/
structure Store.Extends (s s' : Store) : Prop where
  nodes : s'.nodes = s.nodes
  edges : ∀ e ∈ s.edges, e ∈ s'.edges
  added : ∀ e ∈ s'.edges, e ∈ s.edges ∨ e.relationship ∈ [.calls, .imports, .inherits]

variable {s s' : Store}

/-- A reference that is added extends a store. -/
theorem Store.extends_withEdge (s : Store) {r : Relationship}
    (hr : r ∈ [.calls, .imports, .inherits]) (p : String × String) :
    s.Extends (s.withEdge r p) := by
  rw [Store.withEdge]
  split
  · rename_i s' hok
    obtain ⟨-, rfl⟩ := Store.addEdge_ok hok
    refine ⟨rfl, fun e he => Array.mem_push.mpr (Or.inl he), ?_⟩
    intro e he
    rcases Array.mem_push.mp he with he | rfl
    · exact Or.inl he
    · exact Or.inr hr
  · exact ⟨rfl, fun e he => he, fun e he => Or.inl he⟩

namespace Store.Extends

/-- What is joined stays joined. -/
theorem joined (h : s.Extends s') {relationships : List Relationship}
    {direction : Direction} {u v : NodeId} (hj : s.Joined relationships direction u v) :
    s'.Joined relationships direction u v := by
  obtain ⟨e, he, hends⟩ := hj
  exact ⟨e, h.edges e he, hends⟩

/-- No definition is added. -/
theorem joined_defines_iff (h : s.Extends s') {direction : Direction} {u v : NodeId} :
    s'.Joined [.defines] direction u v ↔ s.Joined [.defines] direction u v := by
  refine ⟨?_, h.joined⟩
  rintro ⟨e, he, hadmits, hends⟩
  refine ⟨e, ?_, hadmits, hends⟩
  rcases h.added e he with he | hadded
  · exact he
  · have hdefines : e.relationship = .defines := by simpa [Store.admits] using hadmits
    rw [hdefines] at hadded
    exact absurd hadded (by decide)

/-- A route stays a route. -/
theorem route (h : s.Extends s') {config config' : Walk.Config} {ids ids' : List NodeId}
    {v : NodeId} {n : Nat} (hr : Walk.Route s config ids v n)
    (hrel : config'.relationships = config.relationships)
    (hdir : config'.direction = config.direction)
    (hids : ∀ (id : NodeId), id ∈ ids → id ∈ ids') : Walk.Route s' config' ids' v n := by
  induction hr with
  | seed hv hnode => exact .seed (hids _ hv) (h.nodes ▸ hnode)
  | step _ hj ih =>
      refine .step ih ?_
      rw [hrel, hdir]
      exact h.joined hj

theorem definingFile?_eq (h : s.Extends s') (id : NodeId) :
    s'.definingFile? id = s.definingFile? id := by
  rw [Store.definingFile?, Store.definingFile?, h.nodes]

end Store.Extends

namespace Impact

variable {target : Node}

/-! ## Levels -/

/-- A smallest number is not larger where there is always one as small. -/
theorem exists_min?_le {xs ys : List Nat} (h : ∀ x ∈ xs, ∃ y ∈ ys, y ≤ x) {d : Nat}
    (hd : xs.min? = some d) : ∃ d' ≤ d, ys.min? = some d' := by
  obtain ⟨y, hy, hle⟩ := h d (List.min?_eq_some_iff.mp hd).1
  cases hys : ys.min? with
  | none =>
      rw [List.min?_eq_none_iff.mp hys] at hy
      cases hy
  | some d' =>
      exact ⟨d', Nat.le_trans ((List.min?_eq_some_iff.mp hys).2 y hy) hle, rfl⟩

namespace Analysis

variable {a : Analysis}

/-- Where the target and the affected nodes are at home. -/
def homes (s : Store) (a : Analysis) : List NodeId :=
  (s.definingFile? a.target.id).toList.map (·.id) ++ a.affected.filterMap fun r => home? s r.id

/-- Files are spanned if some two of the homes differ. -/
theorem spansFiles_iff : a.spansFiles s = true ↔ ∃ x ∈ a.homes s, ∃ y ∈ a.homes s, x ≠ y := by
  unfold spansFiles homes
  dsimp only
  -- both sides speak of the same list
  generalize ((_ : List NodeId) ++ (_ : List NodeId)) = ids
  cases ids with
  | nil => simp
  | cons first rest =>
      dsimp only
      rw [List.any_eq_true]
      constructor
      · rintro ⟨x, hx, hne⟩
        exact ⟨x, List.mem_cons_of_mem _ hx, first, List.mem_cons_self, of_decide_eq_true hne⟩
      · rintro ⟨x, hx, y, hy, hne⟩
        by_cases hfirst : x = first
        · subst hfirst
          refine ⟨y, (List.mem_cons.mp hy).resolve_left hne.symm, ?_⟩
          exact decide_eq_true hne.symm
        · exact ⟨x, (List.mem_cons.mp hx).resolve_left hfirst, decide_eq_true hfirst⟩

/-- Homes that differ stay so, if none is lost. -/
theorem spansFiles_of_forall {a a' : Analysis} (h : ∀ x ∈ a.homes s, x ∈ a'.homes s')
    (hspans : a.spansFiles s = true) : a'.spansFiles s' = true := by
  obtain ⟨x, hx, y, hy, hne⟩ := spansFiles_iff.mp hspans
  exact spansFiles_iff.mpr ⟨x, h x hx, y, h y hy, hne⟩

/-- Execution starts at a distance: where the short walk comes upon a node, or where one is
    affected. -/
def StartsAt (s : Store) (a : Analysis) (d : Nat) : Prop :=
  (∃ x ∈ a.near.visits, isEntryPoint s x.node = true ∧ x.distance = d) ∨
    ∃ r ∈ a.affected, isEntryPoint s r.id = true ∧ r.distance = d

theorem startsAt_iff_mem {d : Nat} : a.StartsAt s d ↔
    d ∈ (a.near.visits.filter fun x => isEntryPoint s x.node).map (·.distance) ++
      (a.affected.filter fun r => isEntryPoint s r.id).map (·.distance) := by
  simp only [StartsAt, List.mem_append, List.mem_map, List.mem_filter, and_assoc]

/-- The nearest place where execution starts comes no further away, if none does. -/
theorem exists_entryPointDistance_of_forall {a a' : Analysis}
    (h : ∀ d, a.StartsAt s d → ∃ d' ≤ d, a'.StartsAt s' d') {d : Nat}
    (hd : a.entryPointDistance s = some d) :
    ∃ d' ≤ d, a'.entryPointDistance s' = some d' := by
  refine exists_min?_le (fun n hn => ?_) hd
  obtain ⟨m, hm, hstarts⟩ := h n (startsAt_iff_mem.mpr hn)
  exact ⟨m, startsAt_iff_mem.mp hstarts, hm⟩

/-- A change comes close to a place where execution starts, or affects one. -/
def ReachesEntry (s : Store) (a : Analysis) : Prop :=
  (∃ d ≤ entryPointHops, a.entryPointDistance s = some d) ∨
    ∃ r ∈ a.affected, isEntryPoint s r.id = true

/-- A level is high for two reasons. -/
theorem level_eq_high_iff {limits : Limits} : a.level s limits = .high ↔
    a.ReachesEntry s ∨ limits.transitiveThreshold < a.transitiveReferences s := by
  have hreasons : ((a.entryPointDistance s).any (· ≤ entryPointHops) ||
      a.affected.any (fun r => isEntryPoint s r.id) ||
      limits.transitiveThreshold < a.transitiveReferences s) = true ↔
      a.ReachesEntry s ∨ limits.transitiveThreshold < a.transitiveReferences s := by
    simp only [Bool.or_eq_true, Option.any_eq_true, List.any_eq_true, decide_eq_true_eq,
      ReachesEntry, and_comm]
  rw [← hreasons, level]
  split
  · rename_i hhigh
    exact iff_of_true rfl hhigh
  · rename_i hlower
    refine iff_of_false ?_ hlower
    split <;> decide

/-- A level that is not high tells whether files are spanned. -/
theorem level_of_ne_high {limits : Limits} (h : a.level s limits ≠ .high) :
    a.level s limits = if a.spansFiles s then .medium else .low := by
  rw [level] at h ⊢
  split
  · rename_i hhigh
    rw [if_pos hhigh] at h
    exact absurd rfl h
  · rfl

/-- A level is at least as high if a high one stays high and files that are spanned stay
    so. -/
theorem level_le {a a' : Analysis} {limits : Limits}
    (hhigh : a.level s limits = .high → a'.level s' limits = .high)
    (hspans : a.spansFiles s = true → a'.spansFiles s' = true) :
    a.level s limits ≤ a'.level s' limits := by
  by_cases hhigh' : a'.level s' limits = .high
  · rw [hhigh']
    cases a.level s limits <;> decide
  · rw [level_of_ne_high hhigh', level_of_ne_high fun h => hhigh' (hhigh h)]
    by_cases h : a.spansFiles s = true
    · rw [if_pos h, if_pos (hspans h)]
      decide
    · rw [if_neg h]
      split <;> decide

end Analysis

/-! ## What stays the same -/

theorem isEntryPoint_eq (h : s.Extends s') (id : NodeId) :
    isEntryPoint s' id = isEntryPoint s id := by
  rw [isEntryPoint, isEntryPoint, h.definingFile?_eq]

theorem home?_eq (h : s.Extends s') (id : NodeId) : home? s' id = home? s id := by
  rw [home?, home?, h.nodes, h.definingFile?_eq]

/-- A target stands for the same nodes. -/
theorem mem_seeds_iff (hs : s.Sound) (hs' : s'.Sound) (h : s.Extends s') {id : NodeId} :
    id ∈ seeds s' target ↔ id ∈ seeds s target := by
  have hdefined : ∀ (file : NodeId), id ∈ definedBy s' file ↔ id ∈ definedBy s file := by
    intro file
    rw [definedBy, definedBy, hs.mem_neighbors, hs'.mem_neighbors, h.joined_defines_iff]
  have hmethod : ∀ (name : String), isMethodOf s' name id = isMethodOf s name id := by
    intro name
    rw [isMethodOf, isMethodOf, h.nodes]
  rw [seeds, seeds, mem_sortIds, mem_sortIds, List.mem_cons, List.mem_cons]
  refine or_congr_right ?_
  rw [members, members, h.definingFile?_eq]
  split
  · split
    · rw [List.mem_filter, List.mem_filter, hdefined, hmethod]
    · rfl
  · exact hdefined target.id
  · rfl
  · rfl
  · rfl

/-- A target concerns the same files. -/
theorem mem_files_iff (hs : s.Sound) (hs' : s'.Sound) (h : s.Extends s') {id : NodeId} :
    id ∈ files s' target ↔ id ∈ files s target := by
  have hdefining : id ∈ sortIds ((seeds s' target).filterMap fun i =>
        (s'.definingFile? i).map (·.id)) ↔
      id ∈ sortIds ((seeds s target).filterMap fun i => (s.definingFile? i).map (·.id)) := by
    rw [mem_sortIds, mem_sortIds, List.mem_filterMap, List.mem_filterMap]
    refine exists_congr fun i => ?_
    rw [mem_seeds_iff hs hs' h, h.definingFile?_eq]
  rw [files, files]
  split
  · rfl
  · rfl
  · exact hdefining
  · exact hdefining
  · exact hdefining

/-! ## What grows -/

/-- What a long walk comes upon, one that is neither stopped nor limited comes
    upon at most as far away. -/
theorem exists_visit_le (hs : s.Sound) (hs' : s'.Sound) (h : s.Extends s') {limits : Limits}
    {relationships : List Relationship} {depth polls polls' : Nat} {ids ids' : List NodeId}
    (hids : ∀ (id : NodeId), id ∈ ids → id ∈ ids')
    (hdone : (Walk.depthFirst s' ids'
      (limits.walk relationships .incoming depth polls')).truncated = none)
    (hall : (Walk.depthFirst s' ids'
      (limits.walk relationships .incoming depth polls')).depthLimitReached = false)
    {v : NodeId} {n : Nat} (hv : ∃ x ∈ (Walk.depthFirst s ids
      (limits.walk relationships .incoming depth polls)).visits, x.node = v ∧ x.distance = n) :
    ∃ y ∈ (Walk.depthFirst s' ids' (limits.walk relationships .incoming depth polls')).visits,
      y.node = v ∧ y.distance ≤ n := by
  obtain ⟨x, hx, rfl, rfl⟩ := hv
  have hexact := Walk.DepthFirst.exact_of_not_truncated hs' _ ids' hdone
  exact hexact.exists_visit_le (h.route (Walk.DepthFirst.route_of_visit hs hx).1 rfl rfl hids)
    (Or.inl hall)

section

variable (hs : s.Sound) (hs' : s'.Sound) (h : s.Extends s') (limits : Limits) (depth : Nat)
  (hall : (Analysis.of s' limits target depth).isIncomplete = false)

include hs hs' h hall

/-- A node that is found stays found, at most as far away. -/
theorem exists_found_le {id : NodeId} {d : Nat}
    (hd : (Analysis.of s limits target depth).Found id d) :
    ∃ d' ≤ d, (Analysis.of s' limits target depth).Found id d' := by
  obtain ⟨⟨hcalls, hcallsAll⟩, himports, himportsAll⟩ := isIncomplete_eq_false_iff.mp hall
  rcases Analysis.found_iff.mp hd with hv | hv
  · rw [Analysis.calls_of] at hv hcalls hcallsAll
    obtain ⟨y, hy, hyv, hle⟩ := exists_visit_le hs hs' h
      (fun _ => (mem_seeds_iff hs hs' h).mpr) hcalls hcallsAll hv
    exact ⟨y.distance, hle, Analysis.found_iff.mpr (Or.inl ⟨y, hy, hyv, rfl⟩)⟩
  · -- the second walks may start after different numbers of polls
    obtain ⟨polls, heq⟩ := Analysis.exists_imports_of s limits target depth
    obtain ⟨polls', heq'⟩ := Analysis.exists_imports_of s' limits target depth
    rw [heq] at hv
    rw [heq'] at himports himportsAll
    obtain ⟨y, hy, hyv, hle⟩ := exists_visit_le hs hs' h
      (fun _ => (mem_files_iff hs hs' h).mpr) himports himportsAll hv
    rw [← heq'] at hy
    exact ⟨y.distance, hle, Analysis.found_iff.mpr (Or.inr ⟨y, hy, hyv, rfl⟩)⟩

/-- **An affected node stays affected,** at most as far away. -/
theorem exists_mem_affected {id : NodeId} {d : Nat}
    (hd : ⟨id, d⟩ ∈ (Analysis.of s limits target depth).affected) :
    ∃ d' ≤ d, ⟨id, d'⟩ ∈ (Analysis.of s' limits target depth).affected := by
  obtain ⟨hout, hfound, -⟩ := Analysis.mem_affected.mp hd
  obtain ⟨m, hm, hfound'⟩ := exists_found_le hs hs' h limits depth hall hfound
  have hout' : id ∉ (Analysis.of s' limits target depth).origin := by
    intro hin
    refine hout ?_
    rcases List.mem_append.mp hin with hin | hin
    · exact List.mem_append_left _ ((mem_seeds_iff hs hs' h).mp hin)
    · exact List.mem_append_right _ ((mem_files_iff hs hs' h).mp hin)
  obtain ⟨d', hd', hr⟩ := Analysis.exists_mem_affected_of_found hout' hfound'
  exact ⟨d', Nat.le_trans hd' hm, hr⟩

/-- Affected nodes that are at home in different places stay so. -/
theorem spansFiles_of_extends
    (hspans : (Analysis.of s limits target depth).spansFiles s = true) :
    (Analysis.of s' limits target depth).spansFiles s' = true := by
  refine Analysis.spansFiles_of_forall (fun x hx => ?_) hspans
  rcases List.mem_append.mp hx with hx | hx
  · refine List.mem_append_left _ ?_
    show x ∈ (s'.definingFile? target.id).toList.map (·.id)
    rw [h.definingFile?_eq]
    exact hx
  · obtain ⟨r, hr, hrx⟩ := List.mem_filterMap.mp hx
    obtain ⟨d', -, hr'⟩ := exists_mem_affected hs hs' h limits depth hall hr
    exact List.mem_append_right _ (List.mem_filterMap.mpr ⟨_, hr', home?_eq h r.id ▸ hrx⟩)

omit hall in
/-- What the short walk comes upon, it still comes upon at most as far away: it is
    limited, but both times alike. -/
theorem exists_near_visit_le
    (hnear : (Analysis.of s' limits target depth).near.truncated = none) {x : Walk.Visit}
    (hx : x ∈ (Analysis.of s limits target depth).near.visits) :
    ∃ y ∈ (Analysis.of s' limits target depth).near.visits,
      y.node = x.node ∧ y.distance ≤ x.distance := by
  obtain ⟨polls, heq⟩ := Analysis.exists_near_of s limits target depth
  obtain ⟨polls', heq'⟩ := Analysis.exists_near_of s' limits target depth
  rw [heq] at hx
  rw [heq'] at hnear ⊢
  obtain ⟨hroute, hle⟩ := Walk.BreadthFirst.route_of_visit hs hx
  have hexact := Walk.BreadthFirst.exact_of_not_truncated hs' _ _ hnear
  exact hexact.exists_visit_le
    (h.route hroute rfl rfl fun _ => (mem_seeds_iff hs hs' h).mpr) (Or.inr hle)

/-- **The nearest place where execution starts comes no further away.** -/
theorem exists_entryPointDistance_le
    (hnear : (Analysis.of s' limits target depth).near.truncated = none) {d : Nat}
    (hd : (Analysis.of s limits target depth).entryPointDistance s = some d) :
    ∃ d' ≤ d, (Analysis.of s' limits target depth).entryPointDistance s' = some d' := by
  refine Analysis.exists_entryPointDistance_of_forall ?_ hd
  rintro d (⟨x, hx, hentry, rfl⟩ | ⟨r, hr, hentry, rfl⟩)
  · obtain ⟨y, hy, hyx, hle⟩ := exists_near_visit_le hs hs' h limits depth hnear hx
    rw [← hyx, ← isEntryPoint_eq h] at hentry
    exact ⟨y.distance, hle, Or.inl ⟨y, hy, hentry, rfl⟩⟩
  · obtain ⟨d', hle, hr'⟩ := exists_mem_affected hs hs' h limits depth hall hr
    rw [← isEntryPoint_eq h] at hentry
    exact ⟨d', hle, Or.inr ⟨_, hr', hentry, rfl⟩⟩

/-- A place where execution starts stays in reach. -/
theorem reachesEntry_of_extends
    (hnear : (Analysis.of s' limits target depth).near.truncated = none)
    (hentry : (Analysis.of s limits target depth).ReachesEntry s) :
    (Analysis.of s' limits target depth).ReachesEntry s' := by
  rcases hentry with ⟨d, hd, hentry⟩ | ⟨r, hr, hentry⟩
  · obtain ⟨d', hle, hentry'⟩ :=
      exists_entryPointDistance_le hs hs' h limits depth hall hnear hentry
    exact Or.inl ⟨d', Nat.le_trans hle hd, hentry'⟩
  · obtain ⟨d', -, hr'⟩ := exists_mem_affected hs hs' h limits depth hall hr
    refine Or.inr ⟨_, hr', ?_⟩
    rw [isEntryPoint_eq h]
    exact hentry

/-- **A level falls only if there are too few indirect references left.** -/
theorem level_le_iff (hnear : (Analysis.of s' limits target depth).near.truncated = none) :
    (Analysis.of s limits target depth).level s limits ≤
        (Analysis.of s' limits target depth).level s' limits ↔
      (limits.transitiveThreshold < (Analysis.of s limits target depth).transitiveReferences s →
        (Analysis.of s' limits target depth).ReachesEntry s' ∨
          limits.transitiveThreshold <
            (Analysis.of s' limits target depth).transitiveReferences s') := by
  rw [← Analysis.level_eq_high_iff]
  constructor
  · intro hle hmany
    rw [Analysis.level_eq_high_iff.mpr (Or.inr hmany)] at hle
    revert hle
    cases (Analysis.of s' limits target depth).level s' limits <;> decide
  · intro hmany
    refine Analysis.level_le ?_ (spansFiles_of_extends hs hs' h limits depth hall)
    intro hhigh
    rcases Analysis.level_eq_high_iff.mp hhigh with hentry | hindirect
    · -- high for an entry point, which stays in reach
      exact Analysis.level_eq_high_iff.mpr
        (Or.inl (reachesEntry_of_extends hs hs' h limits depth hall hnear hentry))
    · exact hmany hindirect

end

/-- **More references affect no less.**  If the walks over the larger store see
    all there is to see, what was affected stays affected and execution starts
    no further away.  The level stays at least as high too, unless it was high
    for its indirect references and these have become too few. -/
theorem analyze_of_extends (hs : s.Reachable) (hs' : s'.Reachable) (h : s.Extends s')
    {id : NodeId} (htarget : s.nodes[id]? = some target) (limits : Limits) (depth : Option Nat)
    (hall : (Analysis.of s' limits target (depth.getD limits.maxDepth)).isIncomplete = false)
    (hnear : (Analysis.of s' limits target (depth.getD limits.maxDepth)).near.truncated = none) :
    let a := Analysis.of s limits target (depth.getD limits.maxDepth)
    let a' := Analysis.of s' limits target (depth.getD limits.maxDepth)
    ∃ r r', analyze s limits id depth = .ok r ∧ analyze s' limits id depth = .ok r' ∧
      (∀ (v : NodeId) (d : Nat), ⟨v, d⟩ ∈ a.affected → ∃ d' ≤ d, ⟨v, d'⟩ ∈ a'.affected) ∧
      (∀ (d : Nat), r.entryPointDistance = some d → ∃ d' ≤ d, r'.entryPointDistance = some d') ∧
      (r.level ≤ r'.level ↔
        (limits.transitiveThreshold < r.transitiveReferences →
          ((∃ d ≤ entryPointHops, r'.entryPointDistance = some d) ∨
            ∃ x ∈ a'.affected, isEntryPoint s' x.id = true) ∨
          limits.transitiveThreshold < r'.transitiveReferences)) := by
  intro a a'
  refine ⟨a.report s limits, a'.report s' limits, ?_, ?_, ?_, ?_, ?_⟩
  · rw [analyze, htarget]
  · rw [analyze, h.nodes, htarget]
  · intro v d
    exact exists_mem_affected hs.sound hs'.sound h limits _ hall
  · intro d
    exact exists_entryPointDistance_le hs.sound hs'.sound h limits _ hall hnear
  · exact level_le_iff hs.sound hs'.sound h limits _ hall hnear

/-! ## A level that falls -/

/-- Functions that call `t` by way of `a`. -/
def fanIn : Store := .callGraph ["a", "b", "c", "t"] [("a", "t"), ("b", "a"), ("c", "a")]

/-- The same, and `b` calls `t` itself as well. -/
def shortcut : Store := fanIn.withEdge .calls ("b", "t")

/-- The function they call. -/
def callee : Node := { id := ⟨"t"⟩, kind := .function }

/-- More than one indirect reference makes a level high. -/
def strict : Limits := { transitiveThreshold := 1 }

theorem reachable_fanIn : fanIn.Reachable := Store.reachable_callGraph _ _

theorem extends_shortcut : fanIn.Extends shortcut :=
  fanIn.extends_withEdge (by decide) ("b", "t")

/-- What an analysis says of the level, and how much its walks have seen. -/
def outline (s : Store) (a : Analysis) : Level × Bool × Option Walk.Truncation × Bool :=
  (a.level s strict, a.isIncomplete, a.near.truncated, a.near.depthLimitReached)

/-- What an outline rests on.  The conditions of a level are looked at one by one
    before it is decided. -/
def evidence (s : Store) (a : Analysis) :
    Option Nat × Bool × Nat × Bool × Bool × Option Walk.Truncation × Bool :=
  (a.entryPointDistance s, a.affected.any fun r => isEntryPoint s r.id,
    a.transitiveReferences s, a.spansFiles s, a.isIncomplete, a.near.truncated,
    a.near.depthLimitReached)

theorem outline_of_evidence {s : Store} {a : Analysis} {nearest : Option Nat} {entry : Bool}
    {indirect : Nat} {spans incomplete : Bool} {stop : Option Walk.Truncation} {limited : Bool}
    (h : evidence s a = (nearest, entry, indirect, spans, incomplete, stop, limited)) :
    outline s a =
      (if nearest.any (· ≤ entryPointHops) || entry || strict.transitiveThreshold < indirect
        then .high else if spans then .medium else .low, incomplete, stop, limited) := by
  cases h
  rfl

theorem outline_fanIn :
    outline fanIn (Analysis.of fanIn strict callee 5) = (.high, false, none, false) := by
  obtain ⟨a, ha, hevidence⟩ := Option.map_eq_some_iff.mp
    (show (Analysis.within 8 fanIn strict callee 5).map (evidence fanIn) =
      some (none, false, 2, false, false, none, false) by cbv)
  rw [Analysis.of_eq_of_within ha, outline_of_evidence hevidence]
  rfl

theorem outline_shortcut :
    outline shortcut (Analysis.of shortcut strict callee 5) = (.low, false, none, false) := by
  obtain ⟨a, ha, hevidence⟩ := Option.map_eq_some_iff.mp
    (show (Analysis.within 8 shortcut strict callee 5).map (evidence shortcut) =
      some (none, false, 1, false, false, none, false) by cbv)
  rw [Analysis.of_eq_of_within ha, outline_of_evidence hevidence]
  rfl

/-- Whoever is affected by a change to `t` is so with the shortcut. -/
theorem analyze_of_shortcut :
    fanIn.Reachable ∧ shortcut.Reachable ∧ fanIn.Extends shortcut ∧
      fanIn.nodes[callee.id]? = some callee ∧
      (Analysis.of shortcut strict callee 5).isIncomplete = false ∧
      (Analysis.of shortcut strict callee 5).near.truncated = none ∧
      ∀ (v : NodeId) (d : Nat), ⟨v, d⟩ ∈ (Analysis.of fanIn strict callee 5).affected →
        ∃ d' ≤ d, ⟨v, d'⟩ ∈ (Analysis.of shortcut strict callee 5).affected := by
  have hs : shortcut.Reachable := reachable_fanIn.withEdge _ _
  have hnode : fanIn.nodes[callee.id]? = some callee := by decide +kernel
  obtain ⟨-, hall, hnear, -⟩ : _ ∧ _ ∧ _ ∧ _ := by
    simpa only [outline, Prod.mk.injEq] using outline_shortcut
  obtain ⟨-, -, -, -, haffected, -⟩ :=
    analyze_of_extends reachable_fanIn hs extends_shortcut hnode strict none hall hnear
  exact ⟨reachable_fanIn, hs, extends_shortcut, hnode, hall, hnear, haffected⟩

/-- **The shortcut makes the level fall from high to low,** though all its edges
    are allowed and no walk is stopped or limited: `b` is no longer an indirect
    reference. -/
theorem level_of_shortcut_lt :
    fanIn.Extends shortcut ∧
      (shortcut.edges.toList.all fun e =>
        shortcut.nodes[e.source]?.any fun a => shortcut.nodes[e.target]?.any fun b =>
          e.relationship.allows a.kind b.kind) = true ∧
      outline fanIn (Analysis.of fanIn strict callee 5) = (.high, false, none, false) ∧
      outline shortcut (Analysis.of shortcut strict callee 5) = (.low, false, none, false) ∧
      ∃ r r', analyze fanIn strict callee.id none = .ok r ∧
        analyze shortcut strict callee.id none = .ok r' ∧ ¬ r.level ≤ r'.level := by
  have hnode : fanIn.nodes[callee.id]? = some callee := by decide +kernel
  refine ⟨extends_shortcut, by decide +kernel, outline_fanIn, outline_shortcut,
    (Analysis.of fanIn strict callee 5).report fanIn strict,
    (Analysis.of shortcut strict callee 5).report shortcut strict, ?_, ?_, ?_⟩
  · rw [analyze, hnode]
    rfl
  · rw [analyze, extends_shortcut.nodes, hnode]
    rfl
  · show ¬ (outline fanIn (Analysis.of fanIn strict callee 5)).1 ≤
      (outline shortcut (Analysis.of shortcut strict callee 5)).1
    rw [outline_fanIn, outline_shortcut]
    decide

end Impact

end CodeGraph

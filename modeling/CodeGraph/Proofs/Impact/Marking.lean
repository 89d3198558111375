import CodeGraph.Proofs.Impact.Growth
/-! # Marks — what more entry points do to an impact

    A store is compared with one in which more files are marked as places where execution
    starts, and which is the same otherwise.

    * No walk looks at a mark.  So the walks of an analysis are the same to the last poll,
      whatever stops them (`Marks.analysis_of`), and with them all that is read off the walks
      alone.
    * Of what a report reads off the nodes, a mark shows only where it is asked for entry
      points.  A node that is one stays one (`Marks.isEntryPoint`), so the nearest comes no
      further away and the level does not fall. -/

namespace CodeGraph

/-- A node that is marked as a place where execution starts. -/
def Node.marked (n : Node) : Node :=
  { n with attributes := n.attributes.insert Attribute.isEntryPoint (.bool true) }

namespace Node

variable (n : Node)

/-- A mark changes no other attribute. -/
theorem getElem?_marked {key : String} (h : Attribute.isEntryPoint ≠ key) :
    n.marked.attributes[key]? = n.attributes[key]? := by
  rw [marked, Std.ExtTreeMap.getElem?_insert,
    if_neg fun hc => h (Std.LawfulEqCmp.eq_of_compare hc)]

/-- A mark changes no text but its own. -/
theorem text?_marked {key : String} (h : Attribute.isEntryPoint ≠ key) :
    n.marked.text? key = n.text? key := by
  rw [text?, text?, n.getElem?_marked h]

theorem isEntryPoint_marked : n.marked.isEntryPoint = true := by
  rw [isEntryPoint, flag, marked, Std.ExtTreeMap.getElem?_insert_self]
  rfl

end Node

/-- More files are marked in a store than in another, and nothing else differs. -/
structure Store.Marks (s s' : Store) : Prop where
  /-- At most the nodes differ. -/
  rest : s' = { s with nodes := s'.nodes }
  /-- A node is the same, or it is a file that has been marked. -/
  nodes : ∀ id : NodeId, s'.nodes[id]? = s.nodes[id]? ∨
    ∃ n, n.kind = .file ∧ s.nodes[id]? = some n ∧ s'.nodes[id]? = some n.marked

/-- A store with a mark on a node, if that is a file. -/
def Store.markEntry (s : Store) (id : NodeId) : Store :=
  match s.nodes[id]? with
  | some n => if n.kind = .file then { s with nodes := s.nodes.insert id n.marked } else s
  | none => s

variable {s s' : Store}

/-- To mark one node is to mark a file or nothing. -/
theorem Store.marks_markEntry (s : Store) (id : NodeId) : s.Marks (s.markEntry id) := by
  rw [markEntry]
  split
  · rename_i n hn
    split
    · rename_i hfile
      refine ⟨rfl, fun i => ?_⟩
      by_cases hi : id = i
      · subst hi
        exact Or.inr ⟨n, hfile, hn, Std.ExtTreeMap.getElem?_insert_self⟩
      · refine Or.inl ?_
        rw [Std.ExtTreeMap.getElem?_insert,
          if_neg fun hc => hi (Std.LawfulEqCmp.eq_of_compare hc)]
    · exact ⟨rfl, fun i => Or.inl rfl⟩
  · exact ⟨rfl, fun i => Or.inl rfl⟩

/-! ## What a mark does not change -/

namespace Store.Marks

variable (h : s.Marks s')

include h

/-- What is read off a node and not off its mark stays the same. -/
theorem map_getElem? {β : Type} {f : Node → β} (hf : ∀ n : Node, f n.marked = f n)
    (id : NodeId) : s'.nodes[id]?.map f = s.nodes[id]?.map f := by
  rcases h.nodes id with heq | ⟨n, -, hn, hn'⟩
  · rw [heq]
  · rw [hn, hn', Option.map_some, Option.map_some, hf]

/-- Marks add no nodes and remove none. -/
theorem mem_iff (id : NodeId) : id ∈ s'.nodes ↔ id ∈ s.nodes := by
  rw [Std.ExtTreeMap.mem_iff_isSome_getElem?, Std.ExtTreeMap.mem_iff_isSome_getElem?,
    ← Option.isSome_map (f := fun _ => ()), h.map_getElem? fun _ => rfl, Option.isSome_map]

/-- The file that a node belongs to is the same, or it has been marked. -/
theorem definingFile?_cases (id : NodeId) : s'.definingFile? id = s.definingFile? id ∨
    ∃ n, s.definingFile? id = some n ∧ s'.definingFile? id = some n.marked := by
  have hfile : ∀ path, s'.nodes[NodeId.file path]? = s.nodes[NodeId.file path]? ∨
      ∃ n, s.nodes[NodeId.file path]? = some n ∧ s'.nodes[NodeId.file path]? = some n.marked := by
    intro path
    refine (h.nodes (NodeId.file path)).imp_right ?_
    rintro ⟨m, -, hm, hm'⟩
    exact ⟨m, hm, hm'⟩
  rw [definingFile?, definingFile?]
  rcases h.nodes id with heq | ⟨n, hkind, hn, hn'⟩
  · rw [heq]
    cases s.nodes[id]? with
    | none => exact Or.inl rfl
    | some n =>
        rw [Option.bind_eq_bind, Option.bind_some, Option.bind_eq_bind, Option.bind_some]
        split
        · exact Or.inl rfl
        · cases n.text? Attribute.definingFile with
          | none => exact Or.inl rfl
          | some path => exact hfile path
        · cases n.text? Attribute.definingFile with
          | none => exact Or.inl rfl
          | some path => exact hfile path
        · exact Or.inl rfl
        · exact Or.inl rfl
  · refine Or.inr ⟨n, ?_, ?_⟩
    · rw [hn, Option.bind_eq_bind, Option.bind_some, hkind]
    · have hkind' : n.marked.kind = .file := hkind
      rw [hn', Option.bind_eq_bind, Option.bind_some, hkind']

/-- What is read off a file and not off its mark stays the same. -/
theorem map_definingFile? {β : Type} {f : Node → β} (hf : ∀ n : Node, f n.marked = f n)
    (id : NodeId) : (s'.definingFile? id).map f = (s.definingFile? id).map f := by
  rcases h.definingFile?_cases id with heq | ⟨n, hn, hn'⟩
  · rw [heq]
  · rw [hn, hn', Option.map_some, Option.map_some, hf]

/-- The edges at a node are the same. -/
theorem steps (config : Walk.Config) (id : NodeId) :
    Walk.steps s' config id = Walk.steps s config id := by
  rw [h.rest]
  rfl

/-- Marks change no edges, and so no neighbors. -/
theorem neighbors (id : NodeId) (r : Relationship) (direction : Direction) :
    s'.neighbors id r direction = s.neighbors id r direction := by
  rw [h.rest]
  rfl

/-! ## The walks -/

theorem walkSeeds (ids : List NodeId) : Walk.seeds s' ids = Walk.seeds s ids := by
  have hcontains : s'.contains = s.contains := by
    funext id
    rw [Bool.eq_iff_iff]
    exact h.mem_iff id
  rw [Walk.seeds, Walk.seeds, hcontains]

open Walk in
/-- **A walk does not see marks:** it reads identifiers and edges only. -/
theorem depthFirstState (ids : List NodeId) (config : Walk.Config) :
    Walk.depthFirstState s' ids config = Walk.depthFirstState s ids config := by
  have hturn : DepthFirst.turn s' config = DepthFirst.turn s config := by
    funext st
    simp only [DepthFirst.turn, DepthFirst.expand, h.steps]
  -- runs that agree on every turn agree
  have hrun : ∀ st, DepthFirst.run s' config st = DepthFirst.run s config st := by
    intro st
    fun_induction DepthFirst.run s config st with
    | case1 st st' hhalt => exact DepthFirst.run_of_halt (hturn ▸ hhalt)
    | case2 st st' hmore ih => exact (DepthFirst.run_of_more (hturn ▸ hmore)).trans ih
  rw [Walk.depthFirstState, Walk.depthFirstState, h.walkSeeds, hrun]

open Walk in
theorem breadthFirst (ids : List NodeId) (config : Walk.Config) :
    Walk.breadthFirst s' ids config = Walk.breadthFirst s ids config := by
  have hturn : BreadthFirst.turn s' config = BreadthFirst.turn s config := by
    funext st
    simp only [BreadthFirst.turn, h.steps]
  have hrun : ∀ st, BreadthFirst.run s' config st = BreadthFirst.run s config st := by
    intro st
    fun_induction BreadthFirst.run s config st with
    | case1 st st' hhalt => exact BreadthFirst.run_of_halt (hturn ▸ hhalt)
    | case2 st st' hmore ih => exact (BreadthFirst.run_of_more (hturn ▸ hmore)).trans ih
  rw [Walk.breadthFirst, Walk.breadthFirst, breadthFirstState, breadthFirstState, h.walkSeeds,
    hrun]

end Store.Marks

/-! ## What a target stands for -/

namespace Impact

/-- What a target stands for does not hang on its own mark. -/
theorem members_marked (s : Store) (n : Node) : members s n.marked = members s n := by
  rw [members, members, Node.name, Node.name, n.text?_marked (by decide),
    n.text?_marked (by decide)]
  rfl

theorem seeds_marked (s : Store) (n : Node) : seeds s n.marked = seeds s n := by
  rw [seeds, seeds, members_marked]
  rfl

theorem files_marked (s : Store) (n : Node) : files s n.marked = files s n := by
  rw [files, files, seeds_marked]
  rfl

end Impact

namespace Store.Marks

variable (h : s.Marks s')

include h

theorem isMethodOf (name : String) (id : NodeId) :
    Impact.isMethodOf s' name id = Impact.isMethodOf s name id := by
  rw [Impact.isMethodOf, Impact.isMethodOf]
  rcases h.nodes id with heq | ⟨n, -, hn, hn'⟩
  · rw [heq]
  · rw [hn, hn']
    dsimp only
    rw [n.text?_marked (by decide)]
    rfl

/-- What a target stands for does not hang on the marks of others. -/
theorem members (n : Node) : Impact.members s' n = Impact.members s n := by
  have hmethod : ∀ name, Impact.isMethodOf s' name = Impact.isMethodOf s name :=
    fun name => funext (h.isMethodOf name)
  rw [Impact.members, Impact.members]
  simp only [Impact.definedBy, h.neighbors, hmethod]
  split
  · -- only the identifier of the file matters
    rcases h.definingFile?_cases n.id with heq | ⟨file, hfile, hfile'⟩
    · rw [heq]
    · rw [hfile, hfile']
      rfl
  · rfl
  · rfl
  · rfl
  · rfl

theorem seeds (n : Node) : Impact.seeds s' n = Impact.seeds s n := by
  rw [Impact.seeds, Impact.seeds, h.members]

theorem files (n : Node) : Impact.files s' n = Impact.files s n := by
  have hfile : (fun id => (s'.definingFile? id).map (·.id)) =
      fun id => (s.definingFile? id).map (·.id) :=
    funext (h.map_definingFile? (f := Node.id) fun _ => rfl)
  rw [Impact.files, Impact.files, h.seeds, hfile]

/-- The walks from a target are the same, whatever stops them. -/
theorem analysis_of {id : NodeId} {n n' : Node} (hn : s.nodes[id]? = some n)
    (hn' : s'.nodes[id]? = some n') (limits : Impact.Limits) (depth : Nat) :
    Impact.Analysis.of s' limits n' depth =
      { Impact.Analysis.of s limits n depth with target := n' } := by
  have htarget : Impact.seeds s' n' = Impact.seeds s n ∧ Impact.files s' n' = Impact.files s n := by
    rcases h.nodes id with heq | ⟨m, -, hm, hm'⟩
    · cases hn.symm.trans (heq.symm.trans hn')
      exact ⟨h.seeds n, h.files n⟩
    · cases hn.symm.trans hm
      cases hn'.symm.trans hm'
      rw [h.seeds, h.files, Impact.seeds_marked, Impact.files_marked]
      exact ⟨rfl, rfl⟩
  simp only [Impact.Analysis.of, htarget.1, htarget.2, h.depthFirstState, h.breadthFirst]

/-! ## Reports -/

/-- An entry point stays one. -/
theorem isEntryPoint {id : NodeId} (hid : Impact.isEntryPoint s id = true) :
    Impact.isEntryPoint s' id = true := by
  rw [Impact.isEntryPoint] at hid ⊢
  rcases h.definingFile?_cases id with heq | ⟨n, -, hn'⟩
  · rw [heq]
    exact hid
  · rw [hn']
    exact n.isEntryPoint_marked

/-- The file of a node is the same file, marked or not. -/
theorem home? (id : NodeId) : Impact.home? s' id = Impact.home? s id := by
  rw [Impact.home?, Impact.home?, h.map_getElem? (f := Node.kind) fun _ => rfl,
    h.map_definingFile? (f := Node.id) fun _ => rfl]

/-- A mark is no unresolved call. -/
theorem hasUnresolvedCalls (id : NodeId) :
    Impact.Analysis.hasUnresolvedCalls s' id = Impact.Analysis.hasUnresolvedCalls s id := by
  rw [Impact.Analysis.hasUnresolvedCalls, Impact.Analysis.hasUnresolvedCalls]
  rcases h.nodes id with heq | ⟨n, -, hn, hn'⟩
  · rw [heq]
  · rw [hn, hn', Option.any_some, Option.any_some, Node.nat?, Node.nat?,
      n.getElem?_marked (by decide)]

end Store.Marks

namespace Impact.Analysis

variable (h : s.Marks s') (a : Analysis) {n : Node} (hid : n.id = a.target.id)

include h

theorem directCallers_of_marks : ({ a with target := n }).directCallers s' = a.directCallers s := by
  have hkind : (fun id : NodeId => s'.nodes[id]?.any fun n => n.kind = .function) =
      fun id : NodeId => s.nodes[id]?.any fun n => n.kind = .function := by
    funext id
    rcases h.nodes id with heq | ⟨m, -, hm, hm'⟩
    · rw [heq]
    · rw [hm, hm']
      rfl
  rw [directCallers, directCallers, hkind]

/-- With the walks all that is counted stays the same. -/
theorem transitiveReferences_of_marks :
    ({ a with target := n }).transitiveReferences s' = a.transitiveReferences s := by
  rw [transitiveReferences, transitiveReferences, directCallers_of_marks h]
  rfl

/-- The nearest entry point comes no further away. -/
theorem exists_entryPointDistance_of_marks {d : Nat} (hd : a.entryPointDistance s = some d) :
    ∃ d' ≤ d, ({ a with target := n }).entryPointDistance s' = some d' := by
  refine exists_entryPointDistance_of_forall (fun m hm => ⟨m, Nat.le_refl m, ?_⟩) hd
  rcases hm with ⟨x, hx, hentry, hdist⟩ | ⟨r, hr, hentry, hdist⟩
  · exact Or.inl ⟨x, hx, h.isEntryPoint hentry, hdist⟩
  · exact Or.inr ⟨r, hr, h.isEntryPoint hentry, hdist⟩

/-- An entry point that was reached still is one. -/
theorem reachesEntry_of_marks (hentry : a.ReachesEntry s) :
    ({ a with target := n }).ReachesEntry s' := by
  rcases hentry with ⟨d, hd, hnear⟩ | ⟨r, hr, hstart⟩
  · obtain ⟨d', hd', hnear'⟩ := exists_entryPointDistance_of_marks h a (n := n) hnear
    exact Or.inl ⟨d', Nat.le_trans hd' hd, hnear'⟩
  · exact Or.inr ⟨r, hr, h.isEntryPoint hstart⟩

include hid

/-- Whether several files are affected does not hang on marks. -/
theorem spansFiles_of_marks : ({ a with target := n }).spansFiles s' = a.spansFiles s := by
  have hhome : Impact.home? s' = Impact.home? s := funext h.home?
  have hown : (s'.definingFile? n.id).toList.map (·.id) =
      (s.definingFile? a.target.id).toList.map (·.id) := by
    rw [hid, ← Option.toList_map, ← Option.toList_map,
      h.map_definingFile? (f := Node.id) fun _ => rfl]
  rw [spansFiles, spansFiles, hhome, hown]
  rfl

/-- The level does not fall. -/
theorem level_of_marks (limits : Limits) :
    a.level s limits ≤ ({ a with target := n }).level s' limits := by
  refine level_le ?_ ?_
  · intro hhigh
    refine level_eq_high_iff.mpr ?_
    rw [transitiveReferences_of_marks h]
    exact (level_eq_high_iff.mp hhigh).imp_left (reachesEntry_of_marks h a)
  · intro hspans
    rw [spansFiles_of_marks h a hid, hspans]

/-- The confidence hangs on the walks, on failures and on unresolved calls, but not on marks. -/
theorem confidence_of_marks : ({ a with target := n }).confidence s' = a.confidence s := by
  have hcalls : hasUnresolvedCalls s' = hasUnresolvedCalls s := funext h.hasUnresolvedCalls
  have hparsed : ({ a with target := n }).parseFailed s' = a.parseFailed s := by
    rw [parseFailed, parseFailed, hid]
    rcases h.definingFile?_cases a.target.id with heq | ⟨m, hm, hm'⟩
    · rw [heq]
    · rw [hm, hm', Option.any_some, Option.any_some, Node.flag, Node.flag,
        m.getElem?_marked (by decide)]
  rw [confidence, confidence, hcalls, hparsed]
  rfl

/-- Of a report nothing else is touched. -/
theorem report_of_marks (limits : Limits) :
    ({ a with target := n }).report s' limits =
      { a.report s limits with
        level := ({ a with target := n }).level s' limits
        entryPointDistance := ({ a with target := n }).entryPointDistance s' } := by
  rw [report, report, directCallers_of_marks h, transitiveReferences_of_marks h,
    confidence_of_marks h a hid, hid]
  rfl

end Impact.Analysis

namespace Impact

/-- **More entry points never make an impact look smaller.**  If files are marked as places
    where execution starts and nothing else changes, the level of a report does not fall, a
    nearest entry point comes no further away, and all other fields stay as they are,
    whatever the store, the target and the limits, and whether or not a walk was stopped. -/
theorem analyze_of_marks (h : s.Marks s') (limits : Limits) (id : NodeId)
    (depth : Option Nat) :
    (id ∉ s.nodes → analyze s limits id depth = .error (.nodeNotFound id) ∧
        analyze s' limits id depth = .error (.nodeNotFound id)) ∧
      (id ∈ s.nodes → ∃ r r', analyze s limits id depth = .ok r ∧
        analyze s' limits id depth = .ok r' ∧ r.level ≤ r'.level ∧
        (∀ d, r.entryPointDistance = some d → ∃ d' ≤ d, r'.entryPointDistance = some d') ∧
        r' = { r with level := r'.level, entryPointDistance := r'.entryPointDistance }) := by
  constructor
  · intro hout
    have hout' : id ∉ s'.nodes := fun hin => hout ((h.mem_iff id).mp hin)
    rw [analyze, analyze, Std.ExtTreeMap.getElem?_eq_none hout,
      Std.ExtTreeMap.getElem?_eq_none hout']
    exact ⟨rfl, rfl⟩
  · intro hin
    obtain ⟨n, hn⟩ := Option.isSome_iff_exists.mp (Std.ExtTreeMap.mem_iff_isSome_getElem?.mp hin)
    obtain ⟨n', hn', hid⟩ : ∃ n', s'.nodes[id]? = some n' ∧ n'.id = n.id := by
      rcases h.nodes id with heq | ⟨m, -, hm, hm'⟩
      · exact ⟨n, heq.trans hn, rfl⟩
      · cases hn.symm.trans hm
        exact ⟨n.marked, hm', rfl⟩
    have hof := h.analysis_of hn hn' limits (depth.getD limits.maxDepth)
    generalize ha : Analysis.of s limits n (depth.getD limits.maxDepth) = a at hof
    have htarget : n'.id = a.target.id := by rw [hid, ← ha]; rfl
    refine ⟨a.report s limits, ({ a with target := n' }).report s' limits, ?_, ?_, ?_, ?_, ?_⟩
    · rw [analyze, hn, ← ha]
    · rw [analyze, hn', ← hof]
    · exact a.level_of_marks h htarget limits
    · intro d hd
      exact a.exists_entryPointDistance_of_marks h hd
    · exact a.report_of_marks h htarget limits

/-! ## A mark on an importing file -/

/-- What is read off the report on a target, if its walks halt within so many turns. -/
theorem read_of_within {limits : Limits} {id : NodeId} {depth : Nat} {β : Type}
    (f : Report → β) (turns : Nat) {b : β} (h : (s.nodes[id]?.bind fun n =>
      (Analysis.within turns s limits n depth).map fun a => f (a.report s limits)) = some b) :
    ∃ r, analyze s limits id (some depth) = .ok r ∧ f r = b := by
  obtain ⟨n, hn, h⟩ := Option.bind_eq_some_iff.mp h
  obtain ⟨a, ha, hb⟩ := Option.map_eq_some_iff.mp h
  refine ⟨a.report s limits, ?_, hb⟩
  rw [analyze, hn, ← Analysis.of_eq_of_within ha]
  rfl

/-- Three files, of which each but the first imports the one before. -/
def importChain : Store :=
  [("b", "a"), ("c", "b")].foldl (.withEdge .imports) (["a", "b", "c"].foldl (.withNode .file) {})

/-- What a report says that a mark can change, and what stopped its walks. -/
def Report.bearing (r : Report) : Level × Option Nat × Option Walk.Truncation :=
  (r.level, r.entryPointDistance, r.truncated)

/-- The walks are stopped by the budget, and yet the mark on the importing file shows. -/
theorem analyze_of_marks_importChain :
    importChain.Marks (importChain.markEntry ⟨"b"⟩) ∧ NodeId.mk "a" ∈ importChain.nodes ∧
      ∃ r r', analyze importChain { maxNodes := 2 } ⟨"a"⟩ (some 5) = .ok r ∧
        analyze (importChain.markEntry ⟨"b"⟩) { maxNodes := 2 } ⟨"a"⟩ (some 5) = .ok r' ∧
        r.bearing = (.medium, none, some .nodeBudget) ∧
        r'.bearing = (.high, some 1, some .nodeBudget) ∧
        r' = { r with level := r'.level, entryPointDistance := r'.entryPointDistance } := by
  have hmarks := importChain.marks_markEntry ⟨"b"⟩
  have hin : NodeId.mk "a" ∈ importChain.nodes := by decide +kernel
  obtain ⟨r, hr, hread⟩ : ∃ r, analyze importChain { maxNodes := 2 } ⟨"a"⟩ (some 5) = .ok r ∧
      r.bearing = (.medium, none, some .nodeBudget) :=
    read_of_within Report.bearing 4 (by cbv)
  obtain ⟨r', hr', hread'⟩ : ∃ r, analyze (importChain.markEntry ⟨"b"⟩) { maxNodes := 2 } ⟨"a"⟩
      (some 5) = .ok r ∧ r.bearing = (.high, some 1, some .nodeBudget) :=
    read_of_within Report.bearing 4 (by cbv)
  obtain ⟨q, q', hq, hq', -, -, hsame⟩ :=
    (analyze_of_marks hmarks { maxNodes := 2 } ⟨"a"⟩ (some 5)).2 hin
  cases hr.symm.trans hq
  cases hr'.symm.trans hq'
  exact ⟨hmarks, hin, r, r', hr, hr', hread, hread', hsame⟩

end Impact

end CodeGraph

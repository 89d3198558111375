import CodeGraph.Proofs.Build.Ownership
import CodeGraph.Proofs.Impact.Duality
import CodeGraph.Proofs.Impact.Growth
/-! # Levels — what a low level leaves inside a file

    A level is meant to be low only if everything affected lies in the target's
    own file.

    * Every node but directories and packages belongs to a file (`Housed`), and
      nothing else is ever affected.  So each affected node is at home in a file
      (`exists_home_of_affected`).
    * A target with a file is itself at home there, and the homes differ as soon
      as one affected node lies elsewhere (`spansFiles_iff_of_definingFile?`).
    * A directory and a package have no file, and their own homes are not
      counted.  Only files are affected then, each at home in itself, so it takes
      two of them to span files (`spansFiles_iff_one_lt`).
    * So a level is low in spite of an affected node outside exactly if a
      directory or a package affects a single file (`analyze_low`). -/

namespace CodeGraph.Impact

open Std

variable {s : Store} {target : Node}

/-! ## Files of nodes -/

/-- Two nodes belong to one file. -/
def SameFile (s : Store) (u v : NodeId) : Prop :=
  ∃ m, s.definingFile? u = some m ∧ s.definingFile? v = some m

/-- A graph that was built: every node but directories and packages belongs to a
    file. -/
structure Housed (s : Store) : Prop where
  charted : Charted s
  housed : ∀ (id : NodeId) (n : Node), s.nodes[id]? = some n → n.kind ≠ .directory →
    n.kind ≠ .dependency → ∃ m, s.definingFile? id = some m

theorem housed_ofBatches (config : Build.Config) (batches : List Batch) :
    Housed (Build.ofBatches config batches).1 := by
  refine ⟨charted_ofBatches config batches, ?_⟩
  intro id n hn hdirectory hdependency
  have hdefinition : n.kind.isDefinition = true →
      ∃ m, (Build.ofBatches config batches).1.definingFile? id = some m := by
    intro hdef
    obtain ⟨-, m, -, -, -, -, hm, -⟩ := Build.definition_construct config hn hdef
    exact ⟨m, hm⟩
  cases hkind : n.kind with
  | file => exact ⟨n, Build.definingFile?_of_file hn hkind⟩
  | function => exact hdefinition (by rw [hkind]; rfl)
  | «class» => exact hdefinition (by rw [hkind]; rfl)
  | directory => exact absurd hkind hdirectory
  | dependency => exact absurd hkind hdependency

/-- What belongs to a file is at home there. -/
theorem home?_of_definingFile? {id : NodeId} {m : Node} (hm : s.definingFile? id = some m) :
    home? s id = some m.id := by
  obtain ⟨n, hn, hfile⟩ := Option.bind_eq_some_iff.mp hm
  rw [home?, hn, Option.map_some, hm]
  cases hkind : n.kind with
  | file | function | «class» => rfl
  | directory | dependency =>
      rw [hkind] at hfile
      cases hfile

/-- Nodes that belong to files belong to the same one if these have one identifier. -/
theorem sameFile_iff (hs : s.Sound) {u v : NodeId} {m m' : Node}
    (hm : s.definingFile? u = some m) (hm' : s.definingFile? v = some m') :
    SameFile s u v ↔ m.id = m'.id := by
  constructor
  · rintro ⟨f, hu, hv⟩
    rw [Option.some.inj (hm.symm.trans hu), Option.some.inj (hm'.symm.trans hv)]
  · intro hid
    have hfile := getElem?_of_definingFile? hs hm
    rw [hid, getElem?_of_definingFile? hs hm'] at hfile
    exact ⟨m, hm, hm'.trans hfile⟩

/-! ## Affected nodes -/

/-- Calls and inheritances join definitions. -/
theorem isDefinition_of_allows {r : Relationship} (hr : r ∈ [.calls, .inherits])
    {a b : NodeKind} (h : r.allows a b = true) :
    a.isDefinition = true ∧ b.isDefinition = true := by
  rw [List.mem_cons, List.mem_singleton] at hr
  rcases hr with rfl | rfl <;> cases a <;> cases b <;> first | exact ⟨rfl, rfl⟩ | cases h

/-- In a typed store only definitions call and inherit. -/
theorem exists_isDefinition_of_leads (hs : Build.Typed s) {n : Nat} {v w : NodeId}
    (h : s.Leads [.calls, .inherits] n v w) (hne : v ≠ w) :
    ∃ kind, Build.HasKind s v kind ∧ kind.isDefinition = true := by
  cases h with
  | here => exact absurd rfl hne
  | step he hrel _ =>
      obtain ⟨a, b, ha, -, hallows⟩ := hs.allowed _ he
      exact ⟨a, ha, (isDefinition_of_allows hrel hallows).1⟩

/-- A directory and a package include nothing else. -/
theorem eq_of_mem_seeds (hkind : target.kind = .directory ∨ target.kind = .dependency)
    {id : NodeId} (hid : id ∈ seeds s target) : id = target.id := by
  rw [seeds, mem_sortIds, members] at hid
  rcases hkind with hkind | hkind <;> rw [hkind] at hid <;> exact List.mem_singleton.mp hid

/-- No calls and no inheritances lead to a directory or a package. -/
theorem eq_of_leads (hs : Build.Typed s) (htarget : s.nodes[target.id]? = some target)
    (hkind : target.kind = .directory ∨ target.kind = .dependency) {n : Nat} {v : NodeId}
    (h : s.Leads [.calls, .inherits] n v target.id) : v = target.id := by
  cases n with
  | zero => exact h.eq_of_zero
  | succ n =>
      obtain ⟨e, he, hrel, hend, -⟩ := h.exists_last
      obtain ⟨a, b, -, hb, hallows⟩ := hs.allowed e he
      have hdef := (isDefinition_of_allows hrel hallows).2
      rw [hend] at hb
      rw [eq_of_hasKind hb ⟨target, htarget, rfl⟩] at hdef
      rcases hkind with hkind | hkind <;> rw [hkind] at hdef <;> cases hdef

/-- So many calls and inheritances lead from a node to what a target stands for, or so
    many imports to one of its files. -/
def Refers (s : Store) (target : Node) (n : Nat) (id : NodeId) : Prop :=
  (∃ w ∈ seeds s target, s.Leads [.calls, .inherits] n id w) ∨
    ∃ f ∈ files s target, s.Leads [.imports] n id f

section

variable {limits : Limits} {depth : Nat}

/-- Whatever is found refers to the target by as many edges as its distance says. -/
theorem refers_of_found (hs : s.Sound) {id : NodeId} {n : Nat}
    (h : (Analysis.of s limits target depth).Found id n) : Refers s target n id := by
  obtain ⟨polls, heq⟩ := Analysis.exists_imports_of s limits target depth
  rw [Analysis.found_iff, Analysis.calls_of, heq] at h
  rcases h with ⟨x, hx, rfl, rfl⟩ | ⟨x, hx, rfl, rfl⟩
  · obtain ⟨w, hw, -, hleads⟩ := (Walk.route_iff_leads (List.cons_ne_nil _ _) rfl).mp
      (Walk.DepthFirst.route_of_visit hs hx).1
    exact Or.inl ⟨w, hw, hleads⟩
  · obtain ⟨f, hf, -, hleads⟩ := (Walk.route_iff_leads (List.cons_ne_nil _ _) rfl).mp
      (Walk.DepthFirst.route_of_visit hs hx).1
    exact Or.inr ⟨f, hf, hleads⟩

variable {r : Reached}

/-- An affected node refers to the target, and lies outside. -/
theorem refers_of_affected (hs : s.Sound)
    (hr : r ∈ (Analysis.of s limits target depth).affected) :
    (r.id ∉ seeds s target ∧ r.id ∉ files s target) ∧ Refers s target r.distance r.id := by
  obtain ⟨hout, hleast⟩ := Analysis.mem_affected.mp hr
  refine ⟨?_, refers_of_found hs hleast.1⟩
  rw [← not_or, ← List.mem_append]
  exact hout

/-- **Every affected node is at home in a file.** -/
theorem exists_home_of_affected (h : Housed s)
    (hr : r ∈ (Analysis.of s limits target depth).affected) :
    ∃ m, s.definingFile? r.id = some m ∧ home? s r.id = some m.id := by
  have hs := h.charted.typed
  obtain ⟨⟨hseed, hfile⟩, hrefers⟩ := refers_of_affected h.charted.labelled.sound hr
  obtain ⟨n, hn, hdirectory, hdependency⟩ : ∃ n, s.nodes[r.id]? = some n ∧
      n.kind ≠ .directory ∧ n.kind ≠ .dependency := by
    rcases hrefers with ⟨w, hw, hleads⟩ | ⟨f, hf, hleads⟩
    · obtain ⟨kind, ⟨n, hn, rfl⟩, hdef⟩ :=
        exists_isDefinition_of_leads hs hleads fun heq => hseed (heq ▸ hw)
      refine ⟨n, hn, ?_, ?_⟩ <;> intro hkind <;> rw [hkind] at hdef <;> cases hdef
    · obtain ⟨n, hn, hkind⟩ := hasKind_file_of_leads hs hleads fun heq => hfile (heq ▸ hf)
      refine ⟨n, hn, ?_, ?_⟩ <;> rw [hkind] <;> exact nofun
  obtain ⟨m, hm⟩ := h.housed r.id n hn hdirectory hdependency
  exact ⟨m, hm, home?_of_definingFile? hm⟩

/-- What a directory or a package affects is a file, at home in itself. -/
theorem home?_of_affected (h : Housed s) (htarget : s.nodes[target.id]? = some target)
    (hkind : target.kind = .directory ∨ target.kind = .dependency)
    (hr : r ∈ (Analysis.of s limits target depth).affected) : home? s r.id = some r.id := by
  have hs := h.charted.typed
  obtain ⟨⟨hseed, hfile⟩, hrefers⟩ := refers_of_affected h.charted.labelled.sound hr
  obtain ⟨n, hn, hfilekind⟩ : Build.HasKind s r.id .file := by
    rcases hrefers with ⟨w, hw, hleads⟩ | ⟨f, hf, hleads⟩
    · cases eq_of_mem_seeds hkind hw
      exact absurd (eq_of_leads hs htarget hkind hleads ▸ hw) hseed
    · exact hasKind_file_of_leads hs hleads fun heq => hfile (heq ▸ hf)
  rw [home?_of_definingFile? (Build.definingFile?_of_file hn hfilekind),
    h.charted.labelled.sound.keyed r.id n hn]

end

/-! ## Low levels -/

namespace Analysis

/-- A level is low if there is no reason for another one. -/
theorem level_eq_low_iff {a : Analysis} {limits : Limits} :
    a.level s limits = .low ↔ a.level s limits ≠ .high ∧ a.spansFiles s = false := by
  by_cases hhigh : a.level s limits = .high
  · rw [hhigh]
    exact iff_of_false nofun fun h => h.1 rfl
  · rw [and_iff_right hhigh, level_of_ne_high hhigh]
    cases a.spansFiles s <;> decide

end Analysis

section

variable {limits : Limits} {depth : Nat}

/-- **A target with a file spans files if it affects a node outside.** -/
theorem spansFiles_iff_of_definingFile? (h : Housed s) {m : Node}
    (hm : s.definingFile? target.id = some m) :
    (Analysis.of s limits target depth).spansFiles s = true ↔
      ∃ r ∈ (Analysis.of s limits target depth).affected, ¬ SameFile s target.id r.id := by
  have hs := h.charted.labelled.sound
  have hmem : ∀ (id : NodeId), id ∈ (Analysis.of s limits target depth).homes s ↔
      id = m.id ∨ ∃ r ∈ (Analysis.of s limits target depth).affected, home? s r.id = some id := by
    intro id
    rw [Analysis.homes, List.mem_append, List.mem_filterMap]
    refine or_congr_left ?_
    show id ∈ (s.definingFile? target.id).toList.map (·.id) ↔ _
    rw [hm]
    exact List.mem_singleton
  rw [Analysis.spansFiles_iff]
  constructor
  · rintro ⟨x, hx, y, hy, hne⟩
    -- one of the two is not the file of the target
    obtain ⟨z, hz, hzm⟩ : ∃ z ∈ (Analysis.of s limits target depth).homes s, z ≠ m.id := by
      by_cases hxm : x = m.id
      · exact ⟨y, hy, fun hym => hne (hxm.trans hym.symm)⟩
      · exact ⟨x, hx, hxm⟩
    obtain ⟨r, hr, hhome⟩ := ((hmem z).mp hz).resolve_left hzm
    refine ⟨r, hr, ?_⟩
    rintro ⟨f, hf, hrf⟩
    cases hm.symm.trans hf
    exact hzm (Option.some.inj (hhome.symm.trans (home?_of_definingFile? hrf)))
  · rintro ⟨r, hr, hout⟩
    obtain ⟨m', hm', hhome⟩ := exists_home_of_affected h hr
    refine ⟨m.id, (hmem _).mpr (Or.inl rfl), m'.id, (hmem _).mpr (Or.inr ⟨r, hr, hhome⟩), ?_⟩
    exact fun heq => hout ((sameFile_iff hs hm hm').mpr heq)

/-- **A directory or a package spans files if it affects more than one.** -/
theorem spansFiles_iff_one_lt (h : Housed s)
    (htarget : s.nodes[target.id]? = some target)
    (hkind : target.kind = .directory ∨ target.kind = .dependency) :
    (Analysis.of s limits target depth).spansFiles s = true ↔
      1 < (Analysis.of s limits target depth).affected.length := by
  have hhomes : (Analysis.of s limits target depth).homes s =
      (Analysis.of s limits target depth).affected.map (·.id) := by
    have hnone : s.definingFile? (Analysis.of s limits target depth).target.id = none :=
      definingFile?_eq_none htarget hkind
    rw [Analysis.homes, hnone, Option.toList_none, List.map_nil, List.nil_append,
      ← List.filterMap_eq_map]
    exact List.filterMap_congr fun r hr => home?_of_affected h htarget hkind hr
  rw [Analysis.spansFiles_iff, hhomes, ← List.length_map (·.id),
    ← List.toFinset_card_of_nodup Analysis.nodup_affected, Finset.one_lt_card]
  simp only [List.mem_toFinset]

/-- **A level is low in spite of an affected node outside** if a directory or a package
    affects one node only, and there is no reason for a high level. -/
theorem low_outside_iff (h : Housed s) (htarget : s.nodes[target.id]? = some target) :
    ((Analysis.of s limits target depth).level s limits = .low ∧
        ∃ r ∈ (Analysis.of s limits target depth).affected, ¬ SameFile s target.id r.id) ↔
      (target.kind = .directory ∨ target.kind = .dependency) ∧
        (Analysis.of s limits target depth).affected.length = 1 ∧
          (Analysis.of s limits target depth).level s limits ≠ .high := by
  rw [Analysis.level_eq_low_iff, ← Bool.not_eq_true]
  by_cases hkind : target.kind = .directory ∨ target.kind = .dependency
  · have hout : (∃ r ∈ (Analysis.of s limits target depth).affected,
        ¬ SameFile s target.id r.id) ↔
        0 < (Analysis.of s limits target depth).affected.length := by
      rw [List.length_pos_iff_exists_mem]
      refine exists_congr fun r => and_iff_left ?_
      rintro ⟨m, hm, -⟩
      rw [definingFile?_eq_none htarget hkind] at hm
      cases hm
    rw [spansFiles_iff_one_lt h htarget hkind, hout, and_iff_right hkind]
    constructor
    · rintro ⟨⟨hhigh, hle⟩, hpos⟩
      exact ⟨by omega, hhigh⟩
    · rintro ⟨hone, hhigh⟩
      exact ⟨⟨hhigh, by omega⟩, by omega⟩
  · obtain ⟨hdirectory, hdependency⟩ := not_or.mp hkind
    obtain ⟨m, hm⟩ := h.housed target.id target htarget hdirectory hdependency
    rw [spansFiles_iff_of_definingFile? h hm]
    refine iff_of_false ?_ fun hright => hkind hright.1
    rintro ⟨⟨-, hinside⟩, houtside⟩
    exact hinside houtside

end

/-- Whatever is a node can be analyzed. -/
theorem exists_analyze (hs : s.Sound) (limits : Limits) (depth : Option Nat) {id : NodeId}
    (hid : id ∈ s.nodes) : ∃ target, s.nodes[id]? = some target ∧ target.id = id ∧
      analyze s limits id depth =
        .ok ((Analysis.of s limits target (depth.getD limits.maxDepth)).report s limits) := by
  obtain ⟨target, htarget⟩ := Option.isSome_iff_exists.mp
    (ExtTreeMap.mem_iff_isSome_getElem?.mp hid)
  exact ⟨target, htarget, hs.keyed id target htarget, by rw [analyze, htarget]⟩

/-- **When a low level is wrong.**  In a graph that was built, a report says that the
    level is low, and a node outside the target's own file is affected all the same,
    exactly if the target is a directory or a package, one node is affected, and there
    is no reason for a high level.  For files, functions and classes this never
    happens. -/
theorem analyze_low (config : Build.Config) (batches : List Batch) (limits : Limits)
    (depth : Option Nat) {id : NodeId} (hid : id ∈ (Build.ofBatches config batches).1.nodes) :
    let s := (Build.ofBatches config batches).1
    ∃ target a, s.nodes[id]? = some target ∧
      a = Analysis.of s limits target (depth.getD limits.maxDepth) ∧
      analyze s limits id depth = .ok (a.report s limits) ∧
      ((a.level s limits = .low ∧ ∃ r ∈ a.affected, ¬ SameFile s id r.id) ↔
        (target.kind = .directory ∨ target.kind = .dependency) ∧ a.affected.length = 1 ∧
          a.level s limits ≠ .high) := by
  intro s
  have h : Housed s := housed_ofBatches config batches
  obtain ⟨target, htarget, rfl, hok⟩ := exists_analyze h.charted.labelled.sound limits depth hid
  exact ⟨target, _, htarget, rfl, hok, low_outside_iff h htarget⟩

/-! ## One file that imports a package -/

theorem getElem?_numpy : packageGraph.nodes[numpy.id]? = some numpy := by decide +kernel

/-- The level that the report on the package gives, and what is affected. -/
theorem outline_numpy :
    ((Analysis.of packageGraph {} numpy 5).level packageGraph {},
      (Analysis.of packageGraph {} numpy 5).affected) = (.low, [⟨.file "a.py", 1⟩]) := by
  obtain ⟨a, ha, houtline⟩ := Option.map_eq_some_iff.mp
    (show (Analysis.within 3 packageGraph {} numpy 5).map (fun a =>
        (a.level packageGraph {}, a.affected)) = some (.low, [⟨.file "a.py", 1⟩]) by
      decide +kernel)
  rw [Analysis.of_eq_of_within ha, houtline]

/-- The file is one affected node, and so the level is low though the file lies
    outside. -/
theorem analyze_low_numpy :
    numpy.id ∈ packageGraph.nodes ∧ ∃ a, a = Analysis.of packageGraph {} numpy 5 ∧
      a.affected.length = 1 ∧ a.level packageGraph {} ≠ .high ∧
      a.level packageGraph {} = .low ∧
        ∃ r ∈ a.affected, ¬ SameFile packageGraph numpy.id r.id := by
  have hid : numpy.id ∈ packageGraph.nodes :=
    ExtTreeMap.mem_iff_isSome_getElem?.mpr (by rw [getElem?_numpy]; rfl)
  obtain ⟨target, a, htarget, ha, -, hlow⟩ := analyze_low {} _ {} none hid
  cases getElem?_numpy.symm.trans htarget
  obtain ⟨hlevel, haffected⟩ := Prod.mk.inj outline_numpy
  replace ha : a = Analysis.of packageGraph {} numpy 5 := ha
  rw [← ha] at hlevel haffected
  have hone : a.affected.length = 1 := by rw [haffected, List.length_singleton]
  have hhigh : a.level packageGraph {} ≠ .high := by
    rw [hlevel]
    decide
  exact ⟨hid, a, ha, hone, hhigh, hlow.mpr ⟨Or.inr rfl, hone, hhigh⟩⟩

/-- **A package that one file imports:** the report tells of the file, which is not
    the package's own, and says that the level is low. -/
theorem numpy_low_outside :
    let a := Analysis.of packageGraph {} numpy 5
    analyze packageGraph {} numpy.id none = .ok (a.report packageGraph {}) ∧
      (a.report packageGraph {}).level = .low ∧
      ∃ r ∈ a.affected, r.id = .file "a.py" ∧ ¬ SameFile packageGraph numpy.id r.id := by
  intro a
  obtain ⟨hlevel, haffected⟩ := Prod.mk.inj outline_numpy
  refine ⟨?_, hlevel, ⟨.file "a.py", 1⟩, ?_, rfl, ?_⟩
  · rw [analyze, getElem?_numpy]
    rfl
  · show _ ∈ (Analysis.of packageGraph {} numpy 5).affected
    rw [haffected]
    exact List.mem_singleton_self _
  · rintro ⟨m, hm, -⟩
    rw [definingFile?_eq_none getElem?_numpy (Or.inr rfl)] at hm
    cases hm

end CodeGraph.Impact

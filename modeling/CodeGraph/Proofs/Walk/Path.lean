import CodeGraph.Proofs.Walk.Discovery
import CodeGraph.Walk.Path
import Mathlib.Data.List.Chain
/-! # Paths — the way back from a visit

    A path is read backwards along the links of the visits.  It comes to a seed
    because each link leads to a node that is nearer, even in a walk that was
    stopped before all its distances were repaired.

    * `Result.Traced` is what both walks establish of their results.
    * `Back` is the way back from a visit, and its properties are proved along it:
      the nodes come nearer, so none is met twice (`Back.nodup`), and the way has
      no more links than the distance says (`Back.length_le`).
    * The bound on the number of turns is never met, since the way consists of
      distinct visited nodes (`Traced.pathTo_eq`).
    * If the distances are the shortest ones then each link makes one step of
      difference (`Back.length_eq`). -/

namespace CodeGraph.Walk

variable {s : Store} {config : Config} {ids : List NodeId} {r : Result}

/-! ## What a path should be -/

/-- A node was found from another one, through an edge of the store that the walk may
    take. -/
def Result.Link (s : Store) (config : Config) (r : Result) (u v : NodeId) : Prop :=
  ∃ x ∈ r.visits, x.node = v ∧ ∃ via, x.via = some via ∧ via.source = u ∧
    via.LeadsTo s config v

/-- A path from a seed to a node, along the links of visited nodes. -/
structure IsPath (s : Store) (config : Config) (ids : List NodeId) (r : Result) (v : NodeId)
    (p : List NodeId) : Prop where
  starts : ∃ f, p.head? = some f ∧ f ∈ ids ∧ f ∈ s.nodes
  ends : p.getLast? = some v
  nodup : p.Nodup
  visited : ∀ u ∈ p, u ∈ r.nodes
  links : p.IsChain (r.Link s config)

/-- Every visited node is visited once, and is a seed or was found from a visited node that is
    nearer. -/
structure Result.Traced (s : Store) (config : Config) (ids : List NodeId) (r : Result) :
    Prop where
  nodup : r.nodes.Nodup
  traced : ∀ x ∈ r.visits,
    (x.distance = 0 ∧ x.via = none ∧ x.node ∈ ids ∧ x.node ∈ s.nodes) ∨
      ∃ via, x.via = some via ∧ via.LeadsTo s config x.node ∧
        ∃ y ∈ r.visits, y.node = via.source ∧ y.distance < x.distance

/-- What a traced trail reports. -/
theorem Trail.Traced.result {t : Trail} (h : t.Traced s config ids) (hlaw : t.Lawful)
    (truncated : Option Truncation) (reached : Bool) :
    Result.Traced s config ids ⟨t.visits, truncated, reached⟩ where
  nodup := by
    rw [Result.nodes, hlaw.map_node_visits]
    exact hlaw.nodup
  traced := by
    intro x hx
    rcases h x.node ⟨x.distance, x.via⟩ (hlaw.mem_visits.mp hx) with
      ⟨hr, hseed⟩ | ⟨via, d, hvia, hleads, hd, hlt⟩
    · exact Or.inl ⟨congrArg Record.distance hr, congrArg Record.via hr, hseed⟩
    · obtain ⟨y, hy, hnode, rfl⟩ := hlaw.exists_visit_iff.mpr hd
      exact Or.inr ⟨via, hvia, hleads, y, hy, hnode, hlt⟩

/-- The last visit of a node that is visited once. -/
theorem Result.lastVisit?_eq_some_iff (h : r.nodes.Nodup) {v : NodeId} {x : Visit} :
    r.lastVisit? v = some x ↔ x ∈ r.visits ∧ x.node = v := by
  rw [Result.lastVisit?]
  constructor
  · intro hx
    have hnode := List.find?_some hx
    exact ⟨List.mem_reverse.mp (List.mem_of_find?_eq_some hx), of_decide_eq_true hnode⟩
  · rintro ⟨hx, rfl⟩
    obtain ⟨y, hy⟩ : ∃ y, r.visits.reverse.find? (fun y => y.node = x.node) = some y := by
      rw [← Option.isSome_iff_exists, List.find?_isSome]
      exact ⟨x, List.mem_reverse.mpr hx, decide_eq_true rfl⟩
    have hnode := List.find?_some hy
    rw [hy, List.inj_on_of_nodup_map h (List.mem_reverse.mp (List.mem_of_find?_eq_some hy)) hx
      (of_decide_eq_true hnode)]

/-- A visit without a link ends the way. -/
theorem pathBack_of_none {x : Visit} (hvia : x.via = none) (turns : Nat)
    (path : List NodeId) : pathBack r turns x path = some path := by
  rw [pathBack]
  exact hvia

/-- A link leads on to the visit of its source. -/
theorem pathBack_of_some {x y : Visit} {via : Via} (hvia : x.via = some via)
    (hlast : r.lastVisit? via.source = some y) (turns : Nat) (path : List NodeId) :
    pathBack r (turns + 1) x path = pathBack r turns y (via.source :: path) := by
  rw [pathBack.eq_def]
  simp only [hvia, hlast]

/-! ## The way back -/

/-- The nodes from a seed up to a visit, without the node of the visit itself. -/
inductive Back (s : Store) (config : Config) (ids : List NodeId) (r : Result) :
    Visit → List NodeId → Prop
  | seed {x : Visit} : x ∈ r.visits → x.distance = 0 → x.via = none → x.node ∈ ids →
      x.node ∈ s.nodes → Back s config ids r x []
  | step {x y : Visit} {via : Via} {front : List NodeId} : x ∈ r.visits → x.via = some via →
      via.LeadsTo s config x.node → y.node = via.source → y.distance < x.distance →
        Back s config ids r y front → Back s config ids r x (front ++ [y.node])

/-- There is a way back from every visit. -/
theorem Result.Traced.exists_back (h : r.Traced s config ids) {x : Visit}
    (hx : x ∈ r.visits) : ∃ front, Back s config ids r x front := by
  induction hd : x.distance using Nat.strong_induction_on generalizing x with
  | _ d ih =>
      rcases h.traced x hx with ⟨hzero, hvia, hid, hnode⟩ | ⟨via, hvia, hleads, y, hy, hsource, hlt⟩
      · exact ⟨[], .seed hx hzero hvia hid hnode⟩
      · obtain ⟨front, hback⟩ := ih y.distance (hd ▸ hlt) hy rfl
        exact ⟨front ++ [y.node], .step hx hvia hleads hsource hlt hback⟩

namespace Back

variable {x : Visit} {front : List NodeId}

theorem mem_visits (h : Back s config ids r x front) : x ∈ r.visits := by
  cases h with
  | seed hx => exact hx
  | step hx => exact hx

/-- The nodes on the way back are visited, and nearer. -/
theorem nearer (h : Back s config ids r x front) :
    ∀ u ∈ front, ∃ y ∈ r.visits, y.node = u ∧ y.distance < x.distance := by
  induction h with
  | seed => exact fun u hu => nomatch hu
  | step _ _ _ _ hlt hback ih =>
      intro u hu
      rcases List.mem_append.mp hu with hu | hu
      · obtain ⟨z, hz, hzu, hzlt⟩ := ih u hu
        exact ⟨z, hz, hzu, Nat.lt_trans hzlt hlt⟩
      · exact ⟨_, hback.mem_visits, (List.mem_singleton.mp hu).symm, hlt⟩

theorem not_mem (h : Back s config ids r x front) (hnodup : r.nodes.Nodup) :
    x.node ∉ front := by
  intro hx
  obtain ⟨y, hy, hnode, hlt⟩ := h.nearer x.node hx
  rw [List.inj_on_of_nodup_map hnodup hy h.mem_visits hnode] at hlt
  exact Nat.lt_irrefl _ hlt

/-- **The way back meets no node twice.** -/
theorem nodup (h : Back s config ids r x front) (hnodup : r.nodes.Nodup) :
    (front ++ [x.node]).Nodup := by
  have hnew := h.not_mem hnodup
  rw [← List.concat_eq_append]
  induction h with
  | seed => exact List.nodup_nil.concat hnew
  | step _ _ _ _ _ hback ih =>
      have hfront := ih (hback.not_mem hnodup)
      rw [List.concat_eq_append] at hfront
      exact hfront.concat hnew

/-- All nodes on the way back are visited. -/
theorem visited (h : Back s config ids r x front) : ∀ u ∈ front ++ [x.node], u ∈ r.nodes := by
  intro u hu
  rcases List.mem_append.mp hu with hu | hu
  · obtain ⟨y, hy, rfl, -⟩ := h.nearer u hu
    exact List.mem_map_of_mem hy
  · rw [List.mem_singleton.mp hu]
    exact List.mem_map_of_mem h.mem_visits

theorem starts (h : Back s config ids r x front) :
    ∃ f, (front ++ [x.node]).head? = some f ∧ f ∈ ids ∧ f ∈ s.nodes := by
  induction h with
  | @seed x _ _ _ hid hnode => exact ⟨x.node, rfl, hid, hnode⟩
  | step _ _ _ _ _ _ ih =>
      obtain ⟨f, hf, hseed⟩ := ih
      exact ⟨f, by rw [List.head?_append, hf, Option.some_or], hseed⟩

theorem links (h : Back s config ids r x front) :
    (front ++ [x.node]).IsChain (r.Link s config) := by
  induction h with
  | seed => exact List.isChain_singleton _
  | @step x y via front hx hvia hleads hsource _ _ ih =>
      refine List.isChain_append.mpr ⟨ih, List.isChain_singleton _, ?_⟩
      intro u hu v hv
      rw [List.getLast?_concat] at hu
      cases hu
      cases hv
      exact ⟨x, hx, rfl, via, hvia, hsource.symm, hleads⟩

theorem isPath (h : Back s config ids r x front) (hnodup : r.nodes.Nodup) :
    IsPath s config ids r x.node (front ++ [x.node]) :=
  ⟨h.starts, List.getLast?_concat, h.nodup hnodup, h.visited, h.links⟩

/-- The way back has no more links than the distance says. -/
theorem length_le (h : Back s config ids r x front) : front.length ≤ x.distance := by
  induction h with
  | seed => exact Nat.zero_le _
  | step _ _ _ _ hlt _ ih =>
      rw [List.length_append, List.length_singleton]
      omega

/-- **If the distances are the shortest ones, the way back has as many links as the distance
    says.** -/
theorem length_eq (h : Back s config ids r x front)
    (hnearest : ∀ x ∈ r.visits, Nearest s config ids x.node x.distance) :
    front.length = x.distance := by
  induction h with
  | seed _ hzero => exact hzero.symm
  | @step x y via front hx hvia hleads hsource hlt hback ih =>
      -- one step more than to `y` is a route, so `x` is no further
      have hroute : Route s config ids y.node y.distance := (hnearest y hback.mem_visits).1
      have hle : x.distance ≤ y.distance + 1 :=
        (hnearest x hx).2 (hroute.step (hsource ▸ hleads.joined))
      rw [List.length_append, List.length_singleton]
      omega

/-- Reading the links backwards takes one turn for each of them. -/
theorem pathBack_eq (h : Back s config ids r x front) (hnodup : r.nodes.Nodup) :
    ∀ (turns : Nat) (path : List NodeId), front.length ≤ turns →
      pathBack r turns x path = some (front ++ path) := by
  induction h with
  | seed _ _ hvia => exact fun turns path _ => pathBack_of_none hvia turns path
  | @step x y via front hx hvia _ hsource _ hback ih =>
      intro turns path hturns
      rw [List.length_append, List.length_singleton] at hturns
      obtain ⟨turns, rfl⟩ : ∃ k, turns = k + 1 := ⟨turns - 1, by omega⟩
      have hlast : r.lastVisit? via.source = some y :=
        (Result.lastVisit?_eq_some_iff hnodup).mpr ⟨hback.mem_visits, hsource⟩
      rw [pathBack_of_some hvia hlast, ih turns _ (by omega), ← hsource, List.append_assoc,
        List.singleton_append]

end Back

/-! ## The path of a visit -/

namespace Result.Traced

variable {x : Visit} {v : NodeId} {front p : List NodeId}

/-- **The path to a visited node is its way back.** -/
theorem pathTo_eq (h : r.Traced s config ids) (hback : Back s config ids r x front) :
    pathTo r x.node = some (front ++ [x.node]) := by
  have hlast : r.lastVisit? x.node = some x :=
    (Result.lastVisit?_eq_some_iff h.nodup).mpr ⟨hback.mem_visits, rfl⟩
  have hlength : (front ++ [x.node]).length ≤ r.nodes.length :=
    (hback.nodup h.nodup).length_le_of_subset hback.visited
  rw [List.length_append, List.length_singleton, Result.nodes, List.length_map] at hlength
  rw [pathTo, hlast]
  exact hback.pathBack_eq h.nodup _ [x.node] (by omega)

/-- A path is the way back from a visit. -/
theorem exists_back_of_pathTo (h : r.Traced s config ids) (hp : pathTo r v = some p) :
    ∃ x front, Back s config ids r x front ∧ x.node = v ∧ p = front ++ [v] := by
  cases hlast : r.lastVisit? v with
  | none =>
      rw [pathTo, hlast] at hp
      cases hp
  | some x =>
      obtain ⟨hx, rfl⟩ := (Result.lastVisit?_eq_some_iff h.nodup).mp hlast
      obtain ⟨front, hback⟩ := h.exists_back hx
      rw [h.pathTo_eq hback] at hp
      exact ⟨x, front, hback, rfl, (Option.some.inj hp).symm⟩

/-- There is a path to the visited nodes and to no others. -/
theorem isSome_pathTo_iff (h : r.Traced s config ids) :
    (pathTo r v).isSome = true ↔ v ∈ r.nodes := by
  rw [Option.isSome_iff_exists]
  constructor
  · rintro ⟨p, hp⟩
    obtain ⟨x, front, hback, rfl, -⟩ := h.exists_back_of_pathTo hp
    exact List.mem_map_of_mem hback.mem_visits
  · intro hv
    obtain ⟨x, hx, rfl⟩ := List.mem_map.mp hv
    obtain ⟨front, hback⟩ := h.exists_back hx
    exact ⟨_, h.pathTo_eq hback⟩

theorem isPath_of_pathTo (h : r.Traced s config ids) (hp : pathTo r v = some p) :
    IsPath s config ids r v p := by
  obtain ⟨x, front, hback, rfl, rfl⟩ := h.exists_back_of_pathTo hp
  exact hback.isPath h.nodup

/-- A path has no more edges than the distance of its end. -/
theorem length_pathTo_le (h : r.Traced s config ids) (hx : x ∈ r.visits)
    (hp : pathTo r x.node = some p) : p.length ≤ x.distance + 1 := by
  obtain ⟨front, hback⟩ := h.exists_back hx
  rw [h.pathTo_eq hback] at hp
  rw [← Option.some.inj hp, List.length_append, List.length_singleton]
  exact Nat.succ_le_succ hback.length_le

/-- A path to a node at its shortest distance has as many edges. -/
theorem length_pathTo (h : r.Traced s config ids)
    (hnearest : ∀ x ∈ r.visits, Nearest s config ids x.node x.distance) (hx : x ∈ r.visits)
    (hp : pathTo r x.node = some p) : p.length = x.distance + 1 := by
  obtain ⟨front, hback⟩ := h.exists_back hx
  rw [h.pathTo_eq hback] at hp
  rw [← Option.some.inj hp, List.length_append, List.length_singleton,
    hback.length_eq hnearest]

end Result.Traced

/-! ## Both walks -/

/-- Exactly the visited nodes have a path, which leads along links from a seed and has at most
    as many edges as the distance says. -/
structure PathsLeadBack (s : Store) (config : Config) (ids : List NodeId) (r : Result) :
    Prop where
  isSome_iff : ∀ v, (pathTo r v).isSome = true ↔ v ∈ r.nodes
  isPath : ∀ v p, pathTo r v = some p → IsPath s config ids r v p
  length_le : ∀ x ∈ r.visits, ∀ p, pathTo r x.node = some p → p.length ≤ x.distance + 1

theorem Result.Traced.pathsLeadBack (h : r.Traced s config ids) :
    PathsLeadBack s config ids r :=
  ⟨fun _ => h.isSome_pathTo_iff, fun _ _ => h.isPath_of_pathTo,
    fun _ hx _ => h.length_pathTo_le hx⟩

theorem DepthFirst.traced_result (hs : s.Sound) (config : Config) (ids : List NodeId) :
    (depthFirst s ids config).Traced s config ids :=
  (traced_run hs config ids).result (grounded_run hs config ids).lawful _ _

theorem BreadthFirst.traced_result (hs : s.Sound) (config : Config) (ids : List NodeId) :
    (breadthFirst s ids config).Traced s config ids :=
  (traced_run hs config ids).result (grounded_run hs config ids).lawful _ _

/-- **Paths lead back to a seed, however a walk ends.**  The path to a visited node has as many
    edges as its distance says if the walk goes breadth first or was not stopped, and otherwise
    no more. -/
theorem paths_lead_back (hs : s.Reachable) (config : Config) (ids : List NodeId) :
    (PathsLeadBack s config ids (depthFirst s ids config) ∧
        ((depthFirst s ids config).truncated = none →
          ∀ x ∈ (depthFirst s ids config).visits, ∀ p,
            pathTo (depthFirst s ids config) x.node = some p → p.length = x.distance + 1)) ∧
      PathsLeadBack s config ids (breadthFirst s ids config) ∧
        ∀ x ∈ (breadthFirst s ids config).visits, ∀ p,
          pathTo (breadthFirst s ids config) x.node = some p → p.length = x.distance + 1 := by
  have hdepth := DepthFirst.traced_result hs.sound config ids
  have hbreadth := BreadthFirst.traced_result hs.sound config ids
  refine ⟨⟨hdepth.pathsLeadBack, fun hdone x hx p hp => ?_⟩, hbreadth.pathsLeadBack,
    fun x hx p hp => ?_⟩
  · have hexact := DepthFirst.exact_of_not_truncated hs.sound config ids hdone
    refine hdepth.length_pathTo (fun y hy => ?_) hx hp
    exact ((hexact.visited y.node y.distance).mp ⟨y, hy, rfl, rfl⟩).1
  · have hranked := BreadthFirst.ranked_run hs.sound config ids
    have hlaw := (BreadthFirst.grounded_run hs.sound config ids).lawful
    refine hbreadth.length_pathTo (fun y hy => ?_) hx hp
    exact hranked.nearest y.node y.distance (hlaw.exists_visit_iff.mp ⟨y, hy, rfl, rfl⟩)

/-- A graph in which a depth-first walk comes upon `c` by a longer way first. -/
def repaired : Store :=
  .callGraph ["a", "b", "c", "x", "y", "z"]
    [("a", "b"), ("a", "c"), ("b", "c"), ("c", "x"), ("c", "y"), ("x", "z")]

theorem reachable_repaired : repaired.Reachable := Store.reachable_callGraph _ _

/-- Under a budget of five the walk is stopped at `z` when the distances of `c` and `x` are
    repaired and that of `y` is not yet, so the path to `y` is shorter than its distance.
    Under the default budget it is not stopped, and all distances fit. -/
theorem paths_lead_back_when_repaired :
    let cut : Config := { maxDepth := 3, maxNodes := 5 }
    let full : Config := { maxDepth := 3 }
    PathsLeadBack repaired cut [⟨"a"⟩] (depthFirst repaired [⟨"a"⟩] cut) ∧
      PathsLeadBack repaired cut [⟨"a"⟩] (breadthFirst repaired [⟨"a"⟩] cut) ∧
      (depthFirst repaired [⟨"a"⟩] cut).distance? ⟨"y"⟩ = some 3 ∧
      (pathTo (depthFirst repaired [⟨"a"⟩] cut) ⟨"y"⟩).map (·.map (·.text)) =
        some ["a", "c", "y"] ∧
      (depthFirst repaired [⟨"a"⟩] full).truncated = none ∧
      ∀ x ∈ (depthFirst repaired [⟨"a"⟩] full).visits, ∀ p,
        pathTo (depthFirst repaired [⟨"a"⟩] full) x.node = some p →
          p.length = x.distance + 1 := by
  intro cut full
  have hcut := paths_lead_back reachable_repaired cut [⟨"a"⟩]
  have hfull := paths_lead_back reachable_repaired full [⟨"a"⟩]
  have hdone : (depthFirst repaired [⟨"a"⟩] full).truncated = none :=
    DepthFirst.read_of_stateWithin Result.truncated 16 (by cbv)
  have hfound : ((depthFirst repaired [⟨"a"⟩] cut).distance? ⟨"y"⟩,
      (pathTo (depthFirst repaired [⟨"a"⟩] cut) ⟨"y"⟩).map (·.map (·.text))) =
      (some 3, some ["a", "c", "y"]) :=
    DepthFirst.read_of_stateWithin
      (fun r => (r.distance? ⟨"y"⟩, (pathTo r ⟨"y"⟩).map (·.map (·.text)))) 8 (by cbv)
  obtain ⟨hdistance, hpath⟩ := Prod.mk.inj hfound
  exact ⟨hcut.1.1, hcut.2.1, hdistance, hpath, hdone, hfull.1.2 hdone⟩

end CodeGraph.Walk

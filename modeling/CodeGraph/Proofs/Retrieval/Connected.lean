import CodeGraph.Proofs.Walk.Hybrid
import CodeGraph.Retrieval.Query
import Mathlib.Logic.Relation
/-! # Connected answers — every node leads back to a seed

    The answer to a query holds its seeds, what a hybrid walk found around them,
    and the edges between all these.  The walk may be stopped anywhere, and the
    answer is the better for every node it kept: none is left without its way
    back to a seed.

    * `Subgraph.Linked` joins the ends of an edge of the answer, whichever way it
      leads.
    * A node that the walk found is a seed or joined with one that it listed
      earlier (`Walk.Hybrid.anchored_hybrid`).  Both are in the answer, so the
      edge is as well (`linked_of_joined`).
    * The way back to a seed follows from that by induction along the list
      (`leads_to_seed`). -/

namespace CodeGraph.Retrieval

open Std

/-- An edge of an answer joins two nodes. -/
def Subgraph.Linked (g : Subgraph) (u v : NodeId) : Prop :=
  ∃ e ∈ g.edges, e.source = u ∧ e.target = v ∨ e.source = v ∧ e.target = u

/-! ## Seeds -/

theorem source_of_mem_similaritySeeds {s : Store} {v : Embedding} {k : Nat} {x : Seed}
    (hx : x ∈ similaritySeeds s v k) : x.source = .similarity := by
  have hx := List.mem_mergeSort.mp (List.mem_of_mem_take hx)
  obtain ⟨n, -, hseed⟩ := List.mem_filterMap.mp hx
  split at hseed
  · split at hseed
    · cases hseed
      rfl
    · cases hseed
  · cases hseed

theorem source_of_mem_textualSeeds {s : Store} {text : String} {taken : List NodeId}
    {limit : Nat} {x : Seed} (hx : x ∈ textualSeeds s text taken limit) :
    x.source = .textual := by
  have hx := List.mem_mergeSort.mp (List.mem_of_mem_take hx)
  obtain ⟨n, -, hseed⟩ := List.mem_filterMap.mp hx
  dsimp only at hseed
  split at hseed
  · cases hseed
    rfl
  · cases hseed

/-- A seed is similar to the query, or its text is. -/
theorem similar_or_textual_of_mem_seeds {s : Store} {limits : Limits}
    {embedder : Option Embedder} {q : Query} {k : Nat} {x : Seed}
    (hx : x ∈ seeds s limits embedder q k) :
    (∃ v, x ∈ similaritySeeds s v k) ∨
      ∃ text taken limit, x ∈ textualSeeds s text taken limit := by
  rw [seeds] at hx
  cases hv : queryVector? embedder q with
  | some v =>
      simp only [hv] at hx
      split at hx
      · rcases List.mem_append.mp hx with hx | hx
        · exact Or.inl ⟨v, hx⟩
        · exact Or.inr ⟨_, _, _, hx⟩
      · exact Or.inl ⟨v, hx⟩
  | none =>
      simp only [hv] at hx
      split at hx
      · exact Or.inr ⟨_, _, _, hx⟩
      · cases hx

/-- A seed was chosen for a reason. -/
theorem source_of_mem_seeds {s : Store} {limits : Limits} {embedder : Option Embedder}
    {q : Query} {k : Nat} {x : Seed} (hx : x ∈ seeds s limits embedder q k) :
    x.source ≠ .none := by
  rcases similar_or_textual_of_mem_seeds hx with ⟨v, hx⟩ | ⟨text, taken, limit, hx⟩
  · rw [source_of_mem_similaritySeeds hx]
    decide
  · rw [source_of_mem_textualSeeds hx]
    decide

/-! ## Answers -/

section

variable {s : Store} {limits : Limits} {chosen : List Seed}

/-- What the walk found away from the seeds is a node of the answer. -/
theorem mem_ids_of_found (hs : s.Sound) {t : Walk.Hybrid.Tagged}
    (ht : t ∈ (expansion s limits chosen).nodes) :
    t.id ∈ (assemble s limits chosen).nodes.map (·.id) := by
  rw [assemble, List.map_append, List.mem_append]
  by_cases hseed : t.id ∈ chosen.map (·.node.id)
  · refine Or.inl ?_
    rw [List.map_map]
    exact hseed
  · refine Or.inr (List.mem_map.mpr ?_)
    obtain ⟨n, hn⟩ := Option.isSome_iff_exists.mp (ExtTreeMap.mem_iff_isSome_getElem?.mp
      (Walk.Hybrid.mem_nodes_of_mem_hybrid hs ht))
    refine ⟨⟨t.id, n.kind, none, .none, t.tags⟩, ?_, rfl⟩
    refine List.mem_filterMap.mpr ⟨t, List.mem_filter.mpr ⟨ht, ?_⟩, ?_⟩
    · rw [Bool.not_eq_true', List.contains_eq_mem, decide_eq_false_iff_not]
      exact hseed
    · rw [rankFound?, hn]
      rfl

/-- An edge of the graph between nodes of the answer is in the answer. -/
theorem linked_of_joined {u v : NodeId} (hj : s.Joined [] .either u v)
    (hu : u ∈ (assemble s limits chosen).nodes.map (·.id))
    (hv : v ∈ (assemble s limits chosen).nodes.map (·.id)) :
    (assemble s limits chosen).Linked v u := by
  have hselected : ∀ {i : NodeId}, i ∈ (assemble s limits chosen).nodes.map (·.id) →
      (ExtTreeSet.ofList ((assemble s limits chosen).nodes.map (·.id))).contains i = true := by
    intro i hi
    rw [ExtTreeSet.contains_ofList]
    exact List.contains_iff_mem.mpr hi
  obtain ⟨e, he, -, ⟨-, rfl, rfl⟩ | ⟨-, rfl, rfl⟩⟩ := hj
  · refine ⟨e, List.mem_filter.mpr ⟨Array.mem_toList_iff.mpr he, ?_⟩, Or.inr ⟨rfl, rfl⟩⟩
    exact Bool.and_eq_true_iff.mpr ⟨hselected hu, hselected hv⟩
  · refine ⟨e, List.mem_filter.mpr ⟨Array.mem_toList_iff.mpr he, ?_⟩, Or.inl ⟨rfl, rfl⟩⟩
    exact Bool.and_eq_true_iff.mpr ⟨hselected hv, hselected hu⟩

/-- **What the walk listed leads back to a seed,** along edges of the answer. -/
theorem leads_to_seed (hs : s.Sound) {t : Walk.Hybrid.Tagged}
    (ht : t ∈ (expansion s limits chosen).nodes) :
    ∃ i ∈ chosen.map (·.node.id),
      Relation.ReflTransGen (assemble s limits chosen).Linked t.id i := by
  have hanchored : Walk.Hybrid.Anchored s (chosen.map (·.node.id))
      (expansion s limits chosen).nodes := Walk.Hybrid.anchored_hybrid hs _ _
  obtain ⟨pre, post, hl⟩ := List.append_of_mem ht
  -- by induction on how many nodes were listed before
  induction hn : pre.length using Nat.strong_induction_on generalizing t pre post with
  | _ n ih =>
      subst hn
      rcases hanchored pre t post hl with hseed | ⟨u, hu, hj⟩
      · exact ⟨t.id, hseed, .refl⟩
      · have hlisted : u ∈ (expansion s limits chosen).nodes := by
          rw [hl]
          exact List.mem_append_left _ hu
        obtain ⟨pre', post', rfl⟩ := List.append_of_mem hu
        have hshorter : pre'.length < (pre' ++ u :: post').length := by
          rw [List.length_append, List.length_cons]
          omega
        obtain ⟨i, hi, hleads⟩ := ih _ hshorter hlisted pre' (post' ++ t :: post)
          (by rw [hl, List.append_assoc, List.cons_append]) rfl
        refine ⟨i, hi, .head ?_ hleads⟩
        exact linked_of_joined hj (mem_ids_of_found hs hlisted) (mem_ids_of_found hs ht)

end

/-- **The answer to a query is connected to its seeds.**  However the walk was cut
    short, every node that is no seed leads to a seed along edges of the answer, in
    whichever direction they lead. -/
theorem retrieve_connected {s : Store} (hs : s.Reachable) (limits : Limits)
    (embedder : Option Embedder) (q : Query) (k : Option Nat) {n : RankedNode}
    (hn : n ∈ (retrieve s limits embedder q k).nodes) (hseed : n.seed = .none) :
    ∃ m ∈ (retrieve s limits embedder q k).nodes, m.seed ≠ .none ∧
      Relation.ReflTransGen (retrieve s limits embedder q k).Linked n.id m.id := by
  rw [retrieve] at hn ⊢
  dsimp only at hn ⊢
  by_cases hempty : k.getD limits.topK = 0 ∨ s.isEmpty
  · rw [if_pos hempty] at hn
    cases hn
  rw [if_neg hempty] at hn ⊢
  split at hn
  · cases hn
  rename_i hchosen
  rw [if_neg hchosen]
  have hsources : ∀ x ∈ seeds s limits embedder q (k.getD limits.topK), x.source ≠ .none :=
    fun x hx => source_of_mem_seeds hx
  generalize seeds s limits embedder q (k.getD limits.topK) = chosen at hn hsources
  rcases List.mem_append.mp hn with hn | hn
  · -- a seed carries the reason for which it was chosen
    obtain ⟨x, hx, rfl⟩ := List.mem_map.mp hn
    exact absurd hseed (hsources x hx)
  · obtain ⟨t, ht, hfound⟩ := List.mem_filterMap.mp hn
    obtain ⟨node, -, rfl⟩ := Option.map_eq_some_iff.mp hfound
    obtain ⟨i, hi, hleads⟩ := leads_to_seed hs.sound (List.mem_filter.mp ht).1
    obtain ⟨x, hx, rfl⟩ := List.mem_map.mp hi
    refine ⟨rankSeed (expansion s limits chosen) x, ?_, hsources x hx, hleads⟩
    exact List.mem_append_left _ (List.mem_map.mpr ⟨x, hx, rfl⟩)

/-- A query that asks for seeds and has some is answered from them. -/
theorem retrieve_eq_assemble {s : Store} {limits : Limits} {embedder : Option Embedder} {q : Query}
    {k : Option Nat} (hasked : ¬ (k.getD limits.topK = 0 ∨ s.isEmpty = true))
    (hseeds : seeds s limits embedder q (k.getD limits.topK) ≠ []) :
    retrieve s limits embedder q k =
      assemble s limits (seeds s limits embedder q (k.getD limits.topK)) := by
  rw [retrieve]
  dsimp only
  rw [if_neg hasked, if_neg (mt List.isEmpty_iff.mp hseeds)]

/-! ## A chain of calls -/

/-- Three functions, each of which calls the next. -/
def chain : Store := .callGraph ["a", "b", "c"] [("a", "b"), ("b", "c")]

theorem reachable_chain : chain.Reachable := Store.reachable_callGraph _ _

/-- The part of the chain that a query for its first function is about, within a
    budget of two nodes. -/
def chainAnswer : Subgraph := retrieve chain { maxNodes := 2 } none { text := some "a" } none

/-- The second function as either walk finds it. -/
def chainVisits : List Walk.Visit := [⟨⟨"a"⟩, 0, none⟩, ⟨⟨"b"⟩, 1, some ⟨⟨"a"⟩, .calls, 0⟩⟩]

theorem ids_seeds_chain :
    (seeds chain { maxNodes := 2 } none { text := some "a" } 10).map (·.node.id) = [⟨"a"⟩] := by
  decide +kernel

theorem breadth_chain :
    ((Walk.BreadthFirst.stateWithin 4 chain [⟨"a"⟩] ⟨[], .either, 2, 2, .never⟩).map
      (·.result.visits)) = some chainVisits := by
  cbv

theorem depth_chain :
    ((Walk.DepthFirst.stateWithin 4 chain [⟨"a"⟩]
      ⟨[.calls, .imports], .outgoing, 5, 2, .never⟩).map (·.result.visits)) =
        some chainVisits := by
  cbv

/-- What the walk lists is cut down to the first function and the one it calls. -/
theorem expansion_chain :
    (Walk.hybrid chain [⟨"a"⟩] { maxNodes := 2 }).nodes =
      [⟨⟨"a"⟩, ⟨some 0, some 0⟩⟩, ⟨⟨"b"⟩, ⟨some 1, some 1⟩⟩] := by
  obtain ⟨near, hnear, hvisits⟩ := Option.map_eq_some_iff.mp breadth_chain
  obtain ⟨deep, hdeep, hvisits'⟩ := Option.map_eq_some_iff.mp depth_chain
  have hbreadth : (Walk.breadthFirstState chain [⟨"a"⟩]
      ({ maxNodes := 2 } : Walk.Hybrid.Config).breadth).result.visits = chainVisits := by
    rw [← hvisits, ← Walk.BreadthFirst.breadthFirstState_of_stateWithin hnear]
    rfl
  have hdepth : ∀ polls, (Walk.depthFirst chain [⟨"a"⟩]
      (({ maxNodes := 2 } : Walk.Hybrid.Config).depth polls)).visits = chainVisits := by
    intro polls
    rw [← hvisits', ← Walk.DepthFirst.depthFirstState_of_stateWithin hdeep]
    rfl
  rw [Walk.hybrid, Walk.Hybrid.nodes_unite, Walk.Hybrid.union, Walk.Hybrid.merge, hdepth,
    hbreadth, List.mergeSort_of_pairwise]
  · decide +kernel
  · decide +kernel

/-- The second function leads back to the first, though the walk was cut short. -/
theorem chain_connected :
    ∃ n ∈ chainAnswer.nodes, n.id = ⟨"b"⟩ ∧ n.seed = .none ∧
      ∃ m ∈ chainAnswer.nodes, m.seed ≠ .none ∧
        Relation.ReflTransGen chainAnswer.Linked n.id m.id := by
  have hanswer : chainAnswer = assemble chain { maxNodes := 2 }
      (seeds chain { maxNodes := 2 } none { text := some "a" } 10) := by
    refine retrieve_eq_assemble (by decide +kernel) fun hnone => ?_
    have hids := ids_seeds_chain
    rw [show seeds chain { maxNodes := 2 } none { text := some "a" } 10 = [] from hnone] at hids
    cases hids
  obtain ⟨n, hn, hid, hseed⟩ : ∃ n ∈ chainAnswer.nodes, n.id = ⟨"b"⟩ ∧ n.seed = .none := by
    have hnode : chain.nodes[NodeId.mk "b"]?.isSome = true := by decide +kernel
    obtain ⟨node, hnode⟩ := Option.isSome_iff_exists.mp hnode
    rw [hanswer, assemble, expansion, ids_seeds_chain]
    refine ⟨⟨⟨"b"⟩, node.kind, none, .none, ⟨some 1, some 1⟩⟩, ?_, rfl, rfl⟩
    refine List.mem_append_right _ ?_
    refine List.mem_filterMap.mpr ⟨⟨⟨"b"⟩, ⟨some 1, some 1⟩⟩, ?_, ?_⟩
    · refine List.mem_filter.mpr ⟨?_, by decide⟩
      show _ ∈ (Walk.hybrid chain [⟨"a"⟩] { maxNodes := 2 }).nodes
      rw [expansion_chain]
      exact List.mem_cons_of_mem _ List.mem_cons_self
    · rw [rankFound?, hnode]
      rfl
  exact ⟨n, hn, hid, hseed, retrieve_connected reachable_chain _ _ _ _ hn hseed⟩

end CodeGraph.Retrieval

import CodeGraph.Proofs.Retrieval.Seeds
import CodeGraph.Proofs.Walk.Seeding
/-! # Ranking — the shape of an answer

    An answer is put together from seeds, chosen under one limit, and from what a hybrid walk
    found around them, cut under another.

    * `Subgraph.WellFormed` says what holds of every answer, wherever the walk was cut.
    * The walk lists all seeds or nothing else (`Walk.Hybrid.hybrid_seeds_cases`).  So the
      seeds and what was found fit the budget together, or nothing was found
      (`length_assemble_le`); and seeds within the budget are found at distance zero, unless
      the watch stopped the walk (`stopped_or_bfsDistance`).
    * `Subgraph.choice` are the seeds of an answer.  A query that asks for more keeps them in
      front (`choice_prefix_choice`). -/

namespace CodeGraph.Retrieval

open Std

/-! ## The order of an answer -/

/-- A node of an answer as the walk tagged it. -/
def RankedNode.tagged (n : RankedNode) : Walk.Hybrid.Tagged := ⟨n.id, n.tags⟩

/-- Similar nodes come first, then those that share tokens, each by score and identifier; what
    the walk came upon follows in its own order. -/
def RankedNode.Precedes (a b : RankedNode) : Prop :=
  a.seed.place < b.seed.place ∨ a.seed = b.seed ∧
    if a.seed = .none then Walk.Hybrid.Before a.tagged b.tagged
    else ∃ x y, a.score = some x ∧ b.score = some y ∧ ScoresAbove x a.id y b.id

namespace Subgraph

/-- The seeds of an answer. -/
def seeds (g : Subgraph) : List RankedNode := g.nodes.filter fun n => n.seed ≠ .none

/-- The seeds of an answer, each with its score and the reason for which it was chosen. -/
def choice (g : Subgraph) : List (NodeId × Option Float32 × SeedSource) :=
  g.seeds.map fun n => (n.id, n.score, n.seed)

/-- An answer from a store to a query for `k` seeds. -/
structure WellFormed (s : Store) (limits : Limits) (k : Nat) (g : Subgraph) : Prop where
  stored : ∀ n ∈ g.nodes, ∃ m, s.nodes[n.id]? = some m ∧ m.kind = n.kind
  distinct : (g.nodes.map (·.id)).Nodup
  /-- Seeds have a score, and nothing else has one. -/
  scored : ∀ n ∈ g.nodes, n.score.isSome = true ↔ n.seed ≠ .none
  ordered : g.nodes.Pairwise RankedNode.Precedes
  bounded : g.nodes.length ≤ max k limits.maxNodes
  /-- The edges are those of the store between nodes of the answer, as they were added. -/
  edges : g.edges = s.edges.toList.filter fun e =>
    e.source ∈ g.nodes.map (·.id) ∧ e.target ∈ g.nodes.map (·.id)
  /-- Seeds within the budget are at distance zero, unless the watch stopped the walk. -/
  near : g.seeds.length ≤ limits.maxNodes →
    (∃ polls reason, limits.watch.reason? polls = some reason ∧ g.truncated = some reason) ∨
      ∀ n ∈ g.seeds, n.tags.bfsDistance = some 0

/-- An answer without nodes is well formed. -/
theorem wellFormed_empty (s : Store) (limits : Limits) (k : Nat) (mode : Mode) :
    WellFormed s limits k { mode := mode } where
  stored := nofun
  distinct := List.nodup_nil
  scored := nofun
  ordered := List.Pairwise.nil
  bounded := Nat.zero_le _
  edges := (List.filter_eq_nil_iff.mpr fun _ _ h => nomatch (of_decide_eq_true h).1).symm
  near := fun _ => Or.inr nofun

end Subgraph

/-! ## What the walk found -/

section

variable {s : Store} {limits : Limits} {chosen : List Seed}

/-- What the walk found away from the seeds, as nodes of the answer. -/
def found (s : Store) (limits : Limits) (chosen : List Seed) : List RankedNode :=
  ((expansion s limits chosen).nodes.filter fun t =>
    !(chosen.map (·.node.id)).contains t.id).filterMap (rankFound? s)

theorem nodes_assemble (s : Store) (limits : Limits) (chosen : List Seed) :
    (assemble s limits chosen).nodes =
      chosen.map (rankSeed (expansion s limits chosen)) ++ found s limits chosen := rfl

theorem exists_of_mem_found {n : RankedNode} (hn : n ∈ found s limits chosen) :
    ∃ m, s.nodes[n.id]? = some m ∧ m.kind = n.kind ∧ n.score = none ∧ n.seed = .none ∧
      n.tagged ∈ (expansion s limits chosen).nodes ∧ n.id ∉ chosen.map (·.node.id) := by
  obtain ⟨t, ht, hfound⟩ := List.mem_filterMap.mp hn
  obtain ⟨m, hm, rfl⟩ := Option.map_eq_some_iff.mp hfound
  obtain ⟨ht, hfree⟩ := List.mem_filter.mp ht
  refine ⟨m, hm, rfl, rfl, rfl, ht, fun hseed => ?_⟩
  rw [List.contains_iff_mem.mpr hseed] at hfree
  cases hfree

/-- Everything that was found is a node, so none of it is lost. -/
theorem tagged_found (hs : s.Sound) (limits : Limits) (chosen : List Seed) :
    (found s limits chosen).map RankedNode.tagged =
      (expansion s limits chosen).nodes.filter fun t =>
        !(chosen.map (·.node.id)).contains t.id := by
  rw [found, List.map_filterMap]
  refine (List.filterMap_congr fun t ht => ?_).trans List.filterMap_some
  obtain ⟨m, hm⟩ := Option.isSome_iff_exists.mp (ExtTreeMap.mem_iff_isSome_getElem?.mp
    (Walk.Hybrid.mem_nodes_of_mem_hybrid hs (List.mem_filter.mp ht).1))
  rw [rankFound?, hm]
  rfl

/-- Identifiers of an answer: those of the seeds, then those of what was found. -/
theorem map_id_assemble (s : Store) (limits : Limits) (chosen : List Seed) :
    (assemble s limits chosen).nodes.map (·.id) =
      chosen.map (·.node.id) ++ (found s limits chosen).map (·.id) := by
  rw [nodes_assemble, List.map_append, List.map_map]
  rfl

/-- No node is twice in an answer. -/
theorem nodup_assemble (hs : s.Sound) (hchosen : (chosen.map (·.node.id)).Nodup) :
    ((assemble s limits chosen).nodes.map (·.id)).Nodup := by
  rw [map_id_assemble, List.nodup_append]
  refine ⟨hchosen, ?_, ?_⟩
  · have hids : (found s limits chosen).map (·.id) =
        ((found s limits chosen).map RankedNode.tagged).map (·.id) := by
      rw [List.map_map]
      rfl
    rw [hids, tagged_found hs]
    exact (Walk.Hybrid.nodup_hybrid _ _ _).sublist (List.filter_sublist.map _)
  · rintro u hu v hv rfl
    obtain ⟨n, hn, rfl⟩ := List.mem_map.mp hv
    obtain ⟨m, -, -, -, -, -, hfree⟩ := exists_of_mem_found hn
    exact hfree hu

/-- The walk begins at the seeds, as they are distinct nodes. -/
theorem perm_seeds (h : Selection s chosen) :
    (Walk.seeds s (chosen.map (·.node.id))).Perm (chosen.map (·.node.id)) := by
  refine (List.perm_ext_iff_of_nodup (Walk.Hybrid.nodup_seeds _ _) h.distinct).mpr fun v => ?_
  rw [Walk.mem_seeds]
  refine and_iff_left_of_imp fun hv => ?_
  obtain ⟨x, hx, rfl⟩ := List.mem_map.mp hv
  rw [ExtTreeMap.mem_iff_isSome_getElem?, h.stored x hx]
  rfl

/-- **Seeds and what was found fit the budget together,** or nothing was found. -/
theorem length_assemble_le (hs : s.Sound) (h : Selection s chosen) {k : Nat}
    (hlength : chosen.length ≤ max k limits.maxNodes) :
    (assemble s limits chosen).nodes.length ≤ max k limits.maxNodes := by
  rcases Walk.Hybrid.hybrid_seeds_cases hs (chosen.map (·.node.id)) _ with
    ⟨-, front, rest, hnodes, hfront, -⟩ | ⟨hseeds, -⟩
  · -- the walk listed every node of the answer
    have hlisted : (assemble s limits chosen).nodes.map (·.id) ⊆
        (expansion s limits chosen).nodes.map (·.id) := by
      intro v hv
      rw [map_id_assemble, List.mem_append] at hv
      rcases hv with hv | hv
      · rw [expansion, hnodes, List.map_append]
        exact List.mem_append_left _ (hfront.mem_iff.mpr ((perm_seeds h).mem_iff.mpr hv))
      · obtain ⟨n, hn, rfl⟩ := List.mem_map.mp hv
        obtain ⟨m, -, -, -, -, ht, -⟩ := exists_of_mem_found hn
        exact List.mem_map_of_mem (f := (·.id)) ht
    have hle := (List.subperm_of_subset (nodup_assemble hs h.distinct) hlisted).length_le
    rw [List.length_map, List.length_map] at hle
    exact Nat.le_trans hle
      (Nat.le_trans (Walk.Hybrid.length_hybrid_le _ _ _) (Nat.le_max_right _ _))
  · -- the walk listed seeds only
    have hnone : found s limits chosen = [] := by
      refine List.eq_nil_iff_forall_not_mem.mpr fun n hn => ?_
      obtain ⟨m, -, -, -, -, ht, hfree⟩ := exists_of_mem_found hn
      exact hfree ((perm_seeds h).mem_iff.mp (hseeds _ ht))
    rw [nodes_assemble, hnone, List.append_nil, List.length_map]
    exact hlength

/-- The seeds of an answer are those it was put together from. -/
theorem seeds_assemble (h : ∀ x ∈ chosen, x.source ≠ .none) :
    (assemble s limits chosen).seeds = chosen.map (rankSeed (expansion s limits chosen)) := by
  rw [Subgraph.seeds, nodes_assemble, List.filter_append, List.filter_eq_self.mpr,
    List.filter_eq_nil_iff.mpr, List.append_nil]
  · intro n hn
    obtain ⟨m, -, -, -, hsource, -⟩ := exists_of_mem_found hn
    rw [hsource]
    decide
  · intro n hn
    obtain ⟨x, hx, rfl⟩ := List.mem_map.mp hn
    exact decide_eq_true (h x hx)

/-- **Seeds within the budget are at distance zero,** unless the watch stopped the walk. -/
theorem stopped_or_bfsDistance (hs : s.Sound) (h : Selection s chosen)
    (hroom : chosen.length ≤ limits.maxNodes) :
    (∃ polls reason, limits.watch.reason? polls = some reason ∧
        (expansion s limits chosen).truncated = some reason) ∨
      ∀ x ∈ chosen, (rankSeed (expansion s limits chosen) x).tags.bfsDistance = some 0 := by
  rcases Walk.Hybrid.hybrid_seeds_cases hs (chosen.map (·.node.id)) _ with
    ⟨-, front, rest, hnodes, hfront, hzero⟩ | ⟨-, hstopped | hover⟩
  · refine Or.inr fun x hx => ?_
    have hmem : x.node.id ∈ front.map (·.id) :=
      hfront.mem_iff.mpr ((perm_seeds h).mem_iff.mpr (List.mem_map_of_mem hx))
    have hsome : (front.find? fun t => t.id = x.node.id).isSome = true := by
      obtain ⟨t, ht, hid⟩ := List.mem_map.mp hmem
      exact List.find?_isSome.mpr ⟨t, ht, decide_eq_true hid⟩
    obtain ⟨t, ht⟩ := Option.isSome_iff_exists.mp hsome
    have hget : (expansion s limits chosen).get? x.node.id = some t.tags := by
      rw [Walk.Hybrid.Result.get?, expansion, hnodes, List.find?_append, ht]
      rfl
    rw [rankSeed, hget]
    exact hzero t (List.mem_of_find?_eq_some ht)
  · exact Or.inl hstopped
  · rw [(perm_seeds h).length_eq, List.length_map] at hover
    exact absurd hroom (Nat.not_le.mpr hover)

/-- Seeds come in the order of their choice, and what was found in that of the walk. -/
theorem pairwise_assemble (hs : s.Sound) (h : Selection s chosen) :
    (assemble s limits chosen).nodes.Pairwise RankedNode.Precedes := by
  rw [nodes_assemble, List.pairwise_append]
  refine ⟨?_, ?_, ?_⟩
  · refine List.pairwise_map.mpr (h.ordered.imp_of_mem fun {a b} ha _ hab => ?_)
    refine hab.imp_right fun ⟨hsource, hbefore⟩ => ⟨hsource, ?_⟩
    rw [if_neg (show (rankSeed _ a).seed ≠ .none from h.reason a ha)]
    exact ⟨_, _, rfl, rfl, hbefore⟩
  · have hascends : ((found s limits chosen).map RankedNode.tagged).Pairwise
        Walk.Hybrid.Before := by
      rw [tagged_found hs]
      exact (Walk.Hybrid.pairwise_hybrid _ _ _).sublist List.filter_sublist
    refine (List.pairwise_map.mp hascends).imp_of_mem fun {a b} ha hb hab => Or.inr ?_
    obtain ⟨-, -, -, -, hsource, -⟩ := exists_of_mem_found ha
    obtain ⟨-, -, -, -, hsource', -⟩ := exists_of_mem_found hb
    refine ⟨hsource.trans hsource'.symm, ?_⟩
    rw [if_pos hsource]
    exact hab
  · intro a ha b hb
    obtain ⟨x, hx, rfl⟩ := List.mem_map.mp ha
    obtain ⟨-, -, -, -, hsource, -⟩ := exists_of_mem_found hb
    refine Or.inl ?_
    rw [hsource]
    show x.source.place < SeedSource.none.place
    -- whatever a seed was chosen for, it comes before what was found
    cases hreason : x.source with
    | similarity => decide
    | textual => decide
    | none => exact absurd hreason (h.reason x hx)

/-- The edges of an answer are those of the store between its nodes. -/
theorem edges_assemble (s : Store) (limits : Limits) (chosen : List Seed) :
    (assemble s limits chosen).edges = s.edges.toList.filter fun e =>
      e.source ∈ (assemble s limits chosen).nodes.map (·.id) ∧
        e.target ∈ (assemble s limits chosen).nodes.map (·.id) := by
  rw [assemble, Store.inducedEdges]
  refine List.filter_congr fun e _ => ?_
  rw [ExtTreeSet.contains_ofList, ExtTreeSet.contains_ofList, List.contains_eq_mem,
    List.contains_eq_mem, Bool.decide_and]

/-- **An answer put together from a selection is well formed.** -/
theorem wellFormed_assemble (hs : s.Sound) (h : Selection s chosen) {k : Nat}
    (hlength : chosen.length ≤ max k limits.maxNodes) :
    (assemble s limits chosen).WellFormed s limits k where
  stored := by
    intro n hn
    rcases List.mem_append.mp hn with hn | hn
    · obtain ⟨x, hx, rfl⟩ := List.mem_map.mp hn
      exact ⟨x.node, h.stored x hx, rfl⟩
    · obtain ⟨m, hm, hkind, -⟩ := exists_of_mem_found hn
      exact ⟨m, hm, hkind⟩
  distinct := nodup_assemble hs h.distinct
  scored := by
    intro n hn
    rcases List.mem_append.mp hn with hn | hn
    · obtain ⟨x, hx, rfl⟩ := List.mem_map.mp hn
      exact iff_of_true rfl (h.reason x hx)
    · obtain ⟨m, -, -, hscore, hsource, -⟩ := exists_of_mem_found hn
      rw [hscore, hsource]
      decide
  ordered := pairwise_assemble hs h
  bounded := length_assemble_le hs h hlength
  edges := edges_assemble s limits chosen
  near := by
    intro hroom
    rw [seeds_assemble h.reason] at hroom ⊢
    rw [List.length_map] at hroom
    refine (stopped_or_bfsDistance hs h hroom).imp_right fun hzero n hn => ?_
    obtain ⟨x, hx, rfl⟩ := List.mem_map.mp hn
    exact hzero x hx

end

/-! ## Answers -/

/-- A query without seeds has an empty answer; any other is put together from its seeds. -/
theorem retrieve_cases (s : Store) (limits : Limits) (embedder : Option Embedder) (q : Query)
    (k : Option Nat) :
    retrieve s limits embedder q k = { mode := .structural } ∨
      retrieve s limits embedder q k =
        assemble s limits (seeds s limits embedder q (k.getD limits.topK)) := by
  rw [retrieve]
  dsimp only
  split
  · exact Or.inl rfl
  · split
    · exact Or.inl rfl
    · exact Or.inr rfl

/-- **Every answer is well formed.**  Its nodes are distinct nodes of the store, similar ones
    first, then those that share tokens, each kind by score and identifier, then what the walk
    came upon, by distance, depth and identifier.  They are no more than the query asks for or
    the budget allows, whichever is more.  The edges are those of the store between them.
    Seeds within the budget are at distance zero, unless the watch stopped the walk. -/
theorem retrieve_wellFormed {s : Store} (hs : s.Reachable) (limits : Limits)
    (embedder : Option Embedder) (q : Query) (k : Option Nat) :
    (retrieve s limits embedder q k).WellFormed s limits (k.getD limits.topK) := by
  rcases retrieve_cases s limits embedder q k with heq | heq
  · rw [heq]
    exact Subgraph.wellFormed_empty _ _ _ _
  · rw [heq]
    exact wellFormed_assemble hs.sound (selection_seeds hs.sound limits embedder q _)
      (length_seeds_le s limits embedder q _)

/-! ## Similar nodes and others -/

/-- Four functions, each of which calls the next; the first has a vector. -/
def embeddedChain : Store :=
  (Store.callGraph ["a", "b", "c", "d"] [("a", "b"), ("b", "c"), ("c", "d")]).withEmbedding #[1] "a"

theorem reachable_embeddedChain : embeddedChain.Reachable :=
  (Store.reachable_callGraph _ _).withEmbedding _ _

/-- Limits that let a walk visit three nodes. -/
def threeNodes : Limits := { maxNodes := 3 }

/-- A query by the vector of the first function and the name of the third. -/
def mixedQuery : Query := { text := some "c", vector := some #[1] }

/-- The part of the chain that the query is about. -/
def mixedAnswer : Subgraph := retrieve embeddedChain threeNodes none mixedQuery (some 2)

/-- Only the first function can be similar, and only the third shares a token. -/
theorem seeds_embeddedChain :
    (seeds embeddedChain threeNodes none mixedQuery 2).map (fun x => (x.node.id, x.source)) =
      [(⟨"a"⟩, .similarity), (⟨"c"⟩, .textual)] := by
  decide +kernel

/-- The walk from both seeds is cut before it gets to the last function. -/
theorem hybrid_embeddedChain :
    Walk.hybrid embeddedChain [⟨"a"⟩, ⟨"c"⟩] { maxNodes := 3 } =
      ⟨[⟨⟨"a"⟩, ⟨some 0, some 0⟩⟩, ⟨⟨"c"⟩, ⟨some 0, some 2⟩⟩, ⟨⟨"b"⟩, ⟨some 1, some 1⟩⟩],
        some .nodeBudget⟩ :=
  Walk.Hybrid.read_of_stateWithin rfl id 6 8 (by cbv)

/-- The answer is put together from the two seeds and the one function between them. -/
theorem read_mixedAnswer : mixedAnswer.truncated = some .nodeBudget ∧
    mixedAnswer.nodes.map (fun n => (n.id.text, n.seed, n.tags)) =
      [("a", .similarity, ⟨some 0, some 0⟩), ("c", .textual, ⟨some 0, some 2⟩),
        ("b", .none, ⟨some 1, some 1⟩)] := by
  obtain ⟨x, rest, hx, hfirst, hrest⟩ := List.map_eq_cons_iff.mp seeds_embeddedChain
  obtain ⟨y, hy, hsecond⟩ := List.map_eq_singleton_iff.mp hrest
  obtain ⟨hxid, hxsource⟩ := Prod.mk.inj hfirst
  obtain ⟨hyid, hysource⟩ := Prod.mk.inj hsecond
  have hchosen : seeds embeddedChain threeNodes none mixedQuery 2 = [x, y] := by rw [hx, hy]
  have hanswer : mixedAnswer = assemble embeddedChain threeNodes [x, y] := by
    rw [← hchosen]
    refine retrieve_eq_assemble (by decide +kernel) ?_
    show seeds embeddedChain threeNodes none mixedQuery 2 ≠ []
    rw [hchosen]
    exact List.cons_ne_nil _ _
  have hwalk : expansion embeddedChain threeNodes [x, y] =
      Walk.hybrid embeddedChain [⟨"a"⟩, ⟨"c"⟩] { maxNodes := 3 } := by
    rw [expansion, List.map_cons, List.map_singleton, hxid, hyid]
    rfl
  rw [hybrid_embeddedChain] at hwalk
  have hfound : (embeddedChain.nodes[NodeId.mk "b"]?).isSome = true := by decide +kernel
  obtain ⟨b, hb⟩ := Option.isSome_iff_exists.mp hfound
  rw [hanswer]
  refine ⟨congrArg (·.truncated) hwalk, ?_⟩
  rw [nodes_assemble, found, hwalk]
  simp [rankSeed, Walk.Hybrid.Result.get?, hxid, hyid, hxsource, hysource, rankFound?, hb]

/-- The function that is similar comes first, then the one that shares a token, then the one
    between them; the last exceeds the budget. -/
theorem wellFormed_mixedAnswer :
    embeddedChain.Reachable ∧ mixedAnswer.WellFormed embeddedChain threeNodes 2 ∧
      mixedAnswer.truncated = some .nodeBudget ∧
      mixedAnswer.nodes.map (fun n => (n.id.text, n.seed, n.tags)) =
        [("a", .similarity, ⟨some 0, some 0⟩), ("c", .textual, ⟨some 0, some 2⟩),
          ("b", .none, ⟨some 1, some 1⟩)] :=
  ⟨reachable_embeddedChain,
    retrieve_wellFormed reachable_embeddedChain threeNodes none mixedQuery (some 2),
    read_mixedAnswer⟩

/-! ## More seeds -/

/-- The seeds that an answer shows are those of the query, if it asks for any. -/
theorem choice_retrieve (s : Store) (limits : Limits) (embedder : Option Embedder) (q : Query)
    (k : Option Nat) : (retrieve s limits embedder q k).choice =
      if k.getD limits.topK = 0 ∨ s.isEmpty = true then []
      else (seeds s limits embedder q (k.getD limits.topK)).map fun x =>
        (x.node.id, some x.score, x.source) := by
  rw [retrieve]
  dsimp only
  split
  · rfl
  · split
    · rename_i hnone
      rw [List.isEmpty_iff.mp hnone]
      rfl
    · rw [Subgraph.choice, seeds_assemble fun x hx => source_of_mem_seeds hx, List.map_map]
      rfl

/-- **A query that asks for more seeds gets the same ones first,** with their scores and
    reasons, whether similar nodes, others or the budget decide how many there are. -/
theorem choice_prefix_choice (s : Store) (limits : Limits) (embedder : Option Embedder)
    (q : Query) {k k' : Option Nat} (h : k.getD limits.topK ≤ k'.getD limits.topK) :
    (retrieve s limits embedder q k).choice <+: (retrieve s limits embedder q k').choice := by
  rw [choice_retrieve, choice_retrieve]
  by_cases hempty : k.getD limits.topK = 0 ∨ s.isEmpty = true
  · rw [if_pos hempty]
    exact List.nil_prefix
  · rw [not_or] at hempty
    have hpos : 0 < k.getD limits.topK := Nat.pos_of_ne_zero hempty.1
    have hempty' : ¬ (k'.getD limits.topK = 0 ∨ s.isEmpty = true) :=
      not_or.mpr ⟨Nat.ne_of_gt (Nat.lt_of_lt_of_le hpos h), hempty.2⟩
    rw [if_neg (not_or.mpr hempty), if_neg hempty']
    exact (prefix_seeds s limits embedder q hpos h).map _

/-- Two functions, of which the first has a vector. -/
def halfEmbedded : Store :=
  ((Store.callGraph ["a", "b"] []).attachEmbedding ⟨"a"⟩ #[1]).toOption.getD {}

/-- A second place goes to the function that shares a token with the text, as no other is
    similar. -/
theorem choice_halfEmbedded :
    let answer := retrieve halfEmbedded {} none { text := some "b", vector := some #[1] }
    (answer (some 1)).choice <+: (answer (some 2)).choice ∧
      (answer (some 1)).choice.map (fun c => (c.1.text, c.2.2)) = [("a", .similarity)] ∧
      (answer (some 2)).choice.map (fun c => (c.1.text, c.2.2)) =
        [("a", .similarity), ("b", .textual)] := by
  refine ⟨choice_prefix_choice _ _ _ _ (by decide), ?_, ?_⟩
  · rw [choice_retrieve, if_neg (by decide +kernel), List.map_map]
    decide +kernel
  · rw [choice_retrieve, if_neg (by decide +kernel), List.map_map]
    decide +kernel

end CodeGraph.Retrieval

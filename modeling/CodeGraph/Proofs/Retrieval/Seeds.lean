import CodeGraph.Proofs.Graph.Scan
import CodeGraph.Proofs.Retrieval.Connected
import CodeGraph.Proofs.Sorting
/-! # Seeds — which nodes a query chooses

    Similar nodes are chosen first, and nodes that share tokens with the text fill the places
    that are left.  Either kind is chosen alike: candidates are sorted, and the foremost stay.

    * `top` is that choice.  Its members come in their order (`pairwise_top`), none twice
      (`nodup_top`), and a larger choice begins with the smaller one (`prefix_top`).
    * The seeds of a query are two choices, one behind the other (`seeds_eq`).  `Selection` says
      what holds of either, and so of both together (`Selection.append`).
    * With more places the similar nodes stay in front, and others follow only where all
      similar ones are chosen.  So no seed moves when a query asks for more
      (`prefix_seeds`). -/

namespace CodeGraph.Retrieval

open Std

/-! ## The order of seeds -/

/-- The comparison of seeds. -/
def Seed.cmp (a b : Seed) : Ordering :=
  (compare (rank b.score) (rank a.score)).then (compare a.node.id b.node.id)

instance : TransCmp Seed.cmp :=
  inferInstanceAs (TransCmp (compareLex (fun a b : Seed => compare (rank b.score) (rank a.score))
    (compareOn fun a => a.node.id)))

/-- The greater score comes first, and of equal scores the lesser identifier. -/
def ScoresAbove (x : Float32) (u : NodeId) (y : Float32) (v : NodeId) : Prop :=
  rank y < rank x ∨ rank x = rank y ∧ compare u v = .lt

/-- One seed is before another by score and identifier. -/
def Seed.Outranks (a b : Seed) : Prop := ScoresAbove a.score a.node.id b.score b.node.id

/-- Seeds of different nodes are in order as the comparison says. -/
theorem Seed.outranks_of_isLE {a b : Seed} (hle : (Seed.cmp a b).isLE = true)
    (hne : a.node.id ≠ b.node.id) : a.Outranks b := by
  rw [Seed.cmp] at hle
  rcases Int.lt_trichotomy (rank b.score) (rank a.score) with hlt | heq | hgt
  · exact Or.inl hlt
  · refine Or.inr ⟨heq.symm, ?_⟩
    rw [heq, (ReflCmp.compare_self : compare (rank a.score) (rank a.score) = .eq)] at hle
    cases hcmp : compare a.node.id b.node.id with
    | lt => rfl
    | eq => exact absurd (LawfulEqCmp.eq_of_compare hcmp) hne
    | gt =>
        rw [hcmp] at hle
        cases hle
  · rw [Int.compare_eq_gt.mpr hgt] at hle
    cases hle

/-! ## Choosing -/

/-- The foremost of some candidates. -/
def top (l : List Seed) (k : Nat) : List Seed := (l.mergeSort Seed.le).take k

section

variable {l : List Seed} {k : Nat}

theorem top_nil (k : Nat) : top [] k = [] := by
  rw [top, List.mergeSort_nil, List.take_nil]

theorem top_zero (l : List Seed) : top l 0 = [] := List.take_zero

theorem mem_of_mem_top {x : Seed} (h : x ∈ top l k) : x ∈ l :=
  List.mem_mergeSort.mp (List.mem_of_mem_take h)

theorem length_top (l : List Seed) (k : Nat) : (top l k).length = min k l.length := by
  rw [top, List.length_take, List.length_mergeSort]

/-- No node is chosen twice if no node is twice among the candidates. -/
theorem nodup_top (h : (l.map (·.node.id)).Nodup) : ((top l k).map (·.node.id)).Nodup := by
  have hsorted : ((l.mergeSort Seed.le).map (·.node.id)).Nodup :=
    ((List.mergeSort_perm l Seed.le).map _).nodup_iff.mpr h
  exact hsorted.sublist ((List.take_sublist _ _).map _)

/-- What is chosen comes in its order. -/
theorem pairwise_top (h : (l.map (·.node.id)).Nodup) : (top l k).Pairwise Seed.Outranks := by
  have hsorted : (top l k).Pairwise fun a b => (Seed.cmp a b).isLE :=
    (Sorting.pairwise_mergeSort Seed.cmp l).sublist (List.take_sublist _ _)
  exact (hsorted.and (List.pairwise_map.mp (nodup_top h))).imp fun ⟨hle, hne⟩ =>
    Seed.outranks_of_isLE hle hne

/-- **A larger choice begins with the smaller one.** -/
theorem prefix_top (l : List Seed) {k k' : Nat} (h : k ≤ k') : top l k <+: top l k' :=
  List.take_prefix_take_left h

/-- All candidates are chosen, or as many as there are places. -/
theorem top_eq_or_length_eq (l : List Seed) {k k' : Nat} (h : k ≤ k') :
    top l k = top l k' ∨ (top l k).length = k := by
  rcases Nat.le_total k l.length with hle | hle
  · exact Or.inr ((length_top l k).trans (Nat.min_eq_left hle))
  · have hall : ∀ {n : Nat}, k ≤ n → top l n = l.mergeSort Seed.le := fun hn =>
      List.take_of_length_le ((List.length_mergeSort l).trans_le (Nat.le_trans hle hn))
    exact Or.inl ((hall (Nat.le_refl k)).trans (hall h).symm)

end

/-! ## Candidates -/

/-- The nodes with a vector as long as that of the query. -/
def similarCandidates (s : Store) (vector : Option Embedding) : List Seed :=
  match vector with
  | some vector => s.nodeList.filterMap fun n =>
      match n.embedding with
      | some v =>
          if v.size = vector.size then some (Seed.mk n (cosine vector v) .similarity)
          else none
      | none => none
  | none => []

/-- The nodes not taken yet that share a token with the text of the query. -/
def textualCandidates (s : Store) (text : Option String) (taken : List NodeId) : List Seed :=
  match text with
  | some text =>
      let query := (tokenize text).eraseDups
      (s.nodeList.filter fun n => !taken.contains n.id).filterMap fun n =>
        let found := hits query n
        if 0 < found then
          some (Seed.mk n (Float32.ofNat found / Float32.ofNat query.length) .textual)
        else none
  | none => []

/-- How many places are left to nodes that share tokens. -/
def places (limits : Limits) (k : Nat) (similar : List Seed) : Nat :=
  if similar.isEmpty then limits.maxNodes else k - similar.length

/-- The seeds of a query are two choices, one behind the other. -/
theorem seeds_eq (s : Store) (limits : Limits) (embedder : Option Embedder) (q : Query)
    (k : Nat) : seeds s limits embedder q k =
      top (similarCandidates s (queryVector? embedder q)) k ++
        top (textualCandidates s q.text
            ((top (similarCandidates s (queryVector? embedder q)) k).map (·.node.id)))
          (places limits k (top (similarCandidates s (queryVector? embedder q)) k)) := by
  rw [seeds]
  cases queryVector? embedder q with
  | some v =>
      cases q.text with
      | some text => rfl
      | none => rw [textualCandidates, top_nil, List.append_nil]; rfl
  | none =>
      rw [similarCandidates, top_nil]
      cases q.text with
      | some text => rfl
      | none => rw [textualCandidates, top_nil]; rfl

/-- Candidates picked from nodes are some of these nodes, in their order. -/
theorem map_node_filterMap {pick : Node → Option Seed}
    (hpick : ∀ n x, pick n = some x → x.node = n) (l : List Node) :
    ((l.filterMap pick).map (·.node)).Sublist l := by
  rw [List.map_filterMap]
  induction l with
  | nil => exact List.Sublist.slnil
  | cons n l ih =>
      cases hn : pick n with
      | none =>
          rw [List.filterMap_cons_none (by rw [hn]; rfl)]
          exact ih.cons n
      | some x =>
          rw [List.filterMap_cons_some (by rw [hn, Option.map_some, hpick n x hn])]
          exact ih.cons_cons n

theorem similarCandidates_sublist (s : Store) (vector : Option Embedding) :
    ((similarCandidates s vector).map (·.node)).Sublist s.nodeList := by
  cases vector with
  | none => exact List.nil_sublist _
  | some vector =>
      refine map_node_filterMap ?_ _
      intro n x hx
      split at hx
      · split at hx
        · cases hx
          rfl
        · cases hx
      · cases hx

theorem textualCandidates_sublist (s : Store) (text : Option String) (taken : List NodeId) :
    ((textualCandidates s text taken).map (·.node)).Sublist
      (s.nodeList.filter fun n => !taken.contains n.id) := by
  cases text with
  | none => exact List.nil_sublist _
  | some text =>
      refine map_node_filterMap ?_ _
      intro n x hx
      dsimp only at hx
      split at hx
      · cases hx
        rfl
      · cases hx

/-- The identifiers of candidates are distinct, as those of all nodes are. -/
theorem nodup_of_sublist {s : Store} (hs : s.Sound) {l : List Seed}
    (h : (l.map (·.node)).Sublist s.nodeList) : (l.map (·.node.id)).Nodup := by
  have hascends := (List.pairwise_map.mp (hs.pairwise_nodeList.sublist h))
  refine List.pairwise_map.mpr (hascends.imp fun {a b} hlt heq => ?_)
  rw [heq, (ReflCmp.compare_self : compare b.node.id b.node.id = .eq)] at hlt
  cases hlt

/-! ## What is chosen -/

/-- Where seeds of a kind stand among the others. -/
def SeedSource.place : SeedSource → Nat
  | .similarity => 0
  | .textual => 1
  | .none => 2

/-- Distinct nodes of a store, each chosen for a reason, in their order. -/
structure Selection (s : Store) (l : List Seed) : Prop where
  stored : ∀ x ∈ l, s.nodes[x.node.id]? = some x.node
  distinct : (l.map (·.node.id)).Nodup
  reason : ∀ x ∈ l, x.source ≠ .none
  ordered : l.Pairwise fun a b =>
    a.source.place < b.source.place ∨ a.source = b.source ∧ a.Outranks b

section

variable {s : Store} {k : Nat} {x : Seed}

theorem source_of_mem_similar {vector : Option Embedding}
    (hx : x ∈ top (similarCandidates s vector) k) : x.source = .similarity := by
  cases vector with
  | some v => exact source_of_mem_similaritySeeds (hx : x ∈ similaritySeeds s v k)
  | none => exact nomatch mem_of_mem_top hx

theorem source_of_mem_textual {text : Option String} {taken : List NodeId}
    (hx : x ∈ top (textualCandidates s text taken) k) : x.source = .textual := by
  cases text with
  | some text => exact source_of_mem_textualSeeds (hx : x ∈ textualSeeds s text taken k)
  | none => exact nomatch mem_of_mem_top hx

/-- Nodes chosen by their text were not taken before. -/
theorem not_taken_of_mem_textual {text : Option String} {taken : List NodeId}
    (hx : x ∈ top (textualCandidates s text taken) k) : x.node.id ∉ taken := by
  have hnode := (textualCandidates_sublist s text taken).subset
    (List.mem_map_of_mem (f := (·.node)) (mem_of_mem_top hx))
  intro htaken
  have hfree := (List.mem_filter.mp hnode).2
  rw [List.contains_iff_mem.mpr htaken] at hfree
  cases hfree

/-- What is chosen from the nodes of a store for one reason is a selection. -/
theorem selection_top (hs : s.Sound) {l : List Seed} (hl : (l.map (·.node)).Sublist s.nodeList)
    {source : SeedSource} (hreason : source ≠ .none) (hsource : ∀ x ∈ top l k, x.source = source) :
    Selection s (top l k) where
  stored := fun _ hx =>
    hs.mem_nodeList_iff.mp ⟨hl.subset (List.mem_map_of_mem (mem_of_mem_top hx)), rfl⟩
  distinct := nodup_top (nodup_of_sublist hs hl)
  reason := fun x hx => hsource x hx ▸ hreason
  ordered := (pairwise_top (nodup_of_sublist hs hl)).imp_of_mem fun ha hb hab =>
    Or.inr ⟨(hsource _ ha).trans (hsource _ hb).symm, hab⟩

/-- A selection may be followed by another one of other nodes, for reasons that come later. -/
theorem Selection.append {l l' : List Seed} (h : Selection s l) (h' : Selection s l')
    (hfree : ∀ x ∈ l', x.node.id ∉ l.map (·.node.id))
    (hplace : ∀ x ∈ l, ∀ y ∈ l', x.source.place < y.source.place) : Selection s (l ++ l') where
  stored := fun x hx => (List.mem_append.mp hx).elim (h.stored x) (h'.stored x)
  distinct := by
    rw [List.map_append, List.nodup_append]
    refine ⟨h.distinct, h'.distinct, ?_⟩
    rintro u hu v hv rfl
    obtain ⟨x, hx, rfl⟩ := List.mem_map.mp hv
    exact hfree x hx hu
  reason := fun x hx => (List.mem_append.mp hx).elim (h.reason x) (h'.reason x)
  ordered := List.pairwise_append.mpr
    ⟨h.ordered, h'.ordered, fun x hx y hy => Or.inl (hplace x hx y hy)⟩

end

/-- **The seeds of a query are a selection from the nodes of the store.** -/
theorem selection_seeds {s : Store} (hs : s.Sound) (limits : Limits)
    (embedder : Option Embedder) (q : Query) (k : Nat) :
    Selection s (seeds s limits embedder q k) := by
  rw [seeds_eq]
  refine (selection_top hs (similarCandidates_sublist _ _) (by decide)
    fun x hx => source_of_mem_similar hx).append (selection_top hs
      ((textualCandidates_sublist _ _ _).trans List.filter_sublist) (by decide)
      fun x hx => source_of_mem_textual hx) ?_ ?_
  · exact fun _ hx => not_taken_of_mem_textual hx
  · intro x hx y hy
    rw [source_of_mem_similar hx, source_of_mem_textual hy]
    decide

/-- Seeds are as many as are asked for, or as the budget allows if no node is similar. -/
theorem length_seeds_le (s : Store) (limits : Limits) (embedder : Option Embedder) (q : Query)
    (k : Nat) : (seeds s limits embedder q k).length ≤ max k limits.maxNodes := by
  rw [seeds_eq, List.length_append]
  have hnear := length_top (similarCandidates s (queryVector? embedder q)) k
  generalize top (similarCandidates s (queryVector? embedder q)) k = near at hnear ⊢
  refine Nat.le_trans (Nat.add_le_add_left
    ((length_top _ _).trans_le (Nat.min_le_left _ _)) _) ?_
  rw [places]
  split
  · rename_i hempty
    rw [List.isEmpty_iff.mp hempty, List.length_nil, Nat.zero_add]
    exact Nat.le_max_right _ _
  · omega

/-! ## More seeds -/

/-- **No seed moves when a query asks for more.** -/
theorem prefix_seeds (s : Store) (limits : Limits) (embedder : Option Embedder) (q : Query)
    {k k' : Nat} (hpos : 0 < k) (hle : k ≤ k') :
    seeds s limits embedder q k <+: seeds s limits embedder q k' := by
  rw [seeds_eq, seeds_eq]
  generalize similarCandidates s (queryVector? embedder q) = near
  rcases top_eq_or_length_eq near hle with heq | hfull
  · -- all similar nodes are chosen, and others fill the places that are left
    rw [← heq]
    refine (List.prefix_append_right_inj _).mpr (prefix_top _ ?_)
    rw [places, places]
    split
    · exact Nat.le_refl _
    · exact Nat.sub_le_sub_right hle _
  · -- similar nodes take all places
    have hnone : places limits k (top near k) = 0 := by
      have hsome : ¬ (top near k).isEmpty = true := by
        intro hempty
        rw [List.isEmpty_iff.mp hempty, List.length_nil] at hfull
        omega
      rw [places, if_neg hsome, hfull, Nat.sub_self]
    rw [hnone, top_zero, List.append_nil]
    exact (prefix_top near hle).trans (List.prefix_append _ _)

end CodeGraph.Retrieval

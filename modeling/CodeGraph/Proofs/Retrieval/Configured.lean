import CodeGraph.Proofs.Retrieval.Ranking
import CodeGraph.Proofs.Retrieval.Token
import CodeGraph.Settings.Basic
/-! # Configured queries — what an accepted configuration finds

    Settings are refused if no query could find anything under them.  What is left decides
    whether a query by text has an answer, in a store where nothing can be similar to it.

    * `SharesToken` says what a query looks for in a node, without the text that its fields
      are joined to (`hits_pos_iff`).
    * A query has an answer exactly if it has a seed (`nodes_retrieve_eq_nil_iff`), and without
      vectors a seed is a node that shares a token (`seeds_ne_nil_iff`).
    * The budget of retrieval may be zero, and then there is no place for a seed
      (`retrieve_ne_nil_iff`). -/

namespace CodeGraph.Retrieval

open Std

/-! ## Shared tokens -/

/-- The texts of a node in which a query looks for its tokens. -/
def searchedTexts (n : Node) : List String :=
  n.id.text :: [Attribute.name, Attribute.qualifiedName, Attribute.path].filterMap n.text?

/-- A token of a text is one of a node's identifier, name, qualified name or path. -/
def SharesToken (text : String) (n : Node) : Prop :=
  ∃ token ∈ tokenize text, ∃ t ∈ searchedTexts n, token ∈ tokenize t

instance (text : String) (n : Node) : Decidable (SharesToken text n) :=
  inferInstanceAs (Decidable (∃ token ∈ tokenize text, ∃ t ∈ searchedTexts n, token ∈ tokenize t))

/-- A node is hit if one of its texts has a token of the query. -/
theorem hits_pos_iff {text : String} {n : Node} :
    0 < hits (tokenize text).eraseDups n ↔ SharesToken text n := by
  rw [hits, List.countP_pos_iff]
  refine exists_congr fun token => and_congr List.mem_eraseDups ?_
  have hjoined : tokenize (haystack n) = (searchedTexts n).flatMap tokenize :=
    tokenize_intercalate _
  rw [List.contains_iff_mem, hjoined, List.mem_flatMap]

/-! ## Seeds without vectors -/

section

variable {s : Store} {q : Query}

/-- No node without a vector is similar to a query. -/
theorem similarCandidates_of_none (hnone : ∀ n ∈ s.nodeList, n.embedding = none)
    (vector : Option Embedding) : similarCandidates s vector = [] := by
  cases vector with
  | none => rfl
  | some v =>
      refine List.filterMap_eq_nil_iff.mpr fun n hn => ?_
      rw [hnone n hn]

/-- There is a candidate where a node that is free shares a token. -/
theorem textualCandidates_ne_nil_iff {text : String} {taken : List NodeId} :
    textualCandidates s (some text) taken ≠ [] ↔
      ∃ n ∈ s.nodeList, n.id ∉ taken ∧ SharesToken text n := by
  rw [textualCandidates, ne_eq, List.filterMap_eq_nil_iff]
  simp only [ite_eq_right_iff, reduceCtorEq, imp_false, hits_pos_iff, List.mem_filter,
    Bool.not_eq_true', List.contains_eq_mem, decide_eq_false_iff_not, not_forall, not_not]
  refine exists_congr fun n => ?_
  rw [exists_prop, and_assoc]

theorem top_ne_nil_iff {l : List Seed} {k : Nat} : top l k ≠ [] ↔ 0 < k ∧ l ≠ [] := by
  rw [← List.length_pos_iff, ← List.length_pos_iff, length_top]
  omega

/-- **Without vectors there is a seed exactly if a node shares a token** and the budget has a
    place for it. -/
theorem seeds_ne_nil_iff (hnone : ∀ n ∈ s.nodeList, n.embedding = none) {text : String}
    (htext : q.text = some text) (limits : Limits) (embedder : Option Embedder) (k : Nat) :
    seeds s limits embedder q k ≠ [] ↔
      0 < limits.maxNodes ∧ ∃ n ∈ s.nodeList, SharesToken text n := by
  rw [seeds_eq, similarCandidates_of_none hnone, top_nil, List.nil_append, List.map_nil, htext,
    top_ne_nil_iff, textualCandidates_ne_nil_iff]
  simp only [List.not_mem_nil, not_false_eq_true, true_and]
  rfl

/-- A query has no answer if it asks for none, or if there is no seed. -/
theorem nodes_retrieve_eq_nil_iff {limits : Limits} {embedder : Option Embedder}
    {k : Option Nat} :
    (retrieve s limits embedder q k).nodes = [] ↔ k.getD limits.topK = 0 ∨ s.isEmpty = true ∨
      seeds s limits embedder q (k.getD limits.topK) = [] := by
  rw [retrieve, ← or_assoc]
  dsimp only
  split
  · rename_i hempty
    exact iff_of_true rfl (Or.inl hempty)
  · rename_i hsome
    rw [or_iff_right hsome]
    split
    · rename_i hnone
      exact iff_of_true rfl (List.isEmpty_iff.mp hnone)
    · rename_i hseeds
      rw [nodes_assemble, List.append_eq_nil_iff, List.map_eq_nil_iff, ← List.isEmpty_iff]
      exact and_iff_left_of_imp fun h => absurd h hseeds

end

/-! ## Accepted settings -/

theorem topK_ne_zero_of_accepted {settings : Settings} (h : settings.degenerate? = none) :
    settings.retrieval.topK ≠ 0 := by
  intro hzero
  rw [Settings.degenerate?, hzero] at h
  split at h
  · cases h
  · cases h

theorem isEmpty_eq_false_of_mem {s : Store} {n : Node} (hn : n ∈ s.nodeList) :
    s.isEmpty = false := by
  obtain ⟨id, hid⟩ := Store.mem_nodeList.mp hn
  refine Bool.eq_false_iff.mpr fun hempty => ?_
  rw [ExtTreeMap.isEmpty_iff.mp hempty, ExtTreeMap.getElem?_empty] at hid
  cases hid

/-- **What accepted settings find.**  In a store without vectors a query by text has an answer
    exactly if a node shares a token with it and the budget of retrieval, which may be zero, is
    not.  No other setting matters once they are accepted, nor does the watch. -/
theorem retrieve_ne_nil_iff {settings : Settings} (haccepted : settings.degenerate? = none)
    {s : Store} (hnone : ∀ n ∈ s.nodeList, n.embedding = none) {q : Query} {text : String}
    (htext : q.text = some text) (embedder : Option Embedder) (watch : Walk.Watch) :
    (retrieve s (settings.retrievalLimits watch) embedder q none).nodes ≠ [] ↔
      0 < settings.retrieval.maxNodes ∧ ∃ n ∈ s.nodeList, SharesToken text n := by
  have hseeds := seeds_ne_nil_iff hnone htext (settings.retrievalLimits watch) embedder
    settings.retrieval.topK
  rw [ne_eq, nodes_retrieve_eq_nil_iff, not_or, not_or]
  refine Iff.trans ⟨fun h => h.2.2, fun h => ⟨topK_ne_zero_of_accepted haccepted, ?_, h⟩⟩ hseeds
  obtain ⟨-, n, hn, -⟩ := hseeds.mp h
  rw [isEmpty_eq_false_of_mem hn]
  decide

/-- A budget of one node suffices. -/
theorem retrieve_ne_nil_iff_chain :
    let settings : Settings := { retrieval := { maxNodes := 1 } }
    settings.degenerate? = none ∧ (∀ n ∈ chain.nodeList, n.embedding = none) ∧
      (retrieve chain (settings.retrievalLimits .never) none { text := some "a" } none).nodes ≠
        [] := by
  intro settings
  have haccepted : settings.degenerate? = none := rfl
  have hnone : ∀ n ∈ chain.nodeList, n.embedding = none := by decide +kernel
  refine ⟨haccepted, hnone, ?_⟩
  refine (retrieve_ne_nil_iff haccepted hnone rfl none .never).mpr ⟨Nat.one_pos, ?_⟩
  decide +kernel

/-- **Accepted settings may find nothing,** where a node has the very name that the query
    asks for. -/
theorem accepted_finds_nothing :
    let settings : Settings := { retrieval := { maxNodes := 0 } }
    settings.degenerate? = none ∧ (∀ n ∈ chain.nodeList, n.embedding = none) ∧
      (∃ n ∈ chain.nodeList, SharesToken "a" n) ∧
      (retrieve chain (settings.retrievalLimits .never) none { text := some "a" } none).nodes =
        [] := by
  refine ⟨rfl, by decide +kernel, by decide +kernel, ?_⟩
  exact nodes_retrieve_eq_nil_iff.mpr (Or.inr (Or.inr (List.isEmpty_iff.mp (by decide +kernel))))

end CodeGraph.Retrieval

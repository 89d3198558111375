import CodeGraph.Graph.Statistics
import CodeGraph.Proofs.Graph.Adjacency
import CodeGraph.Retrieval.Embedder
import Mathlib.Algebra.BigOperators.Group.List.Basic
import Mathlib.Algebra.GroupWithZero.Nat
import Mathlib.Data.List.Induction
import Mathlib.Data.List.Nodup
import Mathlib.Data.List.Perm.Basic
/-! # Scans — what an index answers, found without it

    Six indexes stand beside the nodes and the edges of a store.  Whatever
    changes were made, and whichever of them were refused, every question
    answered by an index has the answer of a scan.

    * A question about edges goes through positions.  The positions of a sound
      store are those of the edges with a property, so the answer is the edge
      list filtered (`edgesAt_positions`).
    * A question about nodes goes through a set of identifiers, and both the set
      and the node list ascend, so having the same members they are the same
      (`Sound.nodesOf_eq_filter`).
    * `Scanned` collects the answers; every run of changes leads to a store that
      has them (`scanned_foldl_perform`). -/

namespace CodeGraph.Store

open Std

variable {s : Store} {relationships : List Relationship} {direction : Direction}

/-! ## Edges by position -/

/-- Looking up one position after the other goes through a list. -/
theorem filterMap_range_getElem? {α β : Type} (l : List α) (f : Nat → α → Option β) :
    (List.range l.length).filterMap (fun i => l[i]?.bind (f i)) =
      l.zipIdx.filterMap fun x => f x.2 x.1 := by
  induction l using List.reverseRecOn with
  | nil => rfl
  | append_singleton l a ih =>
      have hold : (List.range l.length).filterMap (fun i => (l ++ [a])[i]?.bind (f i)) =
          (List.range l.length).filterMap fun i => l[i]?.bind (f i) := by
        refine List.filterMap_congr ?_
        intro i hi
        rw [List.getElem?_append_left (List.mem_range.mp hi)]
      rw [List.length_append, List.length_singleton, List.range_succ, List.filterMap_append,
        List.zipIdx_append, List.filterMap_append, ← ih, hold]
      congr 1
      simp [List.filterMap_cons]

/-- To go through the positions of some edges is to go through all edges and leave out the
    others. -/
theorem filterMap_positions {β : Type} (s : Store) (p : Edge → Bool)
    (f : Nat → Edge → Option β) :
    (s.positions p).filterMap (fun i => s.edges[i]?.bind (f i)) =
      s.edges.toList.zipIdx.filterMap fun x => if p x.1 then f x.2 x.1 else none := by
  have hscan := filterMap_range_getElem? s.edges.toList
    fun i e => if p e then f i e else none
  rw [← hscan, positions, List.filterMap_filter, Array.length_toList]
  refine List.filterMap_congr ?_
  intro i _
  rw [Array.getElem?_toList]
  cases s.edges[i]? with
  | none => rfl
  | some e => rfl

/-- The edges at the positions of a property are those with the property, in the
    order they were added. -/
theorem edgesAt_positions (s : Store) (p : Edge → Bool) :
    (s.positions p).filterMap (fun i => s.edges[i]?) = s.edges.toList.filter p := by
  have hscan := filterMap_positions s p fun _ e => some e
  simp only [Option.bind_fun_some] at hscan
  rw [hscan, ← List.filterMap_eq_filter]
  conv_rhs => rw [← List.zipIdx_map_fst 0 s.edges.toList, List.filterMap_map]
  refine List.filterMap_congr ?_
  intro x _
  rfl

/-- The index of a relationship lists its edges in the order in which they were added. -/
theorem Sound.edgesByRelationship_eq (h : s.Sound) (r : Relationship) :
    s.edgesByRelationship r = s.edges.toList.filter fun e => e.relationship = r := by
  rw [edgesByRelationship, edgesAt, h.byRelationship, edgesAt_positions]

/-- The edges from one node to another are listed in the order in which they were added. -/
theorem Sound.edgesBetween_eq (h : s.Sound) (u v : NodeId) : s.edgesBetween u v =
    s.edges.toList.filter fun e => e.source = u && e.target = v := by
  rw [edgesBetween, edgesAt, h.outgoing, edgesAt_positions, List.filter_filter]
  refine List.filter_congr ?_
  intro e _
  exact Bool.and_comm _ _

/-! ## Edges at a node -/

/-- An edge with its position, seen from a node that is its near end, if one
    looks at edges that way. -/
def sighting (near far : Edge → NodeId) (look : Bool) (relationships : List Relationship)
    (u : NodeId) (x : Edge × Nat) : Option Adjacent :=
  if look && near x.1 = u && admits relationships x.1.relationship then
    some ⟨far x.1, x.2, x.1.relationship⟩
  else none

/-- What a scan of the edges finds at a node: each admitted edge once for every end
    that is the node and that the direction looks from. -/
def incident (s : Store) (u : NodeId) (relationships : List Relationship)
    (direction : Direction) : List Adjacent :=
  s.edges.toList.zipIdx.flatMap fun x =>
    (sighting Edge.source Edge.target direction.leaves relationships u x).toList ++
      (sighting Edge.target Edge.source direction.enters relationships u x).toList

/-- What is seen along positions is what a scan finds along the edges there. -/
theorem sights_eq_filterMap {near far : Edge → NodeId} {places : Array Nat} {look : Bool}
    {u : NodeId} (hat : places.toList = s.positions fun e => near e = u) :
    (if look then s.sightsAt relationships far places else []) =
      s.edges.toList.zipIdx.filterMap (sighting near far look relationships u) := by
  cases look with
  | false => simp [sighting]
  | true =>
      have hscan := filterMap_positions s (fun e => near e = u) fun i e =>
        if admits relationships e.relationship then
          some (Adjacent.mk (far e) i e.relationship)
        else none
      rw [if_pos rfl, sightsAt, hat, hscan]
      refine List.filterMap_congr ?_
      rintro ⟨e, i⟩ -
      by_cases hnear : near e = u <;> simp [sighting, hnear]

/-- The edges that are found at a node are those that a scan of all edges finds there. -/
theorem Sound.adjacent_perm (h : s.Sound) (u : NodeId) :
    (s.adjacent u relationships direction).Perm (s.incident u relationships direction) := by
  rw [adjacent, sights_eq_filterMap (h.outgoing u), sights_eq_filterMap (h.incoming u),
    List.filterMap_eq_flatMap_toList, List.filterMap_eq_flatMap_toList]
  exact (List.mergeSort_perm _ _).trans (List.flatMap_append_perm _ _ _)

/-- The order of edges at a node as a comparison. -/
def Adjacent.cmp : Adjacent → Adjacent → Ordering :=
  compareLex (compareOn (·.neighbor)) (compareOn (·.edgeIndex))

instance : TransCmp Adjacent.cmp := inferInstanceAs (TransCmp (compareLex _ _))

theorem NodeId.text_lt_of_compare {a b : NodeId} (h : compare a b = .lt) : a.text < b.text :=
  compareOfLessAndEq_eq_lt.mp h

/-- Edges at a node come by neighbour and then by position. -/
theorem pairwise_adjacent (s : Store) (u : NodeId) :
    (s.adjacent u relationships direction).Pairwise fun a b =>
      a.neighbor.text < b.neighbor.text ∨
        a.neighbor = b.neighbor ∧ a.edgeIndex ≤ b.edgeIndex := by
  refine (Sorting.pairwise_mergeSort Adjacent.cmp _).imp ?_
  intro a b hle
  rw [Adjacent.cmp, compareLex, compareOn, compareOn] at hle
  cases hn : compare a.neighbor b.neighbor with
  | lt => exact Or.inl (NodeId.text_lt_of_compare hn)
  | eq =>
      rw [hn] at hle
      exact Or.inr ⟨LawfulEqCmp.eq_of_compare hn, Nat.isLE_compare.mp hle⟩
  | gt =>
      rw [hn] at hle
      cases hle

/-- Neighbours ascend, each once. -/
theorem pairwise_neighbors (s : Store) (u : NodeId) (r : Relationship) :
    (s.neighbors u r direction).Pairwise fun v w => v.text < w.text := by
  have hsorted : ((s.adjacent u [r] direction).map (·.neighbor)).Pairwise fun v w =>
      (compare v w).isLE := by
    refine List.pairwise_map.mpr ((Sorting.pairwise_mergeSort Adjacent.cmp _).imp ?_)
    intro a b hle
    rw [Adjacent.cmp, compareLex, compareOn] at hle
    cases hn : compare a.neighbor b.neighbor with
    | lt => rfl
    | eq => rfl
    | gt =>
        rw [hn] at hle
        cases hle
  exact (Sorting.pairwise_dropRepeats hsorted).imp NodeId.text_lt_of_compare

/-- An edge is seen from its source as it leaves and from its target as it
    enters. -/
theorem Sound.mem_adjacent_swap (h : s.Sound) (u v : NodeId) (i : Nat) (r : Relationship) :
    ⟨v, i, r⟩ ∈ s.adjacent u relationships .outgoing ↔
      ⟨u, i, r⟩ ∈ s.adjacent v relationships .incoming := by
  rw [h.mem_adjacent, h.mem_adjacent]
  refine exists_congr fun e => and_congr_right fun _ => and_congr_right fun _ =>
    and_congr_right fun _ => ?_
  simp [Direction.leaves, Direction.enters, and_comm]

/-! ## Nodes -/

/-- The list of nodes holds what is stored under any identifier. -/
theorem mem_nodeList {n : Node} : n ∈ s.nodeList ↔ ∃ id : NodeId, s.nodes[id]? = some n := by
  rw [nodeList, List.mem_map]
  constructor
  · rintro ⟨⟨id, m⟩, hm, rfl⟩
    exact ⟨id, ExtTreeMap.mem_toList_iff_getElem?_eq_some.mp hm⟩
  · rintro ⟨id, hn⟩
    exact ⟨(id, n), ExtTreeMap.mem_toList_iff_getElem?_eq_some.mpr hn, rfl⟩

theorem Sound.mem_nodeList_iff (h : s.Sound) {n : Node} {id : NodeId} :
    n ∈ s.nodeList ∧ n.id = id ↔ s.nodes[id]? = some n := by
  rw [mem_nodeList]
  constructor
  · rintro ⟨⟨k, hn⟩, rfl⟩
    rw [h.keyed k n hn]
    exact hn
  · intro hn
    exact ⟨⟨id, hn⟩, h.keyed id n hn⟩

/-- Nodes are listed by identifier, and none twice. -/
theorem Sound.pairwise_nodeList (h : s.Sound) :
    s.nodeList.Pairwise fun a b => compare a.id b.id = .lt := by
  refine List.pairwise_map.mpr (ExtTreeMap.ordered_keys_toList.imp_of_mem ?_)
  rintro ⟨i, a⟩ ⟨j, b⟩ ha hb hlt
  rw [h.keyed i a (ExtTreeMap.mem_toList_iff_getElem?_eq_some.mp ha),
    h.keyed j b (ExtTreeMap.mem_toList_iff_getElem?_eq_some.mp hb)]
  exact hlt

/-- Nodes in strictly ascending order are determined by which nodes they are. -/
theorem eq_of_ascending {l l' : List Node}
    (hl : l.Pairwise fun a b => compare a.id b.id = .lt)
    (hl' : l'.Pairwise fun a b => compare a.id b.id = .lt) (h : ∀ n, n ∈ l ↔ n ∈ l') :
    l = l' := by
  have hnodup : ∀ {k : List Node}, (k.Pairwise fun a b => compare a.id b.id = .lt) →
      k.Nodup := by
    intro k hk
    refine hk.imp ?_
    rintro a b hlt rfl
    have heq : compare a.id a.id = .eq := ReflCmp.compare_self
    rw [heq] at hlt
    cases hlt
  refine List.Perm.eq_of_pairwise ?_ hl hl'
    ((List.perm_ext_iff_of_nodup (hnodup hl) (hnodup hl')).mpr h)
  intro a b _ _ hab hba
  have hswap : compare b.id a.id = (compare a.id b.id).swap := OrientedCmp.eq_swap
  rw [hab, hba] at hswap
  cases hswap

/-- A set of identifiers that holds those of the nodes with a property stands for
    the node list filtered. -/
theorem Sound.nodesOf_eq_filter (h : s.Sound) {ids : ExtTreeSet NodeId} {p : Node → Bool}
    (hids : ∀ id, id ∈ ids ↔ ∃ n, s.nodes[id]? = some n ∧ p n = true) :
    s.nodesOf ids = s.nodeList.filter p := by
  refine eq_of_ascending ?_ (h.pairwise_nodeList.filter p) ?_
  · refine ExtTreeSet.ordered_toList.filterMap _ ?_
    intro i j hlt a ha b hb
    rw [h.keyed i a ha, h.keyed j b hb]
    exact hlt
  · intro n
    rw [nodesOf, List.mem_filterMap, List.mem_filter, mem_nodeList]
    constructor
    · rintro ⟨id, hid, hn⟩
      obtain ⟨m, hm, hp⟩ := (hids id).mp (ExtTreeSet.mem_toList.mp hid)
      cases hn.symm.trans hm
      exact ⟨⟨id, hn⟩, hp⟩
    · rintro ⟨⟨id, hn⟩, hp⟩
      exact ⟨id, ExtTreeSet.mem_toList.mpr ((hids id).mpr ⟨n, hn, hp⟩), hn⟩

/-- The index of a kind lists its nodes by identifier. -/
theorem Sound.nodesByKind_eq (h : s.Sound) (kind : NodeKind) :
    s.nodesByKind kind = s.nodeList.filter fun n => n.kind = kind := by
  refine h.nodesOf_eq_filter fun id => ?_
  simp only [h.byKind, decide_eq_true_eq]

/-- The index of a name lists the nodes that bear it by identifier. -/
theorem Sound.findByName_eq (h : s.Sound) (name : String) : s.findByName name =
    s.nodeList.filter fun n => n.text? Attribute.name = some name := by
  refine h.nodesOf_eq_filter fun id => ?_
  simp only [h.byName, decide_eq_true_eq]

/-! ## Counts -/

/-- An index of nodes has as many identifiers as it stands for nodes. -/
theorem length_nodesOf {ids : ExtTreeSet NodeId} (hids : ∀ id ∈ ids, id ∈ s.nodes) :
    (s.nodesOf ids).length = ids.size := by
  rw [← ExtTreeSet.length_toList, nodesOf]
  have hall : ∀ l : List NodeId, (∀ id ∈ l, id ∈ s.nodes) →
      (l.filterMap fun id => s.nodes[id]?).length = l.length := by
    intro l hl
    induction l with
    | nil => rfl
    | cons id l ih =>
        rw [List.filterMap_cons, ExtTreeMap.getElem?_eq_some_getElem (hl id List.mem_cons_self),
          List.length_cons, ih fun i hi => hl i (List.mem_cons_of_mem id hi), List.length_cons]
  exact hall _ fun id hid => hids id (ExtTreeSet.mem_toList.mp hid)

/-- The index of a kind holds as many identifiers as there are nodes of it. -/
theorem Sound.size_byKind (h : s.Sound) (kind : NodeKind) :
    (s.byKind.getD kind ∅).size = s.nodeList.countP fun n => n.kind = kind := by
  rw [List.countP_eq_length_filter, ← h.nodesByKind_eq, nodesByKind, length_nodesOf]
  intro id hid
  obtain ⟨n, hn, -⟩ := (h.byKind kind id).mp hid
  exact ExtTreeMap.mem_iff_isSome_getElem?.mpr (by rw [hn]; rfl)

/-- The index of a relationship holds as many positions as there are edges of it. -/
theorem Sound.size_byRelationship (h : s.Sound) (r : Relationship) :
    (s.byRelationship.getD r #[]).size =
      s.edges.toList.countP fun e => e.relationship = r := by
  rw [← Array.length_toList, h.byRelationship, List.countP_eq_length_filter,
    ← edgesAt_positions]
  have hall : ∀ l : List Nat, (∀ i ∈ l, i < s.edges.size) →
      (l.filterMap fun i => s.edges[i]?).length = l.length := by
    intro l hl
    induction l with
    | nil => rfl
    | cons i l ih =>
        rw [List.filterMap_cons, Array.getElem?_eq_getElem (hl i List.mem_cons_self),
          List.length_cons, ih fun j hj => hl j (List.mem_cons_of_mem i hj), List.length_cons]
  refine (hall _ fun i hi => ?_).symm
  obtain ⟨e, he, -⟩ := mem_positions.mp hi
  exact (Array.getElem?_eq_some_iff.mp he).1

/-- One member of a list without repetitions is counted once. -/
theorem sum_ite_eq_one {κ : Type} [DecidableEq κ] {keys : List κ} (hnodup : keys.Nodup)
    {a : κ} (ha : a ∈ keys) : (keys.map fun k => if a = k then 1 else 0).sum = 1 := by
  have hother : ∀ k, k ≠ a → k ∈ keys → (if a = k then 1 else 0) = 0 :=
    fun k hk _ => if_neg hk.symm
  rw [List.sum_map_eq_nsmul_single a _ hother, if_pos rfl, List.count_eq_one_of_mem hnodup ha]
  rfl

/-- Things counted by a key that has one of finitely many values are all counted
    once. -/
theorem sum_countP_eq_length {α κ : Type} [DecidableEq κ] {keys : List κ}
    (hnodup : keys.Nodup) (f : α → κ) (hall : ∀ a, f a ∈ keys) (l : List α) :
    (keys.map fun k => l.countP fun a => f a = k).sum = l.length := by
  induction l with
  | nil => simp
  | cons a l ih =>
      simp only [List.countP_cons, decide_eq_true_eq, List.sum_map_add, ih,
        sum_ite_eq_one hnodup (hall a), List.length_cons]

theorem nodup_kinds : NodeKind.all.Nodup := by decide

theorem nodup_relationships : Relationship.all.Nodup := by decide

/-- Every node is of one kind, so the counts of the kinds add up. -/
theorem Sound.sum_nodesByKind (h : s.Sound) :
    (s.statistics.nodesByKind.map (·.2)).sum = s.nodeList.length := by
  have hall : ∀ n : Node, n.kind ∈ NodeKind.all := by
    intro n
    cases n.kind <;> decide
  rw [statistics, List.map_map, ← sum_countP_eq_length nodup_kinds Node.kind hall]
  refine congrArg List.sum (List.map_congr_left fun k _ => ?_)
  exact h.size_byKind k

/-- Every edge is of one relationship, so the counts of the relationships add up. -/
theorem Sound.sum_edgesByRelationship (h : s.Sound) :
    (s.statistics.edgesByRelationship.map (·.2)).sum = s.edges.toList.length := by
  have hall : ∀ e : Edge, e.relationship ∈ Relationship.all := by
    intro e
    cases e.relationship <;> decide
  rw [statistics, List.map_map,
    ← sum_countP_eq_length nodup_relationships Edge.relationship hall]
  refine congrArg List.sum (List.map_congr_left fun r _ => ?_)
  exact h.size_byRelationship r

/-- The dimension stands for the vectors there are. -/
theorem Sound.embeddingDimension_eq_none_iff (h : s.Sound) :
    s.embeddingDimension = none ↔ ∀ n ∈ s.nodeList, n.embedding = none := by
  constructor
  · intro hnone n hn
    obtain ⟨id, hid⟩ := mem_nodeList.mp hn
    cases hv : n.embedding with
    | none => rfl
    | some v =>
        have hdim := h.dimension id n v hid hv
        rw [hnone] at hdim
        cases hdim
  · intro hall
    cases hd : s.embeddingDimension with
    | none => rfl
    | some d =>
        obtain ⟨id, n, hn, hv⟩ := h.embedded (by rw [hd]; rfl)
        rw [hall n (mem_nodeList.mpr ⟨id, hn⟩)] at hv
        cases hv

/-! ## Every answer at once -/

/-- Each question of a store has the answer of a scan. -/
structure Scanned (s : Store) : Prop where
  mem_nodeList : ∀ (id : NodeId) (n : Node),
    n ∈ s.nodeList ∧ n.id = id ↔ s.nodes[id]? = some n
  ascending : s.nodeList.Pairwise fun a b => a.id.text < b.id.text
  nodesByKind : ∀ kind, s.nodesByKind kind = s.nodeList.filter fun n => n.kind = kind
  findByName : ∀ name, s.findByName name =
    s.nodeList.filter fun n => n.text? Attribute.name = some name
  edgesByRelationship : ∀ r, s.edgesByRelationship r =
    s.edges.toList.filter fun e => e.relationship = r
  edgesBetween : ∀ u v, s.edgesBetween u v =
    s.edges.toList.filter fun e => e.source = u && e.target = v
  adjacent : ∀ u relationships direction,
    (s.adjacent u relationships direction).Perm (s.incident u relationships direction) ∧
    (s.adjacent u relationships direction).Pairwise fun a b =>
      a.neighbor.text < b.neighbor.text ∨ a.neighbor = b.neighbor ∧ a.edgeIndex ≤ b.edgeIndex
  neighbors : ∀ u r direction,
    (∀ v, v ∈ s.neighbors u r direction ↔ ∃ a ∈ s.incident u [r] direction, a.neighbor = v) ∧
    (s.neighbors u r direction).Pairwise fun v w => v.text < w.text
  mirrored : ∀ u v i r relationships, ⟨v, i, r⟩ ∈ s.adjacent u relationships .outgoing ↔
    ⟨u, i, r⟩ ∈ s.adjacent v relationships .incoming
  counts : s.statistics =
    { nodes := s.nodeList.length
      edges := s.edges.toList.length
      nodesByKind := NodeKind.all.map fun k => (k, s.nodeList.countP fun n => n.kind = k)
      edgesByRelationship := Relationship.all.map fun r =>
        (r, s.edges.toList.countP fun e => e.relationship = r)
      embeddedNodes := s.nodeList.countP fun n => n.embedding.isSome
      entryPoints := s.nodeList.countP Node.isEntryPoint
      failedFiles := s.nodeList.countP fun n => n.flag Attribute.parseFailed }
  kindSum : (s.statistics.nodesByKind.map (·.2)).sum = s.statistics.nodes
  relationshipSum : (s.statistics.edgesByRelationship.map (·.2)).sum = s.statistics.edges
  ends : ∀ e ∈ s.edges, e.source ∈ s.nodes ∧ e.target ∈ s.nodes
  dimension : ∀ n ∈ s.nodeList, ∀ v, n.embedding = some v →
    s.embeddingDimension = some v.size
  unembedded : s.embeddingDimension = none ↔ ∀ n ∈ s.nodeList, n.embedding = none

theorem length_nodeList (s : Store) : s.nodeList.length = s.nodeCount := by
  rw [nodeList, List.length_map, ExtTreeMap.length_toList, nodeCount]

/-- **Every answer of a sound store is what a scan finds.** -/
theorem Sound.scanned (h : s.Sound) : s.Scanned where
  mem_nodeList _ _ := h.mem_nodeList_iff
  ascending := h.pairwise_nodeList.imp NodeId.text_lt_of_compare
  nodesByKind := h.nodesByKind_eq
  findByName := h.findByName_eq
  edgesByRelationship := h.edgesByRelationship_eq
  edgesBetween := h.edgesBetween_eq
  adjacent u _ _ := ⟨h.adjacent_perm u, s.pairwise_adjacent u⟩
  neighbors u r direction := by
    refine ⟨fun v => ?_, s.pairwise_neighbors u r⟩
    rw [neighbors, Sorting.mem_dropRepeats, List.mem_map]
    exact exists_congr fun a => and_congr_left fun _ => (h.adjacent_perm u).mem_iff
  mirrored u v i r _ := h.mem_adjacent_swap u v i r
  counts := by
    simp only [statistics, length_nodeList, h.size_byKind, h.size_byRelationship,
      Array.length_toList, edgeCount]
  kindSum := by
    rw [h.sum_nodesByKind, length_nodeList, statistics]
  relationshipSum := by
    rw [h.sum_edgesByRelationship, Array.length_toList, statistics, edgeCount]
  ends := h.ends
  dimension n hn v hv := by
    obtain ⟨id, hid⟩ := Store.mem_nodeList.mp hn
    exact h.dimension id n v hid hv
  unembedded := h.embeddingDimension_eq_none_iff

/-! ## Runs of changes -/

/-- A change that is asked of a store. -/
inductive Change where
  | addNode (id : NodeId) (kind : NodeKind) (attributes : Attributes)
  | addEdge (e : Edge)
  | enrich (id : NodeId) (key : String) (value : Json)
  | attachEmbedding (id : NodeId) (vector : Embedding)
  | attachEmbeddings (embedder : Retrieval.Embedder)

/-- The store after a change, which is the one before if the change is refused.
    An embedder that fails leaves the vectors attached so far. -/
def Change.perform (s : Store) : Change → Store
  | .addNode id kind attributes => (s.addNode id kind attributes).toOption.getD s
  | .addEdge e => (s.addEdge e).toOption.getD s
  | .enrich id key value => (s.enrich id key value).toOption.getD s
  | .attachEmbedding id vector => (s.attachEmbedding id vector).toOption.getD s
  | .attachEmbeddings embedder => (Retrieval.attachEmbeddings s embedder).1

/-- A store stays reachable if what it is changed to by success is reachable. -/
theorem Reachable.getD {r : Except GraphError Store} (h : s.Reachable)
    (hok : ∀ s', r = .ok s' → s'.Reachable) : (r.toOption.getD s).Reachable := by
  cases r with
  | error _ => exact h
  | ok s' => exact hok s' rfl

theorem Reachable.attachAll (items : List (NodeId × Embedding)) (h : s.Reachable) :
    (Retrieval.attachAll s items).1.Reachable := by
  induction items generalizing s with
  | nil => exact h
  | cons item items ih =>
      rw [Retrieval.attachAll]
      split
      · rename_i s' hok
        exact ih (h.attachEmbedding hok)
      · exact h

theorem Reachable.attachBatches (embedder : Retrieval.Embedder)
    (items : List (NodeId × String)) (h : s.Reachable) :
    (Retrieval.attachBatches embedder s items).1.Reachable := by
  fun_induction Retrieval.attachBatches embedder s items with
  | case1 | case2 | case3 => exact h
  | case4 s item items batch vectors _ _ s' e hattach =>
      -- the batch was refused half-way; what is attached of it stays
      have hall := h.attachAll ((batch.map (·.1)).zip vectors)
      rw [hattach] at hall
      exact hall
  | case5 s item items batch vectors _ _ s' hattach ih =>
      have hall := h.attachAll ((batch.map (·.1)).zip vectors)
      rw [hattach] at hall
      exact ih hall

/-- A change leads to a reachable store, or it is refused and the store stays. -/
theorem Reachable.perform (h : s.Reachable) (c : Change) : (c.perform s).Reachable := by
  cases c with
  | addNode id kind attributes => exact h.getD fun _ hok => h.addNode hok
  | addEdge e => exact h.getD fun _ hok => h.addEdge hok
  | enrich id key value => exact h.getD fun _ hok => h.enrich hok
  | attachEmbedding id vector => exact h.getD fun _ hok => h.attachEmbedding hok
  | attachEmbeddings embedder =>
      have hall := h.attachBatches embedder (s.nodeList.map fun n => (n.id, Retrieval.nodeText n))
      rw [Change.perform, Retrieval.attachEmbeddings]
      split <;> rename_i heq <;> rw [heq] at hall <;> exact hall

/-- **Whatever was asked of a store, its indexes answer like scans.** -/
theorem scanned_foldl_perform (changes : List Change) :
    (changes.foldl Change.perform {}).Scanned := by
  have hreach : (changes.foldl Change.perform {}).Reachable :=
    List.foldlRecOn changes _ Reachable.empty fun _ h c _ => h.perform c
  exact hreach.sound.scanned

end CodeGraph.Store

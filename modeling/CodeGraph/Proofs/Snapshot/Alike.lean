import CodeGraph.Proofs.Json.Injective
import CodeGraph.Proofs.Snapshot.Return
/-! # Records that are written alike

    Two records with one text differ only where neither holds a number that can be
    written.

    * Attributes are the same if their values are plain, as all values that are read are
      (`Plain.eq_of_print`).
    * Embeddings are compared entry by entry, and a finite entry is like no other
      (`alike_of_print`).
    * So the records of two bodies with one text are alike one by one
      (`forall₂_of_print_body`). -/

namespace CodeGraph

open Json Text Reader

/-! ## Vectors -/

/-- Vectors that differ only where neither holds a finite number. -/
def Embedding.Alike (v w : Embedding) : Prop :=
  List.Forall₂ (fun x y => x = y ∨ x.isFinite = false ∧ y.isFinite = false) v.toList w.toList

/-- A vector of finite numbers is like no other. -/
theorem Embedding.Alike.eq {v w : Embedding} (h : Embedding.Alike v w)
    (hw : ∀ x ∈ w, x.isFinite = true) : v = w := by
  have hentries := forall₂_imp_of_mem h fun x _ y hy hxy =>
    hxy.resolve_right fun hnot => by
      rw [hw y (Array.mem_toList_iff.mp hy)] at hnot
      cases hnot.2
  rw [List.forall₂_eq_eq_eq] at hentries
  exact Array.toList_inj.mp hentries

/-- Vectors that are printed alike have the same length and entries that are printed alike. -/
theorem Embedding.alike_of_print {v w : Embedding}
    (h : print (Embedding.toJson v) = print (Embedding.toJson w)) : Embedding.Alike v w := by
  have hentries := array_inj h
  rw [List.forall₂_map_left_iff, List.forall₂_map_right_iff] at hentries
  refine hentries.imp fun x y hxy => ?_
  -- all numbers that are not finite are written alike
  by_cases hx : x.isFinite = true
  · exact Or.inl (single_inj hx hxy)
  · by_cases hy : y.isFinite = true
    · exact Or.inl (single_inj hy hxy.symm).symm
    · exact Or.inr ⟨Bool.eq_false_iff.mpr hx, Bool.eq_false_iff.mpr hy⟩

/-! ## Attributes -/

theorem Attributes.IsPlain.toJson {a : Attributes} (h : a.IsPlain) : Plain a.toJson :=
  .object _ fun f hf => h f.1 f.2 (Std.ExtTreeMap.mem_toList_iff_getElem?_eq_some.mp hf)

/-- Attributes that are plain are told apart by their texts. -/
theorem Attributes.eq_of_print {a b : Attributes} (ha : a.IsPlain) (hb : b.IsPlain)
    (h : print a.toJson = print b.toJson) : a = b := by
  have hobject := Plain.eq_of_print ha.toJson hb.toJson h
  exact Std.ExtTreeMap.toList_inj.mp (Json.object.inj hobject)

/-! ## Nodes -/

namespace Node

/-- Nodes that differ only in their vectors, and there only as `Embedding.Alike` says. -/
structure Alike (n m : Node) : Prop where
  id : n.id = m.id
  kind : n.kind = m.kind
  attributes : n.attributes = m.attributes
  embedding : Option.Rel Embedding.Alike n.embedding m.embedding

/-- A node that is alike to a finite one is the same: a finite number is printed like no
    other. -/
theorem Alike.eq {n m : Node} (h : n.Alike m) (hm : m.IsFinite) : n = m := by
  obtain ⟨id, kind, attributes, v?⟩ := n
  obtain ⟨id', kind', attributes', w?⟩ := m
  obtain ⟨rfl, rfl, rfl, hembedding⟩ := h
  cases hembedding with
  | none => rfl
  | some hvw => rw [hvw.eq (hm _ rfl)]

/-- **Nodes with one text are alike.** -/
theorem alike_of_print {n m : Node} (hn : n.attributes.IsPlain) (hm : m.attributes.IsPlain)
    (h : print n.toJson = print m.toJson) : n.Alike m := by
  obtain ⟨⟨id⟩, kind, a, v?⟩ := n
  obtain ⟨⟨id'⟩, kind', b, w?⟩ := m
  rw [toJson_eq, toJson_eq] at h
  obtain ⟨⟨-, hid⟩, ⟨-, hkind⟩, ⟨-, hattributes⟩, hembedding⟩ :
      _ ∧ _ ∧ _ ∧ List.Forall₂ _ _ _ := by
    simpa only [fields, List.cons_append, List.forall₂_cons] using object_inj h
  have hkinds : kind = kind' := by
    have hnamed := named?_name kind
    rw [string_inj hkind, named?_name] at hnamed
    exact (Option.some.inj hnamed).symm
  refine ⟨congrArg NodeId.mk (string_inj hid), hkinds, Attributes.eq_of_print hn hm hattributes,
    ?_⟩
  cases v? with
  | none =>
      cases w? with
      | none => exact Option.Rel.none
      | some w => cases hembedding
  | some v =>
      cases w? with
      | none => cases hembedding
      | some w =>
          obtain ⟨⟨-, hvector⟩, -⟩ := List.forall₂_cons.mp hembedding
          exact Option.Rel.some (Embedding.alike_of_print hvector)

end Node

/-- Nodes that are alike to finite ones are the same, one by one. -/
theorem eq_of_forall₂_alike {ns nodes : List Node} (h : List.Forall₂ Node.Alike ns nodes)
    (hfinite : ∀ n ∈ nodes, n.IsFinite) : ns = nodes := by
  have heq := forall₂_imp_of_mem h fun _ _ m hm halike => Node.Alike.eq halike (hfinite m hm)
  rwa [List.forall₂_eq_eq_eq] at heq

/-! ## Edges -/

namespace Edge

/-- **Edges with one text are the same.** -/
theorem eq_of_print {e f : Edge} (he : e.attributes.IsPlain) (hf : f.attributes.IsPlain)
    (h : print e.toJson = print f.toJson) : e = f := by
  obtain ⟨⟨source⟩, ⟨target⟩, r, a⟩ := e
  obtain ⟨⟨source'⟩, ⟨target'⟩, r', b⟩ := f
  rw [toJson_eq, toJson_eq] at h
  obtain ⟨⟨-, hsource⟩, ⟨-, htarget⟩, ⟨-, hrelationship⟩, hwritten⟩ :
      _ ∧ _ ∧ _ ∧ List.Forall₂ _ _ _ := by
    simpa only [fields, List.cons_append, List.forall₂_cons] using object_inj h
  obtain rfl : r = r' := by
    have hnamed := Relationship.named?_name r
    rw [string_inj hrelationship, Relationship.named?_name] at hnamed
    exact (Option.some.inj hnamed).symm
  obtain rfl := string_inj hsource
  obtain rfl := string_inj htarget
  -- attributes are written if there are any, so both are empty or both are written
  have hattributes : a = b := by
    rw [written?, written?] at hwritten
    dsimp only at hwritten
    by_cases ha : a.isEmpty = true
    · by_cases hb : b.isEmpty = true
      · rw [Std.ExtTreeMap.isEmpty_iff.mp ha, Std.ExtTreeMap.isEmpty_iff.mp hb]
      · rw [if_pos ha, if_neg hb] at hwritten
        cases hwritten
    · by_cases hb : b.isEmpty = true
      · rw [if_neg ha, if_pos hb] at hwritten
        cases hwritten
      · rw [if_neg ha, if_neg hb] at hwritten
        obtain ⟨⟨-, hprint⟩, -⟩ := List.forall₂_cons.mp hwritten
        exact Attributes.eq_of_print he hf hprint
  rw [hattributes]

end Edge

namespace Snapshot

/-- The attributes of all nodes and edges are plain. -/
def IsPlain (nodes : List Node) (edges : List Edge) : Prop :=
  (∀ n ∈ nodes, n.attributes.IsPlain) ∧ ∀ e ∈ edges, e.attributes.IsPlain

/-- A document that was read holds plain records. -/
theorem isPlain_of_ofJson? {v : Json} {d : Document} (hv : Plain v)
    (h : Document.ofJson? v = some d) : IsPlain d.nodes d.edges := by
  rw [Document.ofJson?] at h
  split at h
  · rename_i hrecord
    obtain ⟨graphId, -, h⟩ := Option.bind_eq_some_iff.mp h
    obtain ⟨createdAt, -, h⟩ := Option.bind_eq_some_iff.mp h
    obtain ⟨checksum, -, h⟩ := Option.bind_eq_some_iff.mp h
    obtain ⟨ns, hns, h⟩ := Option.bind_eq_some_iff.mp h
    obtain ⟨es, hes, h⟩ := Option.bind_eq_some_iff.mp h
    cases h
    refine ⟨fun n hn => ?_, fun e he => ?_⟩
    · obtain ⟨w, hw, hread⟩ := exists_plain_of_list?
        (fun w hw => plain_of_mem_record? hv hrecord (by simp [hw])) hns hn
      exact Node.isPlain_of_ofJson? hw hread
    · obtain ⟨w, hw, hread⟩ := exists_plain_of_list?
        (fun w hw => plain_of_mem_record? hv hrecord (by simp [hw])) hes he
      exact Edge.isPlain_of_ofJson? hw hread
  · cases h

/-- The attributes of a document that is read are plain. -/
theorem isPlain_of_parse {text : String} {d : Document} (h : Document.parse text = .ok d) :
    IsPlain d.nodes d.edges := by
  rw [Document.parse] at h
  split at h
  · cases h
  · split at h
    · split at h
      · rename_i d' hd
        cases h
        obtain ⟨v, hparse, hread⟩ := Option.bind_eq_some_iff.mp hd
        exact isPlain_of_ofJson? (plain_of_parseAs? hparse) hread
      · cases h
    · cases h

variable {nodes ns : List Node} {edges es : List Edge}

/-- **Bodies with one text have nodes that are alike, and the same edges.** -/
theorem forall₂_of_print_body (hread : IsPlain ns es) (hplain : IsPlain nodes edges)
    (h : print (.object (body ns es)) = print (.object (body nodes edges))) :
    List.Forall₂ Node.Alike ns nodes ∧ es = edges := by
  have hfields := object_inj h
  rw [body, body] at hfields
  cases hfields with
  | cons hnode hrest =>
    cases hrest with
    | cons hedge =>
      have hnodeList := array_inj hnode.2
      have hedgeList := array_inj hedge.2
      rw [List.forall₂_map_left_iff, List.forall₂_map_right_iff] at hnodeList hedgeList
      refine ⟨forall₂_imp_of_mem hnodeList fun n hn m hm => ?_, ?_⟩
      · exact Node.alike_of_print (hread.1 n hn) (hplain.1 m hm)
      · have heq := forall₂_imp_of_mem hedgeList fun e he f hf =>
          Edge.eq_of_print (hread.2 e he) (hplain.2 f hf)
        rwa [List.forall₂_eq_eq_eq] at heq

end Snapshot

end CodeGraph

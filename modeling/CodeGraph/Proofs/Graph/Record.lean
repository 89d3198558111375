import CodeGraph.Graph.Record
import CodeGraph.Proofs.Json.Plain
import Mathlib.Data.List.Forall2
/-! # Records that are read have plain attributes

    The values of attributes come from the text that is read.

    * Sorting the fields of a value keeps its parts (`Plain.canonical`).
    * The fields of a record are parts of the value that it is read from
      (`plain_of_mem_record?`), and so are its attributes. -/

namespace CodeGraph

open Json

/-! ## Lists that are read -/

theorem forall₂_of_mapM {α β : Type} {f : α → Option β} {xs : List α} {ys : List β}
    (h : xs.mapM f = some ys) : List.Forall₂ (fun x y => f x = some y) xs ys := by
  induction xs generalizing ys with
  | nil =>
      cases h
      exact List.Forall₂.nil
  | cons x xs ih =>
      rw [List.mapM_cons] at h
      obtain ⟨y, hy, h⟩ := Option.bind_eq_some_iff.mp h
      obtain ⟨zs, hzs, h⟩ := Option.bind_eq_some_iff.mp h
      cases h
      exact List.Forall₂.cons hy (ih hzs)

theorem exists_of_mem_mapM {α β : Type} {f : α → Option β} {xs : List α} {ys : List β}
    (h : xs.mapM f = some ys) {y : β} (hy : y ∈ ys) : ∃ x ∈ xs, f x = some y := by
  have hall := forall₂_of_mapM h
  clear h
  induction hall with
  | nil => cases hy
  | cons hx _ ih =>
      rcases List.mem_cons.mp hy with rfl | hy
      · exact ⟨_, List.mem_cons_self, hx⟩
      · obtain ⟨x, hx, hback⟩ := ih hy
        exact ⟨x, List.mem_cons_of_mem _ hx, hback⟩

namespace Json

/-! ## Canonical form -/

theorem canonicalItems_eq (xs : List Json) : canonicalItems xs = xs.map canonical := by
  induction xs with
  | nil => rfl
  | cons x xs ih => rw [canonicalItems, ih, List.map_cons]

/-- In canonical form the value of each field is in canonical form. -/
theorem canonicalFields_eq (fs : List (String × Json)) :
    canonicalFields fs = fs.map fun f => (f.1, f.2.canonical) := by
  induction fs with
  | nil => rfl
  | cons f fs ih => rw [canonicalFields, ih, List.map_cons]

/-- A field that is set is the new one, and the others stay. -/
theorem mem_setField {key : String} {value : Json} {fs : List (String × Json)}
    {f : String × Json} (h : f ∈ setField key value fs) : f = (key, value) ∨ f ∈ fs := by
  induction fs with
  | nil => exact Or.inl (List.mem_singleton.mp h)
  | cons g fs ih =>
      rw [setField] at h
      split at h
      · exact List.mem_cons.mp h
      · rcases List.mem_cons.mp h with rfl | h
        · exact Or.inl rfl
        · exact Or.inr (List.mem_cons_of_mem _ h)
      · rcases List.mem_cons.mp h with rfl | h
        · exact Or.inr List.mem_cons_self
        · exact (ih h).imp_right (List.mem_cons_of_mem _)

/-- Sorting adds no field. -/
theorem mem_of_mem_sortFields {fs : List (String × Json)} {f : String × Json}
    (h : f ∈ sortFields fs) : f ∈ fs := by
  -- the fields that are sorted already are in the way of the induction
  have hfold : ∀ sorted, f ∈ fs.foldl (fun sorted f => setField f.1 f.2 sorted) sorted →
      f ∈ sorted ∨ f ∈ fs := by
    clear h
    induction fs with
    | nil => exact fun sorted h => Or.inl h
    | cons g fs ih =>
        intro sorted h
        rcases ih _ h with h | h
        · exact (mem_setField h).symm.imp_right fun heq => by
            rw [heq]
            exact List.mem_cons_self
        · exact Or.inr (List.mem_cons_of_mem g h)
  exact (hfold [] h).resolve_left List.not_mem_nil

/-- Sorting the fields of a value keeps it plain. -/
theorem Plain.canonical {v : Json} (h : Plain v) : Plain v.canonical := by
  induction h with
  | null => exact .null
  | bool b => exact .bool b
  | number x hx => exact .number x hx
  | string s => exact .string s
  | array xs _ ih =>
      rw [Json.canonical, canonicalItems_eq]
      refine .array _ fun y hy => ?_
      obtain ⟨x, hx, rfl⟩ := List.mem_map.mp hy
      exact ih x hx
  | object fs _ ih =>
      rw [Json.canonical, canonicalFields_eq]
      refine .object _ fun g hg => ?_
      obtain ⟨f, hf, rfl⟩ := List.mem_map.mp (mem_of_mem_sortFields hg)
      exact ih f hf

/-! ## Fields -/

/-- What is found under a name is plain if all fields are. -/
theorem plain_of_uniqueField? {fs : List (String × Json)} {name : String} {v : Json}
    (hfs : ∀ f ∈ fs, Plain f.2) (h : uniqueField? fs name = some (some v)) : Plain v := by
  rw [uniqueField?] at h
  split at h
  · cases h
  · rename_i f hfilter
    cases h
    have hmem : f ∈ fs.filter fun f => f.1 = name := by
      rw [hfilter]
      exact List.mem_singleton_self f
    exact hfs f (List.mem_filter.mp hmem).1
  · cases h

/-- The fields of a record are plain. -/
theorem plain_of_mem_record? {names : List String} {v w : Json} {fields : List (Option Json)}
    (hv : Plain v) (h : v.record? names = some fields) (hw : some w ∈ fields) : Plain w := by
  cases hv with
  | object fs hfs =>
      have hfields : names.mapM (uniqueField? fs) = some fields := h
      obtain ⟨name, -, hname⟩ := exists_of_mem_mapM hfields hw
      exact plain_of_uniqueField? hfs hname
  | array xs hxs =>
      rw [record?] at h
      split at h
      · cases h
      · cases h
        rcases List.mem_append.mp hw with hw | hw
        · obtain ⟨x, hx, heq⟩ := List.mem_map.mp hw
          rw [← Option.some.inj heq]
          exact hxs x hx
        · cases List.eq_of_mem_replicate hw
  | null => cases h
  | bool b => cases h
  | number x hx => cases h
  | string s => cases h

/-- What is read in a list is read from plain values. -/
theorem exists_plain_of_list? {α : Type} {read : Json → Option α} {field : Option Json}
    {ys : List α} (hfield : ∀ w, field = some w → Plain w)
    (h : required (list? read) field = some ys) {y : α} (hy : y ∈ ys) :
    ∃ x, Plain x ∧ read x = some y := by
  obtain ⟨w, hw, h⟩ := Option.bind_eq_some_iff.mp h
  obtain ⟨items, hitems, h⟩ := Option.bind_eq_some_iff.mp h
  obtain ⟨x, hx, hread⟩ := exists_of_mem_mapM h hy
  cases hfield w hw with
  | array xs hxs =>
      cases hitems
      exact ⟨x, hxs x hx, hread⟩
  | _ => cases hitems

end Json

/-! ## Attributes -/

/-- All numbers in the attributes are plain. -/
def Attributes.IsPlain (a : Attributes) : Prop := ∀ (key : String) v, a[key]? = some v → Plain v

namespace Attributes

theorem isPlain_empty : IsPlain ∅ := by
  intro key v h
  rw [Std.ExtTreeMap.getElem?_empty] at h
  cases h

/-- Plain attributes stay plain with one more plain value. -/
theorem IsPlain.insert {a : Attributes} {key : String} {v : Json} (ha : a.IsPlain)
    (hv : Plain v) : IsPlain (a.insert key v) := by
  intro k w h
  rw [Std.ExtTreeMap.getElem?_insert] at h
  split at h
  · cases h
    exact hv
  · exact ha k w h

/-- Attributes are plain if the fields are that they are made of. -/
theorem isPlain_ofList {fs : List (String × Json)} (h : ∀ f ∈ fs, Plain f.2) :
    IsPlain (.ofList fs) := by
  rw [Std.ExtTreeMap.ofList_eq_foldl]
  have hfold : ∀ a : Attributes, a.IsPlain →
      IsPlain (fs.foldl (fun a f => a.insert f.1 f.2) a) := by
    induction fs with
    | nil => exact fun a ha => ha
    | cons f fs ih =>
        intro a ha
        exact ih (fun g hg => h g (List.mem_cons_of_mem f hg)) _
          (ha.insert (h f List.mem_cons_self))
  exact hfold ∅ isPlain_empty

/-- Attributes that are read from a plain value are plain. -/
theorem isPlain_of_ofJson? {v : Json} {a : Attributes} (hv : Plain v)
    (h : Attributes.ofJson? v = some a) : a.IsPlain := by
  obtain ⟨fs, hfs, rfl⟩ := Option.map_eq_some_iff.mp h
  cases hv with
  | object gs hgs =>
      cases hfs
      refine isPlain_ofList fun f hf => ?_
      obtain ⟨g, hg, rfl⟩ := List.mem_map.mp hf
      exact (hgs g hg).canonical
  | _ => cases hfs

theorem isPlain_of_orElse {v? : Option Json} {a : Attributes} (hv : ∀ v, v? = some v → Plain v)
    (h : orElse ∅ Attributes.ofJson? v? = some a) : a.IsPlain := by
  cases v? with
  | none =>
      cases h
      exact isPlain_empty
  | some v => exact isPlain_of_ofJson? (hv v rfl) h

end Attributes

/-- **The attributes of a node that is read are plain.** -/
theorem Node.isPlain_of_ofJson? {v : Json} {n : Node} (hv : Plain v)
    (h : Node.ofJson? v = some n) : n.attributes.IsPlain := by
  rw [Node.ofJson?] at h
  split at h
  · rename_i hrecord
    obtain ⟨id, -, h⟩ := Option.bind_eq_some_iff.mp h
    obtain ⟨kind, -, h⟩ := Option.bind_eq_some_iff.mp h
    obtain ⟨a, ha, h⟩ := Option.bind_eq_some_iff.mp h
    obtain ⟨v?, -, h⟩ := Option.bind_eq_some_iff.mp h
    cases h
    refine Attributes.isPlain_of_orElse ?_ ha
    rintro w rfl
    exact plain_of_mem_record? hv hrecord (by simp)
  · cases h

/-- **The attributes of an edge that is read are plain.** -/
theorem Edge.isPlain_of_ofJson? {v : Json} {e : Edge} (hv : Plain v)
    (h : Edge.ofJson? v = some e) : e.attributes.IsPlain := by
  rw [Edge.ofJson?] at h
  split at h
  · rename_i hrecord
    obtain ⟨source, -, h⟩ := Option.bind_eq_some_iff.mp h
    obtain ⟨target, -, h⟩ := Option.bind_eq_some_iff.mp h
    obtain ⟨r, -, h⟩ := Option.bind_eq_some_iff.mp h
    obtain ⟨a, ha, h⟩ := Option.bind_eq_some_iff.mp h
    cases h
    refine Attributes.isPlain_of_orElse ?_ ha
    rintro w rfl
    exact plain_of_mem_record? hv hrecord (by simp)
  · cases h

end CodeGraph

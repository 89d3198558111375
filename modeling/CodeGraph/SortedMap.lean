import Std.Data.ExtTreeMap
/-! # Sorted maps — what lists of their entries look like

    Facts about the entries of a map that is kept in the order of its keys. -/

namespace CodeGraph.SortedMap

open Std

variable {α β : Type} {cmp : α → α → Ordering} [TransCmp cmp]

/-- After a key is set, the entries are that one and those under other keys. -/
theorem toList_insert_perm [BEq α] [LawfulBEqCmp cmp] (m : ExtTreeMap α β cmp) (k : α)
    (v : β) :
    (m.insert k v).toList.Perm ((k, v) :: m.toList.filter fun p => !(k == p.1)) := by
  obtain ⟨⟨q⟩⟩ := m
  induction q using Quotient.ind with
  | _ q =>
      have h := DTreeMap.Const.toList_insert_perm (t := q) (k := k) (v := v)
      simp only [Bool.not_eq_true, Bool.decide_eq_false] at h
      exact h

/-- The sum of `f` over the values of entries. -/
def sumOf (f : β → Nat) : List (α × β) → Nat
  | [] => 0
  | p :: l => f p.2 + sumOf f l

/-- The sum of `f` over the values of a map. -/
def total (f : β → Nat) (m : ExtTreeMap α β cmp) : Nat := sumOf f m.toList

theorem sumOf_perm {f : β → Nat} {l l' : List (α × β)} (h : l.Perm l') :
    sumOf f l = sumOf f l' := by
  induction h with
  | nil => rfl
  | cons x _ ih => simp only [sumOf, ih]
  | swap x y l => simp only [sumOf]; omega
  | trans _ _ ih₁ ih₂ => exact ih₁.trans ih₂

theorem sumOf_filter_le (f : β → Nat) (p : α × β → Bool) (l : List (α × β)) :
    sumOf f (l.filter p) ≤ sumOf f l := by
  induction l with
  | nil => exact Nat.le_refl _
  | cons x l ih =>
      simp only [List.filter_cons]
      split <;> simp only [sumOf] <;> omega

/-- An entry that is dropped is missing from the sum. -/
theorem add_sumOf_filter_le {f : β → Nat} {p : α × β → Bool} {x : α × β}
    {l : List (α × β)} (h : x ∈ l) (hp : p x = false) :
    f x.2 + sumOf f (l.filter p) ≤ sumOf f l := by
  induction h with
  | head l =>
      have := sumOf_filter_le f p l
      simp only [List.filter_cons, hp, sumOf]
      simp only [Bool.false_eq_true, if_false]
      omega
  | tail y _ ih =>
      simp only [List.filter_cons]
      split <;> simp only [sumOf] <;> omega

/-- A smaller value under a key that is set makes the sum smaller. -/
theorem total_insert_lt [DecidableEq α] [LawfulEqCmp cmp] {f : β → Nat}
    {m : ExtTreeMap α β cmp} {k : α} {old new : β} (h : m[k]? = some old)
    (hlt : f new < f old) : total f (m.insert k new) < total f m := by
  have hsum := sumOf_perm (f := f) (toList_insert_perm m k new)
  have hmem : (k, old) ∈ m.toList := ExtTreeMap.mem_toList_iff_getElem?_eq_some.mpr h
  have hle := add_sumOf_filter_le (f := f) (p := fun p => !(k == p.1)) hmem (by simp)
  simp only [total, sumOf] at hsum hle ⊢
  omega

end CodeGraph.SortedMap

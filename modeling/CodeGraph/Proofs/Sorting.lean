import CodeGraph.Graph.Store
import Mathlib.Data.List.Perm.Basic
/-! # Sorting — lists in the order of a comparison

    Wherever the model sorts, it merges by a comparison.  What follows from
    that alone is gathered here.

    * `pairwise_mergeSort`: a sorted list ascends.
    * `mergeSort_eq_of_perm`: it depends on its members alone, if the comparison
      tells them apart; otherwise its keys do (`map_eq_of_perm`).
    * `find?_mergeSort`: members that the comparison does not tell apart keep their
      order.
    * `filter_mergeSort`: members may be left out before or after sorting.
    * `filter_append_filter_not`: what comes first for a property is divided by it.
    * `mem_dropRepeats`: dropping repetitions loses no member, and what is left
      of a sorted list ascends strictly. -/

namespace CodeGraph.Sorting

open Std

variable {α : Type} {cmp : α → α → Ordering} [TransCmp cmp]

/-- Of two members one is not above the other. -/
theorem total (cmp : α → α → Ordering) [TransCmp cmp] (a b : α) :
    ((cmp a b).isLE || (cmp b a).isLE) = true := by
  have hswap : cmp b a = (cmp a b).swap := OrientedCmp.eq_swap
  rw [Bool.or_eq_true, hswap]
  cases cmp a b <;> decide

/-- A sorted list ascends. -/
theorem pairwise_mergeSort (cmp : α → α → Ordering) [TransCmp cmp] (xs : List α) :
    (xs.mergeSort fun a b => (cmp a b).isLE).Pairwise fun a b => (cmp a b).isLE :=
  List.pairwise_mergeSort (fun _ _ _ => TransCmp.isLE_trans) (total cmp) xs

/-- **A sorted list depends on its members only,** if the comparison tells them
    apart. -/
theorem mergeSort_eq_of_perm {xs ys : List α} (h : xs.Perm ys)
    (hcmp : ∀ (a b : α), a ∈ xs → b ∈ xs → cmp a b = .eq → a = b) :
    (xs.mergeSort fun a b => (cmp a b).isLE) = ys.mergeSort fun a b => (cmp a b).isLE := by
  have hperm := (List.mergeSort_perm xs fun a b => (cmp a b).isLE).trans
    (h.trans (List.mergeSort_perm ys fun a b => (cmp a b).isLE).symm)
  refine hperm.eq_of_pairwise ?_ (pairwise_mergeSort cmp xs) (pairwise_mergeSort cmp ys)
  intro a b ha hb hab hba
  refine hcmp a b (List.mem_mergeSort.mp ha) (h.mem_iff.mpr (List.mem_mergeSort.mp hb)) ?_
  exact OrientedCmp.isLE_antisymm hab hba

/-- Two sorted lists with the same members have the same keys, if the comparison
    tells apart what differs in its key and nothing else. -/
theorem map_eq_of_perm {β : Type} {key : α → β} (hkey : ∀ (a b : α), cmp a b = .eq ↔ key a = key b)
    {xs ys : List α} (h : xs.Perm ys) (hxs : xs.Pairwise fun a b => (cmp a b).isLE)
    (hys : ys.Pairwise fun a b => (cmp a b).isLE) : xs.map key = ys.map key := by
  -- keys are compared as the members that have them
  have hbelow : ∀ (zs : List α), (zs.Pairwise fun a b => (cmp a b).isLE) →
      (zs.map key).Pairwise fun k l => ∃ a b, key a = k ∧ key b = l ∧ (cmp a b).isLE := by
    intro zs hzs
    rw [List.pairwise_map]
    exact hzs.imp fun {a b} hab => ⟨a, b, rfl, rfl, hab⟩
  refine (h.map key).eq_of_pairwise ?_ (hbelow xs hxs) (hbelow ys hys)
  rintro k l - - ⟨a, b, rfl, rfl, hab⟩ ⟨b', a', hb, ha, hba⟩
  have hb' : cmp b b' = .eq := (hkey b b').mpr hb.symm
  have ha' : cmp a' a = .eq := (hkey a' a).mpr ha
  rw [← TransCmp.congr_left hb', TransCmp.congr_right ha'] at hba
  exact (hkey a b).mp (OrientedCmp.isLE_antisymm hab hba)

/-- What the comparison does not tell apart stays as it stands, so the first of
    such members is the same before and after. -/
theorem find?_mergeSort {p : α → Bool} {xs : List α}
    (hp : ∀ (a b : α), p a = true → p b = true → cmp a b = .eq) :
    (xs.mergeSort fun a b => (cmp a b).isLE).find? p = xs.find? p := by
  have hascends : (xs.filter p).Pairwise fun a b => (cmp a b).isLE := by
    refine List.pairwise_of_forall_mem_list ?_
    intro a ha b hb
    rw [hp a b (List.mem_filter.mp ha).2 (List.mem_filter.mp hb).2]
    rfl
  have hsub := (List.sublist_mergeSort (fun a b c => TransCmp.isLE_trans) (total cmp) hascends
    List.filter_sublist).filter p
  rw [List.filter_filter] at hsub
  simp only [Bool.and_self] at hsub
  -- the sublist has as many members, so it is the whole
  have heq := hsub.eq_of_length ((List.mergeSort_perm xs _).symm.filter p).length_eq
  rw [← List.head?_filter, ← heq, List.head?_filter]

omit [TransCmp cmp] in
/-- There is one place in a list where a property ends. -/
theorem append_inj_of_forall {q : α → Bool} {l l' r r' : List α} (h : l ++ r = l' ++ r')
    (hl : ∀ a ∈ l, q a = true) (hr : ∀ a ∈ r, q a = false) (hl' : ∀ a ∈ l', q a = true)
    (hr' : ∀ a ∈ r', q a = false) : l = l' ∧ r = r' := by
  have hfilter : ∀ l r : List α, (∀ a ∈ l, q a = true) → (∀ a ∈ r, q a = false) →
      (l ++ r).filter q = l := by
    intro l r hl hr
    rw [List.filter_append, List.filter_eq_self.mpr hl,
      List.filter_eq_nil_iff.mpr fun a ha => by rw [hr a ha]; decide, List.append_nil]
  have heq : l = l' := by
    rw [← hfilter l r hl hr, h, hfilter l' r' hl' hr']
  subst heq
  exact ⟨rfl, List.append_cancel_left h⟩

/-- **Sorting and filtering commute,** so what is left out changes nothing for the others. -/
theorem filter_mergeSort (p : α → Bool) (xs : List α) :
    (xs.mergeSort fun a b => (cmp a b).isLE).filter p =
      (xs.filter p).mergeSort fun a b => (cmp a b).isLE := by
  -- a sorted list falls into members that the first one is above and all others
  have hinsert : ∀ (a : α) (xs : List α), ∃ front rest,
      ((a :: xs).mergeSort fun a b => (cmp a b).isLE) = front ++ a :: rest ∧
      (xs.mergeSort fun a b => (cmp a b).isLE) = front ++ rest ∧
      (∀ b ∈ front, (!(cmp a b).isLE) = true) ∧ ∀ b ∈ rest, (!(cmp a b).isLE) = false := by
    intro a xs
    obtain ⟨front, rest, hcons, hsorted, hfront⟩ :=
      List.mergeSort_cons (fun _ _ _ => TransCmp.isLE_trans) (total cmp) a xs
    refine ⟨front, rest, hcons, hsorted, fun b hb => hfront b hb, ?_⟩
    have hascends := pairwise_mergeSort cmp (a :: xs)
    rw [hcons] at hascends
    intro b hb
    rw [(List.pairwise_cons.mp (List.pairwise_append.mp hascends).2.1).1 b hb]
    rfl
  induction xs with
  | nil => rw [List.filter_nil, List.mergeSort_nil, List.filter_nil]
  | cons a xs ih =>
      obtain ⟨front, rest, hcons, hsorted, hfront, hrest⟩ := hinsert a xs
      rw [hsorted, List.filter_append] at ih
      rw [hcons, List.filter_append]
      by_cases hp : p a = true
      · obtain ⟨front', rest', hcons', hsorted', hfront', hrest'⟩ := hinsert a (xs.filter p)
        rw [hsorted'] at ih
        obtain ⟨heq, heq'⟩ := append_inj_of_forall ih
          (fun b hb => hfront b (List.mem_filter.mp hb).1)
          (fun b hb => hrest b (List.mem_filter.mp hb).1) hfront' hrest'
        rw [List.filter_cons_of_pos hp, List.filter_cons_of_pos hp, hcons', heq, heq']
      · rw [List.filter_cons_of_neg hp, List.filter_cons_of_neg hp, ih]

/-- A list in which what has a property comes first is divided by it. -/
theorem filter_append_filter_not {p : α → Bool} {l : List α}
    (h : l.Pairwise fun a b => p b = true → p a = true) :
    l.filter p ++ l.filter (fun a => !p a) = l := by
  induction l with
  | nil => rfl
  | cons a l ih =>
      obtain ⟨ha, hl⟩ := List.pairwise_cons.mp h
      cases hp : p a with
      | true =>
          rw [List.filter_cons_of_pos hp, List.filter_cons_of_neg (by simp [hp]), List.cons_append,
            ih hl]
      | false =>
          have hnone : ∀ b ∈ a :: l, p b = false := by
            intro b hb
            rcases List.mem_cons.mp hb with rfl | hb
            · exact hp
            · cases hpb : p b with
              | false => rfl
              | true =>
                  rw [ha b hb hpb] at hp
                  cases hp
          have hfront : (a :: l).filter p = [] :=
            List.filter_eq_nil_iff.mpr fun b hb => by simp [hnone b hb]
          have hrest : (a :: l).filter (fun a => !p a) = a :: l :=
            List.filter_eq_self.mpr fun b hb => by simp [hnone b hb]
          rw [hfront, hrest, List.nil_append]

omit [TransCmp cmp] in
/-- Dropping repetitions loses no member. -/
theorem mem_dropRepeats [DecidableEq α] {a : α} {l : List α} :
    a ∈ Store.dropRepeats l ↔ a ∈ l := by
  induction l with
  | nil => rfl
  | cons b l ih =>
      cases l with
      | nil => rfl
      | cons c l =>
          rw [Store.dropRepeats]
          split
          · rename_i hbc
            subst hbc
            rw [ih, List.mem_cons (l := b :: l)]
            constructor
            · exact Or.inr
            · rintro (rfl | h)
              · exact List.mem_cons_self
              · exact h
          · rw [List.mem_cons, ih, List.mem_cons (l := c :: l)]

/-- Without repetitions a sorted list ascends strictly. -/
theorem pairwise_dropRepeats [DecidableEq α] [LawfulEqCmp cmp] {l : List α}
    (h : l.Pairwise fun a b => (cmp a b).isLE) :
    (Store.dropRepeats l).Pairwise fun a b => cmp a b = .lt := by
  induction l with
  | nil => exact List.Pairwise.nil
  | cons a l ih =>
      cases l with
      | nil => exact List.pairwise_singleton _ a
      | cons b l =>
          obtain ⟨ha, hl⟩ := List.pairwise_cons.mp h
          rw [Store.dropRepeats]
          split
          · exact ih hl
          · rename_i hab
            refine List.pairwise_cons.mpr ⟨?_, ih hl⟩
            -- `a` lies strictly below `b`, and `b` below all that is left
            have hlt : cmp a b = .lt := by
              have hle := ha b List.mem_cons_self
              cases hcmp : cmp a b with
              | lt => rfl
              | eq => exact absurd (LawfulEqCmp.eq_of_compare hcmp) hab
              | gt =>
                  rw [hcmp] at hle
                  cases hle
            intro c hc
            rcases List.mem_cons.mp (mem_dropRepeats.mp hc) with rfl | hc
            · exact hlt
            · exact TransCmp.lt_of_lt_of_isLE hlt ((List.pairwise_cons.mp hl).1 c hc)

end CodeGraph.Sorting

import CodeGraph.Module.Path
import CodeGraph.Proofs.Text.Split
/-! # The way up — paths and what lies above them

    A path is a name, or it consists of its parent, a slash and a name.  So what
    is said of paths can be proved by going up one directory at a time
    (`upward`).

    * Both the parent and the list of ancestors follow this shape (`parent_below`,
      `ancestors_below`).
    * A path lies below another if and only if it goes on behind it with a slash
      (`mem_ancestors`). -/

namespace CodeGraph.Path

open Text

/-! ## The shape of a path -/

theorem toList_below (up name : String) :
    (up ++ "/" ++ name).toList = up.toList ++ '/' :: name.toList := by
  rw [String.toList_append, String.toList_append, List.append_assoc]
  rfl

theorem slash_mem_below (up name : String) : '/' ∈ (up ++ "/" ++ name).toList := by
  rw [toList_below]
  exact List.mem_append_right _ List.mem_cons_self

/-- A path with a slash ends with a name behind its last slash. -/
theorem exists_name {path : String} (h : '/' ∈ path.toList) :
    ∃ up name : String, '/' ∉ name.toList ∧ path = up ++ "/" ++ name := by
  obtain ⟨back, front, hsplit, hname⟩ := List.eq_append_cons_of_mem (List.mem_reverse.mpr h)
  refine ⟨String.ofList front.reverse, String.ofList back.reverse, ?_, ?_⟩
  · rw [String.toList_ofList, List.mem_reverse]
    exact hname
  · rw [← String.toList_inj, toList_below, String.toList_ofList, String.toList_ofList,
      ← List.reverse_reverse path.toList, hsplit]
    simp

/-- **What holds of names, and of a path if it holds of its parent, holds of all
    paths.** -/
@[elab_as_elim]
theorem upward {motive : String → Prop}
    (top : ∀ name : String, '/' ∉ name.toList → motive name)
    (below : ∀ up name : String, '/' ∉ name.toList → motive up → motive (up ++ "/" ++ name))
    (path : String) : motive path := by
  by_cases h : '/' ∈ path.toList
  · obtain ⟨up, name, hname, rfl⟩ := exists_name h
    exact below up name hname (upward top below up)
  · exact top path h
termination_by path.length
decreasing_by
  subst_vars
  simp only [String.length_append]
  have : "/".length = 1 := rfl
  omega

/-! ## Components -/

/-- A name without slashes is its only component. -/
theorem components_top {name : String} (h : '/' ∉ name.toList) : components name = [name] := by
  have hplain : ∀ c ∈ name.toList, decide (c = '/') = false := by
    intro c hc
    refine decide_eq_false ?_
    rintro rfl
    exact h hc
  rw [components, split, pieces_of_forall hplain, List.map_singleton, String.ofList_toList]

/-- The components behind a slash follow those in front of it. -/
theorem components_append (up rest : String) :
    components (up ++ "/" ++ rest) = components up ++ components rest := by
  rw [components, split, toList_below, pieces_append (decide_eq_true rfl), List.map_append]
  rfl

theorem components_below (up : String) {name : String} (h : '/' ∉ name.toList) :
    components (up ++ "/" ++ name) = components up ++ [name] := by
  rw [components_append, components_top h]

/-- Even the empty path has a component, which is empty. -/
theorem components_ne_nil (path : String) : components path ≠ [] := by
  rw [components, split, ne_eq, List.map_eq_nil_iff]
  exact pieces_ne_nil _ _

/-- Joining the components gives the path back. -/
theorem join_components (path : String) : join "/" (components path) = path := by
  induction path using upward with
  | top name h =>
      rw [components_top h]
      rfl
  | below up name h ih =>
      rw [components_below up h, join_concat "/" name (components_ne_nil up), ih]

/-! ## What lies above -/

/-- What stands in front of the last slash is the directory. -/
theorem parent_below (up : String) {name : String} (h : '/' ∉ name.toList) :
    parent (up ++ "/" ++ name) = up := by
  rw [parent, components_below up h, List.dropLast_concat, join_components]

theorem ancestors_top {name : String} (h : '/' ∉ name.toList) : ancestors name = [] := by
  rw [ancestors, components_top h]
  rfl

/-- Above a path lie its directory and what lies above that. -/
theorem ancestors_below (up : String) {name : String} (h : '/' ∉ name.toList) :
    ancestors (up ++ "/" ++ name) = ancestors up ++ [up] := by
  obtain ⟨k, hk⟩ : ∃ k, (components up).length = k + 1 :=
    Nat.exists_eq_succ_of_ne_zero (mt List.eq_nil_of_length_eq_zero (components_ne_nil up))
  -- the last number takes all components of the parent, the others some of them
  have htake : ∀ n ∈ List.range' 1 k,
      join "/" ((components up ++ [name]).take n) = join "/" ((components up).take n) := by
    intro n hn
    rw [List.mem_range'_1] at hn
    rw [List.take_append_of_le_length (by omega)]
  rw [ancestors, ancestors, components_below up h, List.length_append, hk,
    List.length_singleton, Nat.add_sub_cancel, Nat.add_sub_cancel, List.range'_1_concat,
    List.map_append, List.map_congr_left htake, List.map_singleton, Nat.add_comm 1 k, ← hk,
    List.take_left' rfl, join_components]

/-- **The ancestors of a path are the paths that it goes on behind with a slash.** -/
theorem mem_ancestors {path q : String} :
    q ∈ ancestors path ↔ ∃ rest, path = q ++ "/" ++ rest := by
  induction path using upward with
  | top name h =>
      rw [ancestors_top h]
      constructor
      · exact nofun
      · rintro ⟨rest, rfl⟩
        exact absurd (slash_mem_below q rest) h
  | below up name h ih =>
      rw [ancestors_below up h, List.mem_append, ih, List.mem_singleton]
      constructor
      · rintro (⟨rest, rfl⟩ | rfl)
        · exact ⟨rest ++ "/" ++ name, by simp only [String.append_assoc]⟩
        · exact ⟨name, rfl⟩
      · rintro ⟨rest, hrest⟩
        have hup : up = parent (q ++ "/" ++ rest) := by rw [← hrest, parent_below up h]
        by_cases hslash : '/' ∈ rest.toList
        · -- the name is the end of the rest, and the parent what is left of it
          obtain ⟨middle, last, hlast, rfl⟩ := exists_name hslash
          refine Or.inl ⟨middle, ?_⟩
          rw [hup, ← String.append_assoc, ← String.append_assoc, parent_below _ hlast]
        · exact Or.inr (by rw [hup, parent_below q hslash])

/-- What lies above an ancestor lies above the path. -/
theorem ancestors_trans {path q r : String} (hq : q ∈ ancestors path) (hr : r ∈ ancestors q) :
    r ∈ ancestors path := by
  obtain ⟨rest, rfl⟩ := mem_ancestors.mp hq
  obtain ⟨rest', rfl⟩ := mem_ancestors.mp hr
  exact mem_ancestors.mpr ⟨rest' ++ "/" ++ rest, by simp only [String.append_assoc]⟩

/-- The parent has one slash less. -/
theorem count_parent {path : String} (h : '/' ∈ path.toList) :
    path.toList.count '/' = (parent path).toList.count '/' + 1 := by
  obtain ⟨up, name, hname, rfl⟩ := exists_name h
  rw [parent_below up hname, toList_below, List.count_append, List.count_cons_self,
    List.count_eq_zero_of_not_mem hname]

end CodeGraph.Path

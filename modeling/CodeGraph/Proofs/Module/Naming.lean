import CodeGraph.Proofs.Path
/-! # Naming — what the parts of a path are made of

    An import names a file by its last segments and prefers the nearest one.

    * A path that does not end with a slash has a file name that is not empty
      (`fileName_spec`), and so has its stem (`stem_ne_empty`).
    * A directory is as near to another as it can be if it begins with the same
      leading components (`nearness_eq_iff`).  Segments are compared from the other end,
      and are all common if one list ends with the other (`commonEnd_eq_length_iff`). -/

namespace CodeGraph.Path

open Text

/-! ## File names and stems -/

theorem fileName_top {name : String} (h : '/' ∉ name.toList) : fileName name = name := by
  rw [fileName, components_top h]
  rfl

/-- Behind the last slash stands the file name. -/
theorem fileName_below (up : String) {name : String} (h : '/' ∉ name.toList) :
    fileName (up ++ "/" ++ name) = name := by
  rw [fileName, components_below up h, List.getLast?_concat, Option.getD_some]

/-- A file name is a part of its path, without slashes. -/
theorem fileName_spec (path : String) : '/' ∉ (fileName path).toList ∧
    (∀ c ∈ (fileName path).toList, c ∈ path.toList) ∧
      (path ≠ "" → path.toList.getLast? ≠ some '/' → fileName path ≠ "") := by
  by_cases h : '/' ∈ path.toList
  · obtain ⟨up, name, hname, rfl⟩ := exists_name h
    rw [fileName_below up hname]
    refine ⟨hname, ?_, ?_⟩
    · intro c hc
      rw [toList_below]
      exact List.mem_append_right _ (List.mem_cons_of_mem _ hc)
    · rintro - hlast rfl
      refine hlast ?_
      rw [toList_below]
      exact List.getLast?_concat
  · rw [fileName_top h]
    exact ⟨h, fun _ hc => hc, fun hne _ => hne⟩

/-- What is put together is made of its parts and of what stands between them. -/
theorem mem_intercalate {c d : Char} {ws : List (List Char)} (h : c ∈ [d].intercalate ws) :
    c = d ∨ ∃ w ∈ ws, c ∈ w := by
  induction ws with
  | nil =>
      rw [List.intercalate_nil] at h
      exact absurd h List.not_mem_nil
  | cons w ws ih =>
      by_cases hws : ws = []
      · subst hws
        rw [List.intercalate_singleton] at h
        exact Or.inr ⟨w, List.mem_cons_self, h⟩
      · rw [List.intercalate_cons_of_ne_nil hws, List.mem_append, List.mem_append,
          List.mem_singleton] at h
        rcases h with (h | h) | h
        · exact Or.inr ⟨w, List.mem_cons_self, h⟩
        · exact Or.inl h
        · rcases ih h with h | ⟨v, hv, hc⟩
          · exact Or.inl h
          · exact Or.inr ⟨v, List.mem_cons_of_mem w hv, hc⟩

/-- What is left of a name without its extension is not empty, and is a part of it but for
    dots. -/
theorem cutExtension?_spec {name front extension : String}
    (h : cutExtension? name = some (front, extension)) :
    front ≠ "" ∧ ∀ c ∈ front.toList, c = '.' ∨ c ∈ name.toList := by
  rw [cutExtension?] at h
  split at h
  · cases h
  · dsimp only at h
    split at h
    · cases h
    · rename_i hcut
      rw [not_or] at hcut
      cases h
      refine ⟨?_, ?_⟩
      · intro hempty
        exact hcut.2 (String.ofList_inj.mp hempty)
      · intro c hc
        rw [String.toList_ofList] at hc
        rcases mem_intercalate hc with hdot | ⟨w, hw, hc⟩
        · exact Or.inl hdot
        · exact Or.inr ((sublist_of_mem_pieces ((List.dropLast_sublist _).mem hw)).mem hc)

/-- A stem is a part of the file name but for dots. -/
theorem mem_of_mem_stem {path : String} {c : Char} (h : c ∈ (stem path).toList) :
    c = '.' ∨ c ∈ (fileName path).toList := by
  rw [stem] at h
  split at h
  · rename_i hcut
    exact (cutExtension?_spec hcut).2 c h
  · exact Or.inr h

/-- A file name that is not empty has a stem that is not empty. -/
theorem stem_ne_empty {path : String} (h : fileName path ≠ "") : stem path ≠ "" := by
  rw [stem]
  split
  · rename_i hcut
    exact (cutExtension?_spec hcut).1
  · exact h

/-! ## Nearness -/

/-- The components of a directory in front of the first empty one. -/
def lead (directory : String) : List String := (components directory).takeWhile (· ≠ "")

section Front

variable {α : Type} [DecidableEq α]

/-- No more is common at the front than there is. -/
theorem commonFront_le (as bs : List α) : commonFront as bs ≤ bs.length := by
  induction as generalizing bs with
  | nil =>
      cases bs with
      | nil => exact Nat.le_refl _
      | cons b bs => exact Nat.zero_le _
  | cons a as ih =>
      cases bs with
      | nil => exact Nat.le_refl _
      | cons b bs =>
          rw [commonFront]
          split
          · exact Nat.succ_le_succ (ih bs)
          · exact Nat.zero_le _

/-- A list has all of another one in common with it at the front if it begins with it. -/
theorem commonFront_eq_length_iff {as bs : List α} :
    commonFront as bs = bs.length ↔ bs <+: as := by
  induction as generalizing bs with
  | nil =>
      cases bs with
      | nil => simp [commonFront]
      | cons b bs => simp [commonFront]
  | cons a as ih =>
      cases bs with
      | nil => simp [commonFront]
      | cons b bs =>
          rw [commonFront, List.cons_prefix_cons]
          by_cases hab : a = b
          · rw [if_pos hab, List.length_cons, Nat.add_right_cancel_iff, ih]
            exact ⟨fun h => ⟨hab.symm, h⟩, And.right⟩
          · rw [if_neg hab]
            exact ⟨nofun, fun h => absurd h.1.symm hab⟩

/-- A list has all of another one in common with it at the end if it ends with it. -/
theorem commonEnd_eq_length_iff {as bs : List α} :
    commonEnd as bs = bs.length ↔ bs <:+ as := by
  rw [commonEnd, ← List.length_reverse, commonFront_eq_length_iff, List.reverse_prefix]

end Front

/-- A directory is no nearer to another than that one is deep. -/
theorem nearness_le (a b : String) : nearness a b ≤ (lead b).length := commonFront_le _ _

/-- A directory is nearest to another if it begins with its leading components. -/
theorem nearness_eq_iff {a b : String} : nearness a b = (lead b).length ↔ lead b <+: lead a :=
  commonFront_eq_length_iff

end CodeGraph.Path

import CodeGraph.Text.Split
/-! # Cutting and joining — the pieces of a text

    A separator cuts a text in two, and each part is cut further on its own. -/

namespace CodeGraph.Text

variable {p : Char → Bool}

/-- A text without separators is one piece. -/
theorem pieces_of_forall {cs : List Char} (h : ∀ c ∈ cs, p c = false) :
    pieces p cs = [cs] := by
  induction cs with
  | nil => rfl
  | cons c cs ih =>
      have hc : ¬ p c = true := by
        rw [h c List.mem_cons_self]
        exact Bool.false_ne_true
      rw [pieces, if_neg hc, ih fun d hd => h d (List.mem_cons_of_mem c hd)]

/-- No separator is in a piece. -/
theorem eq_false_of_mem_pieces {cs w : List Char} (h : w ∈ pieces p cs) :
    ∀ c ∈ w, p c = false := by
  induction cs generalizing w with
  | nil =>
      rw [pieces, List.mem_singleton] at h
      subst h
      intro d hd
      cases hd
  | cons c cs ih =>
      rw [pieces] at h
      split at h
      · rcases List.mem_cons.mp h with rfl | h
        · intro d hd
          cases hd
        · exact ih h
      · rename_i hc
        split at h
        · rename_i hnil
          exact absurd hnil (pieces_ne_nil p cs)
        · rename_i v vs hv
          rcases List.mem_cons.mp h with rfl | h
          · intro d hd
            rcases List.mem_cons.mp hd with rfl | hd
            · exact Bool.eq_false_iff.mpr hc
            · exact ih (by rw [hv]; exact List.mem_cons_self) d hd
          · exact ih (by rw [hv]; exact List.mem_cons_of_mem v h)

/-- A piece is a part of the text. -/
theorem sublist_of_mem_pieces {cs w : List Char} (h : w ∈ pieces p cs) : w.Sublist cs := by
  induction cs generalizing w with
  | nil =>
      rw [pieces, List.mem_singleton] at h
      subst h
      exact List.Sublist.refl []
  | cons c cs ih =>
      rw [pieces] at h
      split at h
      · rcases List.mem_cons.mp h with rfl | h
        · exact List.nil_sublist _
        · exact (ih h).cons c
      · split at h
        · rename_i hnil
          exact absurd hnil (pieces_ne_nil p cs)
        · rename_i v vs hv
          rcases List.mem_cons.mp h with rfl | h
          · exact (ih (by rw [hv]; exact List.mem_cons_self)).cons_cons c
          · exact (ih (by rw [hv]; exact List.mem_cons_of_mem v h)).cons c

/-- The pieces in front of a separator, and then those behind it. -/
theorem pieces_append {d : Char} (hd : p d = true) (cs rest : List Char) :
    pieces p (cs ++ d :: rest) = pieces p cs ++ pieces p rest := by
  induction cs with
  | nil => simp [pieces, hd]
  | cons c cs ih =>
      rw [List.cons_append, pieces, pieces, ih]
      split
      · rfl
      · cases hcs : pieces p cs with
        | nil => exact absurd hcs (pieces_ne_nil p cs)
        | cons w ws => rfl

/-- A last piece is joined by one more separator. -/
theorem join_concat (separator last : String) {parts : List String} (h : parts ≠ []) :
    join separator (parts ++ [last]) = join separator parts ++ separator ++ last := by
  induction parts with
  | nil => exact absurd rfl h
  | cons s rest ih =>
      cases rest with
      | nil => rfl
      | cons t rest =>
          have hfirst : join separator (s :: t :: rest ++ [last]) =
              s ++ separator ++ join separator (t :: rest ++ [last]) := rfl
          have hwhole : join separator (s :: t :: rest) =
              s ++ separator ++ join separator (t :: rest) := rfl
          rw [hfirst, hwhole, ih (List.cons_ne_nil _ _)]
          simp only [String.append_assoc]

end CodeGraph.Text

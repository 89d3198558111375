import CodeGraph.Text.Lines
import Mathlib.Data.List.Basic
import Mathlib.Data.List.TakeWhile
/-! # Lines — the one way to cut bytes behind their newlines

    Everything about `lines` follows from two equations: bytes without a newline are one
    line, and the first newline ends a line.

    * `Cut` says what the lines of some bytes look like, and `lines` is the only cut that
      flattens to the bytes (`lines_eq_iff`).
    * `Closed` bytes end with a newline or are none.  The lines of what follows them are
      lines of the whole. -/

namespace CodeGraph.Text

/-- Bytes behind which a line begins. -/
def Closed (bytes : List UInt8) : Prop :=
  bytes = [] ∨ bytes.getLast? = some lineFeed

instance (bytes : List UInt8) : Decidable (Closed bytes) :=
  inferInstanceAs (Decidable (_ ∨ _))

/-- Lines of which each but the last ends with the only newline in it. -/
inductive Cut : List (List UInt8) → Prop where
  | nil : Cut []
  | last {line : List UInt8} (hne : line ≠ []) (h : lineFeed ∉ line) : Cut [line]
  | more {line : List UInt8} {rest : List (List UInt8)} (h : lineFeed ∉ line)
      (hrest : Cut rest) : Cut ((line ++ [lineFeed]) :: rest)

/-! ## One line -/

/-- No bytes are no lines. -/
theorem lines_nil : lines [] = [] := by
  rw [lines]
  rfl

/-- Bytes without a newline are one line. -/
theorem lines_of_notMem {line : List UInt8} (hne : line ≠ []) (h : lineFeed ∉ line) :
    lines line = [line] := by
  have hdrop : line.dropWhile (· ≠ lineFeed) = [] := by
    rw [List.dropWhile_eq_nil_iff]
    intro b hb
    exact decide_eq_true fun heq => h (heq ▸ hb)
  rw [lines]
  split
  · rw [List.isEmpty_eq_false_iff.mpr hne]
    rfl
  · rename_i hcons
    rw [hdrop] at hcons
    cases hcons

/-- The first newline ends a line. -/
theorem lines_append_lineFeed {line : List UInt8} (h : lineFeed ∉ line)
    (rest : List UInt8) :
    lines (line ++ lineFeed :: rest) = (line ++ [lineFeed]) :: lines rest := by
  have hall : ∀ b ∈ line, decide (b ≠ lineFeed) = true := fun b hb =>
    decide_eq_true fun heq => h (heq ▸ hb)
  have hdrop : (line ++ lineFeed :: rest).dropWhile (· ≠ lineFeed) = lineFeed :: rest := by
    rw [List.dropWhile_append_of_pos hall]
    rfl
  have htake : (line ++ lineFeed :: rest).takeWhile (· ≠ lineFeed) = line := by
    rw [List.takeWhile_append_of_pos hall]
    exact List.append_nil line
  rw [lines]
  split
  · rename_i hnil
    rw [hdrop] at hnil
    cases hnil
  · rename_i b rest' hcons
    rw [hdrop] at hcons
    cases hcons
    rw [htake]

/-! ## All lines -/

/-- What holds of bytes without a newline, and behind a line of whatever it holds of,
    holds of all bytes. -/
theorem linewise {motive : List UInt8 → Prop}
    (last : ∀ line, lineFeed ∉ line → motive line)
    (more : ∀ line rest, lineFeed ∉ line → motive rest →
      motive (line ++ lineFeed :: rest)) (bytes : List UInt8) : motive bytes := by
  induction hn : bytes.length using Nat.strongRecOn generalizing bytes with
  | _ n ih =>
      by_cases h : lineFeed ∈ bytes
      · obtain ⟨line, rest, rfl, hline⟩ := List.eq_append_cons_of_mem h
        refine more line rest hline (ih rest.length ?_ rest rfl)
        rw [← hn, List.length_append, List.length_cons]
        omega
      · exact last bytes h

/-- The lines of bytes are the bytes. -/
theorem flatten_lines (bytes : List UInt8) : (lines bytes).flatten = bytes := by
  induction bytes using linewise with
  | last line h =>
      by_cases hne : line = []
      · rw [hne, lines_nil, List.flatten_nil]
      · rw [lines_of_notMem hne h, List.flatten_singleton]
  | more line rest h ih =>
      rw [lines_append_lineFeed h, List.flatten_cons, ih, List.append_assoc,
        List.singleton_append]

/-- Each line but the last ends with the only newline in it. -/
theorem cut_lines (bytes : List UInt8) : Cut (lines bytes) := by
  induction bytes using linewise with
  | last line h =>
      by_cases hne : line = []
      · rw [hne, lines_nil]
        exact .nil
      · rw [lines_of_notMem hne h]
        exact .last hne h
  | more line rest h ih =>
      rw [lines_append_lineFeed h]
      exact .more h ih

/-- Any cut of bytes is their lines. -/
theorem lines_flatten {ls : List (List UInt8)} (h : Cut ls) : lines ls.flatten = ls := by
  induction h with
  | nil => exact lines_nil
  | last hne h => rw [List.flatten_singleton, lines_of_notMem hne h]
  | more h _ ih =>
      rw [List.flatten_cons, List.append_assoc, List.singleton_append,
        lines_append_lineFeed h, ih]

/-- **Bytes can be cut in one way only,** and that is into their lines. -/
theorem lines_eq_iff {bytes : List UInt8} {ls : List (List UInt8)} :
    lines bytes = ls ↔ Cut ls ∧ ls.flatten = bytes := by
  constructor
  · rintro rfl
    exact ⟨cut_lines bytes, flatten_lines bytes⟩
  · rintro ⟨hcut, rfl⟩
    exact lines_flatten hcut

/-! ## Lines of joined bytes -/

/-- What stands behind a line of closed bytes is closed. -/
theorem Closed.of_append {line rest : List UInt8} (h : Closed (line ++ lineFeed :: rest)) :
    Closed rest := by
  by_cases hrest : rest = []
  · exact .inl hrest
  · rcases h with h | h
    · exact absurd h (by simp)
    · rw [← List.singleton_append, ← List.append_assoc,
        List.getLast?_append_of_ne_nil _ hrest] at h
      exact .inr h

/-- Closed bytes keep their lines when more bytes follow them. -/
theorem lines_append {a : List UInt8} (h : Closed a) (b : List UInt8) :
    lines (a ++ b) = lines a ++ lines b := by
  induction a using linewise with
  | last line hline =>
      rcases h with rfl | h
      · rw [lines_nil, List.nil_append, List.nil_append]
      · exact absurd (List.mem_of_getLast? h) hline
  | more line rest hline ih =>
      rw [List.append_assoc, List.cons_append, lines_append_lineFeed hline,
        lines_append_lineFeed hline, ih h.of_append, List.cons_append]

end CodeGraph.Text

import CodeGraph.Fact.Stream
import CodeGraph.Proofs.Text.Lines
/-! # Fact streams — what is read of bytes, line by line

    No line is read together with another, so the batch of joined bytes is made of the
    batches of its parts, and every line that says something leaves one record.

    * `silent` says which lines leave nothing: blank ones and comments.
    * `readLines_append` and `readLines_shift` carry the first half: lines further down are
      read alike, and only the numbers of the malformed ones move.
    * `size_readLines` and `mem_malformed` carry the second. -/

namespace CodeGraph

/-! ## Batches -/

namespace Batch

/-- The number of records in a batch. -/
def size (b : Batch) : Nat :=
  b.facts.length + b.failures.length + b.malformed.length

/-- A batch with the malformed lines `k` lines further down. -/
def shift (k : Nat) (b : Batch) : Batch :=
  { b with malformed := b.malformed.map fun m => { m with line := m.line + k } }

theorem size_merge (a b : Batch) : (a.merge b).size = a.size + b.size := by
  simp only [size, merge, List.length_append]
  omega

/-- Lines are shifted in both parts of a batch. -/
theorem shift_merge (k : Nat) (a b : Batch) :
    (a.merge b).shift k = (a.shift k).merge (b.shift k) := by
  simp only [shift, merge, List.map_append]

theorem empty_merge (b : Batch) : Batch.merge {} b = b := rfl

/-- It does not matter which batches are merged first. -/
theorem merge_assoc (a b c : Batch) : (a.merge b).merge c = a.merge (b.merge c) := by
  simp only [merge, List.append_assoc]

end Batch

/-! ## Trimmed text -/

namespace Text

/-- What is left between the ends begins with the first character that does not belong to
    them. -/
theorem head?_trimEnds (p : Char → Bool) (cs : List Char) :
    (trimEnds p cs).head? = cs.find? fun c => !p c := by
  rw [List.find?_not_eq_head?_dropWhile, trimEnds]
  have hhead := List.head?_dropWhile_not p cs
  cases hdrop : cs.dropWhile p with
  | nil => rfl
  | cons c rest =>
      rw [hdrop] at hhead
      have hc : ¬ p c = true := Bool.eq_false_iff.mp hhead
      rw [List.reverse_cons, List.dropWhile_append, List.dropWhile_cons_of_neg hc]
      split
      · rfl
      · rw [List.reverse_append]
        rfl

/-- Only what stands in front of the first other character and behind the last one is
    taken off. -/
theorem trimEnds_append {p : Char → Bool} {cs ends : List Char}
    (hfirst : ∀ c, cs.head? = some c → p c = false)
    (hlast : ∀ c, cs.getLast? = some c → p c = false)
    (hends : ∀ c ∈ ends, p c = true) : trimEnds p (cs ++ ends) = cs := by
  have hfront : ∀ ds : List Char, (∀ c, ds.head? = some c → p c = false) →
      ds.dropWhile p = ds := by
    intro ds hds
    cases ds with
    | nil => rfl
    | cons d ds => exact List.dropWhile_cons_of_neg (Bool.eq_false_iff.mp (hds d rfl))
  have hdrop : (cs ++ ends).dropWhile p = cs ++ ends ∨ cs = [] := by
    cases cs with
    | nil => exact .inr rfl
    | cons c cs => exact .inl (hfront _ hfirst)
  have hblank : ∀ c ∈ ends.reverse, p c = true := fun c hc =>
    hends c (List.mem_reverse.mp hc)
  rcases hdrop with hdrop | rfl
  · rw [trimEnds, hdrop, List.reverse_append, List.dropWhile_append_of_pos hblank,
      hfront cs.reverse, List.reverse_reverse]
    rw [List.head?_reverse]
    exact hlast
  · rw [List.nil_append, trimEnds, List.dropWhile_eq_nil_iff.mpr hends]
    rfl

end Text

namespace FactStream

/-! ## Lines that say nothing -/

/-- A line that says nothing: it is text, and if there is a character other than blanks
    in it, the first one begins a comment. -/
def silent (line : List UInt8) : Bool :=
  match Text.Utf8.decode line with
  | .error _ => false
  | .ok cs =>
      match cs.find? fun c => !Text.isBlank c with
      | none => true
      | some c => c = '#'

/-- A value is a fact, a failure or a defect. -/
theorem readValue_ne_blank (v : Json) (rest : List Char) : readValue v rest ≠ .blank := by
  simp only [readValue]
  split
  · exact Reading.noConfusion
  · split <;> exact Reading.noConfusion
  · split <;> exact Reading.noConfusion

/-- Text is blank if it holds no character but blanks, or if the first other one begins a
    comment. -/
theorem readText_eq_blank_iff (cs : List Char) :
    readText cs = .blank ↔
      ∀ c, cs.find? (fun c => !Text.isBlank c) = some c → c = '#' := by
  rw [← Text.head?_trimEnds, readText]
  split
  · rename_i hnil
    simp [hnil]
  · rename_i hcomment
    simp [hcomment]
  · rename_i htext hnil hcomment
    have hfirst : ¬ ∀ c, (Text.trimEnds Text.isBlank cs).head? = some c → c = '#' := by
      cases hcs : Text.trimEnds Text.isBlank cs with
      | nil => exact absurd hcs hnil
      | cons c rest =>
          intro h
          obtain rfl := h c rfl
          exact hcomment rest hcs
    refine iff_of_false ?_ hfirst
    split
    · exact Reading.noConfusion
    · exact readValue_ne_blank _ _

/-- A line says nothing if and only if it is silent. -/
theorem readLine_eq_blank_iff (line : List UInt8) :
    readLine line = .blank ↔ silent line = true := by
  rw [readLine, silent]
  cases Text.Utf8.decode line with
  | error fault => simp
  | ok cs =>
      simp only [readText_eq_blank_iff]
      cases cs.find? fun c => !Text.isBlank c with
      | none => simp
      | some c => simp

/-! ## Reading line by line -/

/-- Lines are read one after the other, and counted on. -/
theorem readLines_append (name : String) (number : Nat) (a b : List (List UInt8)) :
    readLines name number (a ++ b) =
      (readLines name number a).merge (readLines name (number + a.length) b) := by
  induction a generalizing number with
  | nil => exact (Batch.empty_merge _).symm
  | cons line a ih =>
      rw [List.cons_append, readLines, ih, readLines, Batch.merge_assoc, List.length_cons,
        Nat.add_assoc, Nat.add_comm 1]

theorem shift_batch (name : String) (number k : Nat) (r : Reading) :
    (r.batch name number).shift k = r.batch name (number + k) := by
  cases r <;> rfl

/-- Lines further down are read alike. -/
theorem readLines_shift (name : String) (number k : Nat) (ls : List (List UInt8)) :
    readLines name (number + k) ls = (readLines name number ls).shift k := by
  induction ls generalizing number with
  | nil => rfl
  | cons line ls ih =>
      rw [readLines, readLines, Batch.shift_merge, shift_batch, ← ih,
        Nat.add_right_comm number k 1]

/-- **Each line that says something leaves one record,** and the others leave none. -/
theorem size_readLines (name : String) (number : Nat) (ls : List (List UInt8)) :
    (readLines name number ls).size = ls.countP fun line => !silent line := by
  induction ls generalizing number with
  | nil => rfl
  | cons line ls ih =>
      rw [readLines, Batch.size_merge, ih, List.countP_cons, Nat.add_comm]
      congr 1
      cases hsilent : silent line with
      | true =>
          rw [(readLine_eq_blank_iff line).mpr hsilent]
          rfl
      | false =>
          have hne : readLine line ≠ .blank := fun h => by
            rw [readLine_eq_blank_iff, hsilent] at h
            exact Bool.false_ne_true h
          cases hread : readLine line with
          | blank => exact absurd hread hne
          | fact f => rfl
          | failure f => rfl
          | defect d => rfl

/-- The malformed records are the defects of the lines, each with the number of its
    line. -/
theorem mem_malformed (name : String) (number : Nat) (ls : List (List UInt8))
    (m : Malformed) :
    m ∈ (readLines name number ls).malformed ↔
      ∃ i line d, ls[i]? = some line ∧ readLine line = .defect d ∧
        m = ⟨name, number + i, d⟩ := by
  induction ls generalizing number with
  | nil => simp [readLines]
  | cons line ls ih =>
      have hfirst : m ∈ ((readLine line).batch name number).malformed ↔
          ∃ d, readLine line = .defect d ∧ m = ⟨name, number, d⟩ := by
        cases readLine line <;> simp [Reading.batch]
      rw [readLines, Batch.merge, List.mem_append, hfirst, ih]
      constructor
      · rintro (⟨d, hd, rfl⟩ | ⟨i, l, d, hl, hd, rfl⟩)
        · exact ⟨0, line, d, rfl, hd, rfl⟩
        · exact ⟨i + 1, l, d, hl, hd, by rw [Nat.add_assoc, Nat.add_comm 1]⟩
      · rintro ⟨i, l, d, hl, hd, rfl⟩
        cases i with
        | zero =>
            cases hl
            exact .inl ⟨d, hd, rfl⟩
        | succ i => exact .inr ⟨i, l, d, hl, hd, by rw [Nat.add_assoc, Nat.add_comm 1]⟩

/-- Malformed lines are reported in their order. -/
theorem pairwise_malformed (name : String) (number : Nat) (ls : List (List UInt8)) :
    (readLines name number ls).malformed.Pairwise fun m n => m.line < n.line := by
  induction ls generalizing number with
  | nil => exact .nil
  | cons line ls ih =>
      rw [readLines, Batch.merge, List.pairwise_append]
      refine ⟨?_, ih (number + 1), ?_⟩
      · cases readLine line <;> simp [Reading.batch]
      · intro m hm n hn
        obtain ⟨i, _, _, _, _, rfl⟩ := (mem_malformed name (number + 1) ls n).mp hn
        have hline : m.line = number := by
          cases hread : readLine line with
          | defect d =>
              rw [hread, Reading.batch, List.mem_singleton] at hm
              rw [hm]
          | _ =>
              rw [hread] at hm
              cases hm
        rw [hline]
        show number < number + 1 + i
        omega

/-! ## Streams -/

/-- **A stream is read line by line.**  Behind closed bytes, whatever follows is read as
    on its own, with the numbers of the malformed lines moved.  And every line that is
    neither blank nor a comment leaves one record, a malformed one if the line is no text;
    the numbers of the malformed lines increase. -/
theorem read_linewise (name : String) :
    (∀ a b : List UInt8, Text.Closed a →
      ∃ x y : Batch, read ⟨name, a, none⟩ = .ok x ∧ read ⟨name, b, none⟩ = .ok y ∧
        read ⟨name, a ++ b, none⟩ = .ok (x.merge (y.shift (Text.lines a).length))) ∧
    ∀ bytes : List UInt8, ∃ batch : Batch, read ⟨name, bytes, none⟩ = .ok batch ∧
      batch.size = (Text.lines bytes).countP (fun line => !silent line) ∧
      (∀ (i : Nat) (line : List UInt8) (fault : Text.Utf8.Fault),
        (Text.lines bytes)[i]? = some line → Text.Utf8.decode line = .error fault →
          ⟨name, i + 1, .encoding fault⟩ ∈ batch.malformed) ∧
      batch.malformed.Pairwise fun m n => m.line < n.line := by
  constructor
  · intro a b h
    refine ⟨readBytes name a, readBytes name b, rfl, rfl, congrArg Except.ok ?_⟩
    rw [readBytes, Text.lines_append h, readLines_append, readLines_shift]
    rfl
  · intro bytes
    refine ⟨readBytes name bytes, rfl, size_readLines name 1 _, ?_,
      pairwise_malformed name 1 _⟩
    intro i line fault hline hfault
    refine (mem_malformed name 1 _ _).mpr ⟨i, line, .encoding fault, hline, ?_, ?_⟩
    · rw [readLine, hfault]
    · rw [Nat.add_comm]

/-- A comment in front of a byte that is no text. -/
theorem read_behind_comment :
    (Text.Closed [35, 10] ∧
      ∃ x y : Batch, read ⟨"s", [35, 10], none⟩ = .ok x ∧ read ⟨"s", [255], none⟩ = .ok y ∧
        read ⟨"s", [35, 10] ++ [255], none⟩ =
          .ok (x.merge (y.shift (Text.lines [35, 10]).length))) ∧
    Text.Utf8.decode [255] = .error (.invalid 1 0) ∧
      ∃ batch : Batch, read ⟨"s", [255], none⟩ = .ok batch ∧
        ⟨"s", 1, .encoding (.invalid 1 0)⟩ ∈ batch.malformed := by
  have hclosed : Text.Closed [35, 10] := by decide
  have hfault : Text.Utf8.decode [255] = .error (.invalid 1 0) := by
    simp [Text.Utf8.decode, Text.Utf8.decodeFrom, Text.Utf8.first, Text.Utf8.Owed.ofFirst]
  have hline : (Text.lines [255])[0]? = some [255] := by
    rw [Text.lines_of_notMem (by decide) (by decide)]
    rfl
  obtain ⟨batch, hread, -, hmalformed, -⟩ := (read_linewise "s").2 [255]
  exact ⟨⟨hclosed, (read_linewise "s").1 [35, 10] [255] hclosed⟩, hfault, batch, hread,
    hmalformed 0 [255] (.invalid 1 0) hline hfault⟩

end FactStream

end CodeGraph

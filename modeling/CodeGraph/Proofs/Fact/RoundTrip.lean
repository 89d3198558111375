import CodeGraph.Proofs.Fact.Record
import CodeGraph.Proofs.Fact.Stream
import CodeGraph.Proofs.Text.Utf8
/-! # Written streams — what a program says is what is read

    A line that is written for a fact or a failure is read as that fact or failure, and
    the lines of a written stream are the lines that were written.

    * `settle_toJson`: nothing in a fact is nested too deeply, and its numbers are whole.
    * `readText_object`: the text of an object begins and ends with a brace, so nothing is
      trimmed off it and it is no comment.
    * `cut_map_encode`: no text of a value breaks a line.
    * `readBytes_texts` puts them together, with or without a newline behind the last
      line. -/

namespace CodeGraph

open Json

/-! ## What comes back of a value -/

section Settle

variable {depth : Nat}

theorem settle_optional_string (s? : Option String) :
    settle depth (.ofOption .string s?) = some (.ofOption .string s?) :=
  settle_ofOption (settle_string depth) s?

theorem settle_optional_uInt32 (n? : Option UInt32) :
    settle depth (.ofOption ofUInt32 n?) = some (.ofOption ofUInt32 n?) :=
  settle_ofOption (fun _ => settle_integer depth _) n?

theorem settle_optional_uInt64 (n? : Option UInt64) :
    settle depth (.ofOption ofUInt64 n?) = some (.ofOption ofUInt64 n?) :=
  settle_ofOption (fun _ => settle_integer depth _) n?

/-- A list of strings is read back as itself. -/
theorem settle_ofStrings (ss : List String) :
    settle (depth + 1) (ofStrings ss) = some (ofStrings ss) := by
  refine settle_array fun x hx => ?_
  obtain ⟨s, -, rfl⟩ := List.mem_map.mp hx
  exact settle_string depth s

/-- A declared package is read back as itself. -/
theorem DeclaredDependency.settle_toJson (d : DeclaredDependency) :
    settle (depth + 1) d.toJson = some d.toJson := by
  refine settle_object ?_
  simp only [List.forall_mem_cons, List.not_mem_nil, IsEmpty.forall_iff, implies_true, and_true]
  exact ⟨settle_string depth _, settle_optional_string _⟩

/-- What the fields of a fact hold is nested two levels deep at most. -/
theorem Fact.settle_fields (f : Fact) :
    ∀ g ∈ f.fields, settle (depth + 2) g.2 = some g.2 := by
  have hdependencies : ∀ ds : List DeclaredDependency,
      settle (depth + 2) (.array (ds.map (·.toJson))) = some (.array (ds.map (·.toJson))) := by
    intro ds
    refine settle_array fun x hx => ?_
    obtain ⟨d, -, rfl⟩ := List.mem_map.mp hx
    exact d.settle_toJson
  cases f <;>
    simp [fields, FileFact.fields, DefinitionFact.fields, CallFact.fields, ImportFact.fields,
      InheritFact.fields, ManifestFact.fields, settle_string, settle_optional_string,
      settle_optional_uInt32, settle_optional_uInt64, settle_ofStrings, hdependencies]

/-- **A fact is read back as the value that was written:** its fields hold strings and whole
    numbers, and it is nowhere nested too deeply. -/
theorem Fact.settle_toJson (f : Fact) : settle maxDepth f.toJson = some f.toJson := by
  refine settle_object (List.forall_mem_cons.mpr ⟨settle_string _ _, ?_⟩)
  exact f.settle_fields

/-- A failure is read back as the value that was written. -/
theorem ParseFailure.settle_toJson (f : ParseFailure) :
    settle maxDepth f.toJson = some f.toJson := by
  refine settle_object ?_
  simp only [List.forall_mem_cons, List.not_mem_nil, IsEmpty.forall_iff, implies_true, and_true]
  exact ⟨settle_string _ _, settle_string _ _, settle_string _ _⟩

end Settle

/-! ## One line -/

namespace Json

/-- Behind the last element stands the closing mark. -/
theorem getLast?_behindFirst (close : Char) (texts : List (List Char)) :
    (behindFirst close texts).getLast? = some close := by
  induction texts with
  | nil => rfl
  | cons t texts ih =>
      rw [behindFirst, ← List.cons_append, List.getLast?_append, ih]
      rfl

/-- The text of a list ends with its closing mark. -/
theorem getLast?_listText (close : Char) (texts : List (List Char)) :
    (listText close texts).getLast? = some close := by
  cases texts with
  | nil => rfl
  | cons t texts =>
      rw [listText, List.getLast?_append, getLast?_behindFirst]
      rfl

end Json

namespace FactStream

/-- The text of an object is read as that object, whatever blanks stand behind it. -/
theorem readText_object {fields : List (String × Json)} {ends : List Char}
    (h : settle maxDepth (.object fields) = some (.object fields))
    (hends : ∀ c ∈ ends, Text.isBlank c = true) :
    readText (print (.object fields) ++ ends) = readValue (.object fields) [] := by
  have hlast : (print (.object fields)).getLast? = some '\x7d' := by
    rw [print_object, ← List.singleton_append, List.getLast?_append, getLast?_listText]
    rfl
  have htrim : Text.trimEnds Text.isBlank (print (.object fields) ++ ends) =
      print (.object fields) := by
    refine Text.trimEnds_append ?_ ?_ hends
    · intro c hc
      rw [print_object] at hc
      cases hc
      rfl
    · intro c hc
      rw [hlast] at hc
      cases hc
      rfl
  rw [readText, htrim]
  split
  · rename_i hnil
    rw [print_object] at hnil
    cases hnil
  · rename_i hcomment
    rw [print_object] at hcomment
    cases hcomment
  · rw [read?_print h]

end FactStream

/-- What a program may say on a line. -/
inductive Entry where
  | fact (f : Fact)
  | failure (f : ParseFailure)
deriving DecidableEq, Repr

namespace Entry

/-- An entry as a line of a stream, without the newline. -/
def line : Entry → List Char
  | fact f => f.line
  | failure f => f.line

/-- The fact that an entry is. -/
def fact? : Entry → Option Fact
  | fact f => some f
  | failure _ => none

/-- The failure that an entry is. -/
def failure? : Entry → Option ParseFailure
  | fact _ => none
  | failure f => some f

/-- What is read of an entry. -/
def reading : Entry → FactStream.Reading
  | fact f => .fact f
  | failure f => .failure f

/-- The facts and the failures among some entries. -/
def batch (entries : List Entry) : Batch :=
  { facts := entries.filterMap fact?, failures := entries.filterMap failure?, malformed := [] }

/-- **A line that was written is read as what it was written for.** -/
theorem readText_line (e : Entry) {ends : List Char}
    (hends : ∀ c ∈ ends, Text.isBlank c = true) :
    FactStream.readText (e.line ++ ends) = e.reading := by
  cases e with
  | fact f =>
      have hvalue : FactStream.readValue f.toJson [] = .fact f := by
        rw [FactStream.readValue, ParseFailure.ofJson?_fact, f.ofJson?_toJson]
        rfl
      exact (FactStream.readText_object f.settle_toJson hends).trans hvalue
  | failure f =>
      have hvalue : FactStream.readValue f.toJson [] = .failure f := by
        rw [FactStream.readValue, f.ofJson?_toJson]
        rfl
      exact (FactStream.readText_object f.settle_toJson hends).trans hvalue

/-- The text of an entry holds no newline. -/
theorem newline_notMem_line (e : Entry) : '\n' ∉ e.line := by
  intro h
  cases e with
  | fact f => exact Bool.false_ne_true (isPlain_of_mem_print f.toJson _ h)
  | failure f => exact Bool.false_ne_true (isPlain_of_mem_print f.toJson _ h)

/-- No entry is written as an empty line. -/
theorem line_ne_nil (e : Entry) : e.line ≠ [] := by
  cases e <;> exact List.cons_ne_nil _ _

end Entry

/-! ## Whole streams -/

namespace FactStream

open Text (Cut)
open Text.Utf8 (encode)

/-- Texts of entries, each with or without a newline behind it. -/
def LinesOf (texts : List (List Char)) (entries : List Entry) : Prop :=
  List.Forall₂ (fun t e => t = e.line ∨ t = e.line ++ ['\n']) texts entries

/-- A line is read as the entry it was written for, with a newline behind it or without. -/
theorem readLine_encode {t : List Char} {e : Entry}
    (h : t = e.line ∨ t = e.line ++ ['\n']) : readLine (encode t) = e.reading := by
  rw [readLine, Text.Utf8.decode_encode]
  dsimp only
  rcases h with rfl | rfl
  · have hread : readText (e.line ++ []) = e.reading :=
      e.readText_line (List.forall_mem_nil _)
    rwa [List.append_nil] at hread
  · exact e.readText_line (List.all_eq_true.mp (by decide))

/-- Lines of entries are read as these entries. -/
theorem readLines_texts (name : String) (number : Nat) {texts : List (List Char)}
    {entries : List Entry} (h : LinesOf texts entries) :
    readLines name number (texts.map encode) = Entry.batch entries := by
  induction h generalizing number with
  | nil => rfl
  | @cons t e texts entries ht _ ih =>
      rw [List.map_cons, readLines, ih, readLine_encode ht]
      cases e <;> rfl

/-- A stream that is cut into lines of entries is read as these entries. -/
theorem readBytes_texts (name : String) {texts : List (List Char)} {entries : List Entry}
    (hcut : Cut (texts.map encode)) (h : LinesOf texts entries) :
    readBytes name (encode texts.flatten) = Entry.batch entries := by
  rw [readBytes, Text.Utf8.encode_flatten, Text.lines_eq_iff.mpr ⟨hcut, rfl⟩,
    readLines_texts name 1 h]

/-- No byte within a line of an entry is taken for the end of the line. -/
theorem lineFeed_notMem_encode (e : Entry) : Text.lineFeed ∉ encode e.line :=
  e.newline_notMem_line ∘ Text.Utf8.lineFeed_mem_encode.mp

/-- A line with its newline, in front of others. -/
theorem cut_cons (e : Entry) {texts : List (List Char)} (h : Cut (texts.map encode)) :
    Cut (((e.line ++ ['\n']) :: texts).map encode) := by
  rw [List.map_cons, Text.Utf8.encode_append]
  exact .more (lineFeed_notMem_encode e) h

/-- The lines of some entries, each with its newline. -/
def terminated (entries : List Entry) : List Char :=
  (entries.map fun e => e.line ++ ['\n']).flatten

/-- The lines of some entries with newlines between them. -/
def separated (entries : List Entry) : List Char :=
  ['\n'].intercalate (entries.map Entry.line)

/-- Entries that end with newlines are cut into the lines they were written as. -/
theorem exists_texts_terminated (entries : List Entry) :
    ∃ texts, terminated entries = texts.flatten ∧ Cut (texts.map encode) ∧
      LinesOf texts entries := by
  refine ⟨entries.map fun e => e.line ++ ['\n'], rfl, ?_, ?_⟩
  · induction entries with
    | nil => exact .nil
    | cons e entries ih => exact cut_cons e ih
  · rw [LinesOf, List.forall₂_map_left_iff]
    exact List.forall₂_same.mpr fun e _ => .inr rfl

/-- Entries with newlines between them are cut into the lines they were written as. -/
theorem exists_texts_separated (entries : List Entry) :
    ∃ texts, separated entries = texts.flatten ∧ Cut (texts.map encode) ∧
      LinesOf texts entries := by
  induction entries with
  | nil => exact ⟨[], rfl, .nil, .nil⟩
  | cons e entries ih =>
      cases entries with
      | nil =>
          refine ⟨[e.line], rfl, ?_, .cons (.inl rfl) .nil⟩
          refine .last ?_ (lineFeed_notMem_encode e)
          obtain ⟨c, cs, hline⟩ := List.exists_cons_of_ne_nil e.line_ne_nil
          obtain ⟨b, bs, _, hencode, -⟩ := Text.Utf8.first_encode 0 c []
          rw [hline, encode, List.flatMap_cons, hencode]
          exact List.cons_ne_nil _ _
      | cons f entries =>
          obtain ⟨texts, htexts, hcut, hlines⟩ := ih
          refine ⟨(e.line ++ ['\n']) :: texts, ?_, cut_cons e hcut, .cons (.inr rfl) hlines⟩
          rw [List.flatten_cons, ← htexts, separated, separated, List.map_cons, List.map_cons,
            List.intercalate_cons_cons, List.append_assoc]

/-- **What is written is what is read.**  The lines of any facts and failures, with or
    without a newline behind the last one, are read as these facts and failures in their
    order, and nothing is malformed. -/
theorem read_written (name : String) (entries : List Entry) :
    read ⟨name, (String.ofList (terminated entries)).toUTF8.toList, none⟩ =
        .ok ⟨entries.filterMap Entry.fact?, entries.filterMap Entry.failure?, []⟩ ∧
      read ⟨name, (String.ofList (separated entries)).toUTF8.toList, none⟩ =
        .ok ⟨entries.filterMap Entry.fact?, entries.filterMap Entry.failure?, []⟩ := by
  have hread : ∀ text texts, text = texts.flatten → Cut (texts.map encode) →
      LinesOf texts entries →
      read ⟨name, (String.ofList text).toUTF8.toList, none⟩ = .ok (Entry.batch entries) := by
    intro text texts htext hcut hlines
    rw [read, Text.Utf8.toUTF8_eq_encode, String.toList_ofList, htext,
      readBytes_texts name hcut hlines]
  obtain ⟨texts, htexts, hcut, hlines⟩ := exists_texts_terminated entries
  obtain ⟨texts', htexts', hcut', hlines'⟩ := exists_texts_separated entries
  exact ⟨hread _ texts htexts hcut hlines, hread _ texts' htexts' hcut' hlines'⟩

end FactStream

end CodeGraph

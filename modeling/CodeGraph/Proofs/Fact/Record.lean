import CodeGraph.Fact.Record
import CodeGraph.Proofs.Json.Exact
/-! # Facts as values — what is written is read as the same fact

    A record is written with all its fields, each of them once, and so each is found
    where it is looked for.

    * `record?_object` finds the fields of a record, and `optional_ofOption`,
      `list?_array` and their like read what one field holds.
    * No fact has a field for an error, so none is taken for a failure, though failures
      are tried first (`ParseFailure.ofJson?_fact`). -/

namespace CodeGraph

open Json

namespace Json

/-! ## Fields -/

/-- A field whose name is not repeated is found under its name. -/
theorem uniqueField?_of_mem {fields : List (String × Json)} (h : (fields.map Prod.fst).Nodup)
    {f : String × Json} (hf : f ∈ fields) : uniqueField? fields f.1 = some (some f.2) := by
  have hfilter : fields.filter (fun g => g.1 = f.1) = [f] := by
    induction fields with
    | nil => cases hf
    | cons g fields ih =>
        rw [List.map_cons, List.nodup_cons] at h
        rcases List.mem_cons.mp hf with rfl | hf
        · rw [List.filter_cons_of_pos (by simp), List.filter_eq_nil_iff.mpr]
          intro g hg
          rw [decide_eq_true_eq]
          exact fun heq => h.1 (heq ▸ List.mem_map_of_mem hg)
        · have hne : g.1 ≠ f.1 := fun heq => h.1 (heq ▸ List.mem_map_of_mem hf)
          rw [List.filter_cons_of_neg (by simpa using hne), ih h.2 hf]
  rw [uniqueField?, hfilter]

/-- A name that no field has is found to be missing. -/
theorem uniqueField?_of_notMem {fields : List (String × Json)} {name : String}
    (h : name ∉ fields.map Prod.fst) : uniqueField? fields name = some none := by
  have hfilter : fields.filter (fun f => f.1 = name) = [] := by
    rw [List.filter_eq_nil_iff]
    intro f hf
    rw [decide_eq_true_eq]
    exact fun heq => h (heq ▸ List.mem_map_of_mem hf)
  rw [uniqueField?, hfilter]

/-- **An object with the fields of a record, each of them once, is that record.** -/
theorem record?_object {names : List String} {fields : List (String × Json)}
    (hnames : fields.map Prod.fst = names) (h : names.Nodup) :
    (object fields).record? names = some (fields.map fun f => some f.2) := by
  subst hnames
  have hfind : ∀ gs : List (String × Json), (∀ g ∈ gs, g ∈ fields) →
      (gs.map Prod.fst).mapM (uniqueField? fields) = some (gs.map fun f => some f.2) := by
    intro gs hgs
    induction gs with
    | nil => rfl
    | cons g gs ih =>
        rw [List.map_cons, List.mapM_cons, uniqueField?_of_mem h (hgs g List.mem_cons_self),
          ih fun f hf => hgs f (List.mem_cons_of_mem g hf)]
        rfl
  exact hfind fields fun f hf => hf

/-! ## What a field holds -/

section Fields

variable {α : Type} {read : Json → Option α} {write : α → Json}

/-- A value that need not be there is read as it was written, as nothing if it is not there.
    -/
theorem optional_ofOption (hread : ∀ a, read (write a) = some a)
    (hnull : ∀ a, write a ≠ .null) (a? : Option α) :
    optional read (some (.ofOption write a?)) = some a? := by
  cases a? with
  | none => rfl
  | some a =>
      rw [ofOption, optional, hread]
      · rfl
      · exact hnull a

/-- An array is read element by element as it was written. -/
theorem list?_array (hread : ∀ a, read (write a) = some a) (as : List α) :
    list? read (.array (as.map write)) = some as := by
  show (as.map write).mapM read = some as
  rw [List.mapM_map]
  exact mapM_eq_self fun a _ => hread a

end Fields

theorem asString?_string (s : String) : asString? (.string s) = some s := rfl

/-- A string that need not be there is read as it was written. -/
theorem optional_string (s? : Option String) :
    optional asString? (some (.ofOption .string s?)) = some s? :=
  optional_ofOption asString?_string (fun _ => Json.noConfusion) s?

/-- A number of 32 bits is read as one: it is within the bounds. -/
theorem optional_uInt32 (n? : Option UInt32) :
    optional asUInt32? (some (.ofOption ofUInt32 n?)) = some n? := by
  refine optional_ofOption (fun n => ?_) (fun _ => Json.noConfusion) n?
  have hlt := n.toNat_lt
  simp [asUInt32?, ofUInt32, asNat?, hlt]

theorem optional_uInt64 (n? : Option UInt64) :
    optional asUInt64? (some (.ofOption ofUInt64 n?)) = some n? := by
  refine optional_ofOption (fun n => ?_) (fun _ => Json.noConfusion) n?
  simp [asUInt64?, ofUInt64, asNat?]

/-- A list of strings is read as it was written. -/
theorem list?_ofStrings (ss : List String) : list? asString? (ofStrings ss) = some ss :=
  list?_array asString?_string ss

end Json

/-! ## Each kind of record

Every kind is read from its fields as it was written: the names are its own, and under each
of them stands what the reader of that field expects. -/

/-- The kinds of definitions are told apart by their names. -/
theorem DefinitionKind.ofJson?_name (k : DefinitionKind) : ofJson? (.string k.name) = some k := by
  cases k <;> rfl

theorem FileFact.ofJson?_fields (f : FileFact) : ofJson? (.object f.fields) = some f := by
  rw [ofJson?, record?_object]
  · simp [fields, required, asString?, optional_string, optional_uInt64]
  · rfl
  · decide

/-- The lists of a definition may be left out, but they are written even if they are empty. -/
theorem DefinitionFact.ofJson?_fields (d : DefinitionFact) :
    ofJson? (.object d.fields) = some d := by
  rw [ofJson?, record?_object]
  · simp [fields, required, orElse, asString?, DefinitionKind.ofJson?_name, optional_string,
      optional_uInt32, list?_ofStrings]
  · rfl
  · decide

theorem CallFact.ofJson?_fields (c : CallFact) : ofJson? (.object c.fields) = some c := by
  rw [ofJson?, record?_object]
  · simp [fields, required, asString?, optional_string, optional_uInt32]
  · rfl
  · decide

theorem ImportFact.ofJson?_fields (i : ImportFact) : ofJson? (.object i.fields) = some i := by
  rw [ofJson?, record?_object]
  · simp [fields, required, asString?, optional_string, optional_uInt32]
  · rfl
  · decide

theorem InheritFact.ofJson?_fields (i : InheritFact) : ofJson? (.object i.fields) = some i := by
  rw [ofJson?, record?_object]
  · simp [fields, required, asString?, optional_string]
  · rfl
  · decide

theorem DeclaredDependency.ofJson?_toJson (d : DeclaredDependency) :
    ofJson? d.toJson = some d := by
  rw [ofJson?, toJson, record?_object]
  · simp [required, asString?, optional_string]
  · rfl
  · decide

/-- The dependencies of a manifest are records of their own. -/
theorem ManifestFact.ofJson?_fields (m : ManifestFact) : ofJson? (.object m.fields) = some m := by
  rw [ofJson?, record?_object]
  · simp [fields, orElse, list?_ofStrings, list?_array DeclaredDependency.ofJson?_toJson]
  · rfl
  · decide

/-! ## Facts and failures -/

namespace Fact

/-- No field of a fact has the name of its type, and none reports an error. -/
theorem notMem_fields (f : Fact) :
    "type" ∉ f.fields.map Prod.fst ∧ "error" ∉ f.fields.map Prod.fst := by
  cases f <;>
    simp [fields, FileFact.fields, DefinitionFact.fields, CallFact.fields, ImportFact.fields,
      InheritFact.fields, ManifestFact.fields]

/-- The type of a fact is taken off again, and its fields are left. -/
theorem untag?_toJson (f : Fact) :
    untag? f.toJson = some (.string f.typeName, .object f.fields) := by
  have htag : f.fields.filter (fun g => g.1 = "type") = [] := by
    rw [List.filter_eq_nil_iff]
    intro g hg
    rw [decide_eq_true_eq]
    exact fun heq => f.notMem_fields.1 (heq ▸ List.mem_map_of_mem hg)
  have hbody : f.fields.filter (fun g => g.1 ≠ "type") = f.fields := by
    rw [List.filter_eq_self]
    intro g hg
    exact decide_eq_true fun heq => f.notMem_fields.1 (heq ▸ List.mem_map_of_mem hg)
  rw [toJson, untag?, List.filter_cons_of_pos (by simp), htag, List.filter_cons_of_neg (by simp),
    hbody]

/-- **A fact is read as it was written.** -/
theorem ofJson?_toJson (f : Fact) : ofJson? f.toJson = some f := by
  rw [ofJson?, untag?_toJson]
  cases f with
  | file f => simp [typeName, typeOf?, fields, f.ofJson?_fields]
  | definition d => simp [typeName, typeOf?, fields, d.ofJson?_fields]
  | call c => simp [typeName, typeOf?, fields, c.ofJson?_fields]
  | «import» i => simp [typeName, typeOf?, fields, i.ofJson?_fields]
  | inherit i => simp [typeName, typeOf?, fields, i.ofJson?_fields]
  | manifest m => simp [typeName, typeOf?, fields, m.ofJson?_fields]

end Fact

namespace ParseFailure

/-- A failure is read as it was written. -/
theorem ofJson?_toJson (f : ParseFailure) : ofJson? f.toJson = some f := by
  rw [ofJson?, toJson, record?_object]
  · simp [required, asString?, isTag, tagName?]
  · rfl
  · decide

/-- An object without an error is no failure. -/
theorem ofJson?_of_notMem {fields : List (String × Json)}
    (h : "error" ∉ fields.map Prod.fst) : ofJson? (.object fields) = none := by
  have herror := uniqueField?_of_notMem h
  rw [ofJson?, record?]
  simp only [List.mapM_cons, List.mapM_nil, herror]
  cases uniqueField? fields "type" with
  | none => rfl
  | some tag =>
      cases uniqueField? fields "path" with
      | none => rfl
      | some path =>
          cases tag with
          | none => rfl
          | some tag =>
              show (required asString? path).bind _ = none
              cases required asString? path <;> rfl

/-- **No fact is taken for a failure,** though failures are tried first. -/
theorem ofJson?_fact (f : Fact) : ofJson? f.toJson = none := by
  refine ofJson?_of_notMem ?_
  rw [List.map_cons, List.mem_cons, not_or]
  exact ⟨by simp, f.notMem_fields.2⟩

end ParseFailure

end CodeGraph

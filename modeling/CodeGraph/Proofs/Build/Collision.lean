import CodeGraph.Proofs.Build.Ownership
/-! # Collision — which definitions share a node

    An identifier joins the file and the qualified name of a definition with a
    colon.  Both may hold colons of their own, so where the file ends and the name
    begins cannot always be read off.

    * Two joined texts are the same if their halves are, or if one colon is read
      in two places (`joined_eq_iff`).  Hence `Collides` says when two definitions
      have one identifier (`nodeIdOf_eq_iff`); without colons in their files, or
      without colons in their names, this means that they are the same definition
      (`nodeIdOf_eq_iff_of_plain`).
    * `Draft.offers` counts how often a node was offered: the times it was refused,
      and once more if it is there.  Each definition is one offer of its own node,
      and nothing else is (`offers_addDefinition`, `offers_construct`).
    * So of definitions that collide one is accepted, and each of the others is
      reported (`refused_ofBatches`).  What they leave behind, a file that no fact
      reports, is the exception in `owned_ofBatches`. -/

namespace CodeGraph.Build

open Std

/-! ## Joined texts -/

/-- Of two first halves one begins with the other; between them lies nothing, or a colon and
    a part of the second half. -/
theorem rest_cases {a x b y : String} {rest : List Char} (hb : b.toList = a.toList ++ rest)
    (hx : ':' :: x.toList = rest ++ ':' :: y.toList) :
    a = b ∧ x = y ∨ ∃ part, b = a ++ ":" ++ part ∧ x = part ++ ":" ++ y := by
  cases rest with
  | nil =>
      refine Or.inl ⟨String.toList_inj.mp ?_, String.toList_inj.mp ?_⟩
      · simpa using hb.symm
      · simpa using hx
  | cons c part =>
      obtain ⟨rfl, hx⟩ := List.cons.inj hx
      refine Or.inr ⟨String.ofList part, String.toList_inj.mp ?_, String.toList_inj.mp ?_⟩
      · simpa using hb
      · simpa using hx

/-- Two joined texts are the same if their halves are, or if the cut of the one lies in the
    first half of the other. -/
theorem joined_eq_iff (a x b y : String) : a ++ ":" ++ x = b ++ ":" ++ y ↔
    a = b ∧ x = y ∨ (∃ part, b = a ++ ":" ++ part ∧ x = part ++ ":" ++ y) ∨
      ∃ part, a = b ++ ":" ++ part ∧ y = part ++ ":" ++ x := by
  constructor
  · intro h
    have hlist : a.toList ++ ':' :: x.toList = b.toList ++ ':' :: y.toList := by
      simpa using congrArg String.toList h
    rcases List.append_eq_append_iff.mp hlist with ⟨rest, hb, hx⟩ | ⟨rest, ha, hy⟩
    · exact (rest_cases hb hx).imp_right Or.inl
    · exact (rest_cases ha hy).imp (fun ⟨ha, hy⟩ => ⟨ha.symm, hy.symm⟩) Or.inr
  · rintro (⟨rfl, rfl⟩ | ⟨part, rfl, rfl⟩ | ⟨part, rfl, rfl⟩)
    · rfl
    · simp only [String.append_assoc]
    · simp only [String.append_assoc]

/-! ## Definitions with one identifier -/

/-- The file of the one goes on, after a colon, with what the name of the other begins
    with. -/
def Continues (f g : DefinitionFact) : Prop :=
  ∃ part, g.file = f.file ++ ":" ++ part ∧ f.qualifiedName = part ++ ":" ++ g.qualifiedName

/-- Two definitions of one kind are the same, or the file and the name of the one are those of
    the other, cut at another colon. -/
def Collides (f g : DefinitionFact) : Prop :=
  f.kind = g.kind ∧ (f.file = g.file ∧ f.qualifiedName = g.qualifiedName ∨
    Continues f g ∨ Continues g f)

variable {f g : DefinitionFact}

theorem nodeKindOf_injective {k l : DefinitionKind} (h : nodeKindOf k = nodeKindOf l) :
    k = l := by
  cases k <;> cases l <;> first | rfl | cases h

/-- The identifiers of one kind differ in the joined texts alone. -/
theorem definitionId_eq_iff (kind : DefinitionKind) (a x b y : String) :
    definitionId (nodeKindOf kind) a x = definitionId (nodeKindOf kind) b y ↔
      a ++ ":" ++ x = b ++ ":" ++ y := by
  have hcancel : ∀ start : String, start ++ a ++ ":" ++ x = start ++ b ++ ":" ++ y ↔
      a ++ ":" ++ x = b ++ ":" ++ y := by
    intro start
    simp only [String.append_assoc, String.append_right_inj]
  cases kind with
  | function => exact (Iff.of_eq (NodeId.mk.injEq _ _)).trans (hcancel "function:")
  | «class» => exact (Iff.of_eq (NodeId.mk.injEq _ _)).trans (hcancel "class:")

/-- **Two definitions have one identifier exactly if they collide.** -/
theorem nodeIdOf_eq_iff : nodeIdOf f = nodeIdOf g ↔ Collides f g := by
  rw [Collides, Continues, Continues, ← joined_eq_iff]
  constructor
  · intro h
    have htag := congrArg NodeId.tag h
    rw [nodeIdOf, nodeIdOf, tag_definitionId (isDefinition_nodeKindOf f.kind),
      tag_definitionId (isDefinition_nodeKindOf g.kind)] at htag
    have hkind := nodeKindOf_injective (NodeKind.tag_injective htag)
    rw [nodeIdOf, nodeIdOf, hkind, definitionId_eq_iff] at h
    exact ⟨hkind, h⟩
  · rintro ⟨hkind, h⟩
    rw [nodeIdOf, nodeIdOf, hkind, definitionId_eq_iff]
    exact h

instance (f g : DefinitionFact) : Decidable (Collides f g) :=
  decidable_of_iff (nodeIdOf f = nodeIdOf g) nodeIdOf_eq_iff

/-- Different definitions collide only with a colon in a file and one in a name. -/
theorem Continues.colons (h : Continues f g) :
    ':' ∈ g.file.toList ∧ ':' ∈ f.qualifiedName.toList := by
  obtain ⟨part, hfile, hname⟩ := h
  rw [hfile, hname]
  simp

/-- If no file or no name has a colon, an identifier tells its definition. -/
theorem nodeIdOf_eq_iff_of_plain
    (h : ':' ∉ f.file.toList ∧ ':' ∉ g.file.toList ∨
      ':' ∉ f.qualifiedName.toList ∧ ':' ∉ g.qualifiedName.toList) :
    nodeIdOf f = nodeIdOf g ↔
      f.kind = g.kind ∧ f.file = g.file ∧ f.qualifiedName = g.qualifiedName := by
  rw [nodeIdOf_eq_iff, Collides, or_iff_left]
  rintro (hfg | hgf)
  · exact h.elim (fun h => h.2 hfg.colons.1) fun h => h.1 hfg.colons.2
  · exact h.elim (fun h => h.1 hgf.colons.1) fun h => h.2 hgf.colons.2

/-! ## Offers -/

namespace Draft

variable {d d' : Draft} {id : NodeId}

/-- How often a node was offered: it was refused, or it is there. -/
def offers (d : Draft) (id : NodeId) : Nat :=
  d.diagnostics.countP (· = .duplicateNode id) + if d.store.contains id then 1 else 0

/-- What is reported and which nodes are there decide how often one was offered. -/
theorem offers_congr (hdiagnostics : d'.diagnostics = d.diagnostics)
    (hmem : id ∈ d'.store.nodes ↔ id ∈ d.store.nodes) : d'.offers id = d.offers id := by
  have hcontains : d'.store.contains id = d.store.contains id := by
    rw [Bool.eq_iff_iff, Store.contains, Store.contains, ← ExtTreeMap.mem_iff_contains, hmem,
      ExtTreeMap.mem_iff_contains]
  rw [offers, offers, hdiagnostics, hcontains]

theorem offers_note {x : Diagnostic} (hx : x ≠ .duplicateNode id) :
    (d.note x).offers id = d.offers id := by
  rw [offers, note, Array.countP_push, if_neg (by simpa using hx)]
  rfl

/-- What is left out is no offer. -/
theorem offers_drop {x : Diagnostic} (hx : x.isOmission = true) :
    (d.drop x).offers id = d.offers id := by
  refine offers_note (d := d) ?_
  rintro rfl
  cases hx

/-- A node that is added is one more offer, whether it is refused or not. -/
theorem offers_insertNode (d : Draft) (i : NodeId) (kind : NodeKind) (a : Attributes) :
    (d.insertNode i kind a).offers id = d.offers id + if i = id then 1 else 0 := by
  have hcontains := (d.takes_insertNode i kind a).contains id
  rw [List.any_cons, List.any_nil, Bool.or_false] at hcontains
  rw [offers, hcontains, insertNode, Store.addNode]
  by_cases hin : i ∈ d.store.nodes
  · rw [if_pos hin]
    have hthere : d.store.contains i = true := ExtTreeMap.mem_iff_contains.mp hin
    show (d.diagnostics.push (.duplicateNode i)).countP _ + _ = _
    rw [Array.countP_push, offers]
    by_cases hi : i = id
    · subst hi
      simp [hthere]
    · have hne : ¬Diagnostic.duplicateNode i = .duplicateNode id := by
        rintro ⟨⟩
        exact hi rfl
      simp [hi, hne]
  · rw [if_neg hin]
    have hnew : d.store.contains i = false :=
      Bool.eq_false_iff.mpr (hin ∘ ExtTreeMap.mem_iff_contains.mpr)
    rw [offers]
    by_cases hi : i = id
    · subst hi
      simp [hnew]
    · simp [hi]

/-- To ensure another node is no offer of this one. -/
theorem offers_ensureNode {i : NodeId} (hi : i ≠ id) (kind : NodeKind) (a : Attributes) :
    (d.ensureNode i kind a).offers id = d.offers id := by
  rw [ensureNode]
  split
  · rfl
  · rw [offers_insertNode, if_neg hi, Nat.add_zero]

/-- Setting an attribute is no offer. -/
theorem offers_enrich (d : Draft) (i : NodeId) (key : String) (value : Json) :
    (d.enrich i key value).offers id = d.offers id := by
  cases hresult : d.store.enrich i key value with
  | ok s =>
      have hmem : id ∈ (d.enrich i key value).store.nodes ↔ id ∈ d.store.nodes :=
        mem_enrich d i key value
      rw [enrich, hresult] at hmem ⊢
      exact offers_congr rfl hmem
  | error e =>
      rw [enrich, hresult]
      refine offers_note ?_
      -- the node is missing, or it has another value
      intro hduplicate
      rw [Store.enrich] at hresult
      split at hresult
      · cases hresult
        cases hduplicate
      · split at hresult
        · split at hresult
          · cases hresult
          · cases hresult
            cases hduplicate
        · cases hresult

/-- A run of steps, each an offer or none, offers a node as often as it has such steps. -/
theorem offers_foldl {σ α : Type} (draft : σ → Draft) {step : σ → α → σ} {c : α → Bool}
    (hstep : ∀ p x, (draft (step p x)).offers id = (draft p).offers id + if c x then 1 else 0)
    (xs : List α) (p : σ) :
    (draft (xs.foldl step p)).offers id = (draft p).offers id + xs.countP c := by
  induction xs generalizing p with
  | nil => rfl
  | cons x xs ih =>
      rw [List.foldl_cons, ih, hstep, List.countP_cons]
      omega

/-- So a run of steps that are no offers changes nothing. -/
theorem offers_foldl_same {σ α : Type} (draft : σ → Draft) {step : σ → α → σ}
    (hstep : ∀ p x, (draft (step p x)).offers id = (draft p).offers id) (xs : List α) (p : σ) :
    (draft (xs.foldl step p)).offers id = (draft p).offers id := by
  have hrun := offers_foldl (c := fun _ => false) draft hstep xs p
  rwa [List.countP_false] at hrun

end Draft

/-! ## What the phases offer -/

section Phases

variable (config : Config) (f : DefinitionFact)

/-- A file is no offer of a definition. -/
theorem offers_addFile (paths : List String) (d : Draft) (file : FileFact) :
    (addFile config paths d file).offers (nodeIdOf f) = d.offers (nodeIdOf f) := by
  rw [addFile]
  split
  · rfl
  · rw [Draft.offers_insertNode, if_neg (nodeIdOf_ne_file f file.path).symm, Nat.add_zero]

/-- **A definition offers its own node,** and no other definition's. -/
theorem offers_addDefinition (paths : List String) (p : Draft × Array Edge)
    (g : DefinitionFact) : (addDefinition config paths p g).1.offers (nodeIdOf f) =
      p.1.offers (nodeIdOf f) + if isNamed g && nodeIdOf g = nodeIdOf f then 1 else 0 := by
  rw [addDefinition]
  by_cases hnamed : isNamed g = true
  · rw [if_pos hnamed, Draft.offers_insertNode,
      Draft.offers_ensureNode (nodeIdOf_ne_file f g.file).symm]
    simp [hnamed]
  · rw [if_neg hnamed]
    refine (Draft.offers_note ?_).trans ?_
    · rintro ⟨⟩
    · simp [hnamed]

/-- **Definitions are offered once for each fact that tells of them.** -/
theorem offers_addSources (inputs : Inputs) :
    (addSources config inputs).1.offers (nodeIdOf f) =
      inputs.definitions.countP fun g => isNamed g && nodeIdOf g = nodeIdOf f := by
  have hstart : Draft.offers { diagnostics := (inputs.malformed.map
      Diagnostic.malformedFact).toArray } (nodeIdOf f) = 0 := by
    rw [Draft.offers, List.countP_toArray, List.countP_map]
    simp [Store.contains, Function.comp_def]
  rw [addSources, Draft.offers_foldl Prod.fst (offers_addDefinition config f inputs.entryPaths),
    Draft.offers_foldl_same (fun d => d) (offers_addFile config f inputs.entryPaths), hstart,
    Nat.zero_add]

theorem offers_addDirectory (d : Draft) (path : String) :
    (addDirectory d path).offers (nodeIdOf f) = d.offers (nodeIdOf f) :=
  Draft.offers_ensureNode (nodeIdOf_ne (tag_directory path) rfl f).symm _ _

theorem offers_addPackage (declared : ExtTreeMap String (Option String)) (d : Draft)
    (package : String) :
    (addPackage declared d package).offers (nodeIdOf f) = d.offers (nodeIdOf f) :=
  Draft.offers_ensureNode (nodeIdOf_ne (tag_dependency package) rfl f).symm _ _

theorem offers_resolveImports (inputs : Inputs) (d : Draft) :
    (resolveImports config inputs d).draft.offers (nodeIdOf f) = d.offers (nodeIdOf f) := by
  refine Draft.offers_foldl_same ImportPhase.draft ?_ inputs.imports { draft := d }
  intro p i
  cases hresolve : resolveImport d.store (moduleIndex d.store) config.aliases i with
  | error x => exact Draft.offers_drop (resolveImport_error hresolve).1
  | ok target =>
      cases target with
      | inside m => rfl
      | outside package => exact offers_addPackage f inputs.declared p.draft package

theorem offers_markFailure (d : Draft) (failure : ParseFailure) :
    (markFailure d failure).offers (nodeIdOf f) = d.offers (nodeIdOf f) := by
  rw [markFailure]
  split
  · exact Draft.offers_enrich d _ _ _
  · rfl

/-- Directories, packages and imports offer no definition. -/
theorem offers_addNodes (inputs : Inputs) :
    (addNodes config inputs).1.offers (nodeIdOf f) =
      inputs.definitions.countP fun g => isNamed g && nodeIdOf g = nodeIdOf f := by
  rw [← offers_addSources config f inputs]
  refine (Draft.offers_foldl_same (fun d => d) (offers_markFailure f) _ _).trans ?_
  refine (offers_resolveImports config f inputs _).trans ?_
  refine (Draft.offers_foldl_same (fun d => d) (offers_addPackage f inputs.declared) _ _).trans ?_
  exact Draft.offers_foldl_same (fun d => d) (offers_addDirectory f) _ _

/-- References offer no definition. -/
theorem offers_resolveReferences (inputs : Inputs) (imported : Imported) (d : Draft) :
    (resolveReferences inputs imported d).draft.offers (nodeIdOf f) = d.offers (nodeIdOf f) := by
  refine (Draft.offers_foldl_same ReferencePhase.draft ?_ inputs.inherits _).trans
    (Draft.offers_foldl_same ReferencePhase.draft ?_ inputs.calls { draft := d })
  · intro p i
    cases hresolve : resolveInherit d.store imported i with
    | ok e => rfl
    | error x => exact Draft.offers_drop (resolveInherit_error hresolve).1
  · intro p c
    cases resolveCall d.store imported c with
    | edge e => rfl
    | noCaller => exact Draft.offers_drop rfl
    | noCallee caller => exact Draft.offers_drop (d := p.draft) rfl

/-- **In a finished draft a node was offered once for each definition that is named and has
    its identifier.** -/
theorem offers_construct (inputs : Inputs) :
    (construct config inputs).offers (nodeIdOf f) =
      inputs.definitions.countP fun g => isNamed g && nodeIdOf g = nodeIdOf f := by
  obtain ⟨d₀, d₁, d₂, edges, imported, p, h⟩ := exists_phases config inputs
  have hgathered := offers_addNodes config f inputs
  rw [h.nodes] at hgathered
  have hresolved := offers_resolveReferences f inputs imported d₁
  rw [← h.resolved] at hresolved
  -- edges and counts offer nothing
  have hjoined : d₁.offers (nodeIdOf f) = d₀.offers (nodeIdOf f) :=
    Draft.offers_congr h.joined.diagnostics (by rw [h.joined.nodes])
  have hlate : (construct config inputs).offers (nodeIdOf f) = p.draft.offers (nodeIdOf f) := by
    refine Draft.offers_congr h.diagnostics_eq ?_
    rw [ExtTreeMap.mem_iff_isSome_getElem?, h.getElem?_construct, Option.isSome_map,
      h.late.nodes, ← ExtTreeMap.mem_iff_isSome_getElem?]
  rw [hlate, hresolved, hjoined, hgathered]

end Phases

/-! ## Refused definitions -/

/-- The definitions that batches tell of, with their files in normal form. -/
def definitions (batches : List Batch) : List DefinitionFact :=
  (batches.flatMap (·.facts)).filterMap Inputs.definition?

/-- **Of the definitions that collide one is accepted, and the others are reported** as
    duplicates.  No other fact takes part in that: two definitions share a node exactly if
    they collide. -/
theorem refused_ofBatches (config : Config) (batches : List Batch) {f : DefinitionFact}
    (hf : f ∈ definitions batches) (hnamed : isNamed f = true) :
    (∀ g, nodeIdOf g = nodeIdOf f ↔ Collides g f) ∧
      (∃ g ∈ definitions batches, Collides g f ∧ Accepted (ofBatches config batches).1 g) ∧
      (ofBatches config batches).2.diagnostics.count (.duplicateNode (nodeIdOf f)) + 1 =
        (definitions batches).countP fun g => isNamed g && decide (Collides g f) := by
  have hfacts : (batches.foldl Batch.merge {}).facts.filterMap Inputs.definition? =
      definitions batches := by
    rw [(foldl_merge batches {}).1]
    rfl
  obtain ⟨g, hg, hid, haccepted⟩ :=
    exists_accepted config (batches.foldl Batch.merge {}) (hfacts ▸ hf) hnamed
  refine ⟨fun g => nodeIdOf_eq_iff, ⟨g, hfacts ▸ hg, nodeIdOf_eq_iff.mp hid, haccepted⟩, ?_⟩
  -- the node is there, so one of its offers was not refused
  have hoffers := offers_construct config f (Inputs.gather (batches.foldl Batch.merge {}))
  have hthere : (construct config (Inputs.gather (batches.foldl Batch.merge {}))).store.contains
      (nodeIdOf f) = true := by
    obtain ⟨-, n, hn, -⟩ := haccepted
    rw [← hid, Store.contains, ← ExtTreeMap.mem_iff_contains]
    exact (ExtTreeMap.getElem?_eq_some_iff.mp hn).1
  rw [Draft.offers, hthere, if_pos rfl] at hoffers
  have hperm : ((Inputs.gather (batches.foldl Batch.merge {})).definitions).Perm
      (definitions batches) := by
    rw [← hfacts]
    exact List.mergeSort_perm _ _
  rw [hperm.countP_eq] at hoffers
  simp only [← nodeIdOf_eq_iff]
  rw [← hoffers, ← Array.countP_toList]
  rfl

/-- Two functions collide whose files and names differ: of the two in `collision` one is
    accepted and one is reported. -/
theorem refused_collision :
    { file := "a:b", name := "c", kind := .function } ∈ definitions [collision] ∧
      (∃ g ∈ definitions [collision],
        Collides g { file := "a:b", name := "c", kind := .function } ∧
          Accepted (ofBatches {} [collision]).1 g) ∧
      (ofBatches {} [collision]).2.diagnostics.count (.duplicateNode (.function "a:b" "c")) + 1 =
        2 := by
  have hf : { file := "a:b", name := "c", kind := .function } ∈ definitions [collision] := by
    decide +kernel
  obtain ⟨-, haccepted, hcount⟩ := refused_ofBatches {} [collision] hf (by decide)
  refine ⟨hf, haccepted, ?_⟩
  have htwo : ((definitions [collision]).countP fun g => isNamed g &&
      decide (Collides g { file := "a:b", name := "c", kind := .function })) = 2 := by
    decide +kernel
  rw [htwo] at hcount
  exact hcount

/-- The function in `a:b` is refused as a second `function:a:b:c`, although the first one lies
    in another file and has another name. -/
theorem refused_in_another_file :
    ∃ f ∈ definitions [collision], ∃ g ∈ definitions [collision],
      isNamed f = true ∧ isNamed g = true ∧ nodeIdOf f = nodeIdOf g ∧
        f.file ≠ g.file ∧ f.qualifiedName ≠ g.qualifiedName ∧
        .duplicateNode (nodeIdOf g) ∈ (ofBatches {} [collision]).2.diagnostics := by
  have hmerge : [collision].foldl Batch.merge {} = collision := by decide
  have hrefused : (ofBatches {} [collision]).2.diagnostics =
      [.duplicateNode (.function "a:b" "c")] := by
    rw [ofBatches, hmerge, gather_collision]
    decide +kernel
  refine ⟨{ file := "a", name := "b:c", kind := .function }, by decide +kernel,
    { file := "a:b", name := "c", kind := .function }, by decide +kernel, by decide, by decide,
    by decide +kernel, by decide, by decide, ?_⟩
  rw [hrefused]
  exact List.mem_singleton_self _

end CodeGraph.Build

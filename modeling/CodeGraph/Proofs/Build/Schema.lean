import CodeGraph.Proofs.Build.Soundness
import Mathlib.Logic.Relation
/-! # Schema — what the nodes of a build look like

    A build makes the identifier of a node from what it names, and writes that
    into the attributes as well.  So the identifier, the kind and the attributes
    of a node never contradict each other.

    * `Described` ties the three together; described nodes with one identifier
      are of one kind.
    * `Draft.Step` is one change of a draft while its nodes are gathered, and
      `Draft.Steps` is any number of them.
    * `Draft.Tidy` is what the steps keep: the nodes are described, nothing but
      a second node was refused, and each drop has its diagnostic
      (`Draft.Steps.tidy`). -/

namespace CodeGraph

open Std

/-- The first two letters of an identifier, which tell its kind. -/
def NodeId.tag (id : NodeId) : List Char := id.text.toList.take 2

/-- The first two letters of the identifiers of a kind. -/
def NodeKind.tag : NodeKind → List Char
  | .file => ['f', 'i']
  | .directory => ['d', 'i']
  | .function => ['f', 'u']
  | .class => ['c', 'l']
  | .dependency => ['d', 'e']

/-- Different kinds have different tags. -/
theorem NodeKind.tag_injective {k l : NodeKind} (h : k.tag = l.tag) : k = l := by
  revert h
  cases k <;> cases l <;> decide

namespace Diagnostic

/-- Whether the store refused something other than a second node. -/
def isFault : Diagnostic → Bool
  | .invalidEdge .. | .danglingEndpoint .. | .attributeConflict ..
  | .embeddingDimension .. => true
  | _ => false

/-- Whether a reference was left out. -/
def isOmission : Diagnostic → Bool
  | .unresolvedReference .. | .missingNode .. => true
  | _ => false

/-- Whether the called function is unknown. -/
def isUnresolvedCall : Diagnostic → Bool
  | .unresolvedReference .call .. => true
  | _ => false

/-- What is left out is reported as such, and not as a fault of the build. -/
theorem isFault_eq_false {x : Diagnostic} (h : x.isOmission = true) : x.isFault = false := by
  cases x with
  | unresolvedReference | missingNode => rfl
  | duplicateNode | danglingEndpoint | invalidEdge | malformedFact | attributeConflict
  | embeddingDimension => cases h

end Diagnostic

namespace Build

/-! ## Identifiers and kinds -/

/-- The tag of an identifier is read off the front of its text, whatever follows. -/
theorem tag_append {s t : String} {a b : Char} {cs : List Char}
    (hs : s.toList = a :: b :: cs) : NodeId.tag ⟨s ++ t⟩ = [a, b] := by
  rw [NodeId.tag, String.toList_append, hs]
  rfl

theorem tag_file (path : String) : (NodeId.file path).tag = NodeKind.file.tag :=
  tag_append rfl

theorem tag_directory (path : String) :
    (NodeId.directory path).tag = NodeKind.directory.tag :=
  tag_append rfl

theorem tag_dependency (package : String) :
    (NodeId.dependency package).tag = NodeKind.dependency.tag :=
  tag_append rfl

/-- The identifier of a definition has the tag of its kind. -/
theorem tag_definitionId {kind : NodeKind} (h : kind.isDefinition = true)
    (file name : String) : (definitionId kind file name).tag = kind.tag := by
  cases kind with
  | function =>
      rw [definitionId, NodeId.function, String.append_assoc, String.append_assoc]
      · exact tag_append rfl
      · exact nofun
  | «class» =>
      rw [definitionId, NodeId.class, String.append_assoc, String.append_assoc]
      exact tag_append rfl
  | file | directory | dependency => cases h

/-- Nodes of two kinds have different identifiers. -/
theorem ne_of_tag {id id' : NodeId} {k k' : NodeKind} (h : id.tag = k.tag)
    (h' : id'.tag = k'.tag) (hne : k ≠ k') : id ≠ id' := by
  rintro rfl
  exact hne (NodeKind.tag_injective (h.symm.trans h'))

/-- A file is known by its path, and so is a directory. -/
theorem file_injective {p q : String} (h : NodeId.file p = NodeId.file q) : p = q :=
  (String.append_right_inj "file:").mp (congrArg NodeId.text h)

theorem directory_injective {p q : String} (h : NodeId.directory p = NodeId.directory q) :
    p = q :=
  (String.append_right_inj "dir:").mp (congrArg NodeId.text h)

/-- The identifier and the attributes of a node name the same thing. -/
inductive Described (n : Node) : Prop
  | file (path : String) : n.kind = .file → n.id = .file path →
      n.text? Attribute.path = some path → Described n
  | directory (path : String) : n.kind = .directory → n.id = .directory path →
      n.text? Attribute.path = some path → Described n
  | definition (file name : String) : n.kind.isDefinition = true →
      n.id = definitionId n.kind file name → n.text? Attribute.definingFile = some file →
      Described n
  | dependency (package : String) : n.kind = .dependency → n.id = .dependency package →
      Described n

/-- The tag of an identifier tells the kind of its node. -/
theorem Described.tag_eq {n : Node} (h : Described n) : n.id.tag = n.kind.tag := by
  cases h with
  | file path hk hid => rw [hk, hid, tag_file]
  | directory path hk hid => rw [hk, hid, tag_directory]
  | definition file name hk hid => rw [hid, tag_definitionId hk]
  | dependency package hk hid => rw [hk, hid, tag_dependency]

/-- A file is described by its path. -/
theorem Described.exists_of_file {n : Node} (h : Described n) (hkind : n.kind = .file) :
    ∃ path, n.id = .file path ∧ n.text? Attribute.path = some path := by
  cases h with
  | file path _ hid htext => exact ⟨path, hid, htext⟩
  | directory _ hk | dependency _ hk =>
      rw [hkind] at hk
      cases hk
  | definition _ _ hk =>
      rw [hkind] at hk
      cases hk

/-- A directory is described by its path. -/
theorem Described.exists_of_directory {n : Node} (h : Described n)
    (hkind : n.kind = .directory) :
    ∃ path, n.id = .directory path ∧ n.text? Attribute.path = some path := by
  cases h with
  | directory path _ hid htext => exact ⟨path, hid, htext⟩
  | file _ hk | dependency _ hk =>
      rw [hkind] at hk
      cases hk
  | definition _ _ hk =>
      rw [hkind] at hk
      cases hk

/-- A file has the identifier of its path. -/
theorem Described.id_of_file {n : Node} (h : Described n) (hkind : n.kind = .file)
    {path : String} (htext : n.text? Attribute.path = some path) : n.id = .file path := by
  obtain ⟨p, hid, hp⟩ := h.exists_of_file hkind
  rw [hid, Option.some.inj (hp.symm.trans htext)]

/-- A directory has the identifier of its path. -/
theorem Described.id_of_directory {n : Node} (h : Described n) (hkind : n.kind = .directory)
    {path : String} (htext : n.text? Attribute.path = some path) :
    n.id = .directory path := by
  obtain ⟨p, hid, hp⟩ := h.exists_of_directory hkind
  rw [hid, Option.some.inj (hp.symm.trans htext)]

/-- A file has the path that its identifier is made from. -/
theorem Described.path_of_file {n : Node} (h : Described n) (hkind : n.kind = .file)
    {path : String} (hid : n.id = .file path) : n.text? Attribute.path = some path := by
  obtain ⟨p, hp, htext⟩ := h.exists_of_file hkind
  rw [htext, file_injective (hp.symm.trans hid)]

/-- A directory has the path that its identifier is made from. -/
theorem Described.path_of_directory {n : Node} (h : Described n) (hkind : n.kind = .directory)
    {path : String} (hid : n.id = .directory path) : n.text? Attribute.path = some path := by
  obtain ⟨p, hp, htext⟩ := h.exists_of_directory hkind
  rw [htext, directory_injective (hp.symm.trans hid)]

/-- A sound store with described nodes. -/
structure Labelled (s : Store) : Prop where
  sound : s.Sound
  described : ∀ (id : NodeId) (n : Node), s.nodes[id]? = some n → Described n

/-- The identifier of a node tells its kind. -/
theorem Labelled.tag_of_getElem? {s : Store} (h : Labelled s) {id : NodeId} {n : Node}
    (hn : s.nodes[id]? = some n) : id.tag = n.kind.tag := by
  rw [← (h.described id n hn).tag_eq, h.sound.keyed id n hn]

/-- A node has the kind that its identifier tells. -/
theorem Labelled.hasKind {s : Store} (h : Labelled s) {id : NodeId} {kind : NodeKind}
    (hin : s.contains id = true) (htag : id.tag = kind.tag) : HasKind s id kind := by
  have hmem : id ∈ s.nodes := ExtTreeMap.mem_iff_contains.mpr hin
  have hnode := ExtTreeMap.getElem?_eq_some_getElem hmem
  exact ⟨_, hnode, NodeKind.tag_injective ((h.tag_of_getElem? hnode).symm.trans htag)⟩

/-- To know that a node of some kind is there it is enough to find its identifier. -/
theorem Labelled.hasKind_iff {s : Store} (h : Labelled s) {id : NodeId} {kind : NodeKind}
    (htag : id.tag = kind.tag) : HasKind s id kind ↔ id ∈ s.nodes := by
  constructor
  · rintro ⟨n, hn, -⟩
    exact (ExtTreeMap.getElem?_eq_some_iff.mp hn).1
  · intro hin
    exact h.hasKind (ExtTreeMap.mem_iff_contains.mp hin) htag

/-- A file belongs to itself. -/
theorem definingFile?_of_file {s : Store} {id : NodeId} {n : Node} (hn : s.nodes[id]? = some n)
    (hkind : n.kind = .file) : s.definingFile? id = some n := by
  rw [Store.definingFile?, hn, Option.bind_eq_bind, Option.bind_some, hkind]

/-- A definition belongs to the file that it names. -/
theorem definingFile?_of_isDefinition {s : Store} {id : NodeId} {n : Node} {path : String}
    (hn : s.nodes[id]? = some n) (hdef : n.kind.isDefinition = true)
    (htext : n.text? Attribute.definingFile = some path) :
    s.definingFile? id = s.nodes[NodeId.file path]? := by
  rw [Store.definingFile?, hn]
  cases hk : n.kind with
  | function | «class» =>
      simp only [Option.bind_eq_bind, Option.bind_some, hk, htext]
  | file | directory | dependency =>
      rw [hk] at hdef
      cases hdef

/-! ## Attributes -/

/-- Fields without a repeated name are looked up one by one. -/
theorem getElem?_ofFields (fields : List (String × Json)) (k : String)
    (h : (fields.map (·.1)).Nodup) : (Attributes.ofFields fields)[k]? = fields.lookup k := by
  cases hl : fields.lookup k with
  | some v =>
      refine ExtTreeMap.getElem?_ofList_of_mem ReflCmp.compare_self ?_ ?_
      · refine (List.pairwise_map.mp h).imp ?_
        intro a b hab heq
        exact hab (LawfulEqCmp.eq_of_compare heq)
      · obtain ⟨l, r, hlr, -⟩ := List.lookup_eq_some_iff.mp hl
        rw [hlr]
        exact List.mem_append_right l List.mem_cons_self
  | none =>
      refine ExtTreeMap.getElem?_ofList_of_contains_eq_false ?_
      rw [List.lookup_eq_none_iff] at hl
      rw [List.contains_eq_mem, decide_eq_false_iff_not, List.mem_map]
      rintro ⟨f, hf, rfl⟩
      exact absurd (hl f hf) (by simp)

/-- To set one attribute leaves the others as they are. -/
theorem getElem?_setOptional_of_ne (a : Attributes) {key k : String} (h : key ≠ k)
    (value : Option Json) : (setOptional a key value)[k]? = a[k]? := by
  cases value with
  | none => rfl
  | some v =>
      rw [setOptional, ExtTreeMap.getElem?_insert, if_neg (h ∘ LawfulEqCmp.eq_of_compare)]

/-- A node as it is while nodes are gathered: only the mark of a failure may have
    come later. -/
structure Regular (n : Node) : Prop where
  described : Described n
  marked : ∀ v, n.attributes[Attribute.parseFailed]? = some v → v = .bool true
  uncounted : n.attributes[Attribute.unresolvedCalls]? = none

/-- Keys that mean something to a regular node. -/
def reservedKeys : List String :=
  [Attribute.path, Attribute.definingFile, Attribute.parseFailed, Attribute.unresolvedCalls]

/-- Attributes that describe nothing may be set at will. -/
theorem Described.insert {n : Node} (h : Described n) {key : String} (value : Json)
    (hpath : key ≠ Attribute.path) (hfile : key ≠ Attribute.definingFile) :
    Described { n with attributes := n.attributes.insert key value } := by
  cases h with
  | file path hk hid htext =>
      exact .file path hk hid (by rw [Store.text?_insert, if_neg hpath, htext])
  | directory path hk hid htext =>
      exact .directory path hk hid (by rw [Store.text?_insert, if_neg hpath, htext])
  | definition file name hk hid htext =>
      exact .definition file name hk hid (by rw [Store.text?_insert, if_neg hfile, htext])
  | dependency package hk hid => exact .dependency package hk hid

/-- Any other attribute can be set. -/
theorem Regular.insert {n : Node} (h : Regular n) {key : String} (value : Json)
    (hkey : key ∉ reservedKeys) :
    Regular { n with attributes := n.attributes.insert key value } := by
  simp only [reservedKeys, List.mem_cons, List.not_mem_nil, or_false, not_or] at hkey
  obtain ⟨hpath, hfile, hfailed, hcalls⟩ := hkey
  refine ⟨h.described.insert value hpath hfile, ?_, ?_⟩
  · intro v hv
    rw [ExtTreeMap.getElem?_insert, if_neg (hfailed ∘ LawfulEqCmp.eq_of_compare)] at hv
    exact h.marked v hv
  · rw [ExtTreeMap.getElem?_insert, if_neg (hcalls ∘ LawfulEqCmp.eq_of_compare)]
    exact h.uncounted

/-- A node stays regular if an attribute that is not reserved is set. -/
theorem Regular.setOptional {id : NodeId} {kind : NodeKind} {a : Attributes}
    (h : Regular ⟨id, kind, a, none⟩) {key : String} (value : Option Json)
    (hkey : key ∉ reservedKeys) : Regular ⟨id, kind, setOptional a key value, none⟩ := by
  cases value with
  | none => exact h
  | some v => exact h.insert v hkey

/-- A described node is regular if it has just been made from fields with other
    keys. -/
theorem regular_ofFields {id : NodeId} {kind : NodeKind} {fields : List (String × Json)}
    (keys : List String) (hmap : fields.map (·.1) = keys)
    (hkeys : (Attribute.parseFailed :: Attribute.unresolvedCalls :: keys).Nodup)
    (h : Described ⟨id, kind, .ofFields fields, none⟩) :
    Regular ⟨id, kind, .ofFields fields, none⟩ := by
  subst hmap
  obtain ⟨hfailed, hrest⟩ := List.nodup_cons.mp hkeys
  obtain ⟨hcalls, hnodup⟩ := List.nodup_cons.mp hrest
  have hnone : ∀ key, key ∉ fields.map (·.1) → (Attributes.ofFields fields)[key]? = none := by
    intro key hkey
    rw [getElem?_ofFields _ _ hnodup, List.lookup_eq_none_iff]
    intro f hf
    have hne : key ≠ f.1 := by
      rintro rfl
      exact hkey (List.mem_map_of_mem hf)
    exact bne_iff_ne.mpr hne
  refine ⟨h, ?_, hnone _ hcalls⟩
  intro v hv
  rw [hnone _ (fun hmem => hfailed (List.mem_cons_of_mem _ hmem))] at hv
  cases hv

/-! ## The nodes of each kind -/

theorem regular_directory (path : String) : Regular ⟨.directory path, .directory,
    .ofFields [(Attribute.path, .string path), (Attribute.name, .string (Path.fileName path))],
    none⟩ := by
  refine regular_ofFields [Attribute.path, Attribute.name] rfl (by decide) ?_
  refine .directory path rfl rfl ?_
  rw [Node.text?, getElem?_ofFields]
  · rfl
  · exact (by decide : [Attribute.path, Attribute.name].Nodup)

theorem regular_dependency (package : String) (version : Json) :
    Regular ⟨.dependency package, .dependency,
      .ofFields [(Attribute.name, .string package), (Attribute.version, version),
        (Attribute.isExternal, .bool true)], none⟩ :=
  regular_ofFields [Attribute.name, Attribute.version, Attribute.isExternal] rfl (by decide)
    (.dependency package rfl rfl)

/-- A file is regular whatever the configuration takes for an entry point. -/
theorem regular_file (config : Config) (entryPaths : List String) (path : String) :
    Regular ⟨.file path, .file, fileAttributes config entryPaths path, none⟩ := by
  have hplain : Regular ⟨.file path, .file, .ofFields
      [(Attribute.path, .string path), (Attribute.name, .string (Path.fileName path)),
       (Attribute.extension, .string (Path.extension path))], none⟩ := by
    refine regular_ofFields [Attribute.path, Attribute.name, Attribute.extension] rfl
      (by decide) (.file path rfl rfl ?_)
    rw [Node.text?, getElem?_ofFields]
    · rfl
    · exact (by decide : [Attribute.path, Attribute.name, Attribute.extension].Nodup)
  have hlanguage := hplain.setOptional ((languageOf? (Path.extension path)).map Json.string)
    (by decide : Attribute.language ∉ reservedKeys)
  -- what is always set is an optional attribute that has a value
  exact hlanguage.setOptional (some (.bool (isEntryPath config entryPaths path)))
    (by decide : Attribute.isEntryPoint ∉ reservedKeys)

/-- A definition bears the path of its file. -/
theorem text?_definingFile (f : DefinitionFact) :
    (⟨nodeIdOf f, nodeKindOf f.kind, definitionAttributes f, none⟩ : Node).text?
      Attribute.definingFile = some f.file := by
  rw [Node.text?, definitionAttributes, getElem?_setOptional_of_ne _ (by decide),
    getElem?_setOptional_of_ne _ (by decide), getElem?_setOptional_of_ne _ (by decide),
    getElem?_setOptional_of_ne _ (by decide), getElem?_setOptional_of_ne _ (by decide),
    getElem?_ofFields]
  · rfl
  · exact (by decide : [Attribute.name, Attribute.qualifiedName, Attribute.definingFile,
      Attribute.parameters].Nodup)

/-- A definition becomes a function or a class. -/
theorem isDefinition_nodeKindOf (kind : DefinitionKind) :
    (nodeKindOf kind).isDefinition = true := by
  cases kind <;> rfl

theorem regular_definition (f : DefinitionFact) :
    Regular ⟨nodeIdOf f, nodeKindOf f.kind, definitionAttributes f, none⟩ := by
  refine Regular.setOptional ?_ _ (by decide)
  refine Regular.setOptional ?_ _ (by decide)
  refine Regular.setOptional ?_ _ (by decide)
  refine Regular.setOptional ?_ _ (by decide)
  refine Regular.setOptional ?_ _ (by decide)
  refine regular_ofFields [Attribute.name, Attribute.qualifiedName, Attribute.definingFile,
    Attribute.parameters] rfl (by decide) ?_
  refine .definition f.file f.qualifiedName (isDefinition_nodeKindOf f.kind) rfl ?_
  rw [Node.text?, getElem?_ofFields]
  · rfl
  · exact (by decide : [Attribute.name, Attribute.qualifiedName, Attribute.definingFile,
      Attribute.parameters].Nodup)

/-! ## Growing stores -/

/-- Nodes are added, and attributes where there were none. -/
def Grown (s s' : Store) : Prop :=
  ∀ (id : NodeId) (n : Node), s.nodes[id]? = some n → ∃ n', s'.nodes[id]? = some n' ∧
    n'.kind = n.kind ∧ ∀ (key : String) (v : Json), n.attributes[key]? = some v →
      n'.attributes[key]? = some v

namespace Grown

variable {s s' s'' : Store}

theorem refl (s : Store) : Grown s s := fun _ n hn => ⟨n, hn, rfl, fun _ _ hv => hv⟩

theorem trans (h : Grown s s') (h' : Grown s' s'') : Grown s s'' := by
  intro id n hn
  obtain ⟨n', hn', hkind, hattr⟩ := h id n hn
  obtain ⟨n'', hn'', hkind', hattr'⟩ := h' id n' hn'
  exact ⟨n'', hn'', hkind'.trans hkind, fun key v hv => hattr' key v (hattr key v hv)⟩

/-- Edges and what is reported may change. -/
theorem of_nodes_eq (h : s'.nodes = s.nodes) : Grown s s' := by
  intro id n hn
  exact ⟨n, by rw [h, hn], rfl, fun _ _ hv => hv⟩

/-- A new node is put beside the others. -/
theorem of_addNode {id : NodeId} {kind : NodeKind} {a : Attributes}
    (hok : s.addNode id kind a = .ok s') : Grown s s' := by
  obtain ⟨hnew, rfl⟩ := Store.addNode_ok hok
  intro i n hn
  exact ⟨n, Store.getElem?_insert_iff.mpr (Or.inr ⟨Store.ne_of_new hnew hn, hn⟩), rfl,
    fun _ _ hv => hv⟩

/-- To enrich a node sets one of its attributes. -/
theorem of_enrich {id : NodeId} {key : String} {value : Json}
    (hok : s.enrich id key value = .ok s') : Grown s s' := by
  rcases Store.enrich_ok hok with rfl | ⟨node, hnode, hkey, rfl⟩
  · exact refl s'
  intro i n hn
  by_cases hi : i = id
  · subst hi
    cases hn.symm.trans hnode
    refine ⟨_, Store.getElem?_insert_iff.mpr (Or.inl ⟨rfl, rfl⟩), rfl, ?_⟩
    intro k v hv
    have hne : key ≠ k := by
      rintro rfl
      rw [hkey] at hv
      cases hv
    rw [ExtTreeMap.getElem?_insert, if_neg (hne ∘ LawfulEqCmp.eq_of_compare), hv]
  · exact ⟨n, Store.getElem?_insert_iff.mpr (Or.inr ⟨hi, hn⟩), rfl, fun _ _ hv => hv⟩

/-- Nodes keep their kinds. -/
theorem hasKind (h : Grown s s') {id : NodeId} {kind : NodeKind} (hk : HasKind s id kind) :
    HasKind s' id kind := by
  obtain ⟨n, hn, hkind⟩ := hk
  obtain ⟨n', hn', hkind', -⟩ := h id n hn
  exact ⟨n', hn', hkind'.trans hkind⟩

end Grown

/-- A text among the attributes stays what it is. -/
theorem text?_mono {n n' : Node} (h : ∀ (key : String) (v : Json),
    n.attributes[key]? = some v → n'.attributes[key]? = some v) {key text : String}
    (ht : n.text? key = some text) : n'.text? key = some text := by
  obtain ⟨v, hv, hs⟩ := Option.bind_eq_some_iff.mp ht
  rw [Node.text?, h key v hv]
  exact hs

/-! ## Steps -/

/-- One change while nodes are gathered that leaves nothing out. -/
inductive Draft.Step (d : Draft) : Draft → Prop
  | note (m : Malformed) : Step d (d.note (.malformedFact m))
  | insert {id : NodeId} {kind : NodeKind} {a : Attributes} :
      Regular ⟨id, kind, a, none⟩ → Step d (d.insertNode id kind a)
  | mark (path : String) : d.store.contains (.file path) = true →
      Step d (d.enrich (.file path) Attribute.parseFailed (.bool true))

/-- Some such changes. -/
abbrev Draft.Steps : Draft → Draft → Prop := Relation.ReflTransGen Draft.Step

/-- Nothing but a second node was refused, and each drop has its diagnostic. -/
structure Draft.Honest (d : Draft) : Prop where
  faultless : ∀ x ∈ d.diagnostics, x.isFault = false
  dropped : d.dropped = d.diagnostics.countP Diagnostic.isOmission

/-- What is true of a draft while nodes are gathered. -/
structure Draft.Tidy (d : Draft) : Prop where
  sound : d.store.Sound
  edgeless : d.store.edges = #[]
  regular : ∀ (id : NodeId) (n : Node), d.store.nodes[id]? = some n → Regular n
  honest : d.Honest
  callless : d.diagnostics.countP Diagnostic.isUnresolvedCall = 0

namespace Draft

variable {d d' : Draft}

/-- A step takes nothing away. -/
theorem Step.grown (h : d.Step d') : Grown d.store d'.store := by
  cases h with
  | note m => exact .refl _
  | insert =>
      rw [insertNode]
      split
      · rename_i s hok
        exact .of_addNode hok
      · exact .refl _
  | mark =>
      rw [enrich]
      split
      · rename_i s hok
        exact .of_enrich hok
      · exact .refl _

theorem Steps.grown (h : d.Steps d') : Grown d.store d'.store := by
  induction h with
  | refl => exact .refl _
  | tail _ hstep ih => exact ih.trans hstep.grown

/-- A step leaves nothing out; that is done by `drop` alone. -/
theorem Step.dropped_eq (h : d.Step d') : d'.dropped = d.dropped := by
  cases h with
  | note m => rfl
  | insert =>
      rw [insertNode]
      split <;> rfl
  | mark =>
      rw [enrich]
      split <;> rfl

theorem Steps.dropped_eq (h : d.Steps d') : d'.dropped = d.dropped := by
  induction h with
  | refl => rfl
  | tail _ hstep ih => exact hstep.dropped_eq.trans ih

/-- An anomaly is reported without anything being left out. -/
theorem Honest.note (h : d.Honest) {x : Diagnostic} (hfault : x.isFault = false)
    (homission : x.isOmission = false) : (d.note x).Honest where
  faultless := by
    intro y hy
    rcases Array.mem_push.mp hy with hy | rfl
    · exact h.faultless y hy
    · exact hfault
  dropped := by
    rw [Draft.note, Array.countP_push, homission, ← h.dropped]
    rfl

/-- What is left out is counted and reported together. -/
theorem Honest.drop (h : d.Honest) {x : Diagnostic} (homission : x.isOmission = true) :
    (d.drop x).Honest where
  faultless := by
    intro y hy
    rcases Array.mem_push.mp hy with hy | rfl
    · exact h.faultless y hy
    · exact Diagnostic.isFault_eq_false homission
  dropped := by
    rw [Draft.drop, Draft.note, Array.countP_push, homission, ← h.dropped]
    rfl

/-- One more diagnostic is one more unresolved call, if it is that. -/
theorem countP_note (d : Draft) (x : Diagnostic) :
    (d.note x).diagnostics.countP Diagnostic.isUnresolvedCall =
      d.diagnostics.countP Diagnostic.isUnresolvedCall +
        if x.isUnresolvedCall then 1 else 0 := by
  rw [note, Array.countP_push]

theorem Tidy.note (h : d.Tidy) {x : Diagnostic} (hfault : x.isFault = false)
    (homission : x.isOmission = false) (hcall : x.isUnresolvedCall = false) :
    (d.note x).Tidy :=
  ⟨h.sound, h.edgeless, h.regular, h.honest.note hfault homission, by
    rw [countP_note, h.callless, hcall]
    rfl⟩

/-- A reference other than a called function is left out. -/
theorem Tidy.drop (h : d.Tidy) {x : Diagnostic} (homission : x.isOmission = true)
    (hcall : x.isUnresolvedCall = false) : (d.drop x).Tidy :=
  ⟨h.sound, h.edgeless, h.regular, h.honest.drop homission, by
    show (d.note x).diagnostics.countP Diagnostic.isUnresolvedCall = 0
    rw [countP_note, h.callless, hcall]
    rfl⟩

/-- A regular node may be put into a tidy draft. -/
theorem Tidy.insertNode (h : d.Tidy) {id : NodeId} {kind : NodeKind} {a : Attributes}
    (hregular : Regular ⟨id, kind, a, none⟩) : (d.insertNode id kind a).Tidy := by
  rw [Draft.insertNode]
  split
  · rename_i s hok
    have hsound := h.sound.addNode hok
    obtain ⟨-, rfl⟩ := Store.addNode_ok hok
    refine ⟨hsound, h.edgeless, ?_, ⟨h.honest.faultless, h.honest.dropped⟩, h.callless⟩
    intro i n hn
    rcases Store.getElem?_insert_iff.mp hn with ⟨rfl, rfl⟩ | ⟨-, hn⟩
    · exact hregular
    · exact h.regular i n hn
  · rename_i e herr
    rw [Store.addNode] at herr
    split at herr
    · cases herr
      exact h.note rfl rfl rfl
    · cases herr

/-- A file is marked as failed, or is so already. -/
theorem Tidy.mark (h : d.Tidy) {path : String}
    (hin : d.store.contains (.file path) = true) :
    (d.enrich (.file path) Attribute.parseFailed (.bool true)).Tidy := by
  have hmem : NodeId.file path ∈ d.store.nodes := ExtTreeMap.mem_iff_contains.mpr hin
  have hnode := ExtTreeMap.getElem?_eq_some_getElem hmem
  generalize d.store.nodes[NodeId.file path] = node at hnode
  have hregular := h.regular _ _ hnode
  rw [Draft.enrich]
  split
  · rename_i s hok
    have hsound := h.sound.enrich hok
    rcases Store.enrich_ok hok with rfl | ⟨m, hm, hkey, rfl⟩
    · exact h
    cases hnode.symm.trans hm
    refine ⟨hsound, h.edgeless, ?_, ⟨h.honest.faultless, h.honest.dropped⟩, h.callless⟩
    intro i n hn
    rcases Store.getElem?_insert_iff.mp hn with ⟨rfl, rfl⟩ | ⟨-, hn⟩
    · refine ⟨hregular.described.insert _ (by decide) (by decide), ?_, ?_⟩
      · intro v hv
        rw [ExtTreeMap.getElem?_insert_self] at hv
        exact (Option.some.inj hv).symm
      · rw [ExtTreeMap.getElem?_insert, if_neg (by decide)]
        exact hregular.uncounted
    · exact h.regular i n hn
  · rename_i e herr
    rw [Store.enrich, hnode] at herr
    dsimp only at herr
    split at herr
    · rename_i old hold
      -- a mark is never anything but true, so a second one is no conflict
      rw [hregular.marked old hold] at herr
      cases herr
    · cases herr

/-- **A step keeps a draft tidy.** -/
theorem Step.tidy (h : d.Step d') (ht : d.Tidy) : d'.Tidy := by
  cases h with
  | note m => exact ht.note rfl rfl rfl
  | insert hregular => exact ht.insertNode hregular
  | mark path hin => exact ht.mark hin

/-- **Gathering nodes leaves a draft tidy.** -/
theorem Steps.tidy (h : d.Steps d') (ht : d.Tidy) : d'.Tidy := by
  induction h with
  | refl => exact ht
  | tail _ hstep ih => exact hstep.tidy ih

/-- Any number of steps that are made of steps are steps. -/
theorem steps_foldl {α : Type} {f : Draft → α → Draft} (hf : ∀ d x, Steps d (f d x))
    (xs : List α) (d : Draft) : Steps d (xs.foldl f d) :=
  List.foldlRecOn xs f (motive := Steps d) .refl fun _ h x _ => h.trans (hf _ x)

theorem steps_insertNode {id : NodeId} {kind : NodeKind} {a : Attributes}
    (h : Regular ⟨id, kind, a, none⟩) : Steps d (d.insertNode id kind a) :=
  .single (.insert h)

/-- To ensure a node is a step or none. -/
theorem steps_ensureNode {id : NodeId} {kind : NodeKind} {a : Attributes}
    (h : Regular ⟨id, kind, a, none⟩) : Steps d (d.ensureNode id kind a) := by
  rw [ensureNode]
  split
  · exact .refl
  · exact steps_insertNode h

theorem Tidy.labelled (h : d.Tidy) : Labelled d.store :=
  ⟨h.sound, fun id n hn => (h.regular id n hn).described⟩

/-- A node under a new identifier is added. -/
theorem getElem?_insertNode {id : NodeId} (hnew : d.store.contains id = false)
    (kind : NodeKind) (a : Attributes) :
    (d.insertNode id kind a).store.nodes[id]? = some ⟨id, kind, a, none⟩ := by
  have hmem : id ∉ d.store.nodes := by
    intro hin
    rw [Store.contains, ExtTreeMap.mem_iff_contains.mp hin] at hnew
    cases hnew
  rw [insertNode, Store.addNode, if_neg hmem]
  exact ExtTreeMap.getElem?_insert_self

/-- A node that is ensured is there. -/
theorem Tidy.hasKind_ensureNode (h : d.Tidy) {id : NodeId} {kind : NodeKind}
    {a : Attributes} (hregular : Regular ⟨id, kind, a, none⟩) :
    HasKind (d.ensureNode id kind a).store id kind := by
  rw [ensureNode]
  split
  · rename_i hin
    exact h.labelled.hasKind hin hregular.described.tag_eq
  · rename_i hnew
    exact ⟨_, getElem?_insertNode (Bool.eq_false_iff.mpr hnew) kind a, rfl⟩

end Draft

end Build

end CodeGraph

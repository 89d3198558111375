import CodeGraph.Proofs.Build.Balance
/-! # Proposals — where the nodes of a build come from

    The phases that gather nodes propose them one after the other, and under each
    identifier the first proposal counts.

    * `Draft.Takes` says so of one phase and is closed under composition.
    * `proposals` are the nodes that are proposed before imports are resolved:
      those of files and definitions (`sourceNodes`), then directories, then
      declared packages.
    * `Settled`: from then on only packages are added, and a node changes by two
      marks at most.  Hence the finished store holds the first proposal for each
      identifier, up to these marks (`holds_of_find?_proposals`). -/

namespace CodeGraph.Build

open Std

variable {d d' d'' : Draft}

/-! ## Taking proposals -/

/-- Nodes are proposed to a draft; the first one under a new identifier is taken. -/
def Draft.Takes (d d' : Draft) (ns : List Node) : Prop :=
  ∀ id : NodeId, d'.store.nodes[id]? = (d.store.nodes[id]?).or (ns.find? fun n => n.id = id)

namespace Draft

/-- A draft whose nodes stay takes no proposal. -/
theorem takes_nil (h : d'.store.nodes = d.store.nodes) : d.Takes d' [] := by
  intro id
  rw [h, List.find?_nil, Option.or_none]

/-- What is taken in two steps is taken in one, with the proposals of the first step in
    front. -/
theorem Takes.append {ns ns' : List Node} (h : d.Takes d' ns) (h' : d'.Takes d'' ns') :
    d.Takes d'' (ns ++ ns') := by
  intro id
  rw [h' id, h id, Option.or_assoc, List.find?_append]

/-- An identifier is there if it was there or was proposed. -/
theorem Takes.contains {ns : List Node} (h : d.Takes d' ns) (id : NodeId) :
    d'.store.contains id = (d.store.contains id || ns.any fun n => n.id = id) := by
  rw [Store.contains, Store.contains, ExtTreeMap.contains_eq_isSome_getElem?, h id,
    ExtTreeMap.contains_eq_isSome_getElem?, Option.isSome_or, List.isSome_find?]

/-- A node that is inserted is a proposal; a duplicate is reported and not taken. -/
theorem takes_insertNode (d : Draft) (id : NodeId) (kind : NodeKind) (a : Attributes) :
    d.Takes (d.insertNode id kind a) [⟨id, kind, a, none⟩] := by
  intro i
  rw [insertNode, Store.addNode, List.find?_singleton]
  by_cases hin : id ∈ d.store.nodes
  · -- refused: the draft has a node under this identifier
    rw [if_pos hin]
    by_cases hi : id = i
    · subst hi
      rw [if_pos (decide_eq_true rfl)]
      obtain ⟨n, hn⟩ := Option.isSome_iff_exists.mp (ExtTreeMap.mem_iff_isSome_getElem?.mp hin)
      show d.store.nodes[id]? = _
      rw [hn, Option.some_or]
    · rw [if_neg (by simpa using hi), Option.or_none]
      rfl
  · rw [if_neg hin]
    show (d.store.nodes.insert id _)[i]? = _
    rw [ExtTreeMap.getElem?_insert]
    by_cases hi : id = i
    · subst hi
      rw [if_pos ReflCmp.compare_self, if_pos (decide_eq_true rfl),
        ExtTreeMap.getElem?_eq_none hin, Option.none_or]
    · rw [if_neg (hi ∘ LawfulEqCmp.eq_of_compare), if_neg (by simpa using hi), Option.or_none]

/-- A node that is ensured is a proposal; a duplicate is passed over. -/
theorem takes_ensureNode (d : Draft) (id : NodeId) (kind : NodeKind) (a : Attributes) :
    d.Takes (d.ensureNode id kind a) [⟨id, kind, a, none⟩] := by
  rw [ensureNode]
  split
  · rename_i hin
    have hinsert := takes_insertNode d id kind a
    -- a node that is there would have been refused as well
    rw [insertNode, Store.addNode, if_pos (ExtTreeMap.mem_iff_contains.mpr hin)] at hinsert
    exact hinsert
  · exact takes_insertNode d id kind a

/-- A run of steps on something with a draft proposes what its steps propose. -/
theorem takes_foldl {σ α : Type} (draft : σ → Draft) {f : σ → α → σ} {ns : α → List Node}
    (hf : ∀ p x, (draft p).Takes (draft (f p x)) (ns x)) (xs : List α) (p : σ) :
    (draft p).Takes (draft (xs.foldl f p)) (xs.flatMap ns) := by
  induction xs generalizing p with
  | nil => exact takes_nil rfl
  | cons x xs ih =>
      rw [List.foldl_cons, List.flatMap_cons]
      exact (hf p x).append (ih (f p x))

end Draft

/-! ## The nodes that are proposed -/

/-- The attributes of a file that a fact tells of. -/
def fileNodeAttributes (config : Config) (entryPaths : List String) (f : FileFact) :
    Attributes :=
  setOptional
    (setOptional (fileAttributes config entryPaths f.path) Attribute.language
      (f.language.map .string))
    Attribute.size (f.size.map .ofUInt64)

/-- The file that a fact tells of. -/
def fileNode (config : Config) (entryPaths : List String) (f : FileFact) : Node :=
  ⟨.file f.path, .file, fileNodeAttributes config entryPaths f, none⟩

/-- The file of a definition that no fact tells of. -/
def implicitNode (config : Config) (entryPaths : List String) (path : String) : Node :=
  ⟨.file path, .file,
    (fileAttributes config entryPaths path).insert Attribute.implicit (.bool true), none⟩

/-- The node of a definition. -/
def definitionNode (f : DefinitionFact) : Node :=
  ⟨nodeIdOf f, nodeKindOf f.kind, definitionAttributes f, none⟩

/-- A directory. -/
def directoryNode (path : String) : Node :=
  ⟨.directory path, .directory,
    .ofFields
      [(Attribute.path, .string path), (Attribute.name, .string (Path.fileName path))], none⟩

/-- A package with its declared version, if there is one. -/
def packageNode (declared : ExtTreeMap String (Option String)) (package : String) : Node :=
  ⟨.dependency package, .dependency,
    .ofFields
      [(Attribute.name, .string package),
       (Attribute.version, .ofOption .string (declared.getD package none)),
       (Attribute.isExternal, .bool true)], none⟩

/-- The nodes that a file is proposed with. -/
def fileProposals (config : Config) (entryPaths : List String) (f : FileFact) : List Node :=
  if f.path = "" then [] else [fileNode config entryPaths f]

/-- The nodes that a definition is proposed with. -/
def definitionProposals (config : Config) (entryPaths : List String) (f : DefinitionFact) :
    List Node :=
  if isNamed f then [implicitNode config entryPaths f.file, definitionNode f] else []

/-- The nodes of files and definitions, in the order in which they are proposed. -/
def sourceNodes (config : Config) (inputs : Inputs) : List Node :=
  inputs.files.flatMap (fileProposals config inputs.entryPaths) ++
    inputs.definitions.flatMap (definitionProposals config inputs.entryPaths)

/-- The nodes that are proposed before imports are resolved. -/
def proposals (config : Config) (inputs : Inputs) : List Node :=
  sourceNodes config inputs ++
    (((filePaths (addSources config inputs).1.store).flatMap Path.ancestors).map
        directoryNode ++
      inputs.declared.keys.map (packageNode inputs.declared))

/-! ## Looking proposals up -/

/-- Nothing else has the identifier of a definition. -/
theorem nodeIdOf_ne {id : NodeId} {kind : NodeKind} (hid : id.tag = kind.tag)
    (hkind : kind.isDefinition = false) (f : DefinitionFact) : nodeIdOf f ≠ id := by
  rintro rfl
  rw [nodeIdOf, tag_definitionId (isDefinition_nodeKindOf f.kind)] at hid
  rw [← NodeKind.tag_injective hid, isDefinition_nodeKindOf] at hkind
  cases hkind

theorem nodeIdOf_ne_file (f : DefinitionFact) (path : String) : nodeIdOf f ≠ .file path :=
  nodeIdOf_ne (tag_file path) rfl f

variable (config : Config)

section Lookup

variable (entryPaths : List String)

/-- A file fact proposes the file with its path, and no other. -/
theorem find?_fileProposals {path : String} (hpath : path ≠ "") (f : FileFact) :
    ((fileProposals config entryPaths f).find? fun n => n.id = .file path) =
      if f.path = path then some (fileNode config entryPaths f) else none := by
  rw [fileProposals]
  by_cases hf : f.path = path
  · rw [if_neg (by rw [hf]; exact hpath), if_pos hf, List.find?_singleton, if_pos]
    rw [fileNode, hf]
    exact decide_eq_true rfl
  · rw [if_neg hf]
    split
    · rfl
    · rw [List.find?_singleton, if_neg]
      rw [decide_eq_true_eq]
      exact hf ∘ file_injective

theorem find?_fileProposals_of_ne {id : NodeId} (hid : ∀ path, id ≠ .file path)
    (f : FileFact) : ((fileProposals config entryPaths f).find? fun n => n.id = id) = none := by
  rw [fileProposals]
  split
  · rfl
  · rw [List.find?_singleton, if_neg]
    rw [decide_eq_true_eq]
    exact (hid f.path).symm

/-- A definition proposes its file, as an implicit one. -/
theorem find?_definitionProposals_file (path : String) (f : DefinitionFact) :
    ((definitionProposals config entryPaths f).find? fun n => n.id = .file path) =
      if isNamed f && f.file = path then some (implicitNode config entryPaths path)
      else none := by
  have hne : ¬(definitionNode f).id = .file path := nodeIdOf_ne_file f path
  rw [definitionProposals]
  by_cases hf : f.file = path
  · subst hf
    cases isNamed f <;> simp [implicitNode]
  · have himplicit : ¬(implicitNode config entryPaths f.file).id = .file path :=
      hf ∘ file_injective
    cases isNamed f <;> simp [hf, hne, himplicit]

/-- Besides its file a definition proposes nothing but its own node. -/
theorem find?_definitionProposals {id : NodeId} (hid : ∀ path, id ≠ .file path)
    (f : DefinitionFact) :
    ((definitionProposals config entryPaths f).find? fun n => n.id = id) =
      if isNamed f && nodeIdOf f = id then some (definitionNode f) else none := by
  have himplicit : ¬(implicitNode config entryPaths f.file).id = id := (hid f.file).symm
  rw [definitionProposals]
  cases isNamed f with
  | false => rfl
  | true =>
      by_cases hf : (definitionNode f).id = id
      · have hf' : nodeIdOf f = id := hf
        simp [himplicit, hf, hf']
      · have hf' : ¬nodeIdOf f = id := hf
        simp [himplicit, hf, hf']

end Lookup

variable (inputs : Inputs)

/-- No file is proposed without a path. -/
theorem find?_sourceNodes_pathless :
    ((sourceNodes config inputs).find? fun n => n.id = .file "") = none := by
  rw [sourceNodes, List.find?_append, List.find?_flatMap, List.find?_flatMap,
    List.findSome?_eq_none_iff.mpr, Option.none_or, List.findSome?_eq_none_iff]
  · intro f _
    rw [find?_definitionProposals_file, if_neg]
    rw [isNamed]
    simp +contextual
  · intro f _
    rw [fileProposals]
    split
    · rfl
    · rename_i hpath
      rw [List.find?_singleton, if_neg]
      rw [decide_eq_true_eq]
      exact hpath ∘ file_injective

/-- A package is known by its name. -/
theorem dependency_injective {p q : String} (h : NodeId.dependency p = NodeId.dependency q) :
    p = q :=
  (String.append_right_inj "dependency:").mp (congrArg NodeId.text h)

/-- A declared package is proposed with its version. -/
theorem find?_proposals_dependency {package : String} (h : package ∈ inputs.declared) :
    ((proposals config inputs).find? fun n => n.id = .dependency package) =
      some (packageNode inputs.declared package) := by
  -- identifiers of different kinds begin with different words
  have htag : ∀ {id : NodeId} {kind : NodeKind}, id.tag = kind.tag → kind ≠ .dependency →
      id ≠ .dependency package := by
    rintro id kind hid hkind rfl
    rw [tag_dependency] at hid
    exact hkind (NodeKind.tag_injective hid).symm
  have hfile : ∀ path, NodeId.dependency package ≠ .file path :=
    fun path => (htag (tag_file path) (by decide)).symm
  have hsources : ((sourceNodes config inputs).find?
      fun n => n.id = .dependency package) = none := by
    rw [sourceNodes, List.find?_append, List.find?_flatMap, List.find?_flatMap,
      List.findSome?_eq_none_iff.mpr, Option.none_or, List.findSome?_eq_none_iff]
    · intro f _
      rw [find?_definitionProposals config _ hfile, if_neg]
      rw [Bool.and_eq_true, decide_eq_true_eq]
      rintro ⟨-, hid⟩
      exact nodeIdOf_ne (tag_dependency package) rfl f hid
    · intro f _
      exact find?_fileProposals_of_ne config _ hfile f
  have hdirectories : ∀ paths : List String, ((paths.map directoryNode).find?
      fun n => n.id = .dependency package) = none := by
    intro paths
    rw [List.find?_eq_none]
    intro n hn
    obtain ⟨path, -, rfl⟩ := List.mem_map.mp hn
    rw [decide_eq_true_eq]
    exact htag (tag_directory path) (by decide)
  rw [proposals, List.find?_append, hsources, Option.none_or, List.find?_append, hdirectories,
    Option.none_or]
  cases hfound : (inputs.declared.keys.map (packageNode inputs.declared)).find?
      fun n => n.id = .dependency package with
  | none =>
      rw [List.find?_eq_none] at hfound
      refine absurd (decide_eq_true rfl) (hfound (packageNode inputs.declared package) ?_)
      exact List.mem_map_of_mem (ExtTreeMap.mem_keys.mpr h)
  | some n =>
      obtain ⟨p, -, rfl⟩ := List.mem_map.mp (List.mem_of_find?_eq_some hfound)
      have hid := List.find?_some hfound
      rw [decide_eq_true_eq] at hid
      rw [dependency_injective hid]

/-! ## The phases that propose nodes -/

/-- A file fact is taken as what it proposes. -/
theorem takes_addFile (entryPaths : List String) (d : Draft) (f : FileFact) :
    d.Takes (addFile config entryPaths d f) (fileProposals config entryPaths f) := by
  rw [addFile, fileProposals]
  split
  · exact Draft.takes_nil rfl
  · exact Draft.takes_insertNode d _ _ _

/-- A definition is taken as what it proposes. -/
theorem takes_addDefinition (entryPaths : List String) (p : Draft × Array Edge)
    (f : DefinitionFact) : p.1.Takes (addDefinition config entryPaths p f).1
      (definitionProposals config entryPaths f) := by
  rw [addDefinition, definitionProposals]
  split
  · exact (Draft.takes_ensureNode p.1 _ _ _).append (Draft.takes_insertNode _ _ _ _)
  · exact Draft.takes_nil rfl

/-- **Files and definitions are those that are proposed first.** -/
theorem getElem?_addSources (id : NodeId) : (addSources config inputs).1.store.nodes[id]? =
    (sourceNodes config inputs).find? fun n => n.id = id := by
  have hfiles := Draft.takes_foldl (fun d => d) (takes_addFile config inputs.entryPaths)
    inputs.files { diagnostics := (inputs.malformed.map Diagnostic.malformedFact).toArray }
  have hdefinitions := fun d : Draft => Draft.takes_foldl Prod.fst
    (takes_addDefinition config inputs.entryPaths) inputs.definitions (d, #[])
  have hall := hfiles.append (hdefinitions _) id
  rw [addSources, hall]
  -- the build starts from a store without nodes
  show (∅ : ExtTreeMap NodeId Node)[id]?.or _ = _
  rw [ExtTreeMap.getElem?_empty, Option.none_or]
  rfl

theorem takes_addDirectory (d : Draft) (path : String) :
    d.Takes (addDirectory d path) [directoryNode path] :=
  d.takes_ensureNode _ _ _

theorem takes_addPackage (declared : ExtTreeMap String (Option String)) (d : Draft)
    (package : String) : d.Takes (addPackage declared d package) [packageNode declared package] :=
  d.takes_ensureNode _ _ _

/-- A draft with the directories above its files. -/
def addDirectories (d : Draft) : Draft :=
  ((filePaths d.store).flatMap Path.ancestors).foldl addDirectory d

/-- The draft before imports are resolved. -/
def addPackages (config : Config) (inputs : Inputs) : Draft :=
  inputs.declared.keys.foldl (addPackage inputs.declared)
    (addDirectories (addSources config inputs).1)

/-- **So are the nodes of a draft before imports are resolved.** -/
theorem getElem?_addPackages (id : NodeId) :
    (addPackages config inputs).store.nodes[id]? =
      (proposals config inputs).find? fun n => n.id = id := by
  have hdirectories := Draft.takes_foldl (fun d => d) takes_addDirectory
    ((filePaths (addSources config inputs).1.store).flatMap Path.ancestors)
    (addSources config inputs).1
  have hpackages := Draft.takes_foldl (fun d => d) (takes_addPackage inputs.declared)
    inputs.declared.keys (addDirectories (addSources config inputs).1)
  have hall := hdirectories.append hpackages id
  rw [getElem?_addSources, ← List.find?_append] at hall
  rw [addPackages, proposals, List.map_eq_flatMap, List.map_eq_flatMap]
  exact hall

/-! ## Settled nodes -/

/-- Attributes that a build sets on nodes that are there. -/
def marks : List String := [Attribute.parseFailed, Attribute.unresolvedCalls]

/-- Nothing but packages was added, and nothing but marks was set. -/
structure Settled (s s' : Store) : Prop where
  kept : ∀ (id : NodeId) (n : Node), s.nodes[id]? = some n → ∃ n', s'.nodes[id]? = some n' ∧
    n'.kind = n.kind ∧ ∀ key ∉ marks, n'.attributes[key]? = n.attributes[key]?
  added : ∀ (id : NodeId) (n' : Node), s'.nodes[id]? = some n' →
    id ∈ s.nodes ∨ ∃ package, id = .dependency package

namespace Settled

variable {s s' s'' : Store}

/-- Edges and reports settle nothing. -/
theorem of_nodes_eq (h : s'.nodes = s.nodes) : Settled s s' where
  kept := by
    intro id n hn
    exact ⟨n, by rw [h, hn], rfl, fun _ _ => rfl⟩
  added := by
    intro id n hn
    rw [h] at hn
    exact Or.inl (ExtTreeMap.getElem?_eq_some_iff.mp hn).1

/-- What is settled twice is settled. -/
theorem trans (h : Settled s s') (h' : Settled s' s'') : Settled s s'' where
  kept := by
    intro id n hn
    obtain ⟨n', hn', hkind, hattributes⟩ := h.kept id n hn
    obtain ⟨n'', hn'', hkind', hattributes'⟩ := h'.kept id n' hn'
    exact ⟨n'', hn'', hkind'.trans hkind,
      fun key hkey => (hattributes' key hkey).trans (hattributes key hkey)⟩
  added := by
    intro id n hn
    rcases h'.added id n hn with hin | hpackage
    · exact h.added id _ (ExtTreeMap.getElem?_eq_some_getElem hin)
    · exact Or.inr hpackage

/-- Any number of steps settles what each of them settles. -/
theorem foldl {α : Type} {f : Draft → α → Draft}
    (hf : ∀ d x, Settled d.store (f d x).store) (xs : List α) (d : Draft) :
    Settled d.store (xs.foldl f d).store :=
  List.foldlRecOn xs f (motive := fun d' => Settled d.store d'.store) (of_nodes_eq rfl)
    fun _ h x _ => h.trans (hf _ x)

/-- A package is added, or it is there. -/
theorem addPackage (declared : ExtTreeMap String (Option String)) (d : Draft)
    (package : String) : Settled d.store (addPackage declared d package).store := by
  have htakes := takes_addPackage declared d package
  refine ⟨?_, ?_⟩
  · intro id n hn
    refine ⟨n, ?_, rfl, fun _ _ => rfl⟩
    rw [htakes id, hn, Option.some_or]
  · intro id n hn
    rw [htakes id] at hn
    cases hold : d.store.nodes[id]? with
    | some m => exact Or.inl (ExtTreeMap.getElem?_eq_some_iff.mp hold).1
    | none =>
        rw [hold, Option.none_or] at hn
        have hid := List.find?_some hn
        rw [List.mem_singleton.mp (List.mem_of_find?_eq_some hn), decide_eq_true_eq] at hid
        exact Or.inr ⟨package, hid.symm⟩

/-- A mark is set, or refused. -/
theorem enrich (d : Draft) (id : NodeId) {key : String} (hkey : key ∈ marks) (value : Json) :
    Settled d.store (d.enrich id key value).store := by
  rw [Draft.enrich]
  split
  · rename_i s hok
    rcases Store.enrich_ok hok with rfl | ⟨node, hnode, -, rfl⟩
    · exact of_nodes_eq rfl
    refine ⟨?_, ?_⟩
    · intro i n hn
      by_cases hi : i = id
      · subst hi
        cases hnode.symm.trans hn
        refine ⟨_, Store.getElem?_insert_iff.mpr (Or.inl ⟨rfl, rfl⟩), rfl, ?_⟩
        intro k hk
        have hne : key ≠ k := by
          rintro rfl
          exact hk hkey
        exact ExtTreeMap.getElem?_insert.trans (if_neg (hne ∘ LawfulEqCmp.eq_of_compare))
      · exact ⟨n, Store.getElem?_insert_iff.mpr (Or.inr ⟨hi, hn⟩), rfl, fun _ _ => rfl⟩
    · intro i n hn
      rcases Store.getElem?_insert_iff.mp hn with ⟨rfl, -⟩ | ⟨-, hn⟩
      · exact Or.inl (ExtTreeMap.getElem?_eq_some_iff.mp hnode).1
      · exact Or.inl (ExtTreeMap.getElem?_eq_some_iff.mp hn).1
  · exact of_nodes_eq rfl

theorem resolveImports (config : Config) (inputs : Inputs) (d : Draft) :
    Settled d.store (resolveImports config inputs d).draft.store := by
  rw [Build.resolveImports]
  refine List.foldlRecOn inputs.imports _
    (motive := fun p : ImportPhase => Settled d.store p.draft.store) (of_nodes_eq rfl) ?_
  intro p hp i _
  cases resolveImport d.store (moduleIndex d.store) config.aliases i with
  | error x => exact hp
  | ok target =>
      cases target with
      | inside m => exact hp
      | outside package => exact hp.trans (addPackage inputs.declared p.draft package)

/-- Nothing is settled but what was proposed, and packages that only imports name. -/
theorem addNodes (config : Config) (inputs : Inputs) :
    Settled (addPackages config inputs).store (addNodes config inputs).1.store := by
  have hmark : ∀ (d : Draft) (f : ParseFailure), Settled d.store (markFailure d f).store := by
    intro d f
    rw [markFailure]
    split
    · exact enrich d _ List.mem_cons_self _
    · exact of_nodes_eq rfl
  exact (resolveImports config inputs (addPackages config inputs)).trans
    (foldl hmark (firstFailures inputs.failures) _)

/-- **Nothing is built but what was proposed,** and packages that only imports name. -/
theorem construct (config : Config) (inputs : Inputs) :
    Settled (addPackages config inputs).store (construct config inputs).store := by
  obtain ⟨d₀, d₁, d₂, edges, imported, p, h⟩ := exists_phases config inputs
  have hgathered := addNodes config inputs
  rw [h.nodes] at hgathered
  refine hgathered.trans ((of_nodes_eq h.nodes_eq).trans ?_)
  -- the last phase marks callers with the number of their unresolved calls
  refine ⟨?_, ?_⟩
  · intro id n hn
    rw [h.getElem?_construct, hn]
    refine ⟨_, rfl, ?_, ?_⟩
    · cases p.unresolved[id]? <;> rfl
    · intro key hkey
      cases p.unresolved[id]? with
      | none => rfl
      | some c =>
          have hne : Attribute.unresolvedCalls ≠ key := by
            rintro rfl
            exact hkey (by decide)
          exact ExtTreeMap.getElem?_insert.trans (if_neg (hne ∘ LawfulEqCmp.eq_of_compare))
  · intro id n hn
    rw [h.getElem?_construct] at hn
    obtain ⟨m, hm, -⟩ := Option.map_eq_some_iff.mp hn
    exact Or.inl (ExtTreeMap.getElem?_eq_some_iff.mp hm).1

end Settled

/-- A node without marks, as it is proposed. -/
structure Fresh (n : Node) : Prop where
  unmarked : ∀ key ∈ marks, n.attributes[key]? = none
  bare : n.embedding = none

/-- Fresh nodes are the same if they agree on everything but marks. -/
theorem Fresh.ext {n n' : Node} (h : Fresh n) (h' : Fresh n') (hid : n.id = n'.id)
    (hkind : n.kind = n'.kind)
    (hattributes : ∀ key ∉ marks, n.attributes[key]? = n'.attributes[key]?) : n = n' := by
  have hall : n.attributes = n'.attributes := by
    refine ExtTreeMap.ext_getElem? fun key => ?_
    by_cases hkey : key ∈ marks
    · rw [h.unmarked key hkey, h'.unmarked key hkey]
    · exact hattributes key hkey
  have hbare := h.bare.trans h'.bare.symm
  cases n
  cases n'
  simp_all

/-- Attributes without marks. -/
def Unmarked (a : Attributes) : Prop := ∀ key ∈ marks, a[key]? = none

/-- Attributes stay unmarked if anything but a mark is set. -/
theorem Unmarked.insert {a : Attributes} (h : Unmarked a) {key : String} (hkey : key ∉ marks)
    (value : Json) : Unmarked (a.insert key value) := by
  intro k hk
  have hne : key ≠ k := by
    rintro rfl
    exact hkey hk
  rw [ExtTreeMap.getElem?_insert, if_neg (hne ∘ LawfulEqCmp.eq_of_compare), h k hk]

theorem Unmarked.setOptional {a : Attributes} (h : Unmarked a) {key : String}
    (hkey : key ∉ marks) (value : Option Json) : Unmarked (setOptional a key value) := by
  cases value with
  | none => exact h
  | some v => exact h.insert hkey v

/-- Fields with other names than those of marks are no marks. -/
theorem unmarked_ofFields {fields : List (String × Json)} (keys : List String)
    (hmap : fields.map (·.1) = keys) (hnodup : keys.Nodup) (hmarks : ∀ key ∈ marks, key ∉ keys) :
    Unmarked (.ofFields fields) := by
  subst hmap
  intro key hkey
  rw [getElem?_ofFields _ _ hnodup, List.lookup_eq_none_iff]
  intro f hf
  have hne : key ≠ f.1 := by
    rintro rfl
    exact hmarks _ hkey (List.mem_map_of_mem hf)
  exact bne_iff_ne.mpr hne

/-- A file is proposed without marks. -/
theorem fresh_fileNode (entryPaths : List String) (f : FileFact) :
    Fresh (fileNode config entryPaths f) := by
  refine ⟨?_, rfl⟩
  refine Unmarked.setOptional ?_ (by decide) _
  refine Unmarked.setOptional ?_ (by decide) _
  refine Unmarked.insert ?_ (by decide) _
  refine Unmarked.setOptional ?_ (by decide) _
  exact unmarked_ofFields [Attribute.path, Attribute.name, Attribute.extension] rfl (by decide)
    (by decide)

/-- A definition is proposed without marks. -/
theorem fresh_definitionNode (f : DefinitionFact) : Fresh (definitionNode f) := by
  refine ⟨?_, rfl⟩
  refine Unmarked.setOptional ?_ (by decide) _
  refine Unmarked.setOptional ?_ (by decide) _
  refine Unmarked.setOptional ?_ (by decide) _
  refine Unmarked.setOptional ?_ (by decide) _
  refine Unmarked.setOptional ?_ (by decide) _
  exact unmarked_ofFields [Attribute.name, Attribute.qualifiedName, Attribute.definingFile,
    Attribute.parameters] rfl (by decide) (by decide)

theorem fresh_packageNode (declared : ExtTreeMap String (Option String)) (package : String) :
    Fresh (packageNode declared package) :=
  ⟨unmarked_ofFields [Attribute.name, Attribute.version, Attribute.isExternal] rfl (by decide)
    (by decide), rfl⟩

/-- A package has the version that was declared for it, if one was. -/
theorem version_packageNode (declared : ExtTreeMap String (Option String)) (package : String) :
    (packageNode declared package).attributes[Attribute.version]? =
      some (.ofOption .string (declared.getD package none)) := by
  rw [packageNode, getElem?_ofFields]
  · rfl
  · exact (by decide : [Attribute.name, Attribute.version, Attribute.isExternal].Nodup)

/-- A store holds a node under its identifier, up to marks. -/
def Holds (s : Store) (n : Node) : Prop :=
  ∃ n', s.nodes[n.id]? = some n' ∧ n'.kind = n.kind ∧
    ∀ key ∉ marks, n'.attributes[key]? = n.attributes[key]?

/-- **The first proposal for an identifier is the node that is built,** up to
    marks. -/
theorem holds_of_find?_proposals {id : NodeId} {n : Node}
    (h : (proposals config inputs).find? (fun n => n.id = id) = some n) :
    n.id = id ∧ Holds (construct config inputs).store n := by
  have hid := List.find?_some h
  rw [decide_eq_true_eq] at hid
  refine ⟨hid, ?_⟩
  rw [Holds, hid]
  exact (Settled.construct config inputs).kept id n (by rw [getElem?_addPackages, h])

/-- **No file is built without a path.** -/
theorem pathless_not_mem : NodeId.file "" ∉ (construct config inputs).store.nodes := by
  intro hin
  rcases (Settled.construct config inputs).added _ _ (ExtTreeMap.getElem?_eq_some_getElem hin) with
    hproposed | ⟨package, hpackage⟩
  · have hfound := getElem?_addPackages config inputs (.file "")
    rw [ExtTreeMap.getElem?_eq_some_getElem hproposed, proposals, List.find?_append,
      find?_sourceNodes_pathless, Option.none_or] at hfound
    have hid := List.find?_some hfound.symm
    rw [decide_eq_true_eq] at hid
    -- directories and packages have identifiers of other kinds
    rcases List.mem_append.mp (List.mem_of_find?_eq_some hfound.symm) with hmem | hmem
    · obtain ⟨path, -, heq⟩ := List.mem_map.mp hmem
      rw [← heq] at hid
      refine absurd (congrArg NodeId.tag hid) ?_
      rw [directoryNode, tag_directory, tag_file]
      decide
    · obtain ⟨package, -, heq⟩ := List.mem_map.mp hmem
      rw [← heq] at hid
      refine absurd (congrArg NodeId.tag hid) ?_
      rw [packageNode, tag_dependency, tag_file]
      decide
  · exact absurd (congrArg NodeId.tag hpackage) (by rw [tag_dependency, tag_file]; decide)

end CodeGraph.Build

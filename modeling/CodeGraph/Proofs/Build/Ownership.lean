import CodeGraph.Proofs.Build.Leaders
import CodeGraph.Proofs.Build.Origins
/-! # Ownership — where each node belongs

    Nodes are made before the edges that own them, and some facts are refused in
    between.  In the finished graph every node is owned all the same.

    * Of the edges to definitions that are collected each leads to another node
      (`nodup_foldl_addNew`), and each node of a definition has one
      (`exists_mem_foldl_addNew`).  It comes from the file that the node names.
    * A package is declared, or an import leads to it.
    * A file is reported by a fact, or a definition lies in it.  That definition
      need not be in the graph: identifiers join a path and a name with a colon,
      so it may collide with a definition in another file, and its own file is
      made known before it is refused (`collision_leaves_file`).
    * `Owned` collects this for every build (`owned_ofBatches`). -/

namespace CodeGraph.Build

open Std

/-! ## Edges to definitions -/

/-- Edges that are added if they are new lead to different nodes. -/
theorem nodup_foldl_addNew (new : List Edge) {es : List Edge} (h : (es.map Edge.target).Nodup) :
    ((new.foldl addNew es).map Edge.target).Nodup := by
  refine List.foldlRecOn new addNew (motive := fun es => (es.map Edge.target).Nodup) h ?_
  intro es hes e _
  rw [addNew]
  split
  · exact hes
  · rename_i hnew
    rw [List.map_append, List.nodup_append]
    refine ⟨hes, List.nodup_singleton _, ?_⟩
    rintro t ht _ ht' rfl
    obtain ⟨e', he', heq⟩ := List.mem_map.mp ht
    rw [List.mem_singleton.mp ht'] at heq
    exact hnew (List.any_eq_true.mpr ⟨e', he', decide_eq_true heq⟩)

/-- What is there in the end was there before or is new. -/
theorem mem_of_mem_foldl_addNew {new es : List Edge} {e : Edge} (h : e ∈ new.foldl addNew es) :
    e ∈ es ∨ e ∈ new := by
  revert h
  refine List.foldlRecOn new addNew (motive := fun es' => e ∈ es' → e ∈ es ∨ e ∈ new) Or.inl ?_
  intro es' hes' e' he' h
  rw [addNew] at h
  split at h
  · exact hes' h
  · rcases List.mem_append.mp h with h | h
    · exact hes' h
    · rw [List.mem_singleton.mp h]
      exact Or.inr he'

/-- Some edge leads wherever a new one does. -/
theorem exists_mem_foldl_addNew {new es : List Edge} {id : NodeId}
    (h : (∃ e ∈ es, e.target = id) ∨ ∃ e ∈ new, e.target = id) :
    ∃ e ∈ new.foldl addNew es, e.target = id := by
  induction new generalizing es with
  | nil => exact h.resolve_right fun ⟨_, he, _⟩ => absurd he List.not_mem_nil
  | cons e new ih =>
      refine ih ?_
      have hstep : ((addNew es e).any fun e' => e'.target = id) = true ↔
          (∃ e' ∈ es, e'.target = id) ∨ e.target = id := by
        rw [any_addNew, Bool.or_eq_true, List.any_eq_true, decide_eq_true_eq]
        simp only [decide_eq_true_eq]
      simp only [List.any_eq_true, decide_eq_true_eq] at hstep
      rw [hstep]
      rcases h with h | ⟨e', he', hid⟩
      · exact Or.inl (Or.inl h)
      · rcases List.mem_cons.mp he' with rfl | he'
        · exact Or.inl (Or.inr hid)
        · exact Or.inr ⟨e', he', hid⟩

/-- An edge that leads to a node is an edge. -/
theorem mem_edges_of_mem_edgesInto {s : Store} (hs : s.Sound) {r : Relationship} {v : NodeId}
    {e : Edge} (he : e ∈ edgesInto s r v) : e ∈ s.edges := by
  rw [edgesInto, hs.edgesByRelationship_eq] at he
  exact Array.mem_toList_iff.mp (List.mem_filter.mp (List.mem_filter.mp he).1).1

section Construction

variable {inputs : Inputs}

theorem toList_addSources (config : Config) : (addSources config inputs).2.toList =
    ((inputs.definitions.filter isNamed).map definesEdge).foldl addNew [] := by
  rw [addSources, toList_addDefinitions config _ _ (led_addFiles config inputs _ rfl)]

/-- **One edge leads to each definition,** from the file of some fact that tells of it. -/
theorem exists_edgesInto_defines (config : Config) {f : DefinitionFact}
    (hf : f ∈ inputs.definitions) (hnamed : isNamed f = true) :
    ∃ g ∈ inputs.definitions, isNamed g = true ∧ nodeIdOf g = nodeIdOf f ∧
      edgesInto (construct config inputs).store .defines (nodeIdOf f) = [definesEdge g] := by
  have hnodup : (((addSources config inputs).2.toList).map Edge.target).Nodup := by
    rw [toList_addSources]
    exact nodup_foldl_addNew _ List.nodup_nil
  obtain ⟨e, he, htarget⟩ : ∃ e ∈ (addSources config inputs).2.toList,
      e.target = nodeIdOf f := by
    rw [toList_addSources]
    refine exists_mem_foldl_addNew (Or.inr ⟨definesEdge f, ?_, rfl⟩)
    exact List.mem_map_of_mem (List.mem_filter.mpr ⟨hf, hnamed⟩)
  obtain ⟨g, hg, rfl⟩ : ∃ g ∈ inputs.definitions.filter isNamed, definesEdge g = e := by
    rw [toList_addSources] at he
    exact List.mem_map.mp ((mem_of_mem_foldl_addNew he).resolve_left List.not_mem_nil)
  obtain ⟨hg, hgnamed⟩ := List.mem_filter.mp hg
  refine ⟨g, hg, hgnamed, htarget, ?_⟩
  rw [edgesInto, (edgesByRelationship_construct config inputs).2.1]
  refine filter_eq_singleton hnodup.of_map he (decide_eq_true htarget) ?_
  intro e' he' htarget'
  exact List.inj_on_of_nodup_map hnodup he' he ((of_decide_eq_true htarget').trans htarget.symm)

/-- **A definition is in the file that it names,** and one edge leads to it, from there. -/
theorem definition_construct (config : Config) {id : NodeId} {n : Node}
    (hn : (construct config inputs).store.nodes[id]? = some n)
    (hdef : n.kind.isDefinition = true) :
    ∃ path file, n.text? Attribute.definingFile = some path ∧
      (construct config inputs).store.nodes[NodeId.file path]? = some file ∧
      file.kind = .file ∧ file.text? Attribute.path = some path ∧
      (construct config inputs).store.definingFile? id = some file ∧
      edgesInto (construct config inputs).store .defines id =
        [{ source := .file path, target := id, relationship := .defines }] := by
  have hbuilt := built_construct config inputs
  have hlabelled := hbuilt.labelled
  have htag := hlabelled.tag_of_getElem? hn
  have hkind : ∀ kind : NodeKind, kind.isDefinition = false → n.kind ≠ kind := by
    rintro kind hkind rfl
    rw [hdef] at hkind
    cases hkind
  -- no later phase adds definitions, so the node is one of the sources
  obtain ⟨f, hf, hnamed, rfl⟩ := mem_addSources_definition htag (hkind .file rfl)
    (mem_addSources_of_mem htag (hkind .directory rfl) (hkind .dependency rfl)
      (ExtTreeMap.getElem?_eq_some_iff.mp hn).1)
  obtain ⟨g, -, -, hid, hinto⟩ := exists_edgesInto_defines config hf hnamed
  -- the edge says what the node says
  have hedge : definesEdge g ∈ (construct config inputs).store.edges :=
    mem_edges_of_mem_edgesInto hlabelled.sound (hinto ▸ List.mem_singleton_self _)
  obtain ⟨-, path, m, hsource, ⟨file, hfile, hfilekind⟩, hm, -, htext⟩ :=
    hbuilt.defines _ hedge rfl
  rw [definesEdge, hid, hn] at hm
  cases hm
  rw [hsource] at hfile
  refine ⟨path, file, htext, hfile, hfilekind,
    (hlabelled.described _ file hfile).path_of_file hfilekind (hlabelled.sound.keyed _ _ hfile),
    ?_, ?_⟩
  · rw [definingFile?_of_isDefinition hn hdef htext, hfile]
  · rw [hinto, definesEdge, hid]
    exact congrArg (fun source => [({ source, target := nodeIdOf f, relationship := .defines } :
      Edge)]) hsource

end Construction

/-! ## Owned nodes -/

/-- A definition is accepted if its own node is in the graph, up to marks. -/
def Accepted (s : Store) (f : DefinitionFact) : Prop :=
  isNamed f = true ∧ Holds s (definitionNode f)

/-- Every node of a graph belongs somewhere, and the facts tell where. -/
structure Owned (facts : List Fact) (s : Store) : Prop where
  /-- One edge leads to a definition.  It comes from the file that the definition names,
      which is a node and has this path. -/
  definitions : ∀ (id : NodeId) (n : Node), s.nodes[id]? = some n → n.kind.isDefinition = true →
    ∃ path file, n.text? Attribute.definingFile = some path ∧
      s.nodes[NodeId.file path]? = some file ∧ file.kind = .file ∧
      file.text? Attribute.path = some path ∧ s.definingFile? id = some file ∧
      edgesInto s .defines id =
        [{ source := .file path, target := id, relationship := .defines }]
  /-- A package is declared, or an import leads to it. -/
  packages : ∀ (id : NodeId) (n : Node), s.nodes[id]? = some n → n.kind = .dependency →
    (∃ d ∈ declarations facts, id = .dependency d.name) ∨
      ∃ e ∈ s.edges, e.relationship = .imports ∧ e.target = id
  /-- A file is reported, or a definition lies in it that is accepted or collides with an
      accepted one. -/
  files : ∀ (id : NodeId) (n : Node), s.nodes[id]? = some n → n.kind = .file →
    (∃ f ∈ facts.filterMap Inputs.file?, id = .file f.path) ∨
      ∃ f ∈ facts.filterMap Inputs.definition?, isNamed f = true ∧ id = .file f.file ∧
        ∃ g ∈ facts.filterMap Inputs.definition?, nodeIdOf g = nodeIdOf f ∧ Accepted s g

section Batch

variable (config : Config) (b : Batch)

/-- Under the identifier of a definition some definition is accepted. -/
theorem exists_accepted {f : DefinitionFact} (hf : f ∈ b.facts.filterMap Inputs.definition?)
    (hnamed : isNamed f = true) : ∃ g ∈ b.facts.filterMap Inputs.definition?,
      nodeIdOf g = nodeIdOf f ∧ Accepted (construct config (Inputs.gather b)).store g := by
  obtain ⟨g, hg⟩ : ∃ g, leadingDefinition? b.facts (nodeIdOf f) = some g := by
    rw [← Option.isSome_iff_exists, leadingDefinition?, List.isSome_find?, List.any_eq_true]
    refine ⟨f, List.mem_mergeSort.mpr hf, ?_⟩
    rw [hnamed, decide_eq_true rfl]
    rfl
  have hfound := List.find?_some hg
  rw [Bool.and_eq_true, decide_eq_true_eq] at hfound
  exact ⟨g, List.mem_mergeSort.mp (List.mem_of_find?_eq_some hg), hfound.2, hfound.1,
    (holds_of_find?_proposals config _ (find?_proposals_definition config b hg)).2⟩

theorem owned_construct : Owned b.facts (construct config (Inputs.gather b)).store := by
  have hlabelled := (built_construct config (Inputs.gather b)).labelled
  have hin : ∀ (id : NodeId) (n : Node),
      (construct config (Inputs.gather b)).store.nodes[id]? = some n →
        id ∈ (construct config (Inputs.gather b)).store.nodes :=
    fun id n hn => (ExtTreeMap.getElem?_eq_some_iff.mp hn).1
  refine ⟨fun id n => definition_construct config, ?packages, ?files⟩
  case packages =>
    intro id n hn hkind
    have htag : id.tag = NodeKind.dependency.tag := by
      rw [hlabelled.tag_of_getElem? hn, hkind]
    rcases mem_construct_cases (hin id n hn) with h | ⟨q, -, hid⟩ | ⟨package, rfl, hpackage⟩
    · obtain ⟨f, -, -, hid⟩ := mem_addSources_definition htag nofun h
      exact absurd hid (nodeIdOf_ne htag rfl f)
    · exact absurd hid (ne_of_tag htag (tag_directory q) nofun)
    · rcases hpackage with hdeclared | ⟨e, he, htarget⟩
      · obtain ⟨d, hd, rfl⟩ := (mem_declared b package).mp hdeclared
        exact Or.inl ⟨d, hd, rfl⟩
      · rw [hlabelled.sound.edgesByRelationship_eq, List.mem_filter, Array.mem_toList_iff,
          decide_eq_true_eq] at he
        exact Or.inr ⟨e, he.1, he.2, htarget⟩
  case files =>
    intro id n hn hkind
    obtain ⟨path, hid, -⟩ := (hlabelled.described id n hn).exists_of_file hkind
    rw [hlabelled.sound.keyed id n hn] at hid
    subst hid
    rcases mem_addSources_file (mem_addSources_of_mem (tag_file path) nofun nofun (hin _ n hn))
      with ⟨f, hf, rfl⟩ | ⟨f, hf, hnamed, rfl⟩
    · exact Or.inl ⟨f, List.mem_mergeSort.mp hf, rfl⟩
    · have hf := List.mem_mergeSort.mp hf
      exact Or.inr ⟨f, hf, hnamed, rfl, exists_accepted config b hf hnamed⟩

end Batch

/-- **Every node that is built is owned.**  Only a file may belong to a definition that was
    not accepted: of two definitions whose files and names join to one identifier one is
    refused, and its file stays (`collision_leaves_file`).  Which definitions collide in this
    way, and that all the refused ones are reported, is `refused_ofBatches`. -/
theorem owned_ofBatches (config : Config) (batches : List Batch) :
    Owned (batches.flatMap (·.facts)) (ofBatches config batches).1 := by
  have hmerged := (foldl_merge batches {}).1
  rw [List.nil_append] at hmerged
  rw [← hmerged]
  exact owned_construct config _

/-! ## A collision -/

/-- Two functions in two files that no fact reports.  Both have the identifier
    `function:a:b:c`. -/
def collision : Batch :=
  ⟨[.definition { file := "a", name := "b:c", kind := .function },
    .definition { file := "a:b", name := "c", kind := .function }], [], []⟩

/-- The same, sorted out; the facts are in order already. -/
def collisionInputs : Inputs where
  definitions := collision.facts.filterMap Inputs.definition?

theorem gather_collision : Inputs.gather collision = collisionInputs :=
  gather_of_inOrder (by decide +kernel)

/-- The file of the second function is there, but the node under its identifier bears the
    name of the first. -/
theorem run_collisionInputs :
    let s := (run {} collisionInputs).1
    s.nodes[NodeId.file "a:b"]?.map (·.kind) = some .file ∧
      s.nodes[NodeId.function "a:b" "c"]?.map (·.text? Attribute.name) = some (some "b:c") := by
  decide +kernel

/-- The function in `a` counts and the other one is refused, but the file `a:b` stays.  It
    comes from no file and from no definition that is accepted. -/
theorem collision_leaves_file :
    let s := (ofBatches {} [collision]).1
    ∃ n, s.nodes[NodeId.file "a:b"]? = some n ∧ n.kind = .file ∧
      ¬((∃ f ∈ collision.facts.filterMap Inputs.file?, NodeId.file "a:b" = .file f.path) ∨
        ∃ f ∈ collision.facts.filterMap Inputs.definition?,
          Accepted s f ∧ NodeId.file "a:b" = .file f.file) := by
  intro s
  have hmerge : [collision].foldl Batch.merge {} = collision := by decide
  have hs : s = (run {} collisionInputs).1 := by
    show (ofBatches {} [collision]).1 = _
    rw [ofBatches, hmerge, gather_collision]
  obtain ⟨hfile, hname⟩ := run_collisionInputs
  rw [← hs] at hfile hname
  obtain ⟨n, hn, hkind⟩ := Option.map_eq_some_iff.mp hfile
  refine ⟨n, hn, hkind, ?_⟩
  rintro (⟨f, hf, -⟩ | ⟨f, hf, ⟨-, m, hm, -, hattributes⟩, hid⟩)
  · cases hf
  · have hfacts : ∀ f ∈ collision.facts.filterMap Inputs.definition?, f.file = "a:b" →
        nodeIdOf f = .function "a:b" "c" ∧
          (definitionNode f).text? Attribute.name = some "c" := by
      decide +kernel
    obtain ⟨hfunction, hown⟩ := hfacts f hf (file_injective hid).symm
    have hnode : (definitionNode f).id = .function "a:b" "c" := hfunction
    rw [hnode] at hm
    rw [hm, Option.map_some, Node.text?, hattributes Attribute.name (by decide)] at hname
    rw [Node.text?] at hown
    rw [hown] at hname
    exact absurd hname (by decide)

end CodeGraph.Build

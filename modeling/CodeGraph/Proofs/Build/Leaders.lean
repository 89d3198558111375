import CodeGraph.Proofs.Build.Proposals
import CodeGraph.Proofs.Graph.Determined
/-! # Leaders — which of colliding facts count

    Two facts collide if they tell of one node in different ways.  Sorting does
    not tell all of them apart, so it is the order of the stream that decides.

    * The first file of a path in the stream counts, the first definition of an
      identifier once definitions are sorted, and the first version of a package.
    * `SameLeaders`: two streams in which the facts that count make the same
      nodes.
    * Streams with the same facts build the same graph if and only if they have
      the same leaders (`ofBatches_eq_iff`). -/

namespace CodeGraph.Build

open Std

/-! ## The facts that count -/

/-- The first file of a path. -/
def leadingFile? (facts : List Fact) (path : String) : Option FileFact :=
  (facts.filterMap Inputs.file?).find? fun f => f.path = path

/-- The first definition of an identifier, once definitions are sorted. -/
def leadingDefinition? (facts : List Fact) (id : NodeId) : Option DefinitionFact :=
  (sortBy definitionOrder (facts.filterMap Inputs.definition?)).find? fun f =>
    isNamed f && nodeIdOf f = id

/-- The first version among some declarations of a package. -/
def versionOf? (ds : List DeclaredDependency) (package : String) : Option String :=
  ds.findSome? fun d => if d.name = package then d.version else none

/-- The files in which manifests say that execution starts. -/
def entryPaths (facts : List Fact) : List String :=
  ((facts.filterMap Inputs.manifest?).flatMap (·.entryPoints)).map Path.normalize

/-- The facts that count make the same nodes. -/
structure SameLeaders (config : Config) (facts facts' : List Fact) : Prop where
  files : ∀ (path : String), path ≠ "" →
    (leadingFile? facts path).map (fileNode config (entryPaths facts)) =
      (leadingFile? facts' path).map (fileNode config (entryPaths facts'))
  definitions : ∀ (id : NodeId), (leadingDefinition? facts id).map definitionNode =
    (leadingDefinition? facts' id).map definitionNode
  versions : ∀ (package : String),
    versionOf? (declarations facts) package = versionOf? (declarations facts') package

/-! ## Looking leaders up -/

/-- What is found first and then mapped. -/
theorem map_find? {α β : Type} (p : α → Bool) (g : α → β) (xs : List α) :
    (xs.find? p).map g = xs.findSome? fun x => if p x then some (g x) else none := by
  rw [List.find?_eq_findSome?_guard, List.map_findSome?]
  congr 1
  funext x
  cases hp : p x <;> simp [Option.guard, hp]

/-- Whether anything is found. -/
theorem ite_any {α β : Type} (p : α → Bool) (c : β) (xs : List α) :
    (if xs.any p then some c else none) = xs.findSome? fun x => if p x then some c else none := by
  rw [← map_find? p fun _ => c]
  cases hfound : xs.find? p with
  | none =>
      rw [List.find?_eq_none] at hfound
      rw [if_neg (by simpa using hfound)]
      rfl
  | some x =>
      rw [if_pos (List.any_eq_true.mpr ⟨x, List.mem_of_find?_eq_some hfound,
        List.find?_some hfound⟩)]
      rfl

section Found

variable (config : Config) (b : Batch)

/-- Under the identifier of a file the leading file is found, or else the file of a
    definition. -/
theorem find?_sourceNodes_file {path : String} (hpath : path ≠ "") :
    ((sourceNodes config (Inputs.gather b)).find? fun n => n.id = .file path) =
      ((leadingFile? b.facts path).map (fileNode config (entryPaths b.facts))).or
        (if (b.facts.filterMap Inputs.definition?).any fun f => isNamed f && f.file = path
          then some (implicitNode config (entryPaths b.facts) path) else none) := by
  -- sorting keeps the order of the files with one path
  have hleading : leadingFile? b.facts path =
      (Inputs.gather b).files.find? fun f => f.path = path := by
    refine (Sorting.find?_mergeSort ?_).symm
    intro f g hf hg
    rw [fileOrder, compareOn, of_decide_eq_true hf, of_decide_eq_true hg]
    exact ReflCmp.compare_self
  have hany : ((b.facts.filterMap Inputs.definition?).any fun f => isNamed f && f.file = path) =
      (Inputs.gather b).definitions.any fun f => isNamed f && f.file = path :=
    (List.mergeSort_perm _ _).symm.any_eq
  rw [sourceNodes, List.find?_append, List.find?_flatMap, List.find?_flatMap, hleading, hany,
    map_find?, ite_any]
  congr 1
  · congr 1
    funext f
    rw [find?_fileProposals config _ hpath]
    simp only [decide_eq_true_eq]
    rfl
  · congr 1
    funext f
    exact find?_definitionProposals_file config _ path f

/-- Under any other identifier the leading definition is found. -/
theorem find?_sourceNodes {id : NodeId} (hid : ∀ path, id ≠ .file path) :
    ((sourceNodes config (Inputs.gather b)).find? fun n => n.id = id) =
      (leadingDefinition? b.facts id).map definitionNode := by
  rw [sourceNodes, List.find?_append, List.find?_flatMap, List.find?_flatMap,
    leadingDefinition?, map_find?]
  have hfiles : (Inputs.gather b).files.findSome? (fun f => (fileProposals config
      (Inputs.gather b).entryPaths f).find? fun n => n.id = id) = none := by
    rw [List.findSome?_eq_none_iff]
    intro f _
    exact find?_fileProposals_of_ne config _ hid f
  rw [hfiles, Option.none_or]
  congr 1
  funext f
  exact find?_definitionProposals config _ hid f

/-- The leading file of a path is proposed first. -/
theorem find?_proposals_file {path : String} (hpath : path ≠ "") {f : FileFact}
    (hf : leadingFile? b.facts path = some f) :
    ((proposals config (Inputs.gather b)).find? fun n => n.id = .file path) =
      some (fileNode config (entryPaths b.facts) f) := by
  rw [proposals, List.find?_append, find?_sourceNodes_file config b hpath, hf, Option.map_some,
    Option.some_or, Option.some_or]

/-- The leading definition of an identifier is proposed first. -/
theorem find?_proposals_definition {id : NodeId} {f : DefinitionFact}
    (hf : leadingDefinition? b.facts id = some f) :
    ((proposals config (Inputs.gather b)).find? fun n => n.id = id) = some (definitionNode f) := by
  have hid := List.find?_some hf
  rw [Bool.and_eq_true, decide_eq_true_eq] at hid
  have hne : ∀ path, id ≠ .file path := by
    rw [← hid.2]
    exact nodeIdOf_ne_file f
  rw [proposals, List.find?_append, find?_sourceNodes config b hne, hf, Option.map_some,
    Option.some_or]

end Found

/-- Declarations in turn: a version that is known stays, and otherwise the first
    one counts. -/
theorem getD_foldl_declare (ds : List DeclaredDependency)
    (m : ExtTreeMap String (Option String)) (package : String) :
    (ds.foldl Inputs.declare m).getD package none =
      (m.getD package none).or (versionOf? ds package) := by
  induction ds generalizing m with
  | nil => rw [versionOf?, List.findSome?_nil, Option.or_none, List.foldl_nil]
  | cons d ds ih =>
      rw [List.foldl_cons, ih, Inputs.declare, ExtTreeMap.getD_insert, versionOf?, versionOf?,
        List.findSome?_cons]
      by_cases hd : d.name = package
      · rw [if_pos (by rw [hd]; exact ReflCmp.compare_self), if_pos hd, hd]
        cases m.getD package none <;> cases d.version <;> rfl
      · rw [if_neg (hd ∘ LawfulEqCmp.eq_of_compare), if_neg hd]

theorem mem_foldl_declare (ds : List DeclaredDependency)
    (m : ExtTreeMap String (Option String)) (package : String) :
    package ∈ ds.foldl Inputs.declare m ↔ package ∈ m ∨ ∃ d ∈ ds, d.name = package := by
  induction ds generalizing m with
  | nil => simp
  | cons d ds ih =>
      rw [List.foldl_cons, ih, Inputs.declare, ExtTreeMap.mem_insert, LawfulEqCmp.compare_eq_iff_eq,
        or_comm (a := d.name = package), or_assoc]
      simp

/-- The version of a package in the graph is the first one that is declared. -/
theorem getD_declared (b : Batch) (package : String) :
    (Inputs.gather b).declared.getD package none =
      versionOf? (declarations b.facts) package := by
  show ((declarations b.facts).foldl Inputs.declare ∅).getD package none = _
  rw [getD_foldl_declare, ExtTreeMap.getD_empty, Option.none_or]

/-- The declared packages are those that some manifest declares. -/
theorem mem_declared (b : Batch) (package : String) : package ∈ (Inputs.gather b).declared ↔
    ∃ d ∈ declarations b.facts, d.name = package := by
  show package ∈ (declarations b.facts).foldl Inputs.declare ∅ ↔ _
  rw [mem_foldl_declare]
  simp

/-! ## The same leaders build the same graph -/

/-- Adds an edge unless there is one to the same node. -/
def addNew (es : List Edge) (e : Edge) : List Edge :=
  if es.any fun e' => e'.target = e.target then es else es ++ [e]

/-- The identifiers of definitions that are there are those that edges lead to. -/
def Led (p : Draft × Array Edge) : Prop :=
  ∀ f : DefinitionFact, p.1.store.contains (nodeIdOf f) =
    p.2.toList.any fun e => e.target = nodeIdOf f

theorem any_addNew (es : List Edge) (e : Edge) (id : NodeId) :
    ((addNew es e).any fun e' => e'.target = id) =
      ((es.any fun e' => e'.target = id) || e.target = id) := by
  rw [addNew]
  split
  · rename_i hold
    by_cases hid : e.target = id
    · subst hid
      rw [hold, Bool.true_or]
    · rw [decide_eq_false hid, Bool.or_false]
  · rw [List.any_append, List.any_cons, List.any_nil, Bool.or_false]

/-- A named definition is joined if its identifier is new. -/
theorem toList_addDefinition (config : Config) (paths : List String) {p : Draft × Array Edge}
    (h : Led p) {f : DefinitionFact} (hnamed : isNamed f = true) :
    (addDefinition config paths p f).2.toList = addNew p.2.toList (definesEdge f) := by
  obtain ⟨d, edges⟩ := p
  -- the file that is made known first has another identifier
  have hensure := (d.takes_ensureNode (.file f.file) .file
    ((fileAttributes config paths f.file).insert Attribute.implicit (.bool true))).contains
      (nodeIdOf f)
  rw [List.any_cons, List.any_nil, Bool.or_false,
    decide_eq_false (nodeIdOf_ne_file f f.file).symm, Bool.or_false, h f] at hensure
  rw [addDefinition]
  dsimp only
  rw [if_pos hnamed]
  dsimp only
  rw [hensure, addNew]
  show (if (!edges.toList.any fun e => e.target = nodeIdOf f) = true then
    edges.push (definesEdge f) else edges).toList = if (edges.toList.any fun e =>
      e.target = nodeIdOf f) = true then edges.toList else edges.toList ++ [definesEdge f]
  cases edges.toList.any fun e => e.target = nodeIdOf f with
  | false => exact Array.toList_push
  | true => rfl

/-- With each definition there is an edge to it. -/
theorem Led.addDefinition (config : Config) (paths : List String) {p : Draft × Array Edge}
    (h : Led p) {f : DefinitionFact} (hnamed : isNamed f = true) :
    Led (addDefinition config paths p f) := by
  intro g
  rw [(takes_addDefinition config paths p f).contains, toList_addDefinition config paths h hnamed,
    any_addNew, h g, definitionProposals, if_pos hnamed, List.any_cons, List.any_cons,
    List.any_nil, Bool.or_false]
  have himplicit : decide ((implicitNode config paths f.file).id = nodeIdOf g) = false :=
    decide_eq_false (nodeIdOf_ne_file g f.file).symm
  rw [himplicit, Bool.false_or]
  rfl

/-- Definitions are joined with their files, each identifier once. -/
theorem toList_addDefinitions (config : Config) (paths : List String) (fs : List DefinitionFact)
    {p : Draft × Array Edge} (h : Led p) :
    (fs.foldl (addDefinition config paths) p).2.toList =
      ((fs.filter isNamed).map definesEdge).foldl addNew p.2.toList := by
  induction fs generalizing p with
  | nil => rfl
  | cons f fs ih =>
      rw [List.foldl_cons]
      by_cases hnamed : isNamed f = true
      · rw [List.filter_cons_of_pos hnamed, List.map_cons, List.foldl_cons,
          ih (h.addDefinition config paths hnamed), toList_addDefinition config paths h hnamed]
      · -- a definition without a file or a name changes neither nodes nor edges
        have hskip : addDefinition config paths p f = (p.1.note (.malformedFact
            ⟨f.file, (f.lineNumber.getD 0).toNat, .namelessDefinition⟩), p.2) := by
          rw [addDefinition]
          exact if_neg hnamed
        rw [List.filter_cons_of_neg hnamed, hskip]
        exact ih h

/-- Files bring no definitions with them. -/
theorem led_addFiles (config : Config) (inputs : Inputs) (start : Draft)
    (hstart : start.store.nodes = ∅) :
    Led (inputs.files.foldl (addFile config inputs.entryPaths) start, #[]) := by
  intro f
  have htakes := Draft.takes_foldl (fun d => d) (takes_addFile config inputs.entryPaths)
    inputs.files start
  have hnone : ((inputs.files.flatMap (fileProposals config inputs.entryPaths)).find?
      fun n => n.id = nodeIdOf f) = none := by
    rw [List.find?_flatMap, List.findSome?_eq_none_iff]
    intro g _
    exact find?_fileProposals_of_ne config _ (nodeIdOf_ne_file f) g
  show Store.contains _ _ = false
  rw [htakes.contains, Store.contains, hstart, ExtTreeMap.contains_empty, ← List.isSome_find?,
    hnone]
  rfl

/-- What sorting tells of a definition. -/
def placeOf (f : DefinitionFact) : String × String × DefinitionKind × Option UInt32 :=
  (f.file, f.qualifiedName, f.kind, f.lineNumber)

/-- The order of definitions looks at their places only. -/
theorem definitionOrder_eq_iff (f g : DefinitionFact) :
    definitionOrder f g = .eq ↔ placeOf f = placeOf g := by
  constructor
  · intro h
    obtain ⟨hfile, hname, hkind, hline⟩ := definitionOrder_eq h
    rw [placeOf, placeOf, hfile, hname, hkind, hline]
  · intro h
    rw [placeOf, placeOf, Prod.mk.injEq, Prod.mk.injEq, Prod.mk.injEq] at h
    obtain ⟨hfile, hname, hkind, hline⟩ := h
    simp only [definitionOrder, compareLex_eq_eq, compareOn, Std.compare_eq_iff_eq]
    exact ⟨hfile, hname, by rw [hkind], hline⟩

/-- The edge to a definition follows from its place. -/
def edgeOfPlace (p : String × String × DefinitionKind × Option UInt32) : Edge where
  source := .file p.1
  target := definitionId (nodeKindOf p.2.2.1) p.1 p.2.1
  relationship := .defines

theorem edgeOfPlace_comp_placeOf : edgeOfPlace ∘ placeOf = definesEdge := rfl

section Same

variable {config : Config} {b b' : Batch} (hfacts : b.facts.Perm b'.facts)

include hfacts

/-- Whatever the order of the stream, the edges to definitions are the same. -/
theorem addSources_edges : (addSources config (Inputs.gather b)).2 =
    (addSources config (Inputs.gather b')).2 := by
  -- sorted definitions stand at the same places, and so do the named ones among them
  have hplaces : (((Inputs.gather b).definitions.filter isNamed).map placeOf) =
      ((Inputs.gather b').definitions.filter isNamed).map placeOf := by
    refine Sorting.map_eq_of_perm definitionOrder_eq_iff ?_
      ((Sorting.pairwise_mergeSort definitionOrder _).filter _)
      ((Sorting.pairwise_mergeSort definitionOrder _).filter _)
    refine List.Perm.filter _ ?_
    exact (List.mergeSort_perm _ _).trans
      ((hfacts.filterMap Inputs.definition?).trans (List.mergeSort_perm _ _).symm)
  have hedges : (((Inputs.gather b).definitions.filter isNamed).map definesEdge) =
      ((Inputs.gather b').definitions.filter isNamed).map definesEdge := by
    rw [← edgeOfPlace_comp_placeOf, ← List.map_map, ← List.map_map, hplaces]
  rw [← Array.toList_inj, addSources, addSources,
    toList_addDefinitions config _ _ (led_addFiles config (Inputs.gather b) _ rfl),
    toList_addDefinitions config _ _ (led_addFiles config (Inputs.gather b') _ rfl), hedges]

theorem mem_declared_congr (package : String) : package ∈ (Inputs.gather b).declared ↔
    package ∈ (Inputs.gather b').declared := by
  have hperm : (declarations b.facts).Perm (declarations b'.facts) :=
    (hfacts.filterMap Inputs.manifest?).flatMap_right _
  simp only [mem_declared, hperm.mem_iff]

/-- Declared versions are the same if each package has the same first version. -/
theorem declared_eq (hversions : ∀ package, versionOf? (declarations b.facts) package =
    versionOf? (declarations b'.facts) package) :
    (Inputs.gather b).declared = (Inputs.gather b').declared := by
  refine ExtTreeMap.ext_getElem? fun package => ?_
  have hmem := mem_declared_congr hfacts package
  by_cases hin : package ∈ (Inputs.gather b).declared
  · rw [ExtTreeMap.getElem?_eq_some_getD hin, getD_declared, hversions, ← getD_declared]
    exact (ExtTreeMap.getElem?_eq_some_getD (hmem.mp hin)).symm
  · rw [ExtTreeMap.getElem?_eq_none hin, ExtTreeMap.getElem?_eq_none (mt hmem.mpr hin)]

/-- Under each identifier the same node is proposed first. -/
theorem find?_sourceNodes_same (h : SameLeaders config b.facts b'.facts) (id : NodeId) :
    ((sourceNodes config (Inputs.gather b)).find? fun n => n.id = id) =
      (sourceNodes config (Inputs.gather b')).find? fun n => n.id = id := by
  by_cases hid : ∃ path, id = .file path
  · obtain ⟨path, rfl⟩ := hid
    by_cases hpath : path = ""
    · subst hpath
      rw [find?_sourceNodes_pathless, find?_sourceNodes_pathless]
    · have himplicit : implicitNode config (entryPaths b.facts) path =
          implicitNode config (entryPaths b'.facts) path := by
        rw [implicitNode, implicitNode]
        exact congrArg (fun f : String → Attributes =>
          (⟨.file path, .file, (f path).insert Attribute.implicit (.bool true), none⟩ : Node))
          (fileAttributes_congr config (Inputs.contains_entryPaths hfacts))
      rw [find?_sourceNodes_file config b hpath, find?_sourceNodes_file config b' hpath,
        h.files path hpath, (hfacts.filterMap Inputs.definition?).any_eq, himplicit]
  · have hne := not_exists.mp hid
    rw [find?_sourceNodes config b hne, find?_sourceNodes config b' hne, h.definitions id]

/-- **The same leaders make the same files and definitions,** in whatever order the facts
    come. -/
theorem addSources_same (h : SameLeaders config b.facts b'.facts) :
    SameSources config (Inputs.gather b) (Inputs.gather b') := by
  obtain ⟨htidy, hdropped, -⟩ := addSources_spec config (Inputs.gather b)
  obtain ⟨htidy', hdropped', -⟩ := addSources_spec config (Inputs.gather b')
  refine ⟨⟨?_, hdropped.trans hdropped'.symm⟩, addSources_edges hfacts⟩
  refine Store.Reachable.ext (kept_typed.addSources config _).reachable
    (kept_typed.addSources config _).reachable ?_ (htidy.edgeless.trans htidy'.edgeless.symm)
  refine ExtTreeMap.ext_getElem? fun id => ?_
  rw [getElem?_addSources, getElem?_addSources, find?_sourceNodes_same hfacts h]

end Same

/-! ## The same graph has the same leaders -/

/-- Two results are mapped alike if they are there alike. -/
theorem map_eq_map {α β : Type} {o o' : Option α} {g g' : α → β} (hsome : o.isSome = o'.isSome)
    (h : ∀ a a', o = some a → o' = some a' → g a = g' a') : o.map g = o'.map g' := by
  cases o with
  | none =>
      cases o' with
      | none => rfl
      | some a' => cases hsome
  | some a =>
      cases o' with
      | none => cases hsome
      | some a' => rw [Option.map_some, Option.map_some, h a a' rfl rfl]

theorem ofOption_string_injective {v w : Option String}
    (h : Json.ofOption Json.string v = Json.ofOption Json.string w) : v = w := by
  cases v <;> cases w <;> cases h <;> rfl

section Apart

variable {config : Config} {b b' : Batch} (hfacts : b.facts.Perm b'.facts)
  (hstore : (construct config (Inputs.gather b)).store =
    (construct config (Inputs.gather b')).store)

include hstore

/-- In the same graph the same node was proposed first. -/
theorem eq_of_find?_proposals {id : NodeId} {n n' : Node} (hn : Fresh n) (hn' : Fresh n')
    (hfound : ((proposals config (Inputs.gather b)).find? fun n => n.id = id) = some n)
    (hfound' : ((proposals config (Inputs.gather b')).find? fun n => n.id = id) = some n') :
    n = n' := by
  obtain ⟨hid, m, hm, hkind, hattributes⟩ := holds_of_find?_proposals config _ hfound
  obtain ⟨hid', m', hm', hkind', hattributes'⟩ := holds_of_find?_proposals config _ hfound'
  rw [hid] at hm
  rw [← hstore, hid', hm] at hm'
  cases hm'
  refine hn.ext hn' (hid.trans hid'.symm) (hkind.symm.trans hkind') ?_
  intro key hkey
  rw [← hattributes key hkey, ← hattributes' key hkey]

include hfacts

/-- **The same graph has the same leaders.** -/
theorem sameLeaders_of_store_eq : SameLeaders config b.facts b'.facts where
  files := by
    intro path hpath
    refine map_eq_map ?_ ?_
    · rw [leadingFile?, leadingFile?, List.isSome_find?, List.isSome_find?,
        (hfacts.filterMap Inputs.file?).any_eq]
    · intro f f' hf hf'
      exact eq_of_find?_proposals hstore (fresh_fileNode config _ f) (fresh_fileNode config _ f')
        (find?_proposals_file config b hpath hf) (find?_proposals_file config b' hpath hf')
  definitions := by
    intro id
    refine map_eq_map ?_ ?_
    · rw [leadingDefinition?, leadingDefinition?, List.isSome_find?, List.isSome_find?, sortBy,
        sortBy, (List.mergeSort_perm _ _).any_eq, (List.mergeSort_perm _ _).any_eq,
        (hfacts.filterMap Inputs.definition?).any_eq]
    · intro f f' hf hf'
      exact eq_of_find?_proposals hstore (fresh_definitionNode f) (fresh_definitionNode f')
        (find?_proposals_definition config b hf) (find?_proposals_definition config b' hf')
  versions := by
    intro package
    rw [← getD_declared, ← getD_declared]
    have hmem := mem_declared_congr hfacts package
    by_cases hin : package ∈ (Inputs.gather b).declared
    · have hnode := eq_of_find?_proposals hstore (fresh_packageNode _ package)
        (fresh_packageNode _ package) (find?_proposals_dependency config _ hin)
        (find?_proposals_dependency config _ (hmem.mp hin))
      have hversion := congrArg (fun n : Node => n.attributes[Attribute.version]?) hnode
      rw [version_packageNode, version_packageNode, Option.some.injEq] at hversion
      exact ofOption_string_injective hversion
    · rw [ExtTreeMap.getD_eq_fallback hin, ExtTreeMap.getD_eq_fallback (mt hmem.mpr hin)]

end Apart

/-- **Streams with the same facts build the same graph exactly if the facts that
    count make the same nodes.**  In particular facts that collide can be exchanged
    as long as those that count stay what they are. -/
theorem ofBatches_eq_iff (config : Config) {bs bs' : List Batch}
    (hfacts : (bs.flatMap (·.facts)).Perm (bs'.flatMap (·.facts)))
    (hfailures : (bs.flatMap (·.failures)).Perm (bs'.flatMap (·.failures))) :
    (ofBatches config bs).1 = (ofBatches config bs').1 ↔
      SameLeaders config (bs.flatMap (·.facts)) (bs'.flatMap (·.facts)) := by
  obtain ⟨hmerged, hmergedFailures⟩ := foldl_merge bs {}
  obtain ⟨hmerged', hmergedFailures'⟩ := foldl_merge bs' {}
  rw [List.nil_append] at hmerged hmerged' hmergedFailures hmergedFailures'
  rw [← hmerged, ← hmerged'] at hfacts ⊢
  rw [← hmergedFailures, ← hmergedFailures'] at hfailures
  constructor
  · exact sameLeaders_of_store_eq hfacts
  · intro h
    have hakin := Inputs.gather_akin hfacts hfailures (declared_eq hfacts h.versions)
    exact (construct_same config (addSources_same hfacts h) hakin).store

/-! ## Collisions -/

/-- What a part of a stream tells of one file, of one function in it and of one
    package. -/
structure Telling where
  language : String
  doc : String
  version : String
deriving DecidableEq

namespace Telling

/-- The file that is told of. -/
def file (t : Telling) : FileFact := { path := "a.py", language := some t.language }

/-- The function that is told of. -/
def function (t : Telling) : DefinitionFact :=
  { file := "a.py", name := "f", kind := .function, lineNumber := some 1, doc := some t.doc }

/-- The facts that tell so. -/
def facts (t : Telling) : List Fact :=
  [.file t.file, .definition t.function,
    .manifest { dependencies := [⟨"numpy", some t.version⟩] }]

theorem normalize_path : Path.normalize "a.py" = "a.py" := by cbv

theorem file?_facts (ts : List Telling) :
    (ts.flatMap facts).filterMap Inputs.file? = ts.map file := by
  induction ts with
  | nil => rfl
  | cons t ts ih =>
      have hfile : Inputs.file? (.file t.file) = some t.file := by
        rw [Inputs.file?, file, normalize_path]
      rw [List.flatMap_cons, List.filterMap_append, ih, facts, List.filterMap_cons_some hfile]
      rfl

theorem definition?_facts (ts : List Telling) :
    (ts.flatMap facts).filterMap Inputs.definition? = ts.map function := by
  induction ts with
  | nil => rfl
  | cons t ts ih =>
      have hdefinition : Inputs.definition? (.definition t.function) = some t.function := by
        rw [Inputs.definition?, function, normalize_path]
      rw [List.flatMap_cons, List.filterMap_append, ih, facts, List.filterMap_cons_none rfl,
        List.filterMap_cons_some hdefinition]
      rfl

theorem declarations_facts (ts : List Telling) :
    declarations (ts.flatMap facts) = ts.map fun t => ⟨"numpy", some t.version⟩ := by
  induction ts with
  | nil => rfl
  | cons t ts ih =>
      rw [declarations] at ih ⊢
      rw [List.flatMap_cons, List.filterMap_append, List.flatMap_append, ih]
      rfl

theorem entryPaths_facts (ts : List Telling) : entryPaths (ts.flatMap facts) = [] := by
  induction ts with
  | nil => rfl
  | cons t ts ih =>
      rw [entryPaths] at ih ⊢
      rw [List.flatMap_cons, List.filterMap_append, List.flatMap_append, List.map_append, ih]
      rfl

variable (t u : Telling) (ts us : List Telling)

/-- The first file of colliding ones leads. -/
theorem leadingFile?_facts (path : String) : leadingFile? ((t :: ts).flatMap facts) path =
    if path = "a.py" then some t.file else none := by
  rw [leadingFile?, file?_facts]
  by_cases hpath : path = "a.py"
  · rw [if_pos hpath, List.map_cons, List.find?_cons_of_pos]
    exact decide_eq_true hpath.symm
  · rw [if_neg hpath, List.find?_eq_none]
    intro f hf
    obtain ⟨v, -, rfl⟩ := List.mem_map.mp hf
    rw [decide_eq_true_eq]
    exact fun h => hpath h.symm

/-- The first definition of colliding ones leads. -/
theorem leadingDefinition?_facts (id : NodeId) :
    leadingDefinition? ((t :: ts).flatMap facts) id =
      if id = .function "a.py" "f" then some t.function else none := by
  have hsorted : sortBy definitionOrder ((t :: ts).map function) = (t :: ts).map function := by
    refine List.mergeSort_of_pairwise ?_
    rw [List.pairwise_map]
    refine List.pairwise_of_forall ?_
    intro v w
    rw [(definitionOrder_eq_iff v.function w.function).mpr rfl]
    rfl
  rw [leadingDefinition?, definition?_facts, hsorted]
  by_cases hid : id = .function "a.py" "f"
  · subst hid
    rw [if_pos rfl, List.map_cons, List.find?_cons_of_pos]
    exact Bool.and_eq_true_iff.mpr ⟨rfl, decide_eq_true rfl⟩
  · rw [if_neg hid, List.find?_eq_none]
    intro f hf
    obtain ⟨v, -, rfl⟩ := List.mem_map.mp hf
    rw [Bool.and_eq_true, decide_eq_true_eq]
    rintro ⟨-, h⟩
    exact hid h.symm

/-- The first version of a package is the declared one. -/
theorem versionOf?_facts (package : String) :
    versionOf? (declarations ((t :: ts).flatMap facts)) package =
      if package = "numpy" then some t.version else none := by
  rw [versionOf?, declarations_facts]
  by_cases hpackage : package = "numpy"
  · rw [if_pos hpackage, List.map_cons, List.findSome?_cons, if_pos hpackage.symm]
  · rw [if_neg hpackage, List.findSome?_eq_none_iff]
    intro d hd
    obtain ⟨v, -, rfl⟩ := List.mem_map.mp hd
    exact if_neg fun h => hpackage h.symm

theorem language_fileNode (config : Config) (paths : List String) :
    (fileNode config paths t.file).attributes[Attribute.language]? =
      some (.string t.language) :=
  ExtTreeMap.getElem?_insert_self

theorem doc_definitionNode :
    (definitionNode t.function).attributes[Attribute.doc]? = some (.string t.doc) :=
  ExtTreeMap.getElem?_insert_self

/-- Of tellings that collide the first leads. -/
theorem sameLeaders_facts (config : Config) :
    SameLeaders config ((t :: ts).flatMap facts) ((u :: us).flatMap facts) ↔ t = u := by
  constructor
  · intro h
    -- the nodes that are made show the language and the documentation
    have hlanguage := congrArg (Option.map fun n : Node => n.attributes[Attribute.language]?)
      (h.files "a.py" (by decide))
    rw [leadingFile?_facts, leadingFile?_facts, if_pos rfl, if_pos rfl] at hlanguage
    simp only [Option.map_some, language_fileNode, Option.some.injEq, Json.string.injEq]
      at hlanguage
    have hdoc := congrArg (Option.map fun n : Node => n.attributes[Attribute.doc]?)
      (h.definitions (.function "a.py" "f"))
    rw [leadingDefinition?_facts, leadingDefinition?_facts, if_pos rfl, if_pos rfl] at hdoc
    simp only [Option.map_some, doc_definitionNode, Option.some.injEq, Json.string.injEq]
      at hdoc
    have hversion := h.versions "numpy"
    rw [versionOf?_facts, versionOf?_facts, if_pos rfl, if_pos rfl, Option.some.injEq]
      at hversion
    cases t
    cases u
    rw [mk.injEq]
    exact ⟨hlanguage, hdoc, hversion⟩
  · rintro rfl
    refine ⟨?_, ?_, ?_⟩
    · intro path _
      rw [leadingFile?_facts, leadingFile?_facts, entryPaths_facts, entryPaths_facts]
    · intro id
      rw [leadingDefinition?_facts, leadingDefinition?_facts]
    · intro package
      rw [versionOf?_facts, versionOf?_facts]

end Telling

/-- Once the leading facts are told, it does not matter in which order the others
    follow. -/
theorem ofBatches_later_tellings :
    let t : Telling := ⟨"python", "first", "1.0"⟩
    let u : Telling := ⟨"cython", "second", "2.0"⟩
    let v : Telling := ⟨"starlark", "third", "3.0"⟩
    let bs : List Batch := [⟨[t, u, v].flatMap Telling.facts, [], []⟩]
    let bs' : List Batch := [⟨t.facts, [], []⟩, ⟨[v, u].flatMap Telling.facts, [], []⟩]
    (bs.flatMap (·.facts)).Perm (bs'.flatMap (·.facts)) ∧
      (bs.flatMap (·.failures)).Perm (bs'.flatMap (·.failures)) ∧
      (ofBatches {} bs).1 = (ofBatches {} bs').1 := by
  intro t u v bs bs'
  have hfacts : (bs.flatMap (·.facts)).Perm (bs'.flatMap (·.facts)) := by
    show ([t, u, v].flatMap Telling.facts).Perm ([t, v, u].flatMap Telling.facts)
    exact ((List.Perm.swap v u []).cons t).flatMap_right _
  have hfailures : (bs.flatMap (·.failures)).Perm (bs'.flatMap (·.failures)) := .refl _
  exact ⟨hfacts, hfailures, (ofBatches_eq_iff {} hfacts hfailures).mpr
    ((Telling.sameLeaders_facts t t [u, v] [v, u] {}).mpr rfl)⟩

/-- Of colliding facts the first in the stream counts, so the graph changes if it is
    exchanged for one that tells something else: of two files, of two definitions, or
    of two manifests among facts that are the same. -/
theorem exchange_changes_graph :
    let graph (ts : List Telling) := (ofBatches {} [⟨ts.flatMap Telling.facts, [], []⟩]).1
    let t : Telling := ⟨"python", "first", "1.0"⟩
    graph [t, { t with language := "cython" }] ≠ graph [{ t with language := "cython" }, t] ∧
      graph [t, { t with doc := "second" }] ≠ graph [{ t with doc := "second" }, t] ∧
      graph [t, { t with version := "2.0" }] ≠ graph [{ t with version := "2.0" }, t] := by
  intro graph t
  have hexchange : ∀ u : Telling, t ≠ u → graph [t, u] ≠ graph [u, t] := by
    intro u hne heq
    refine hne ((Telling.sameLeaders_facts t u [u] [t] {}).mp (sameLeaders_of_store_eq ?_ heq))
    exact (List.Perm.swap u t []).flatMap_right _
  refine ⟨hexchange _ ?_, hexchange _ ?_, hexchange _ ?_⟩
  · decide
  · decide
  · decide

end CodeGraph.Build

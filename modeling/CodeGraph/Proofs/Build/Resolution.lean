import CodeGraph.Proofs.Build.Schema
import CodeGraph.Proofs.Graph.Scan
import CodeGraph.Proofs.Module.Index
/-! # Resolution — references mean nodes of the right kind

    Resolution answers with identifiers, and the edges that are made of them
    must be allowed.  Every answer is an identifier that some index of the store
    gave, so it is a node of the kind that was asked for.

    * Imports are looked up in the module index, which knows files and
      directories only, and never answers with the importing file.
    * Callers, callees, classes and their bases are looked up by name; a class
      is never its own base.
    * `Joinable` says that an edge can be joined.
    * `ShowsImport`, `ShowsCall` and `ShowsInherit` say what the edge of a fact
      joins; the edges of resolved facts show them. -/

namespace CodeGraph.Build

open Std

/-- Both ends of an edge are there, and its relationship allows their kinds. -/
def Joinable (s : Store) (e : Edge) : Prop :=
  ∃ a b, HasKind s e.source a ∧ HasKind s e.target b ∧ e.relationship.allows a b = true

/-- Edges that can be joined can be joined later on. -/
theorem Grown.joinable {s s' : Store} (h : Grown s s') {e : Edge} (hj : Joinable s e) :
    Joinable s' e :=
  allowed_mono (fun _ _ => h.hasKind) hj

/-- The best of some nodes is one of them. -/
theorem mem_of_best? {imported : Imported} {r : Reference} {ns : List Node} {n : Node}
    (h : best? imported r ns = some n) : n ∈ ns := by
  refine mem_of_foldl_choice ?_ h
  intro best y
  cases best with
  | none => exact Or.inr rfl
  | some b =>
      dsimp only
      split
      · exact Or.inr rfl
      · exact Or.inl rfl

/-! ## Modules -/

/-- Every module of an index has a property. -/
def Indexed (P : Module → Prop) (index : ModuleIndex) : Prop :=
  ∀ last, ∀ m ∈ index.byLast.getD last [], P m

/-- An index is added to by what has the property of the rest. -/
theorem Indexed.add {P : Module → Prop} {index : ModuleIndex} (h : Indexed P index)
    {m : Module} (hm : P m) : Indexed P (index.add m) := by
  intro last x hx
  rw [ModuleIndex.add] at hx
  split at hx
  · rename_i key _
    dsimp only at hx
    rw [ExtTreeMap.getD_alter] at hx
    split at hx
    · rename_i hkey
      rw [Option.getD_some, ← ExtTreeMap.getD_eq_getD_getElem?, List.mem_append,
        List.mem_singleton] at hx
      rcases hx with hx | rfl
      · exact h _ x hx
      · exact hm
    · exact h last x hx
  · exact h last x hx

/-- The paths that are listed for a kind are those of its nodes. -/
theorem exists_of_mem_paths {s : Store} (hs : s.Sound) {kind : NodeKind} {path : String}
    (h : path ∈ (s.nodesByKind kind).filterMap fun n => n.text? Attribute.path) :
    ∃ n : Node, s.nodes[n.id]? = some n ∧ n.kind = kind ∧
      n.text? Attribute.path = some path := by
  obtain ⟨n, hn, htext⟩ := List.mem_filterMap.mp h
  rw [hs.nodesByKind_eq, List.mem_filter, decide_eq_true_eq] at hn
  obtain ⟨id, hid⟩ := Store.mem_nodeList.mp hn.1
  rw [← hs.keyed id n hid] at hid
  exact ⟨n, hid, hn.2, htext⟩

variable {s : Store}

/-- The paths that files bear are those of files. -/
theorem hasKind_file_of_mem_paths (h : Labelled s) {path : String}
    (hpath : path ∈ (s.nodesByKind .file).filterMap fun n => n.text? Attribute.path) :
    HasKind s (.file path) .file := by
  obtain ⟨n, hn, hkind, htext⟩ := exists_of_mem_paths h.sound hpath
  rw [← (h.described _ n hn).id_of_file hkind htext]
  exact ⟨n, hn, hkind⟩

theorem hasKind_directory_of_mem_paths (h : Labelled s) {path : String}
    (hpath : path ∈ (s.nodesByKind .directory).filterMap fun n => n.text? Attribute.path) :
    HasKind s (.directory path) .directory := by
  obtain ⟨n, hn, hkind, htext⟩ := exists_of_mem_paths h.sound hpath
  rw [← (h.described _ n hn).id_of_directory hkind htext]
  exact ⟨n, hn, hkind⟩

/-- A module that stands for a file or a directory of a store. -/
inductive Stands (s : Store) (m : Module) : Prop
  | file (path : String) : HasKind s (.file path) .file → m ∈ Module.ofFile path → Stands s m
  | directory (path : String) : HasKind s (.directory path) .directory →
      m = Module.ofDirectory path → Stands s m

/-- A module is a file or a directory of the store. -/
theorem Stands.hasKind {m : Module} (h : Stands s m) :
    HasKind s m.id .file ∨ HasKind s m.id .directory := by
  cases h with
  | file path hpath hm =>
      rw [(Module.spec_of_mem_ofFile hm).1]
      exact Or.inl hpath
  | directory path hpath hm =>
      rw [hm]
      exact Or.inr hpath

/-- The modules of a store stand for its files and directories. -/
theorem indexed_moduleIndex (h : Labelled s) : Indexed (Stands s) (moduleIndex s) := by
  rw [moduleIndex]
  refine List.foldlRecOn _ _ (motive := Indexed (Stands s)) ?_ ?_
  · refine List.foldlRecOn _ _ (motive := Indexed (Stands s)) ?_ ?_
    · intro last m hm
      rw [ExtTreeMap.getD_empty] at hm
      cases hm
    · intro index hindex path hpath
      refine List.foldlRecOn _ _ (motive := Indexed (Stands s)) hindex ?_
      intro index hindex m hm
      exact hindex.add (.file path (hasKind_file_of_mem_paths h hpath) hm)
  · intro index hindex path hpath
    exact hindex.add (.directory path (hasKind_directory_of_mem_paths h hpath) rfl)

/-- A module answers to a specifier by all its segments, or by all but the last,
    which may name something inside the module. -/
def AnswersTo (m : Module) (segments : List String) : Prop :=
  m.answers segments = true ∨ m.answers segments.dropLast = true

/-- A module that is meant answers to what was asked for, and is not the importing
    file. -/
theorem Indexed.resolve? {P : Module → Prop} {index : ModuleIndex} (h : Indexed P index)
    {importer : String} {segments : List String} {m : Module}
    (hm : index.resolve? importer segments = some m) :
    P m ∧ AnswersTo m segments ∧ m.id ≠ .file importer := by
  have honly : ∀ segments, index.only? importer segments = some m →
      P m ∧ m.answers segments = true ∧ m.id ≠ .file importer := by
    intro segments hm
    obtain ⟨hmem, hne⟩ := List.mem_filter.mp (Module.mem_of_preferred? hm)
    rw [decide_eq_true_eq] at hne
    rw [ModuleIndex.candidates] at hmem
    split at hmem
    · obtain ⟨hlisted, hanswers⟩ := List.mem_filter.mp hmem
      exact ⟨h _ m hlisted, hanswers, hne⟩
    · cases hmem
  rw [ModuleIndex.resolve?] at hm
  split at hm
  · rename_i m' hfound
    cases hm
    obtain ⟨hP, hanswers, hne⟩ := honly _ hfound
    exact ⟨hP, Or.inl hanswers, hne⟩
  · split at hm
    · cases hm
    · obtain ⟨hP, hanswers, hne⟩ := honly _ hm
      exact ⟨hP, Or.inr hanswers, hne⟩

/-! ## Imports -/

/-- What an import may mean: a module of the repository that answers to it, or the
    package that it names. -/
inductive Meant (s : Store) (aliases : Aliases) (i : ImportFact) : ImportTarget → Prop
  | inside {m : Module} : Stands s m → AnswersTo m (Specifier.segments i.module aliases) →
      Meant s aliases i (.inside m)
  | outside {package : String} : Specifier.package? i.module = some package →
      Meant s aliases i (.outside package)

/-- An edge shows an import: it leads from the importing file to something else that
    the import means. -/
def ShowsImport (s : Store) (aliases : Aliases) (i : ImportFact) (e : Edge) : Prop :=
  HasKind s (.file i.file) .file ∧ ∃ target, Meant s aliases i target ∧
    target.id ≠ .file i.file ∧ e = importEdge i target

/-- An import that is resolved comes from a file, and means something else. -/
theorem resolveImport_ok (h : Labelled s) {aliases : Aliases} {i : ImportFact}
    {target : ImportTarget}
    (hok : resolveImport s (moduleIndex s) aliases i = .ok target) :
    HasKind s (.file i.file) .file ∧ Meant s aliases i target ∧
      target.id ≠ .file i.file := by
  rw [resolveImport] at hok
  split at hok
  · rename_i hin
    refine ⟨h.hasKind hin (tag_file _), ?_⟩
    split at hok
    · rename_i m hm
      cases hok
      obtain ⟨hstands, hanswers, hne⟩ := (indexed_moduleIndex h).resolve? hm
      exact ⟨.inside hstands hanswers, hne⟩
    · split at hok
      · rename_i package hpackage
        cases hok
        refine ⟨.outside hpackage, ?_⟩
        intro heq
        have htag := congrArg NodeId.tag heq
        rw [ImportTarget.id, tag_dependency, tag_file] at htag
        cases htag
      · cases hok
  · cases hok

/-- An import that is not resolved is left out. -/
theorem resolveImport_error {index : ModuleIndex} {aliases : Aliases} {i : ImportFact}
    {x : Diagnostic} (herr : resolveImport s index aliases i = .error x) :
    x.isOmission = true ∧ x.isUnresolvedCall = false := by
  rw [resolveImport] at herr
  split at herr
  · split at herr
    · cases herr
    · split at herr
      · cases herr
      · cases herr
        exact ⟨rfl, rfl⟩
  · cases herr
    exact ⟨rfl, rfl⟩

/-! ## Definitions -/

/-- What is found by name is a node with that name. -/
theorem Labelled.of_mem_findByName (h : Labelled s) {name : String} {n : Node}
    (hn : n ∈ s.findByName name) :
    s.nodes[n.id]? = some n ∧ n.text? Attribute.name = some name := by
  rw [h.sound.findByName_eq] at hn
  obtain ⟨hlisted, hname⟩ := List.mem_filter.mp hn
  obtain ⟨id, hid⟩ := Store.mem_nodeList.mp hlisted
  rw [h.sound.keyed id n hid]
  exact ⟨hid, of_decide_eq_true hname⟩

/-- A definition has a name, or the last word of a longer one. -/
def NamedBy (s : Store) (name : String) (kind : NodeKind) (id : NodeId) : Prop :=
  ∃ n, s.nodes[id]? = some n ∧ n.kind = kind ∧
    n.text? Attribute.name = some (Callee.last name)

/-- A definition in a file has exactly a qualified name, or its last word as name. -/
def DefinedAs (s : Store) (file name : String) (kind : NodeKind) (id : NodeId) : Prop :=
  HasKind s id kind ∧ (id = definitionId kind file name ∨
    ∃ n, s.nodes[id]? = some n ∧ n.text? Attribute.name = some (Callee.last name) ∧
      n.filePath? = some file)

theorem NamedBy.hasKind {name : String} {kind : NodeKind} {id : NodeId}
    (h : NamedBy s name kind id) : HasKind s id kind := by
  obtain ⟨n, hn, hkind, -⟩ := h
  exact ⟨n, hn, hkind⟩

/-- What is found in a file is a definition of the name there, by its whole name or its last
    part. -/
theorem definedAs_of_localDefinition? (h : Labelled s) {file name : String} {kind : NodeKind}
    (hkind : kind.isDefinition = true) {id : NodeId}
    (hid : localDefinition? s file name kind = some id) : DefinedAs s file name kind id := by
  rw [localDefinition?] at hid
  split at hid
  · rename_i hin
    cases hid
    exact ⟨h.hasKind hin (tag_definitionId hkind file name), Or.inl rfl⟩
  · obtain ⟨n, hfound, rfl⟩ := Option.map_eq_some_iff.mp hid
    have hprop := List.find?_some hfound
    rw [Bool.and_eq_true, decide_eq_true_eq, decide_eq_true_eq] at hprop
    obtain ⟨hn, hname⟩ := h.of_mem_findByName (List.mem_of_find?_eq_some hfound)
    exact ⟨⟨n, hn, hprop.1⟩, Or.inr ⟨n, hn, hname, hprop.2⟩⟩

/-- What is picked bears the name that was asked for, and is not the node to be left out. -/
theorem namedBy_of_pickDefinition? (h : Labelled s) {imported : Imported} {r : Reference}
    {id : NodeId} (hid : pickDefinition? s imported r = some id) :
    NamedBy s r.name r.kind id ∧ some id ≠ r.exclude := by
  obtain ⟨n, hn, rfl⟩ := Option.map_eq_some_iff.mp hid
  obtain ⟨hmem, hprop⟩ := List.mem_filter.mp (mem_of_best? hn)
  rw [Bool.and_eq_true, decide_eq_true_eq, decide_eq_true_eq] at hprop
  obtain ⟨hnode, hname⟩ := h.of_mem_findByName hmem
  exact ⟨⟨n, hnode, hprop.1, hname⟩, hprop.2⟩

/-! ## Calls and inheritances -/

/-- An edge shows a call: it leads from the function in the calling file that the
    call names to a function with the called name. -/
def ShowsCall (s : Store) (c : CallFact) (e : Edge) : Prop :=
  ∃ caller callee, DefinedAs s c.file c.caller .function caller ∧
    NamedBy s c.callee .function callee ∧ e = callEdge c caller callee

/-- An edge shows an inheritance: it leads from the class in the file to another
    class with the name of the base. -/
def ShowsInherit (s : Store) (i : InheritFact) (e : Edge) : Prop :=
  ∃ cls base, DefinedAs s i.file i.class .class cls ∧ NamedBy s i.base .class base ∧
    cls ≠ base ∧ e = { source := cls, target := base, relationship := .inherits }

theorem ShowsImport.relationship {aliases : Aliases} {i : ImportFact} {e : Edge}
    (h : ShowsImport s aliases i e) : e.relationship = .imports := by
  obtain ⟨-, target, -, -, rfl⟩ := h
  rfl

theorem ShowsCall.relationship {c : CallFact} {e : Edge} (h : ShowsCall s c e) :
    e.relationship = .calls := by
  obtain ⟨caller, callee, -, -, rfl⟩ := h
  rfl

/-- A call joins two functions that are there. -/
theorem ShowsCall.joinable {c : CallFact} {e : Edge} (h : ShowsCall s c e) :
    Joinable s e := by
  obtain ⟨caller, callee, hcaller, hcallee, rfl⟩ := h
  exact ⟨.function, .function, hcaller.1, hcallee.hasKind, rfl⟩

theorem ShowsInherit.relationship {i : InheritFact} {e : Edge} (h : ShowsInherit s i e) :
    e.relationship = .inherits := by
  obtain ⟨cls, base, -, -, -, rfl⟩ := h
  rfl

/-- No class is its own base. -/
theorem ShowsInherit.loopless {i : InheritFact} {e : Edge} (h : ShowsInherit s i e) :
    e.source ≠ e.target := by
  obtain ⟨cls, base, -, -, hne, rfl⟩ := h
  exact hne

/-- An inheritance joins two classes that are there. -/
theorem ShowsInherit.joinable {i : InheritFact} {e : Edge} (h : ShowsInherit s i e) :
    Joinable s e := by
  obtain ⟨cls, base, hcls, hbase, -, rfl⟩ := h
  exact ⟨.class, .class, hcls.1, hbase.hasKind, rfl⟩

/-- The edge of a call shows it. -/
theorem resolveCall_edge (h : Labelled s) {imported : Imported} {c : CallFact} {e : Edge}
    (he : resolveCall s imported c = .edge e) : ShowsCall s c e := by
  rw [resolveCall] at he
  split at he
  · cases he
  · rename_i caller hcaller
    split at he
    · rename_i callee hcallee
      cases he
      exact ⟨caller, callee, definedAs_of_localDefinition? h rfl hcaller,
        (namedBy_of_pickDefinition? h hcallee).1, rfl⟩
    · cases he

/-- A call of an unknown function is counted for a function that is there. -/
theorem resolveCall_noCallee (h : Labelled s) {imported : Imported} {c : CallFact}
    {caller : NodeId} (hc : resolveCall s imported c = .noCallee caller) :
    HasKind s caller .function := by
  rw [resolveCall] at hc
  split at hc
  · cases hc
  · rename_i id hid
    split at hc
    · cases hc
    · cases hc
      exact (definedAs_of_localDefinition? h rfl hid).1

/-- The edge of an inheritance shows it. -/
theorem resolveInherit_ok (h : Labelled s) {imported : Imported} {i : InheritFact} {e : Edge}
    (hok : resolveInherit s imported i = .ok e) : ShowsInherit s i e := by
  rw [resolveInherit] at hok
  split at hok
  · cases hok
  · rename_i cls hcls
    split at hok
    · rename_i base hbase
      cases hok
      obtain ⟨hnamed, hne⟩ := namedBy_of_pickDefinition? h hbase
      refine ⟨cls, base, definedAs_of_localDefinition? h rfl hcls, hnamed, ?_, rfl⟩
      rintro rfl
      exact hne rfl
    · cases hok

/-- An inheritance that is not resolved is left out. -/
theorem resolveInherit_error {imported : Imported} {i : InheritFact} {x : Diagnostic}
    (herr : resolveInherit s imported i = .error x) :
    x.isOmission = true ∧ x.isUnresolvedCall = false := by
  rw [resolveInherit] at herr
  split at herr
  · cases herr
    exact ⟨rfl, rfl⟩
  · split at herr
    · cases herr
    · cases herr
      exact ⟨rfl, rfl⟩

/-! ## Growing stores -/

section Grown

variable {s' : Store}

/-- A module still stands when more nodes are there. -/
theorem Stands.mono (hgrown : Grown s s') {m : Module} (h : Stands s m) : Stands s' m := by
  cases h with
  | file path hpath hm => exact .file path (hgrown.hasKind hpath) hm
  | directory path hpath hm => exact .directory path (hgrown.hasKind hpath) hm

/-- An edge still shows its import in a store that has grown. -/
theorem ShowsImport.mono (hgrown : Grown s s') {aliases : Aliases} {i : ImportFact} {e : Edge}
    (h : ShowsImport s aliases i e) : ShowsImport s' aliases i e := by
  obtain ⟨hfile, target, hmeant, hne, rfl⟩ := h
  refine ⟨hgrown.hasKind hfile, target, ?_, hne, rfl⟩
  cases hmeant with
  | inside hstands hanswers => exact .inside (hstands.mono hgrown) hanswers
  | outside hpackage => exact .outside hpackage

theorem NamedBy.mono (hgrown : Grown s s') {name : String} {kind : NodeKind} {id : NodeId}
    (h : NamedBy s name kind id) : NamedBy s' name kind id := by
  obtain ⟨n, hn, hkind, hname⟩ := h
  obtain ⟨n', hn', hkind', hattributes⟩ := hgrown id n hn
  exact ⟨n', hn', hkind'.trans hkind, text?_mono hattributes hname⟩

theorem DefinedAs.mono (hgrown : Grown s s') {file name : String} {kind : NodeKind}
    {id : NodeId} (h : DefinedAs s file name kind id) : DefinedAs s' file name kind id := by
  obtain ⟨hkind, hid⟩ := h
  refine ⟨hgrown.hasKind hkind, ?_⟩
  rcases hid with hid | ⟨n, hn, hname, hfile⟩
  · exact Or.inl hid
  · obtain ⟨n', hn', hkind', hattributes⟩ := hgrown id n hn
    refine Or.inr ⟨n', hn', text?_mono hattributes hname, ?_⟩
    -- the path of the file is a text attribute, of a key that follows from the kind
    rw [Node.filePath?] at hfile ⊢
    rw [hkind']
    cases hk : n.kind with
    | file | function | «class» =>
        rw [hk] at hfile
        exact text?_mono hattributes hfile
    | directory | dependency =>
        rw [hk] at hfile
        cases hfile

theorem ShowsCall.mono (hgrown : Grown s s') {c : CallFact} {e : Edge}
    (h : ShowsCall s c e) : ShowsCall s' c e := by
  obtain ⟨caller, callee, hcaller, hcallee, rfl⟩ := h
  exact ⟨caller, callee, hcaller.mono hgrown, hcallee.mono hgrown, rfl⟩

theorem ShowsInherit.mono (hgrown : Grown s s') {i : InheritFact} {e : Edge}
    (h : ShowsInherit s i e) : ShowsInherit s' i e := by
  obtain ⟨cls, base, hcls, hbase, hne, rfl⟩ := h
  exact ⟨cls, base, hcls.mono hgrown, hbase.mono hgrown, hne, rfl⟩

end Grown

end CodeGraph.Build

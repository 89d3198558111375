import CodeGraph.Proofs.Build.Imports
import CodeGraph.Proofs.Build.Leaders
import CodeGraph.Proofs.Build.Paths
import CodeGraph.Proofs.Module.Naming
import CodeGraph.Proofs.Module.Specifier
/-! # Siblings — what a relative import of one word means

    A relative marker says nothing of where the search begins.  `./word` means
    some file with this word as its stem, or the index file of a directory that is
    called so, and the nearest is preferred.

    * Nearness counts the leading components of the importing directory, so
      everything below that directory is as near as a sibling (`Near`).
    * A sibling is near, so what is meant is a near file, and the one with the
      smallest identifier (`resolveImport_near`, `sibling_imports`).
    * A sibling is missed if a file below comes first, or if its stem is not kept
      as it is written (`siblings_missed`). -/

namespace CodeGraph.Build

open Std

/-! ## Files that a word may mean -/

/-- A file that a word may mean: its stem is the word, or it is the index file of a
    directory that is called so. -/
def Bears (path word : String) : Prop :=
  Path.stem path = word ∨ Path.stem path ∈ Module.packageStems ∧
    (Module.directorySegments (Path.parent path)).getLast? = some word

theorem answers_singleton {m : Module} {word : String} :
    m.answers [word] = true ↔ m.segments.getLast? = some word := by
  rw [Module.answers_iff]
  constructor
  · rintro ⟨front, hfront⟩
    rw [← hfront, List.getLast?_concat]
  · intro hlast
    obtain ⟨front, hfront⟩ := List.getLast?_eq_some_iff.mp hlast
    exact ⟨front, hfront.symm⟩

/-- A file answers to the words that it bears. -/
theorem exists_answers_iff {path word : String} :
    (∃ m ∈ Module.ofFile path, m.answers [word] = true) ↔ Bears path word := by
  have hplain : (⟨.file path, path, Module.directorySegments (Path.parent path) ++
      [Path.stem path], true⟩ : Module).answers [word] = true ↔ Path.stem path = word := by
    rw [answers_singleton, List.getLast?_concat, Option.some.injEq]
  rw [Bears, Module.ofFile]
  split
  · rename_i hpackage
    rw [Bool.and_eq_true, List.contains_iff_mem] at hpackage
    constructor
    · rintro ⟨m, hm, hanswers⟩
      rcases List.mem_cons.mp hm with rfl | hm
      · exact Or.inr ⟨hpackage.1, answers_singleton.mp hanswers⟩
      · rw [List.mem_singleton.mp hm] at hanswers
        exact Or.inl (hplain.mp hanswers)
    · rintro (hstem | ⟨-, hdirectory⟩)
      · exact ⟨_, List.mem_cons_of_mem _ List.mem_cons_self, hplain.mpr hstem⟩
      · exact ⟨_, List.mem_cons_self, answers_singleton.mpr hdirectory⟩
  · rename_i hpackage
    constructor
    · rintro ⟨m, hm, hanswers⟩
      rw [List.nil_append, List.mem_singleton] at hm
      rw [hm] at hanswers
      exact Or.inl (hplain.mp hanswers)
    · rintro (hstem | ⟨hindex, hdirectory⟩)
      · exact ⟨_, List.mem_singleton_self _, hplain.mpr hstem⟩
      · -- a directory that is called something has segments
        refine absurd ?_ hpackage
        rw [Bool.and_eq_true, List.contains_iff_mem]
        refine ⟨hindex, ?_⟩
        cases hsegments : Module.directorySegments (Path.parent path) with
        | nil =>
            rw [hsegments] at hdirectory
            cases hdirectory
        | cons a as => rfl

/-! ## Near files -/

/-- A file that a word may mean and that is as near to an importing file as can be: its
    directory begins with the leading components of the importing one. -/
structure Near (s : Store) (importer word path : String) : Prop where
  file : HasKind s (.file path) .file
  other : path ≠ importer
  bears : Bears path word
  near : Path.lead (Path.parent importer) <+: Path.lead (Path.parent path)

/-- What is preferred to a file that is as near as can be is another such file, with the
    smaller identifier. -/
theorem spec_of_compareFrom {directory : String} {a b : Module}
    (h : (Module.compareFrom directory a b).isLE)
    (hnear : Path.lead directory <+: Path.lead (Path.parent a.path)) (hfile : a.isFile = true) :
    Path.lead directory <+: Path.lead (Path.parent b.path) ∧ b.isFile = true ∧
      (compare b.id a.id).isLE := by
  have ha := Path.nearness_eq_iff.mpr hnear
  have hle := Path.nearness_le (Path.parent b.path) directory
  rw [Module.compareFrom, ha, hfile] at h
  rcases Nat.lt_or_eq_of_le hle with hlt | heq
  · rw [Nat.compare_eq_gt.mpr hlt] at h
    cases h
  · refine ⟨Path.nearness_eq_iff.mp heq, ?_⟩
    rw [heq, Nat.compare_eq_eq.mpr rfl] at h
    cases hb : b.isFile with
    | false =>
        rw [hb] at h
        cases h
    | true =>
        rw [hb] at h
        exact ⟨rfl, h⟩

section Store

variable {s : Store} {importer word : String}

theorem Near.mono {s' : Store} (hfile : ∀ path, HasKind s (.file path) .file →
    HasKind s' (.file path) .file) {path : String} (h : Near s importer word path) :
    Near s' importer word path :=
  ⟨hfile path h.file, h.other, h.bears, h.near⟩

/-- A near file is among the candidates. -/
theorem Near.exists_candidate (h : Labelled s) {path : String} (hnear : Near s importer word path) :
    ∃ m ∈ (moduleIndex s).candidates [word], m ∈ Module.ofFile path ∧ m.id ≠ .file importer := by
  obtain ⟨m, hm, hanswers⟩ := exists_answers_iff.mpr hnear.bears
  refine ⟨m, (mem_candidates_moduleIndex h).mpr
    ⟨List.cons_ne_nil _ _, .file path hnear.file hm, hanswers⟩, hm, ?_⟩
  rw [(Module.spec_of_mem_ofFile hm).1]
  exact hnear.other ∘ file_injective

/-- **A word means the near file with the smallest identifier,** if there is a near
    file. -/
theorem resolveImport_near (h : Labelled s) {aliases : Aliases} {i : ImportFact}
    (hsegments : Specifier.segments i.module aliases = [word])
    (himporter : HasKind s (.file i.file) .file) {path : String} (hpath : Near s i.file word path) :
    ∃ m target, resolveImport s (moduleIndex s) aliases i = .ok (.inside m) ∧
      m.id = .file target ∧ Near s i.file word target ∧
      ∀ path, Near s i.file word path →
        (compare (NodeId.file target) (NodeId.file path)).isLE := by
  obtain ⟨a, ha, hafile, hne⟩ := hpath.exists_candidate h
  obtain ⟨best, hbest, hbestne, honly, hpreferred⟩ := exists_only? ha hne
  obtain ⟨-, hapath, haisFile⟩ := Module.spec_of_mem_ofFile hafile
  obtain ⟨hnear, hisFile, -⟩ := spec_of_compareFrom (hpreferred a ha hne)
    (by rw [hapath]; exact hpath.near) haisFile
  obtain ⟨-, hstands, hanswers⟩ := (mem_candidates_moduleIndex h).mp hbest
  have hresolve : resolveImport s (moduleIndex s) aliases i = .ok (.inside best) := by
    obtain ⟨n, hn, -⟩ := himporter
    have hin : s.contains (.file i.file) = true :=
      ExtTreeMap.mem_iff_contains.mp (ExtTreeMap.getElem?_eq_some_iff.mp hn).1
    rw [resolveImport, if_pos hin, hsegments, ModuleIndex.resolve?, honly]
  cases hstands with
  | directory target _ hm =>
      -- a directory is not preferred to a file
      rw [hm] at hisFile
      cases hisFile
  | file target hfile hm =>
      obtain ⟨hid, htarget, -⟩ := Module.spec_of_mem_ofFile hm
      rw [htarget] at hnear
      refine ⟨best, target, hresolve, hid,
        ⟨hfile, ?_, exists_answers_iff.mp ⟨best, hm, hanswers⟩, hnear⟩, ?_⟩
      · rintro rfl
        exact hbestne hid
      · intro path hpath
        obtain ⟨b, hb, hbfile, hbne⟩ := hpath.exists_candidate h
        obtain ⟨hbid, hbpath, hbisFile⟩ := Module.spec_of_mem_ofFile hbfile
        obtain ⟨-, -, hle⟩ := spec_of_compareFrom (hpreferred b hb hbne)
          (by rw [hbpath]; exact hpath.near) hbisFile
        rw [hid, hbid] at hle
        exact hle

end Store

/-! ## Siblings -/

/-- An edge shows an import of a specifier by a file. -/
structure IsImportOf (file module : String) (e : Edge) : Prop where
  relationship : e.relationship = .imports
  source : e.source = .file file
  specifier : e.attributes[Attribute.specifier]? = some (.string module)

theorem isImportOf_importEdge (i : ImportFact) (target : ImportTarget) :
    IsImportOf i.file i.module (importEdge i target) := by
  refine ⟨rfl, rfl, ?_⟩
  have hbase : ({(Attribute.specifier, .string i.module)} : Attributes)[Attribute.specifier]? =
      some (.string i.module) := ExtTreeMap.getElem?_insert_self
  have hinsert : ∀ {a : Attributes} {key : String} (v : Json), key ≠ Attribute.specifier →
      a[Attribute.specifier]? = some (.string i.module) →
        (a.insert key v)[Attribute.specifier]? = some (.string i.module) := by
    intro a key v hkey ha
    rw [ExtTreeMap.getElem?_insert, if_neg (hkey ∘ LawfulEqCmp.eq_of_compare), ha]
  rw [importEdge]
  cases i.localName with
  | none =>
      cases i.line with
      | none => exact hbase
      | some line => exact hinsert _ (by decide) hbase
  | some name =>
      cases i.line with
      | none => exact hinsert _ (by decide) hbase
      | some line => exact hinsert _ (by decide) (hinsert _ (by decide) hbase)

/-- What an import means depends on the file and the specifier. -/
theorem resolveImport_congr (s : Store) (index : ModuleIndex) (aliases : Aliases)
    {i i' : ImportFact} (hfile : i'.file = i.file) (hmodule : i'.module = i.module) :
    resolveImport s index aliases i' = resolveImport s index aliases i := by
  rw [resolveImport, resolveImport, hfile, hmodule]

/-- The stem of a file of the graph is a word. -/
theorem segments_stem (config : Config) (b : Batch) {path : String}
    (h : HasKind (construct config (Inputs.gather b)).store (.file path) .file)
    (hplain : Specifier.Plain (Path.stem path)) :
    Specifier.segments ("./" ++ Path.stem path) ∅ = [Path.stem path] := by
  obtain ⟨hne, raw, -, rfl⟩ := exists_told_of_file config b h
  obtain ⟨hslash, hmem, hnonempty⟩ := Path.fileName_spec (Path.normalize raw)
  refine Specifier.segments_relative
    (Path.stem_ne_empty (hnonempty hne (Path.getLast?_normalize raw))) ?_ ?_ hplain
  · intro hin
    rcases Path.mem_of_mem_stem hin with hdot | hin
    · exact absurd hdot (by decide)
    · exact hslash hin
  · intro hin
    rcases Path.mem_of_mem_stem hin with hdot | hin
    · exact absurd hdot (by decide)
    · exact Path.backslash_not_mem_normalize raw (hmem _ hin)

/-- **A relative import of a sibling means a near file,** of all near files the one with
    the smallest identifier: never a directory, never a package from outside. -/
theorem sibling_imports {config : Config} (haliases : config.aliases = ∅)
    {batches : List Batch} {i : ImportFact}
    (hi : i ∈ (batches.flatMap (·.facts)).filterMap Inputs.import?) {sibling : String}
    (himporter : HasKind (ofBatches config batches).1 (.file i.file) .file)
    (hsibling : HasKind (ofBatches config batches).1 (.file sibling) .file)
    (hne : sibling ≠ i.file) (hparent : Path.parent sibling = Path.parent i.file)
    (hmodule : i.module = "./" ++ Path.stem sibling)
    (hplain : Specifier.Plain (Path.stem sibling)) :
    let s := (ofBatches config batches).1
    ∃ target, Near s i.file (Path.stem sibling) target ∧
      (∀ path, Near s i.file (Path.stem sibling) path →
        (compare (NodeId.file target) (NodeId.file path)).isLE) ∧
      (∃ e ∈ s.edges, IsImportOf i.file i.module e) ∧
      ∀ e ∈ s.edges, IsImportOf i.file i.module e → e.target = .file target := by
  intro s
  have hfiles : ∀ path, HasKind (addPackages config
      (Inputs.gather (batches.foldl Batch.merge {}))).store (.file path) .file ↔
        HasKind s (.file path) .file := fun path => hasKind_addPackages_iff nofun
  have hsegments : Specifier.segments i.module config.aliases = [Path.stem sibling] := by
    rw [haliases, hmodule]
    exact segments_stem config _ hsibling hplain
  have hnear : Near s i.file (Path.stem sibling) sibling := by
    refine ⟨hsibling, hne, Or.inl rfl, ?_⟩
    simp only [hparent, List.prefix_rfl]
  obtain ⟨m, target, hresolve, hid, htarget, hleast⟩ :=
    resolveImport_near (labelled_addPackages config _) hsegments ((hfiles _).mpr himporter)
      (hnear.mono fun path => (hfiles path).mpr)
  refine ⟨target, htarget.mono fun path => (hfiles path).mp, ?_, ?_, ?_⟩
  · intro path hpath
    exact hleast path (hpath.mono fun path => (hfiles path).mpr)
  · refine ⟨importEdge i (.inside m), ?_, isImportOf_importEdge i _⟩
    refine (mem_edges_imports_iff.mpr ⟨i, mem_imports_iff.mpr hi, ?_⟩).1
    rw [importEdge?, hresolve]
  · intro e he hshows
    obtain ⟨i', -, hedge⟩ := mem_edges_imports_iff.mp ⟨he, hshows.relationship⟩
    obtain ⟨t, ht, rfl⟩ := exists_of_importEdge? hedge
    -- the edge tells the file and the specifier, and so what is meant
    have hown := isImportOf_importEdge i' t
    have hfile : i'.file = i.file := file_injective (hown.source.symm.trans hshows.source)
    have hspecifier : i'.module = i.module := by
      have heq := hown.specifier.symm.trans hshows.specifier
      rw [Option.some.injEq, Json.string.injEq] at heq
      exact heq
    rw [resolveImport_congr _ _ _ hfile hspecifier, hresolve] at ht
    cases ht
    exact hid

/-- A file with a path that a fact tells of is in the graph. -/
theorem hasKind_file_of_fact (config : Config) {batches : List Batch} {f : FileFact}
    (hf : f ∈ (batches.flatMap (·.facts)).filterMap Inputs.file?) (hpath : f.path ≠ "") :
    HasKind (ofBatches config batches).1 (.file f.path) .file := by
  rw [← facts_merged] at hf
  refine hasKind_file_iff.mpr (mem_sourcePaths.mpr ?_)
  rw [ExtTreeMap.mem_iff_isSome_getElem?, getElem?_addSources, List.isSome_find?,
    List.any_eq_true]
  refine ⟨fileNode config (Inputs.gather (batches.foldl Batch.merge {})).entryPaths f,
    List.mem_append_left _ (List.mem_flatMap.mpr ⟨f, List.mem_mergeSort.mpr hf, ?_⟩),
    decide_eq_true rfl⟩
  rw [fileProposals, if_neg hpath]
  exact List.mem_singleton_self _

/-- Some files, and an import by the file `lib/x.py` or `x.py`. -/
def importing (files : List String) (importer module : String) : Batch :=
  ⟨files.map (fun path => .file { path }) ++ [.import { file := importer, module }], [], []⟩

/-- A sibling in a directory, and a file below that comes first. -/
theorem sibling_imports_lib :
    let batches : List Batch :=
      [importing ["lib/a/s.py", "lib/s.py", "lib/x.py"] "lib/x.py" "./s"]
    let i : ImportFact := { file := "lib/x.py", module := "./s" }
    let s := (ofBatches {} batches).1
    i ∈ (batches.flatMap (·.facts)).filterMap Inputs.import? ∧
      HasKind s (.file "lib/x.py") .file ∧ HasKind s (.file "lib/s.py") .file ∧
      "lib/s.py" ≠ "lib/x.py" ∧ Path.parent "lib/s.py" = Path.parent "lib/x.py" ∧
      "./s" = "./" ++ Path.stem "lib/s.py" ∧ Specifier.Plain (Path.stem "lib/s.py") ∧
      ∃ target, Near s "lib/x.py" (Path.stem "lib/s.py") target ∧
        (∀ path, Near s "lib/x.py" (Path.stem "lib/s.py") path →
          (compare (NodeId.file target) (NodeId.file path)).isLE) ∧
        (∃ e ∈ s.edges, IsImportOf "lib/x.py" "./s" e) ∧
        ∀ e ∈ s.edges, IsImportOf "lib/x.py" "./s" e → e.target = .file target := by
  intro batches i s
  have hi : i ∈ (batches.flatMap (·.facts)).filterMap Inputs.import? := by decide +kernel
  have hfile : ∀ path ∈ ["lib/s.py", "lib/x.py"], HasKind s (.file path) .file := by
    have hmem : ∀ path ∈ ["lib/s.py", "lib/x.py"], path ≠ "" ∧
        ({ path } : FileFact) ∈ (batches.flatMap (·.facts)).filterMap Inputs.file? := by
      decide +kernel
    intro path hpath
    exact hasKind_file_of_fact {} (hmem path hpath).2 (hmem path hpath).1
  have hplain : Specifier.Plain (Path.stem "lib/s.py") := by
    have hlast : (Path.stem "lib/s.py").toList.getLast? = some 's' := by decide +kernel
    refine ⟨?_, by decide +kernel, by decide +kernel⟩
    intro c hc
    rw [hlast, Option.mem_some_iff] at hc
    rw [← hc]
    decide
  have himporter := hfile "lib/x.py" (by decide)
  have hsibling := hfile "lib/s.py" (by decide)
  have hparent : Path.parent "lib/s.py" = Path.parent "lib/x.py" := by decide +kernel
  have hmodule : "./s" = "./" ++ Path.stem "lib/s.py" := by decide +kernel
  exact ⟨hi, himporter, hsibling, by decide, hparent, hmodule, hplain,
    sibling_imports rfl hi himporter hsibling (by decide) hparent hmodule hplain⟩

/-! ## Siblings that are missed -/

/-- A node is a sibling of a file with some stem: a file with this stem in the same
    directory, or the directory of that name there, or its index file. -/
def IsSibling (importer stem : String) (id : NodeId) : Prop :=
  (∃ path, id = .file path ∧ Path.parent path = Path.parent importer ∧ Path.stem path = stem) ∨
    ∃ directory, Path.parent directory = Path.parent importer ∧
      Path.fileName directory = stem ∧ (id = .directory directory ∨
        ∃ path, id = .file path ∧ Path.parent path = directory ∧
          Path.stem path ∈ Module.packageStems)

theorem not_isSibling_file {importer stem path : String}
    (hparent : Path.parent path ≠ Path.parent importer)
    (hname : Path.fileName (Path.parent path) ≠ stem) : ¬IsSibling importer stem (.file path) := by
  rintro (⟨p, hid, hp, -⟩ | ⟨directory, -, hd, hid | ⟨p, hid, rfl, -⟩⟩)
  · rw [← file_injective hid] at hp
    exact hparent hp
  · exact ne_of_tag (tag_file path) (tag_directory directory) nofun hid
  · rw [← file_injective hid] at hd
    exact hname hd

theorem not_isSibling_dependency {importer stem package : String} :
    ¬IsSibling importer stem (.dependency package) := by
  rintro (⟨p, hid, -⟩ | ⟨directory, -, -, hid | ⟨p, hid, -⟩⟩)
  · exact ne_of_tag (tag_dependency package) (tag_file p) nofun hid
  · exact ne_of_tag (tag_dependency package) (tag_directory directory) nofun hid
  · exact ne_of_tag (tag_dependency package) (tag_file p) nofun hid

/-- Of some files, one beside `x.py` that `x.py` does not find by a relative import. -/
def Misses (files : List String) (sibling : String) : Prop :=
  let s := (ofBatches {} [importing files "x.py" ("./" ++ Path.stem sibling)]).1
  "x.py" ∈ files ∧ sibling ∈ files ∧ sibling ≠ "x.py" ∧
    Path.parent sibling = Path.parent "x.py" ∧
    ¬∃ e ∈ s.edges, IsImportOf "x.py" ("./" ++ Path.stem sibling) e ∧
      IsSibling "x.py" (Path.stem sibling) e.target

/-- A file is missed if all imports lead elsewhere. -/
theorem misses_of {files : List String} {sibling : String}
    (hsibling : "x.py" ∈ files ∧ sibling ∈ files ∧ sibling ≠ "x.py" ∧
      Path.parent sibling = Path.parent "x.py")
    (hordered : InOrder (Inputs.listed (importing files "x.py" ("./" ++ Path.stem sibling))))
    {target : NodeId} (htarget : ¬IsSibling "x.py" (Path.stem sibling) target)
    (hall : ∀ e ∈ ((run {} (Inputs.listed (importing files "x.py"
      ("./" ++ Path.stem sibling)))).1.edgesByRelationship .imports), e.target = target) :
    Misses files sibling := by
  obtain ⟨himporter, hin, hne, hparent⟩ := hsibling
  refine ⟨himporter, hin, hne, hparent, ?_⟩
  rintro ⟨e, he, hshows, hfound⟩
  have hsound := kept_sound.construct {}
    (Inputs.gather (importing files "x.py" ("./" ++ Path.stem sibling)))
  have hmem : e ∈ (construct {} (Inputs.gather (importing files "x.py"
      ("./" ++ Path.stem sibling)))).store.edgesByRelationship .imports := by
    rw [hsound.edgesByRelationship_eq]
    exact List.mem_filter.mpr ⟨Array.mem_toList_iff.mpr he, decide_eq_true hshows.relationship⟩
  rw [gather_of_inOrder hordered] at hmem
  rw [hall e hmem] at hfound
  exact htarget hfound

/-- A relative import misses a sibling at the top of the repository if another file with
    its stem comes first, if the stem has a dot in it or a blank at its end, or if it is a
    relative marker. -/
theorem siblings_missed :
    Misses ["b/s.py", "s.py", "x.py"] "s.py" ∧ Misses ["a.test.ts", "x.py"] "a.test.ts" ∧
      Misses ["s .py", "x.py"] "s .py" ∧ Misses ["self.py", "x.py"] "self.py" := by
  refine ⟨?_, ?_, ?_, ?_⟩
  · have htarget : ¬IsSibling "x.py" (Path.stem "s.py") (.file "b/s.py") :=
      not_isSibling_file (by decide +kernel) (by decide +kernel)
    exact misses_of (by decide +kernel) (by decide +kernel) htarget (by decide +kernel)
  · have htarget : ¬IsSibling "x.py" (Path.stem "a.test.ts") (.dependency "a") :=
      not_isSibling_dependency
    exact misses_of (by decide +kernel) (by decide +kernel) htarget (by decide +kernel)
  · have htarget : ¬IsSibling "x.py" (Path.stem "s .py") (.dependency "s") :=
      not_isSibling_dependency
    exact misses_of (by decide +kernel) (by decide +kernel) htarget (by decide +kernel)
  · -- nothing is left of the specifier, so nothing is imported
    have htarget : ¬IsSibling "x.py" (Path.stem "self.py") (.dependency "") :=
      not_isSibling_dependency
    exact misses_of (by decide +kernel) (by decide +kernel) htarget (by decide +kernel)

end CodeGraph.Build

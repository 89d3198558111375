import CodeGraph.Proofs.Build.Directories
import CodeGraph.Proofs.Build.Order
import CodeGraph.Proofs.Module.NormalForm
/-! # Paths — what the paths of a graph name once more

    Facts give paths in any spelling, and a build takes them in normal form.  A path of the
    graph that comes back in a fact is normalized again.

    * The path of a file is the normal form of a path that a fact tells
      (`exists_told_of_file`), the path of a directory lies above such a one.
    * So a path of the graph names what it names there unless it has `./` in front, or
      belongs to a directory and has a slash at its end (`paths_normalize_again`). -/

namespace CodeGraph.Build

open Std

/-- The path of the file that a fact tells of. -/
def toldPath? : Fact → Option String
  | .file f => some f.path
  | .definition d => some d.file
  | _ => none

/-- The path of a file of the graph is not empty and is the normal form of one that is told. -/
theorem exists_told_of_file (config : Config) (b : Batch) {path : String}
    (h : HasKind (construct config (Inputs.gather b)).store (.file path) .file) :
    path ≠ "" ∧ ∃ raw ∈ b.facts.filterMap toldPath?, path = Path.normalize raw := by
  refine ⟨?_, ?_⟩
  · rintro rfl
    obtain ⟨n, hn, -⟩ := h
    exact pathless_not_mem _ _ (ExtTreeMap.getElem?_eq_some_iff.mp hn).1
  · rcases mem_addSources_file (mem_sourcePaths.mp (hasKind_file_iff.mp h)) with
      ⟨f, hf, rfl⟩ | ⟨f, hf, -, rfl⟩
    · obtain ⟨fact, hin, hfact⟩ := List.mem_filterMap.mp (List.mem_mergeSort.mp hf)
      cases fact with
      | file g =>
          obtain rfl := Option.some.inj hfact
          exact ⟨g.path, List.mem_filterMap.mpr ⟨_, hin, rfl⟩, rfl⟩
      | _ => cases hfact
    · obtain ⟨fact, hin, hfact⟩ := List.mem_filterMap.mp (List.mem_mergeSort.mp hf)
      cases fact with
      | definition g =>
          obtain rfl := Option.some.inj hfact
          exact ⟨g.file, List.mem_filterMap.mpr ⟨_, hin, rfl⟩, rfl⟩
      | _ => cases hfact

/-- A directory above a trimmed path is left alone unless it has `./` in front or a slash at
    its end. -/
theorem normalize_eq_self_of_mem_ancestors {path q : String} (h : Path.Trimmed path)
    (hq : q ∈ Path.ancestors path) :
    Path.normalize q = q ↔ ¬ Path.Dotted q ∧ q.toList.getLast? ≠ some '/' := by
  obtain ⟨rest, rfl⟩ := Path.mem_ancestors.mp hq
  obtain ⟨hbackslash, hfirst, -⟩ := h
  rw [Path.toList_below] at hbackslash hfirst
  have hown : '\\' ∉ q.toList := fun hin => hbackslash (List.mem_append_left _ hin)
  have hfront : q.toList.head? ≠ some '/' := by
    intro hslash
    rw [List.head?_append, hslash] at hfirst
    exact hfirst rfl
  rw [Path.normalize_eq_self_iff]
  exact ⟨fun ⟨htrimmed, hdotted⟩ => ⟨hdotted, htrimmed.last⟩,
    fun ⟨hdotted, hlast⟩ => ⟨⟨hown, hfront, hlast⟩, hdotted⟩⟩

/-- **Normalizing again names the same file unless slashes kept a `./` from the front.**  What is
    normalized has no backslash and no slash at its ends, but it may have `./` in front, and
    is changed again exactly then.  So it is with the paths of files in a graph; those of
    directories may have a slash at their ends besides. -/
theorem paths_normalize_again (config : Config) (batches : List Batch) :
    (∀ path, Path.Trimmed (Path.normalize path) ∧
        (Path.Dotted (Path.normalize path) ↔ Path.Stranded path) ∧
        (Path.normalize (Path.normalize path) = Path.normalize path ↔ ¬ Path.Stranded path)) ∧
      ∀ v q, Located (ofBatches config batches).1 v q →
        (v = .file q ∧ (NodeId.file (Path.normalize q) = v ↔ ¬ Path.Dotted q) ∧
          ∃ raw ∈ (batches.flatMap (·.facts)).filterMap toldPath?, q = Path.normalize raw) ∨
        (v = .directory q ∧ (NodeId.directory (Path.normalize q) = v ↔
          ¬ Path.Dotted q ∧ q.toList.getLast? ≠ some '/')) := by
  refine ⟨?_, ?_⟩
  · intro path
    refine ⟨Path.trimmed_normalize path, Path.dotted_normalize_iff, ?_⟩
    rw [Path.normalize_normalize_iff, Path.dotted_normalize_iff]
  intro v q hlocated
  rw [← facts_merged]
  have hlabelled :=
    (built_construct config (Inputs.gather (batches.foldl Batch.merge {}))).labelled
  rcases hlabelled.located_iff.mp hlocated with ⟨rfl, hfile⟩ | ⟨rfl, hdirectory⟩
  · obtain ⟨-, raw, hraw, rfl⟩ := exists_told_of_file config _ hfile
    refine Or.inl ⟨rfl, ?_, raw, hraw, rfl⟩
    rw [← Path.normalize_normalize_iff]
    exact ⟨file_injective, congrArg NodeId.file⟩
  · obtain ⟨path, hpath, hq⟩ := hasKind_directory_iff.mp hdirectory
    obtain ⟨-, raw, -, rfl⟩ := exists_told_of_file config _ (hasKind_file_iff.mpr hpath)
    refine Or.inr ⟨rfl, ?_⟩
    rw [← normalize_eq_self_of_mem_ancestors (Path.trimmed_normalize raw) hq]
    exact ⟨directory_injective, congrArg NodeId.directory⟩

/-- A file behind a `./` that slashes keep from the front, and a manifest that names the file
    by the path that it has in the graph. -/
def stranding : Batch :=
  ⟨[.file { path := ".//./a.py" }, .manifest { entryPoints := ["./a.py"] }], [], []⟩

/-- The file has the path `./a.py`, and normalizing this names another file. -/
theorem paths_normalize_again_stranding :
    Located (ofBatches {} [stranding]).1 (.file "./a.py") "./a.py" ∧ Path.Dotted "./a.py" ∧
      NodeId.file (Path.normalize "./a.py") ≠ .file "./a.py" := by
  have hnode : ((ofBatches {} [stranding]).1.nodes[NodeId.file "./a.py"]?.map fun n =>
      (n.kind, n.text? Attribute.path)) = some (.file, some "./a.py") := by decide +kernel
  obtain ⟨n, hn, hfields⟩ := Option.map_eq_some_iff.mp hnode
  obtain ⟨hkind, htext⟩ := Prod.mk.inj hfields
  have hlocated : Located (ofBatches {} [stranding]).1 (.file "./a.py") "./a.py" :=
    ⟨n, hn, Or.inl hkind, htext⟩
  have hdotted : Path.Dotted "./a.py" := ⟨"a.py".toList, by decide⟩
  refine ⟨hlocated, hdotted, ?_⟩
  rcases (paths_normalize_again {} [stranding]).2 _ _ hlocated with ⟨-, hagain, -⟩ | ⟨hid, -⟩
  · exact fun hsame => hagain.mp hsame hdotted
  · exact absurd hid (by decide)

/-- Normalizing `.//./a.py` leaves `./` in front, and normalizing again takes it off.  So the
    manifest does not mark the file that it names. -/
theorem stranding_misses_entry :
    Path.normalize ".//./a.py" = "./a.py" ∧
      Path.normalize (Path.normalize ".//./a.py") = "a.py" ∧
      ((ofBatches {} [stranding]).1.nodes[NodeId.file "./a.py"]?.map fun n =>
        (n.text? Attribute.path, n.isEntryPoint)) = some (some "./a.py", false) := by
  decide +kernel

end CodeGraph.Build

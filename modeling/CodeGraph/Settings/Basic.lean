import CodeGraph.Build.Inputs
import CodeGraph.Files.Basic
import CodeGraph.Impact.Analysis
import CodeGraph.Json.Record
import CodeGraph.Retrieval.Query
/-! # Settings — what a user can configure

    The settings by section, what they mean for building and for queries, and
    when they are refused.

    * Every setting has a default, and a record may leave out what it does not
      change.
    * Settings under which no query could ever find anything are refused. -/

namespace CodeGraph

namespace Settings

/-- The budgets of walks. -/
structure Traversal where
  maxNodes : Nat := Walk.defaultBudget
  /-- In milliseconds; zero sets no limit. -/
  timeoutMs : Nat := 2000
deriving DecidableEq, Repr

/-- The limits of impact analysis. -/
structure Impact where
  maxDepth : Nat := 5
  transitiveThreshold : Nat := 15
  affectedCap : Nat := 500
deriving DecidableEq, Repr

/-- The dimension of the hashing embedder. -/
def defaultDimension : Nat := 256

/-- The limits of retrieval. -/
structure Retrieval where
  topK : Nat := 10
  bfsDepth : Nat := 2
  dfsDepth : Nat := Walk.defaultDepth
  maxNodes : Nat := 200
  embeddingDimension : Nat := defaultDimension
deriving DecidableEq, Repr

/-- Where data is kept. -/
structure Storage where
  dataDir : String := ".repograph"
  snapshotFile : String := "graph.json"
deriving DecidableEq, Repr

end Settings

/-- All settings. -/
structure Settings where
  builder : Build.Config := {}
  traversal : Settings.Traversal := {}
  impact : Settings.Impact := {}
  retrieval : Settings.Retrieval := {}
  storage : Settings.Storage := {}

namespace Settings

/-! ## What settings mean -/

/-- The time that a walk may take, in milliseconds. -/
def Traversal.timeout? (t : Traversal) : Option Nat :=
  if 0 < t.timeoutMs then some t.timeoutMs else none

/-- The limits of an impact analysis. -/
def impactLimits (s : Settings) (watch : Walk.Watch) : CodeGraph.Impact.Limits where
  maxDepth := s.impact.maxDepth
  maxNodes := s.traversal.maxNodes
  transitiveThreshold := s.impact.transitiveThreshold
  affectedCap := s.impact.affectedCap
  watch := watch

/-- The limits of a retrieval. -/
def retrievalLimits (s : Settings) (watch : Walk.Watch) : CodeGraph.Retrieval.Limits where
  topK := s.retrieval.topK
  bfsDepth := s.retrieval.bfsDepth
  dfsDepth := s.retrieval.dfsDepth
  maxNodes := s.retrieval.maxNodes
  watch := watch

/-- Where the snapshot is kept. -/
def Storage.snapshotPath (s : Storage) : String := Files.joinPath s.dataDir s.snapshotFile

/-! ## Refusal -/

/-- A setting that must not be zero. -/
inductive Degenerate where
  | maxNodes
  | topK
  | embeddingDimension
deriving DecidableEq, Repr

/-- The name of a setting that must not be zero. -/
def Degenerate.setting : Degenerate → String
  | .maxNodes => "traversal.max_nodes"
  | .topK => "retrieval.top_k"
  | .embeddingDimension => "retrieval.embedding_dimension"

/-- The wording of a refusal. -/
def Degenerate.message (d : Degenerate) : String :=
  "Invalid configuration: " ++ d.setting ++ " must be greater than zero"

/-- The first setting that is zero and must not be. -/
def degenerate? (s : Settings) : Option Degenerate :=
  if s.traversal.maxNodes = 0 then some .maxNodes
  else if s.retrieval.topK = 0 then some .topK
  else if s.retrieval.embeddingDimension = 0 then some .embeddingDimension
  else none

/-! ## Reading a record -/

open Json

/-- A way to take the declared fields off a record. -/
abbrev FieldReader := List String → Json → Option (List (Option Json))

/-- The declared fields of a record, where items behind the last field of an
    array are ignored. -/
def leadingFields? : FieldReader := fun names v =>
  match v with
  | .array items => record? names (.array (items.take names.length))
  | v => record? names v

/-- Texts by key. -/
def aliases? (v : Json) : Option Aliases :=
  v.asObject?.bind fun fields =>
    (fields.mapM fun (f : String × Json) => f.2.asString?.map fun s => (f.1, s)).map
      (Std.ExtTreeMap.ofList ·)

/-- Reads the section on building. -/
def builder? (fields : FieldReader) (v : Json) : Option Build.Config :=
  let d : Build.Config := {}
  match fields ["entry_point_names", "aliases"] v with
  | some [names, aliases] => do
      return {
        entryPointNames := ← orElse d.entryPointNames (list? asString?) names
        aliases := ← orElse d.aliases aliases? aliases }
  | _ => none

/-- Reads the section on walks. -/
def traversal? (fields : FieldReader) (v : Json) : Option Traversal :=
  let d : Traversal := {}
  match fields ["max_nodes", "timeout_ms"] v with
  | some [maxNodes, timeoutMs] => do
      return {
        maxNodes := ← orElse d.maxNodes asNat? maxNodes
        timeoutMs := ← orElse d.timeoutMs asNat? timeoutMs }
  | _ => none

/-- Reads the section on impact analysis. -/
def impact? (fields : FieldReader) (v : Json) : Option Impact :=
  let d : Impact := {}
  match fields ["max_depth", "transitive_threshold", "affected_cap"] v with
  | some [maxDepth, threshold, cap] => do
      return {
        maxDepth := ← orElse d.maxDepth asNat? maxDepth
        transitiveThreshold := ← orElse d.transitiveThreshold asNat? threshold
        affectedCap := ← orElse d.affectedCap asNat? cap }
  | _ => none

/-- Reads the section on retrieval. -/
def retrieval? (fields : FieldReader) (v : Json) : Option Retrieval :=
  let d : Retrieval := {}
  let names := ["top_k", "bfs_depth", "dfs_depth", "max_nodes", "embedding_dimension"]
  match fields names v with
  | some [topK, bfsDepth, dfsDepth, maxNodes, dimension] => do
      return {
        topK := ← orElse d.topK asNat? topK
        bfsDepth := ← orElse d.bfsDepth asNat? bfsDepth
        dfsDepth := ← orElse d.dfsDepth asNat? dfsDepth
        maxNodes := ← orElse d.maxNodes asNat? maxNodes
        embeddingDimension := ← orElse d.embeddingDimension asNat? dimension }
  | _ => none

/-- Reads the section on storage. -/
def storage? (fields : FieldReader) (v : Json) : Option Storage :=
  let d : Storage := {}
  match fields ["data_dir", "snapshot_file"] v with
  | some [dataDir, snapshotFile] => do
      return {
        dataDir := ← orElse d.dataDir asString? dataDir
        snapshotFile := ← orElse d.snapshotFile asString? snapshotFile }
  | _ => none

/-- Reads all settings. -/
def ofJson? (fields : FieldReader) (v : Json) : Option Settings :=
  match fields ["builder", "traversal", "impact", "retrieval", "storage"] v with
  | some [builder, traversal, impact, retrieval, storage] => do
      return {
        builder := ← orElse {} (builder? fields) builder
        traversal := ← orElse {} (traversal? fields) traversal
        impact := ← orElse {} (impact? fields) impact
        retrieval := ← orElse {} (retrieval? fields) retrieval
        storage := ← orElse {} (storage? fields) storage }
  | _ => none

/-! ## Writing a record -/

/-- All settings by section. -/
def sections (s : Settings) : List (String × List (String × Json)) :=
  [("builder",
    [("entry_point_names", ofStrings s.builder.entryPointNames),
     ("aliases", .object (s.builder.aliases.toList.map fun a => (a.1, .string a.2)))]),
   ("traversal",
    [("max_nodes", .ofNat s.traversal.maxNodes),
     ("timeout_ms", .ofNat s.traversal.timeoutMs)]),
   ("impact",
    [("max_depth", .ofNat s.impact.maxDepth),
     ("transitive_threshold", .ofNat s.impact.transitiveThreshold),
     ("affected_cap", .ofNat s.impact.affectedCap)]),
   ("retrieval",
    [("top_k", .ofNat s.retrieval.topK), ("bfs_depth", .ofNat s.retrieval.bfsDepth),
     ("dfs_depth", .ofNat s.retrieval.dfsDepth),
     ("max_nodes", .ofNat s.retrieval.maxNodes),
     ("embedding_dimension", .ofNat s.retrieval.embeddingDimension)]),
   ("storage",
    [("data_dir", .string s.storage.dataDir),
     ("snapshot_file", .string s.storage.snapshotFile)])]

/-- All settings as a value. -/
def toJson (s : Settings) : Json := .object (s.sections.map fun p => (p.1, .object p.2))

end Settings

end CodeGraph

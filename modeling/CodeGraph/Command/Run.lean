import CodeGraph.Build.Construction
import CodeGraph.Command.Arguments
import CodeGraph.Exclude.Survey
import CodeGraph.Export
import CodeGraph.Fact.Stream
import CodeGraph.Graph.Statistics
import CodeGraph.Impact.Dependencies
import CodeGraph.Retrieval.Query
import CodeGraph.Session
/-! # Commands — what the program does for a command line

    Each command loads the settings, and then builds a graph and saves it, asks
    a question of the saved graph, or writes a file of settings.

    * What is outside the program comes in through `Surroundings`: files, the
      environment, the clock and fresh identifiers.
    * A command prints a value or a text, or it fails with a message; a command
      line that asks for nothing sensible is misused. -/

namespace CodeGraph.Command

/-- What is outside the program. -/
structure Surroundings (m : Type → Type) where
  files : Files m
  environment : Environment
  now : m Moment
  freshId : m Uuid

/-- What a command prints. -/
inductive Output where
  | value (v : Json)
  | text (s : String)

/-- What a command prints. -/
structure Success where
  output : Output
  /-- What it says beside its output. -/
  note : String := ""

/-- Why a command did nothing. -/
structure Failure where
  message : String
  cause : Option String := none
deriving DecidableEq, Repr

/-- How a command ended. -/
inductive Outcome where
  | done (s : Success)
  | failed (f : Failure)
  | misused

/-- The exit code of a command. -/
def Outcome.exitCode : Outcome → UInt8
  | .done _ => 0
  | .failed _ => 1
  | .misused => 2

/-- A value to print. -/
def printed (v : Json) : Success := { output := .value v }

section

variable {m : Type → Type} [Monad m]

/-- An operation that may fail, as part of a command. -/
def orFail {ε α : Type} (describe : ε → Failure) (op : m (Except ε α)) :
    ExceptT Failure m α :=
  ExceptT.mk do return (← op).mapError describe

/-- Ends a command with a message. -/
def fail {α : Type} (message : String) : ExceptT Failure m α := throw { message }

/-! ## The graph in use -/

/-- The settings that a command goes by. -/
def settings (sys : Surroundings m) (config : Option String) :
    ExceptT Failure m Settings :=
  match config with
  | some path =>
      orFail (fun e => { message := "Failed to load config from " ++ path
                         cause := some e.message })
        (Settings.ofFile sys.files path sys.environment)
  | none => orFail (fun e => { message := e.message })
      (Settings.load sys.files sys.environment)

/-- The graph that was saved at a path. -/
def savedGraph (sys : Surroundings m) (path : String) :
    ExceptT Failure m FrozenGraph := do
  if ← sys.files.present path then
    return (← orFail (fun e => { message := "Failed to load snapshot " ++ path
                                 cause := some e.message })
      (Session.open? sys.files path)).current
  else
    fail ("No graph snapshot at " ++ path ++ ". Run `repograph build` first.")

/-- The node with the given identifier, or the only one with the given name. -/
def findTarget (s : Store) (target : String) : Except Failure NodeId :=
  if s.contains ⟨target⟩ then .ok ⟨target⟩
  else
    match s.findByName target with
    | [] => .error { message := "No node with id or name '" ++ target ++ "'" }
    | [node] => .ok node.id
    | nodes => .error
        { message := "'" ++ target ++ "' is ambiguous; use one of:\n  "
            ++ Text.join "\n  " (nodes.map (·.id.text)) }

/-! ## Building -/

/-- The extensions of fact files. -/
def factExtensions : List String := ["jsonl", "ndjson"]

/-- Whether a path is that of a fact file. -/
def isFactFile (path : String) : Bool :=
  (Files.extension? path).any factExtensions.contains

/-- A list without the items that are equal, in some order, to the item before
    them. -/
def dropEqual {α : Type} (order : α → α → Ordering) : List α → List α
  | [] => []
  | a :: rest => a :: (dropEqual order rest).dropWhile fun b => order a b = .eq

/-- The fact files to be read: those that are named, and those below a directory
    that no rule leaves out. -/
def sources (sys : Surroundings m) (files : List String) (factsDir : Option String) :
    m (List String) := do
  let found ← match factsDir with
    | some directory => Exclude.filesBelow sys.files sys.environment directory
    | none => pure []
  let paths := files ++ found.filter isFactFile
  return dropEqual Files.comparePaths
    (paths.mergeSort fun a b => (Files.comparePaths a b).isLE)

/-- Reads a fact file. -/
def readSource (sys : Surroundings m) (path : String) : ExceptT Failure m Batch := do
  let stream : FactStream := match ← sys.files.read path with
    | .ok bytes => ⟨path, bytes.toList, none⟩
    | .error reason => ⟨path, [], some reason⟩
  match stream.read with
  | .ok batch => return batch
  | .error e => fail e.message

/-- Builds a graph, embeds and saves it. -/
def build (sys : Surroundings m) (s : Settings) (snapshot : String)
    (paths : List String) : ExceptT Failure m Success := do
  if paths.isEmpty then fail "No fact files given. Pass files or --facts-dir."
  let batches ← paths.mapM (readSource sys)
  let id ← sys.freshId
  let started ← sys.now
  let (store, report) := Build.ofBatches s.builder batches
  let finished ← sys.now
  let embedder := Retrieval.Hashing.embedder s.retrieval.embeddingDimension
  match Retrieval.attachEmbeddings store embedder with
  | (_, .error e) => fail e.message
  | (store, .ok _) =>
      let info ← orFail (fun e => { message := e.message })
        (Snapshot.save sys.files ⟨id, store⟩ (← sys.now) snapshot)
      let times := [("graph_id", Json.string id.toText),
        ("started_at", .string started.text), ("finished_at", .string finished.text)]
      return {
        output := .value (.object
          [("report", .object (times ++ report.fields)), ("snapshot", info.toJson),
           ("embedding_model",
             .string (embedder.model ++ "/" ++ toString embedder.dimension))])
        note := report.text id.toText }

/-! ## Commands -/

/-- Retrieves with the hashing embedder that fits the graph. -/
def retrieve (s : Settings) (g : FrozenGraph) (query : List String) (k : Option Nat) :
    Json :=
  let dimension := g.store.embeddingDimension.getD Settings.defaultDimension
  (Retrieval.retrieve g.store (s.retrievalLimits .never)
    (some (Retrieval.Hashing.embedder dimension))
    { text := some (Text.join " " query) } k).toJson

/-- A filter; an empty one keeps everything. -/
def filterOf {α : Type} (kept : List α) : Option (List α) :=
  if kept.isEmpty then none else some kept

/-- Writes a file with the default settings. -/
def initConfig (sys : Surroundings m) (force : Bool) : ExceptT Failure m Success := do
  let path := Settings.projectFile
  if (← sys.files.present path) && !force then
    fail (path ++ " already exists (use --force to overwrite)")
  orFail (fun reason => { message := "Failed to write " ++ path, cause := some reason })
    (sys.files.write path (Settings.toText {}).toUTF8)
  return { output := .text ("Wrote " ++ path ++ "\n") }

/-- Does what is asked for. -/
def perform (sys : Surroundings m) (i : Invocation) : ExceptT Failure m Success := do
  let s ← settings sys i.config
  let snapshot := i.snapshot.getD s.storage.snapshotPath
  match i.request with
  | .build files factsDir => do
      let paths ← (sources sys files factsDir : m (List String))
      build sys s snapshot paths
  | .impact target depth =>
      let g ← savedGraph sys snapshot
      let id ← liftExcept (findTarget g.store target)
      match Impact.analyze g.store (s.impactLimits .never) id depth with
      | .ok report => return printed report.toJson
      | .error e => fail e.message
  | .dependencies target depth =>
      let g ← savedGraph sys snapshot
      let id ← liftExcept (findTarget g.store target)
      match Impact.dependencies g.store (s.impactLimits .never) id depth with
      | .ok report => return printed report.toJson
      | .error e => fail e.message
  | .retrieve query k =>
      let g ← savedGraph sys snapshot
      return printed (retrieve s g query k)
  | .draw kinds relationships =>
      let g ← savedGraph sys snapshot
      return printed
        (Export.draw g.store (filterOf kinds) (filterOf relationships)).toJson
  | .statistics =>
      let g ← savedGraph sys snapshot
      return printed g.store.statistics.toJson
  | .initConfig force => initConfig sys force
where
  /-- A failure without effects, as part of a command. -/
  liftExcept {α : Type} (r : Except Failure α) : ExceptT Failure m α :=
    ExceptT.mk (pure r)

/-- Runs a command line. -/
def run (sys : Surroundings m) (words : List String) : m Outcome := do
  match parse? words with
  | none => return .misused
  | some i =>
      match ← (perform sys i).run with
      | .ok s => return .done s
      | .error f => return .failed f

end

end CodeGraph.Command

import CodeGraph.Environment
import CodeGraph.Settings.Basic
import CodeGraph.Toml.Parser
import CodeGraph.Toml.Printer
/-! # Loading settings — files and the environment

    Settings come from one file, and the environment overrides what the file
    says.

    * The file of the project is used if it is there, else that of the user,
      else the defaults.
    * Overrides come before the check, so they can mend settings or spoil
      them. -/

namespace CodeGraph.Settings

/-- Why settings cannot be used. -/
inductive Error where
  /-- The file cannot be read. -/
  | unreadable (reason : String)
  /-- The file does not say settings. -/
  | malformed
  /-- A setting is zero and must not be. -/
  | invalid (cause : Degenerate)
deriving DecidableEq, Repr

/-- The wording of a failure. -/
def Error.message : Error → String
  | .unreadable reason => "Failed to read config file: " ++ reason
  | .malformed => "Failed to parse config file: invalid TOML"
  | .invalid cause => cause.message

/-! ## Overrides -/

/-- A number as variables hold it: digits, perhaps behind a plus sign, of 64
    bits. -/
def readNumber? (s : String) : Option Nat :=
  let ds := match s.toList with
    | '+' :: ds => ds
    | ds => ds
  let n := Text.natOfDigits ds
  if !ds.isEmpty && ds.all Char.isDigit && n < 18446744073709551616 then some n else none

/-- The variables that settings and their files depend on. -/
def variableNames : List String :=
  ["REPOGRAPH_MAX_NODES", "REPOGRAPH_TIMEOUT_MS", "REPOGRAPH_IMPACT_DEPTH",
   "REPOGRAPH_TRANSITIVE_THRESHOLD", "REPOGRAPH_TOP_K", "REPOGRAPH_DATA_DIR",
   "XDG_CONFIG_HOME", "HOME"]

/-- Settings with what the environment says in place of theirs; numbers that
    cannot be read are passed over. -/
def override (s : Settings) (env : Environment) : Settings :=
  let number := fun (key : String) (old : Nat) => ((env key).bind readNumber?).getD old
  { s with
    traversal :=
      { maxNodes := number "REPOGRAPH_MAX_NODES" s.traversal.maxNodes
        timeoutMs := number "REPOGRAPH_TIMEOUT_MS" s.traversal.timeoutMs }
    impact :=
      { s.impact with
        maxDepth := number "REPOGRAPH_IMPACT_DEPTH" s.impact.maxDepth
        transitiveThreshold :=
          number "REPOGRAPH_TRANSITIVE_THRESHOLD" s.impact.transitiveThreshold }
    retrieval :=
      { s.retrieval with topK := number "REPOGRAPH_TOP_K" s.retrieval.topK }
    storage :=
      { s.storage with dataDir := (env "REPOGRAPH_DATA_DIR").getD s.storage.dataDir } }

/-- Settings that can be used. -/
def check (s : Settings) : Except Error Settings :=
  match s.degenerate? with
  | some cause => .error (.invalid cause)
  | none => .ok s

/-! ## Files -/

/-- The settings that the text of a file says. -/
def ofText (text : String) (env : Environment) : Except Error Settings :=
  match (Toml.parse? text).bind (ofJson? leadingFields?) with
  | some s => (s.override env).check
  | none => .error .malformed

/-- The text of a file with all settings. -/
def toText (s : Settings) : String :=
  Toml.render (s.sections.map fun p => (p.1, .object p.2))

/-- The file of a project. -/
def projectFile : String := "repograph.toml"

/-- The file of a user. -/
def userFile? (env : Environment) : Option String :=
  let base := match (env "XDG_CONFIG_HOME").filter Files.isAbsolute with
    | some directory => some directory
    | none => ((env "HOME").filter (· ≠ "")).map (Files.joinPath · ".config")
  base.map fun directory => Files.joinPath directory "repograph/config.toml"

section

variable {m : Type → Type} [Monad m]

/-- Reads the settings in a file. -/
def ofFile (files : Files m) (path : String) (env : Environment) :
    m (Except Error Settings) := do
  match ← files.readText path with
  | .error reason => return .error (.unreadable reason)
  | .ok text => return ofText text env

/-- Loads the settings from where they are. -/
def load (files : Files m) (env : Environment) : m (Except Error Settings) := do
  if ← files.present projectFile then
    ofFile files projectFile env
  else
    match userFile? env with
    | none => return (override {} env).check
    | some path =>
        if ← files.present path then ofFile files path env
        else return (override {} env).check

end

end CodeGraph.Settings

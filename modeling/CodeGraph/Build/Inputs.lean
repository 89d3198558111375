import CodeGraph.Fact.Basic
import CodeGraph.Module.Specifier
/-! # Inputs — facts sorted out for building

    The facts of a batch by type, with their paths in normal form, each list in
    an order of its own.

    * The order in which facts were gathered matters only between facts that
      the sorting does not tell apart.
    * Of the versions that manifests declare for a package, the first one given
      counts. -/

namespace CodeGraph.Build

/-- File names that mark a place where execution starts. -/
def defaultEntryPointNames : List String :=
  ["main.rs", "main.py", "__main__.py", "app.py", "manage.py", "main.go", "index.js",
   "index.ts", "server.js", "server.ts", "Main.java", "Program.cs"]

/-- How a graph is built. -/
structure Config where
  entryPointNames : List String := defaultEntryPointNames
  aliases : Aliases := ∅

/-- The facts for one build. -/
structure Inputs where
  files : List FileFact := []
  definitions : List DefinitionFact := []
  calls : List CallFact := []
  imports : List ImportFact := []
  inherits : List InheritFact := []
  entryPaths : List String := []
  declared : Std.ExtTreeMap String (Option String) := ∅
  failures : List ParseFailure := []
  malformed : List Malformed := []

/-! ## Orders -/

/-- The order of files: by path. -/
def fileOrder : FileFact → FileFact → Ordering := compareOn (·.path)

/-- The order of definitions: by file, qualified name, functions before classes,
    and line. -/
def definitionOrder : DefinitionFact → DefinitionFact → Ordering :=
  compareLex (compareOn (·.file)) <| compareLex (compareOn (·.qualifiedName)) <|
    compareLex (compareOn fun d => (d.kind == .class).toNat) (compareOn (·.lineNumber))

/-- The order of calls: by every field. -/
def callOrder : CallFact → CallFact → Ordering :=
  compareLex (compareOn (·.file)) <| compareLex (compareOn (·.caller)) <|
    compareLex (compareOn (·.callee)) <|
      compareLex (compareOn (·.calleeFile)) (compareOn (·.line))

/-- The order of imports: by every field. -/
def importOrder : ImportFact → ImportFact → Ordering :=
  compareLex (compareOn (·.file)) <| compareLex (compareOn (·.module)) <|
    compareLex (compareOn (·.localName)) (compareOn (·.line))

/-- The order of inheritances: by every field. -/
def inheritOrder : InheritFact → InheritFact → Ordering :=
  compareLex (compareOn (·.file)) <| compareLex (compareOn (·.class)) <|
    compareLex (compareOn (·.base)) (compareOn (·.baseFile))

/-- The order of failures: by path. -/
def failureOrder : ParseFailure → ParseFailure → Ordering := compareOn (·.path)

/-- A list in a given order; what the order does not tell apart stays as it
    stands. -/
def sortBy {α : Type} (cmp : α → α → Ordering) (xs : List α) : List α :=
  xs.mergeSort fun a b => (cmp a b).isLE

/-! ## Gathering -/

namespace Inputs

/-- The file of a fact. -/
def file? : Fact → Option FileFact
  | .file f => some { f with path := Path.normalize f.path }
  | _ => none

/-- The definition of a fact. -/
def definition? : Fact → Option DefinitionFact
  | .definition d => some { d with file := Path.normalize d.file }
  | _ => none

/-- The call of a fact. -/
def call? : Fact → Option CallFact
  | .call c => some { c with
      file := Path.normalize c.file
      calleeFile := c.calleeFile.map Path.normalize }
  | _ => none

/-- The import of a fact. -/
def import? : Fact → Option ImportFact
  | .import i => some { i with file := Path.normalize i.file }
  | _ => none

/-- The inheritance of a fact. -/
def inherit? : Fact → Option InheritFact
  | .inherit i => some { i with
      file := Path.normalize i.file
      baseFile := i.baseFile.map Path.normalize }
  | _ => none

/-- The manifest of a fact. -/
def manifest? : Fact → Option ManifestFact
  | .manifest m => some m
  | _ => none

/-- Adds a declared package; a version that is known stays. -/
def declare (declared : Std.ExtTreeMap String (Option String)) (d : DeclaredDependency) :
    Std.ExtTreeMap String (Option String) :=
  declared.insert d.name ((declared.getD d.name none) <|> d.version)

/-- The inputs that a batch holds. -/
def gather (b : Batch) : Inputs :=
  let manifests := b.facts.filterMap manifest?
  { files := sortBy fileOrder (b.facts.filterMap file?)
    definitions := sortBy definitionOrder (b.facts.filterMap definition?)
    calls := sortBy callOrder (b.facts.filterMap call?)
    imports := sortBy importOrder (b.facts.filterMap import?)
    inherits := sortBy inheritOrder (b.facts.filterMap inherit?)
    entryPaths := (manifests.flatMap (·.entryPoints)).map Path.normalize
    declared := (manifests.flatMap (·.dependencies)).foldl declare ∅
    failures := sortBy failureOrder
      (b.failures.map fun f => { f with path := Path.normalize f.path })
    malformed := b.malformed }

end Inputs

end CodeGraph.Build

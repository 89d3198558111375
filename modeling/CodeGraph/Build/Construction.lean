import CodeGraph.Build.Report
import CodeGraph.Build.Resolution
/-! # Construction — from facts to a graph

    Nodes first: files, definitions, the directories above the files, declared
    packages, and packages that only imports name.  Then the edges, each joined
    only if both its ends are there and its relationship allows their kinds.

    * A definition in a file that no fact reports makes the file known,
      marked as implicit.
    * Of two facts for one node the first counts, and the other is reported.
    * Every reference that is not resolved is counted as a dropped edge. -/

namespace CodeGraph.Build

/-- A graph under construction. -/
structure Draft where
  store : Store := {}
  diagnostics : Array Diagnostic := #[]
  dropped : Nat := 0

namespace Draft

/-- Records a diagnostic. -/
def note (d : Draft) (x : Diagnostic) : Draft :=
  { d with diagnostics := d.diagnostics.push x }

/-- Records a diagnostic of an edge that is left out. -/
def drop (d : Draft) (x : Diagnostic) : Draft :=
  { d.note x with dropped := d.dropped + 1 }

/-- Adds a node, or records why not. -/
def insertNode (d : Draft) (id : NodeId) (kind : NodeKind) (attributes : Attributes) :
    Draft :=
  match d.store.addNode id kind attributes with
  | .ok s => { d with store := s }
  | .error e => d.note (.ofGraphError e)

/-- Adds a node unless it is there. -/
def ensureNode (d : Draft) (id : NodeId) (kind : NodeKind) (attributes : Attributes) :
    Draft :=
  if d.store.contains id then d else d.insertNode id kind attributes

/-- Sets an attribute, or records why not. -/
def enrich (d : Draft) (id : NodeId) (key : String) (value : Json) : Draft :=
  match d.store.enrich id key value with
  | .ok s => { d with store := s }
  | .error e => d.note (.ofGraphError e)

/-- Joins two nodes, or records why not. -/
def connect (d : Draft) (e : Edge) : Draft :=
  match d.store.nodes[e.source]?, d.store.nodes[e.target]? with
  | some a, some b =>
      if e.relationship.allows a.kind b.kind then add else
        d.drop (.invalidEdge e.source a.kind e.target b.kind e.relationship)
  | _, _ => add
where
  /-- Adds an edge whose relationship allows its ends. -/
  add : Draft :=
    match d.store.addEdge e with
    | .ok s => { d with store := s }
    | .error x => d.drop (.ofGraphError x)

end Draft

/-! ## Files -/

/-- The language of an extension. -/
def languageOf? : String → Option String
  | "rs" => some "rust"
  | "py" => some "python"
  | "js" | "jsx" | "mjs" | "cjs" => some "javascript"
  | "ts" | "tsx" => some "typescript"
  | "go" => some "go"
  | "java" => some "java"
  | "cs" => some "csharp"
  | "rb" => some "ruby"
  | "c" | "h" => some "c"
  | "cpp" | "cc" | "hpp" => some "cpp"
  | _ => none

/-- Sets an attribute if there is a value for it. -/
def setOptional (a : Attributes) (key : String) (value : Option Json) : Attributes :=
  match value with
  | some v => a.insert key v
  | none => a

/-- Whether execution starts in a file: by its name, or by a manifest. -/
def isEntryPath (config : Config) (entryPaths : List String) (path : String) : Bool :=
  config.entryPointNames.contains (Path.fileName path) || entryPaths.contains path

/-- The attributes that follow from the path of a file. -/
def fileAttributes (config : Config) (entryPaths : List String) (path : String) :
    Attributes :=
  let a := Attributes.ofFields
    [(Attribute.path, .string path), (Attribute.name, .string (Path.fileName path)),
     (Attribute.extension, .string (Path.extension path))]
  let language := (languageOf? (Path.extension path)).map Json.string
  (setOptional a Attribute.language language).insert
    Attribute.isEntryPoint (.bool (isEntryPath config entryPaths path))

/-- Adds the file of a fact; a file without a path is none. -/
def addFile (config : Config) (entryPaths : List String) (d : Draft) (f : FileFact) :
    Draft :=
  if f.path = "" then d
  else
    let a := fileAttributes config entryPaths f.path
    let a := setOptional a Attribute.language (f.language.map .string)
    let a := setOptional a Attribute.size (f.size.map .ofUInt64)
    d.insertNode (.file f.path) .file a

/-! ## Definitions -/

/-- The kind of node that a definition is. -/
def nodeKindOf : DefinitionKind → NodeKind
  | .function => .function
  | .class => .class

/-- The node of a definition. -/
def nodeIdOf (f : DefinitionFact) : NodeId :=
  definitionId (nodeKindOf f.kind) f.file f.qualifiedName

/-- The attributes of a definition. -/
def definitionAttributes (f : DefinitionFact) : Attributes :=
  let a := Attributes.ofFields
    [(Attribute.name, .string f.name), (Attribute.qualifiedName, .string f.qualifiedName),
     (Attribute.definingFile, .string f.file),
     (Attribute.parameters, .ofStrings f.parameters)]
  let a := setOptional a Attribute.lineNumber (f.lineNumber.map .ofUInt32)
  let a := setOptional a Attribute.returnType (f.returnType.map .string)
  let a := setOptional a Attribute.parentClass (f.parentClass.map .string)
  let a := setOptional a Attribute.signature (f.signature.map .string)
  setOptional a Attribute.doc (f.doc.map .string)

/-- Whether a definition says where it is and what it is called. -/
def isNamed (f : DefinitionFact) : Bool := f.file ≠ "" && f.name ≠ ""

/-- The edge from a file to a definition in it. -/
def definesEdge (f : DefinitionFact) : Edge where
  source := .file f.file
  target := nodeIdOf f
  relationship := .defines

/-- Adds a definition, and its edge to those that are to be joined if it is
    new. -/
def addDefinition (config : Config) (entryPaths : List String) (p : Draft × Array Edge)
    (f : DefinitionFact) : Draft × Array Edge :=
  let (d, edges) := p
  if isNamed f then
    let d := d.ensureNode (.file f.file) .file
      ((fileAttributes config entryPaths f.file).insert Attribute.implicit (.bool true))
    let isNew := !d.store.contains (nodeIdOf f)
    (d.insertNode (nodeIdOf f) (nodeKindOf f.kind)
        (definitionAttributes f),
      if isNew then edges.push (definesEdge f) else edges)
  else
    (d.note (.malformedFact
      ⟨f.file, (f.lineNumber.getD 0).toNat, .namelessDefinition⟩), edges)

/-! ## Directories -/

/-- The directories above a file and the file itself, as pairs of a directory
    and what it contains. -/
def containment (path : String) : List (NodeId × NodeId) :=
  let above := (Path.ancestors path).reverse.map NodeId.directory
  above.zip (NodeId.file path :: above)

/-- The order of pairs. -/
def pairLe (a b : NodeId × NodeId) : Bool :=
  ((compare a.1 b.1).then (compare a.2 b.2)).isLE

/-- The paths of all files, ascending. -/
def filePaths (s : Store) : List String :=
  (s.nodesByKind .file).filterMap fun n => n.text? Attribute.path

/-- The edges from directories to what they contain. -/
def containsEdges (paths : List String) : List Edge :=
  (Store.dropRepeats ((paths.flatMap containment).mergeSort pairLe)).map fun p =>
    { source := p.1, target := p.2, relationship := .contains }

/-- Adds a directory unless it is there. -/
def addDirectory (d : Draft) (path : String) : Draft :=
  d.ensureNode (.directory path) .directory
    (.ofFields
      [(Attribute.path, .string path), (Attribute.name, .string (Path.fileName path))])

/-! ## Packages and imports -/

/-- Adds a package unless it is there. -/
def addPackage (declared : Std.ExtTreeMap String (Option String)) (d : Draft)
    (package : String) : Draft :=
  d.ensureNode (.dependency package) .dependency
    (.ofFields
      [(Attribute.name, .string package),
       (Attribute.version, .ofOption .string (declared.getD package none)),
       (Attribute.isExternal, .bool true)])

/-- Imports while they are resolved. -/
structure ImportPhase where
  draft : Draft
  edges : Array Edge := #[]
  imported : Imported := ∅

/-- Takes an import that was resolved into account. -/
def ImportPhase.add (declared : Std.ExtTreeMap String (Option String)) (p : ImportPhase)
    (i : ImportFact) : Except Diagnostic ImportTarget → ImportPhase
  | .error x => { p with draft := p.draft.drop x }
  | .ok target =>
      { draft := match target with
          | .outside package => addPackage declared p.draft package
          | .inside _ => p.draft
        edges := p.edges.push (importEdge i target)
        imported := p.imported.note i target }

/-- Resolves every import in turn. -/
def resolveImports (config : Config) (inputs : Inputs) (d : Draft) : ImportPhase :=
  let index := moduleIndex d.store
  inputs.imports.foldl (fun p i =>
    p.add inputs.declared i (resolveImport d.store index config.aliases i)) { draft := d }

/-! ## Failures -/

/-- The first failure of each path, for failures in the order of their paths. -/
def firstFailures : List ParseFailure → List ParseFailure
  | [] => []
  | f :: rest => f :: firstFailures (rest.dropWhile fun g => g.path = f.path)
termination_by fs => fs.length
decreasing_by
  have := (List.dropWhile_sublist (fun g : ParseFailure => g.path = f.path)
    (l := rest)).length_le
  simp only [List.length_cons]
  omega

/-- Marks the file of a failure, if it is known. -/
def markFailure (d : Draft) (f : ParseFailure) : Draft :=
  if d.store.contains (.file f.path) then
    d.enrich (.file f.path) Attribute.parseFailed (.bool true)
  else d

/-! ## References -/

/-- References while they are resolved: the draft, the edges to be joined, and
    how many calls of each function are unresolved. -/
structure ReferencePhase where
  draft : Draft
  edges : Array Edge := #[]
  unresolved : Std.ExtTreeMap NodeId Nat := ∅

/-- Takes a call that was resolved into account. -/
def ReferencePhase.addCall (p : ReferencePhase) (c : CallFact) :
    CallOutcome → ReferencePhase
  | .edge e => { p with edges := p.edges.push e }
  | .noCaller =>
      { p with draft := p.draft.drop (.unresolvedReference .caller c.file c.caller) }
  | .noCallee caller =>
      { p with
        draft := p.draft.drop (.unresolvedReference .call c.file c.callee)
        unresolved := p.unresolved.alter caller fun n => some (n.getD 0 + 1) }

/-- Takes an inheritance that was resolved into account. -/
def ReferencePhase.addInherit (p : ReferencePhase) :
    Except Diagnostic Edge → ReferencePhase
  | .ok e => { p with edges := p.edges.push e }
  | .error x => { p with draft := p.draft.drop x }

/-- Resolves every call and then every inheritance. -/
def resolveReferences (inputs : Inputs) (imported : Imported) (d : Draft) :
    ReferencePhase :=
  let p := inputs.calls.foldl (fun (p : ReferencePhase) c =>
    p.addCall c (resolveCall d.store imported c)) { draft := d }
  inputs.inherits.foldl (fun (p : ReferencePhase) i =>
    p.addInherit (resolveInherit d.store imported i)) p

/-! ## The build -/

/-- The draft with files and definitions, and the edges between them. -/
def addSources (config : Config) (inputs : Inputs) : Draft × Array Edge :=
  let start : Draft :=
    { diagnostics := (inputs.malformed.map Diagnostic.malformedFact).toArray }
  let d := inputs.files.foldl (addFile config inputs.entryPaths) start
  inputs.definitions.foldl (addDefinition config inputs.entryPaths) (d, #[])

/-- The draft with all its nodes, the edges known by then, and the imports. -/
def addNodes (config : Config) (inputs : Inputs) : Draft × List Edge × Imported :=
  let (d, defines) := addSources config inputs
  let paths := filePaths d.store
  let d := (paths.flatMap Path.ancestors).foldl addDirectory d
  let d := inputs.declared.keys.foldl (addPackage inputs.declared) d
  let p := resolveImports config inputs d
  let d := (firstFailures inputs.failures).foldl markFailure p.draft
  (d, containsEdges paths ++ defines.toList ++ p.edges.toList, p.imported)

/-- The finished draft. -/
def construct (config : Config) (inputs : Inputs) : Draft :=
  let (d, edges, imported) := addNodes config inputs
  let p := resolveReferences inputs imported (edges.foldl Draft.connect d)
  let d := p.edges.foldl Draft.connect p.draft
  p.unresolved.toList.foldl (fun d u =>
    d.enrich u.1 Attribute.unresolvedCalls (.ofNat u.2)) d

/-- Builds a graph from inputs. -/
def run (config : Config) (inputs : Inputs) : Store × Report :=
  let d := construct config inputs
  let skipped := firstFailures inputs.failures
  (d.store,
    { nodesCreated := d.store.nodeCount
      edgesCreated := d.store.edgeCount
      edgesDropped := d.dropped
      filesSkipped := skipped.length
      fileErrors := skipped
      diagnostics := d.diagnostics.toList })

/-- Builds a graph from batches of facts. -/
def ofBatches (config : Config) (batches : List Batch) : Store × Report :=
  run config (Inputs.gather (batches.foldl Batch.merge {}))

end CodeGraph.Build

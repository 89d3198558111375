import CodeGraph.Build.Diagnostic
import CodeGraph.Build.Inputs
import CodeGraph.Graph.Store
import CodeGraph.Module.Index
/-! # Resolution — which nodes the references of facts mean

    Imports, calls and inheritances name things as source code does.  Here they
    are matched with the nodes of a store that holds all files and
    definitions.

    * An import means a module of the repository, or else a package.
    * A caller is looked for in the file of the call alone.
    * A callee is looked for everywhere and chosen by `rank`: the file that the
      fact gives, then the calling file, then the files it imports, then all
      others; and among these by qualified name, nearness and identifier. -/

namespace CodeGraph.Build

/-- The paths of modules that files import. -/
abbrev Imported := Std.ExtTreeMap String (List String)

/-! ## Imports -/

/-- What an import means. -/
inductive ImportTarget where
  /-- A module of the repository. -/
  | inside (m : Module)
  /-- A package from outside. -/
  | outside (package : String)
deriving DecidableEq, Repr

/-- The modules of a store: its files, then its directories. -/
def moduleIndex (s : Store) : ModuleIndex :=
  let paths := fun kind =>
    (s.nodesByKind kind).filterMap fun n => n.text? Attribute.path
  (paths .directory).foldl ModuleIndex.addDirectory
    ((paths .file).foldl ModuleIndex.addFile {})

/-- What an import means, or why it means nothing. -/
def resolveImport (s : Store) (index : ModuleIndex) (aliases : Aliases)
    (i : ImportFact) : Except Diagnostic ImportTarget :=
  if s.contains (.file i.file) then
    match index.resolve? i.file (Specifier.segments i.module aliases) with
    | some m => .ok (.inside m)
    | none =>
        match Specifier.package? i.module with
        | some package => .ok (.outside package)
        | none => .error (.unresolvedReference .import i.file i.module)
  else .error (.missingNode (.file i.file))

/-- The node that an import means. -/
def ImportTarget.id : ImportTarget → NodeId
  | .inside m => m.id
  | .outside package => .dependency package

/-- The edge of an import. -/
def importEdge (i : ImportFact) (target : ImportTarget) : Edge where
  source := .file i.file
  target := target.id
  relationship := .imports
  attributes :=
    let a : Attributes := {(Attribute.specifier, .string i.module)}
    let a := match i.localName with
      | some name => a.insert Attribute.localName (.string name)
      | none => a
    match i.line with
      | some line => a.insert Attribute.line (.ofUInt32 line)
      | none => a

/-- The paths that a module of the repository makes known to the file that
    imports it: its own, and its directory if it stands for that. -/
def ImportTarget.paths : ImportTarget → List String
  | .inside m =>
      (if m.isFile && Module.packageStems.contains (Path.stem m.path)
        then [Path.parent m.path] else []) ++ [m.path]
  | .outside _ => []

/-- Notes what a file imports. -/
def Imported.note (imported : Imported) (i : ImportFact) (target : ImportTarget) :
    Imported :=
  match target with
  | .inside _ => imported.alter i.file fun ps => some (ps.getD [] ++ target.paths)
  | .outside _ => imported

/-- Whether a path is, or lies below, one that a file imports. -/
def Imported.covers (imported : Imported) (importer path : String) : Bool :=
  (imported.getD importer []).any fun p =>
    path = p ||
      match Text.stripPrefix? p.toList path.toList with
      -- the top of the repository covers nothing but itself
      | some rest => p ≠ "" && rest.head? = some '/'
      | none => false

/-! ## Definitions -/

/-- The identifier of a definition. -/
def definitionId (kind : NodeKind) (file name : String) : NodeId :=
  match kind with
  | .class => .class file name
  | _ => .function file name

/-- The definition that a name means inside its own file: the one with exactly
    this qualified name, or else the first with its last word as name. -/
def localDefinition? (s : Store) (file name : String) (kind : NodeKind) :
    Option NodeId :=
  if s.contains (definitionId kind file name) then some (definitionId kind file name)
  else
    ((s.findByName (Callee.last name)).find? fun n =>
      n.kind = kind && n.filePath? = some file).map (·.id)

/-- Whether a dotted name is the qualified name of a node or ends with it. -/
def qualifiedMatch (n : Node) (dotted : String) : Bool :=
  match n.text? Attribute.qualifiedName with
  | some q =>
      q = dotted ||
        (q.toList.isSuffixOf dotted.toList &&
          (dotted.toList.take (dotted.length - q.length)).getLast? = some '.')
  | none => false

/-- How near a node is to a directory. -/
def proximity (n : Node) (directory : String) : Nat :=
  match n.filePath? with
  | some path => Path.nearness (Path.parent path) directory
  | none => 0

/-- A reference to a definition. -/
structure Reference where
  name : String
  kind : NodeKind
  fromFile : String
  /-- The file that defines it, if the fact says so. -/
  hint : Option String := none
  /-- A definition that is not meant. -/
  exclude : Option NodeId := none
deriving DecidableEq, Repr

/-- How good the file of a node is for a reference; the smallest is best. -/
def tier (imported : Imported) (r : Reference) (n : Node) : Nat :=
  match n.filePath? with
  | some path =>
      if r.hint = some path then 0
      else if path = r.fromFile then 1
      else if imported.covers r.fromFile path then 2
      else 3
  | none => 3

/-- What decides between two candidates for a reference; the smallest is
    taken. -/
def rank (imported : Imported) (r : Reference) (a b : Node) : Ordering :=
  let dotted := Callee.dotted r.name
  let directory := Path.parent r.fromFile
  -- a match and a nearer file come first, so these two are compared the other way round
  (((compare (tier imported r a) (tier imported r b)).then
    (compare (qualifiedMatch b dotted).toNat (qualifiedMatch a dotted).toNat)).then
    (compare (proximity b directory) (proximity a directory))).then (compare a.id b.id)

/-- The nodes that a reference may mean. -/
def candidates (s : Store) (r : Reference) : List Node :=
  (s.findByName (Callee.last r.name)).filter fun n =>
    n.kind = r.kind && some n.id ≠ r.exclude

/-- The smallest of some nodes in the order of a reference, the first of equal
    ones. -/
def best? (imported : Imported) (r : Reference) (ns : List Node) : Option Node :=
  ns.foldl (fun best n => match best with
    | some b => if rank imported r b n = .gt then some n else some b
    | none => some n) none

/-- The definition that a reference means. -/
def pickDefinition? (s : Store) (imported : Imported) (r : Reference) : Option NodeId :=
  (best? imported r (candidates s r)).map (·.id)

/-! ## Calls and inheritances -/

/-- What a call leads to. -/
inductive CallOutcome where
  | edge (e : Edge)
  /-- The function around the call is unknown. -/
  | noCaller
  /-- The called function is unknown. -/
  | noCallee (caller : NodeId)
deriving DecidableEq

/-- The edge of a call. -/
def callEdge (c : CallFact) (caller callee : NodeId) : Edge where
  source := caller
  target := callee
  relationship := .calls
  attributes := match c.line with
    | some line => {(Attribute.line, .ofUInt32 line)}
    | none => ∅

/-- The reference of a call to its callee. -/
def calleeReference (c : CallFact) : Reference where
  name := c.callee
  kind := .function
  fromFile := c.file
  hint := c.calleeFile

/-- What a call leads to. -/
def resolveCall (s : Store) (imported : Imported) (c : CallFact) : CallOutcome :=
  match localDefinition? s c.file c.caller .function with
  | none => .noCaller
  | some caller =>
      match pickDefinition? s imported (calleeReference c) with
      | some callee => .edge (callEdge c caller callee)
      | none => .noCallee caller

/-- The reference of an inheritance to its base. -/
def baseReference (i : InheritFact) (cls : NodeId) : Reference where
  name := i.base
  kind := .class
  fromFile := i.file
  hint := i.baseFile
  exclude := some cls

/-- The edge of an inheritance, or why there is none. -/
def resolveInherit (s : Store) (imported : Imported) (i : InheritFact) :
    Except Diagnostic Edge :=
  match localDefinition? s i.file i.class .class with
  | none => .error (.unresolvedReference .inherit i.file i.class)
  | some cls =>
      match pickDefinition? s imported (baseReference i cls) with
      | some base => .ok { source := cls, target := base, relationship := .inherits }
      | none => .error (.unresolvedReference .inherit i.file i.base)

end CodeGraph.Build

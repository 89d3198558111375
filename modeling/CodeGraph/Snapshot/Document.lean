import CodeGraph.Digest.Sha256
import CodeGraph.Graph.Frozen
import CodeGraph.Graph.Record
import CodeGraph.Json.Printer
import CodeGraph.Json.Shape
import CodeGraph.Moment
/-! # Snapshots — a finished graph as a document

    A graph is written as one line of JSON that says its format, the identifier
    of the graph, when it was made, a checksum, and the nodes and edges.

    * The checksum is the digest of the nodes and edges as they are written, so
      what is read can be checked by writing it again.
    * The format version is looked at before anything else.
    * A document may say more than is asked for, and that is not looked at.
    * A graph is rebuilt by the operations of the store, so a document cannot
      bring about a store that those operations would refuse. -/

namespace CodeGraph.Snapshot

open Json

/-- Why a snapshot cannot be saved or loaded. -/
inductive Error where
  /-- The file system failed, for a reason of its own. -/
  | io (path reason : String)
  /-- The document is not JSON, or not a snapshot. -/
  | json
  /-- The document has a format of another version. -/
  | unsupportedVersion (found : UInt32)
  /-- The checksum in the document is not that of its nodes and edges. -/
  | checksumMismatch (path expected actual : String)
  /-- The nodes and edges do not make a graph. -/
  | graph (cause : GraphError)
deriving DecidableEq, Repr

/-- The version of the format. -/
def formatVersion : UInt32 := 1

/-- The wording of a failure. -/
def Error.message : Error → String
  | .io path reason => "IO error at " ++ path ++ ": " ++ reason
  | .json => "JSON serialization error: invalid JSON"
  | .unsupportedVersion found =>
      "Unsupported snapshot format version " ++ toString found.toNat ++ " (expected "
        ++ toString formatVersion.toNat ++ ")"
  | .checksumMismatch path expected actual =>
      "Snapshot checksum mismatch at " ++ path ++ ": expected " ++ expected ++ ", found "
        ++ actual
  | .graph cause => "Snapshot does not describe a valid graph: " ++ cause.message

/-- What a document says. -/
structure Document where
  graphId : Uuid
  createdAt : Moment
  checksum : String
  nodes : List Node
  edges : List Edge

/-! ## Writing -/

/-- The part of a document that is sealed. -/
def body (nodes : List Node) (edges : List Edge) : List (String × Json) :=
  [("nodes", .array (nodes.map Node.toJson)), ("edges", .array (edges.map Edge.toJson))]

/-- The checksum of nodes and edges. -/
def checksum (nodes : List Node) (edges : List Edge) : String :=
  Sha256.hex (Sha256.digest (Json.object (body nodes edges)).render.toUTF8.toList)

/-- A document as a value. -/
def Document.toJson (d : Document) : Json :=
  .object
    ([("format_version", ofUInt32 formatVersion), ("graph_id", .string d.graphId.toText),
      ("created_at", .string d.createdAt.text), ("checksum", .string d.checksum)]
      ++ body d.nodes d.edges)

/-- The document of a graph. -/
def Document.ofGraph (g : FrozenGraph) (createdAt : Moment) : Document where
  graphId := g.id
  createdAt := createdAt
  checksum := Snapshot.checksum g.store.nodeList g.store.edges.toList
  nodes := g.store.nodeList
  edges := g.store.edges.toList

/-- The text of a document. -/
def Document.render (d : Document) : String := d.toJson.render

/-! ## Reading -/

/-- What is looked at to know the format. -/
def versionShape : Shape := .ofNames ["format_version"]

/-- What is looked at in a document whose format is known. -/
def documentShape : Shape :=
  .record
    [("format_version", .whole), ("graph_id", .whole), ("created_at", .whole),
     ("checksum", .whole), ("nodes", .items (.ofNames Node.fieldNames)),
     ("edges", .items (.ofNames Edge.fieldNames))]

/-- Reads the version of the format, and nothing else. -/
def readVersion? (v : Json) : Option UInt32 :=
  match v.record? ["format_version"] with
  | some [version] => required asUInt32? version
  | _ => none

/-- Reads a document whose format is known. -/
def Document.ofJson? (v : Json) : Option Document :=
  match v.record? ["format_version", "graph_id", "created_at", "checksum", "nodes",
      "edges"] with
  | some [_, graphId, createdAt, checksum, nodes, edges] => do
      return {
        graphId := ← required (fun v => v.asString?.bind Uuid.ofText?) graphId
        createdAt := ← required (fun v => v.asString?.bind Moment.ofText?) createdAt
        checksum := ← required asString? checksum
        nodes := ← required (list? Node.ofJson?) nodes
        edges := ← required (list? Edge.ofJson?) edges }
  | _ => none

/-- Reads a document. -/
def Document.parse (text : String) : Except Error Document :=
  match (parseAs? versionShape text.toList).bind readVersion? with
  | none => .error .json
  | some version =>
      if version = formatVersion then
        match (parseAs? documentShape text.toList).bind Document.ofJson? with
        | some d => .ok d
        | none => .error .json
      else .error (.unsupportedVersion version)

/-! ## Rebuilding -/

/-- Adds a node with its embedding. -/
def restoreNode (s : Store) (n : Node) : Except GraphError Store := do
  let s ← s.addNode n.id n.kind n.attributes
  match n.embedding with
  | some v => s.attachEmbedding n.id v
  | none => return s

/-- The store with the given nodes and edges, added in turn. -/
def restore (nodes : List Node) (edges : List Edge) : Except GraphError Store := do
  let s ← nodes.foldlM restoreNode {}
  edges.foldlM Store.addEdge s

/-- The graph of a document found at a path. -/
def Document.graph (d : Document) (path : String) : Except Error FrozenGraph :=
  let actual := Snapshot.checksum d.nodes d.edges
  if actual ≠ d.checksum then .error (.checksumMismatch path d.checksum actual)
  else
    match restore d.nodes d.edges with
    | .ok s => .ok ⟨d.graphId, s⟩
    | .error e => .error (.graph e)

/-- The graph that the text of a snapshot at a path describes. -/
def read (path text : String) : Except Error FrozenGraph := do
  (← Document.parse text).graph path

end CodeGraph.Snapshot

import CodeGraph.Graph.Node
import CodeGraph.Json.Record
/-! # Records — nodes and edges as values

    How a node and an edge are written as values, and how they are read.

    * A node is written without an embedding if it has none, an edge without
      attributes if it has none.
    * Reading takes a missing `attributes` field for no attributes; of
      repeated keys in it the last counts.
    * Numbers of an embedding are read at single precision.
    * Fields of other names are not looked at. -/

namespace CodeGraph

open Json

/-! ## Writing -/

/-- Attributes as a value. -/
def Attributes.toJson (a : Attributes) : Json := .object a.toList

/-- An embedding as a value. -/
def Embedding.toJson (v : Embedding) : Json :=
  .array (v.toList.map fun x => .number (.single x))

/-- A node as a value. -/
def Node.toJson (n : Node) : Json :=
  .object
    ([("id", .string n.id.text), ("kind", .string n.kind.name),
      ("attributes", Attributes.toJson n.attributes)]
      ++ (match n.embedding with
        | some v => [("embedding", Embedding.toJson v)]
        | none => []))

/-- An edge as a value. -/
def Edge.toJson (e : Edge) : Json :=
  .object
    ([("source", .string e.source.text), ("target", .string e.target.text),
      ("relationship", .string e.relationship.name)]
      ++ (if e.attributes.isEmpty then []
        else [("attributes", Attributes.toJson e.attributes)]))

/-! ## Reading -/

/-- A number at single precision. -/
def Embedding.single : Number → Float32
  | .integer n =>
      let x := n.val.natAbs.toUInt64.toFloat32
      if n.val < 0 then -x else x
  | .double x => x.toFloat32
  | .single x => x

/-- Reads a number at single precision. -/
def Embedding.readSingle? : Json → Option Float32
  | .number n => some (Embedding.single n)
  | _ => none

/-- Reads an embedding. -/
def Embedding.ofJson? (v : Json) : Option Embedding :=
  (list? Embedding.readSingle? v).map List.toArray

/-- Reads attributes. -/
def Attributes.ofJson? (v : Json) : Option Attributes :=
  v.asObject?.map fun fields => .ofList (fields.map fun f => (f.1, f.2.canonical))

/-- Reads an identifier. -/
def NodeId.ofJson? (v : Json) : Option NodeId := v.asString?.map NodeId.mk

/-- Reads the name of a kind. -/
def NodeKind.ofJson? (v : Json) : Option NodeKind :=
  (tagName? (fun v => v = .null) v).bind NodeKind.named?

/-- Reads the name of a relationship. -/
def Relationship.ofJson? (v : Json) : Option Relationship :=
  (tagName? (fun v => v = .null) v).bind Relationship.named?

/-- The fields of a node. -/
def Node.fieldNames : List String := ["id", "kind", "attributes", "embedding"]

/-- Reads a node. -/
def Node.ofJson? (v : Json) : Option Node :=
  match v.record? Node.fieldNames with
  | some [id, kind, attributes, embedding] => do
      return {
        id := ← required NodeId.ofJson? id
        kind := ← required NodeKind.ofJson? kind
        attributes := ← orElse ∅ Attributes.ofJson? attributes
        embedding := ← optional Embedding.ofJson? embedding }
  | _ => none

/-- The fields of an edge. -/
def Edge.fieldNames : List String := ["source", "target", "relationship", "attributes"]

/-- Reads an edge. -/
def Edge.ofJson? (v : Json) : Option Edge :=
  match v.record? Edge.fieldNames with
  | some [source, target, relationship, attributes] => do
      return {
        source := ← required NodeId.ofJson? source
        target := ← required NodeId.ofJson? target
        relationship := ← required Relationship.ofJson? relationship
        attributes := ← orElse ∅ Attributes.ofJson? attributes }
  | _ => none

end CodeGraph

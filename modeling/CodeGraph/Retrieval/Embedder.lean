import CodeGraph.Graph.Store
import CodeGraph.Retrieval.Similarity
import CodeGraph.Retrieval.Token
/-! # Embedders — from text to vectors

    An embedder turns a batch of texts into vectors; `attachEmbeddings` gives
    every node of a store the vector of its own text.

    * The hashing embedder counts tokens in buckets and scales the counts to
      length one; it needs no model.
    * Nodes are embedded in batches, identifiers ascending.  A fault stops the
      work where it is; what was attached before stays. -/

namespace CodeGraph.Retrieval

/-- Why embedding stopped. -/
inductive EmbeddingError where
  /-- The embedder gave up. -/
  | failed (reason : String)
  /-- The embedder gave more or fewer vectors than there were texts. -/
  | countMismatch (expected actual : Nat)
  /-- The store refused a vector. -/
  | graph (error : GraphError)
deriving DecidableEq, Repr

/-- The wording of a fault. -/
def EmbeddingError.message : EmbeddingError → String
  | .failed reason => "Embedding failed: " ++ reason
  | .countMismatch expected actual =>
      "Embedder returned " ++ toString actual ++ " vectors for " ++ toString expected
        ++ " texts"
  | .graph error => "Graph error: " ++ error.message

/-- A way to turn texts into vectors. -/
structure Embedder where
  model : String
  dimension : Nat
  embed : List String → Except EmbeddingError (List Embedding)

/-! ## Feature hashing -/

namespace Hashing

/-- The hash of a token: each byte is added to 33 times the hash before it, in
    32 bits. -/
def hash (token : String) : UInt32 :=
  token.toUTF8.toList.foldl (fun h b => h * 33 + b.toUInt32) 5381

/-- How often each bucket is hit. -/
def counts (dimension : Nat) (tokens : List String) : Array Float32 :=
  tokens.foldl (fun v t => v.modify ((hash t).toNat % dimension) (· + 1))
    (Array.replicate dimension 0)

/-- The vector of a text. -/
def vector (dimension : Nat) (text : String) : Embedding :=
  let v := counts dimension (tokenize text)
  let n := norm v
  if n > 0 then v.map (· / n) else v

/-- The embedder with a number of buckets, at least one. -/
def embedder (dimension : Nat) : Embedder where
  model := "hashing-djb2"
  dimension := max dimension 1
  embed texts := .ok (texts.map (vector (max dimension 1)))

end Hashing

/-! ## Embedding a store -/

/-- The text that stands for a node. -/
def nodeText (n : Node) : String :=
  " ".intercalate ([n.kind.name, n.name] ++
    [Attribute.qualifiedName, Attribute.path, Attribute.definingFile, Attribute.signature,
      Attribute.doc].filterMap n.text?)

/-- The number of texts given to an embedder at a time. -/
def batchSize : Nat := 64

/-- Attaches vectors to nodes in turn, until one is refused. -/
def attachAll (s : Store) : List (NodeId × Embedding) → Store × Except EmbeddingError Unit
  | [] => (s, .ok ())
  | (id, v) :: rest =>
      match s.attachEmbedding id v with
      | .ok s' => attachAll s' rest
      | .error e => (s, .error (.graph e))

/-- Embeds nodes with their texts, a batch at a time. -/
def attachBatches (embedder : Embedder) (s : Store) :
    List (NodeId × String) → Store × Except EmbeddingError Unit
  | [] => (s, .ok ())
  | item :: items =>
      let batch := (item :: items).take batchSize
      match embedder.embed (batch.map (·.2)) with
      | .error e => (s, .error e)
      | .ok vectors =>
          if vectors.length ≠ batch.length then
            (s, .error (.countMismatch batch.length vectors.length))
          else
            -- vectors that were attached before an error stay
            match attachAll s ((batch.map (·.1)).zip vectors) with
            | (s', .error e) => (s', .error e)
            | (s', .ok ()) => attachBatches embedder s' ((item :: items).drop batchSize)
termination_by items => items.length
decreasing_by
  simp only [List.length_drop, List.length_cons, batchSize]
  omega

/-- Embeds every node of a store.  The answer is the store that results, with
    the number of its nodes or the fault that stopped the work. -/
def attachEmbeddings (s : Store) (embedder : Embedder) :
    Store × Except EmbeddingError Nat :=
  let items := s.nodeList.map fun n => (n.id, nodeText n)
  match attachBatches embedder s items with
  | (s', .ok ()) => (s', .ok items.length)
  | (s', .error e) => (s', .error e)

end CodeGraph.Retrieval

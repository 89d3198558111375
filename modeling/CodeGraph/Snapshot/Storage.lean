import CodeGraph.Files.Basic
import CodeGraph.Snapshot.Document
/-! # Stored snapshots — documents in files

    Saving and loading a graph.

    * Missing directories are made first.
    * A document is written beside its place and then moved there, so whoever
      reads sees a whole document or none. -/

namespace CodeGraph.Snapshot

/-- What was saved. -/
structure Info where
  path : String
  graphId : Uuid
  checksum : String
  nodes : Nat
  edges : Nat
deriving DecidableEq, Repr

/-- What was saved, as a value. -/
def Info.toJson (i : Info) : Json :=
  .object
    [("path", .string i.path), ("graph_id", .string i.graphId.toText),
     ("checksum", .string i.checksum), ("nodes", .ofNat i.nodes),
     ("edges", .ofNat i.edges)]

/-- Where a document is written before it is moved to its place. -/
def temporaryPath (path : String) : String := path ++ ".tmp"

section

variable {m : Type → Type} [Monad m]

/-- Makes the directory of a path if there is none. -/
def prepare (files : Files m) (path : String) : m (Except Error Unit) := do
  match Files.parent? path with
  | none | some "" => return .ok ()
  | some directory =>
      if ← files.present directory then return .ok ()
      match ← files.makeDirectories directory with
      | .ok () => return .ok ()
      | .error reason => return .error (.io directory reason)

/-- Saves a graph. -/
def save (files : Files m) (g : FrozenGraph) (createdAt : Moment) (path : String) :
    m (Except Error Info) := do
  match ← prepare files path with
  | .error e => return .error e
  | .ok () =>
      -- written beside its place and then moved there, so that it is never half there
      let document := Document.ofGraph g createdAt
      match ← files.write (temporaryPath path) document.render.toUTF8 with
      | .error reason => return .error (.io (temporaryPath path) reason)
      | .ok () =>
          match ← files.move (temporaryPath path) path with
          | .error reason => return .error (.io path reason)
          | .ok () =>
              return .ok
                { path := path
                  graphId := document.graphId
                  checksum := document.checksum
                  nodes := document.nodes.length
                  edges := document.edges.length }

/-- Loads a graph. -/
def load (files : Files m) (path : String) : m (Except Error FrozenGraph) := do
  match ← files.readText path with
  | .error reason => return .error (.io path reason)
  | .ok text => return read path text

end

end CodeGraph.Snapshot

import CodeGraph.Snapshot.Storage
/-! # Sessions — the current graph of a repository

    A session holds the graph that questions are asked of.  A graph that is
    rebuilt takes the place of the current one as a whole; whoever still holds
    the old one keeps it. -/

namespace CodeGraph

/-- A session. -/
structure Session where
  current : FrozenGraph

namespace Session

/-- The identifier of the current graph. -/
def graphId (s : Session) : Uuid := s.current.id

/-- Puts a graph in the place of the current one, which is given back. -/
def replace (s : Session) (g : FrozenGraph) : FrozenGraph × Session := (s.current, ⟨g⟩)

section

variable {m : Type → Type} [Monad m]

/-- Opens a session with a saved graph. -/
def open? (files : Files m) (path : String) : m (Except Snapshot.Error Session) := do
  return (← Snapshot.load files path).map Session.mk

/-- Saves the current graph. -/
def save (s : Session) (files : Files m) (createdAt : Moment) (path : String) :
    m (Except Snapshot.Error Snapshot.Info) :=
  Snapshot.save files s.current createdAt path

end

end Session

end CodeGraph

import CodeGraph.Graph.Store
import CodeGraph.Uuid
/-! # Frozen graphs — finished stores with an identifier

    A graph that is no longer changed.  Its identifier tells one build from
    another and stays the same when the graph is saved and loaded. -/

namespace CodeGraph

/-- A finished graph. -/
structure FrozenGraph where
  id : Uuid
  store : Store
deriving DecidableEq

end CodeGraph

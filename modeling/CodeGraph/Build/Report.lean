import CodeGraph.Build.Diagnostic
/-! # Build reports — the outcome of one build

    How much was built, how much was left out, and why. -/

namespace CodeGraph.Build

/-- The outcome of a build. -/
structure Report where
  nodesCreated : Nat := 0
  edgesCreated : Nat := 0
  /-- Edges and references that were left out. -/
  edgesDropped : Nat := 0
  filesSkipped : Nat := 0
  /-- The files that parsers could not process. -/
  fileErrors : List ParseFailure := []
  diagnostics : List Diagnostic := []
deriving DecidableEq, Repr

namespace Report

/-- The number of references that could not be resolved. -/
def unresolvedReferences (r : Report) : Nat :=
  r.diagnostics.countP Diagnostic.isUnresolved

/-- Whether nothing went wrong. -/
def isClean (r : Report) : Bool := r.diagnostics.isEmpty && r.fileErrors.isEmpty

/-- The report on a graph as text. -/
def text (graph : String) (r : Report) : String :=
  "Graph " ++ graph ++ "\n"
    ++ "  Nodes:         " ++ toString r.nodesCreated ++ "\n"
    ++ "  Edges:         " ++ toString r.edgesCreated ++ "\n"
    ++ "  Edges dropped: " ++ toString r.edgesDropped ++ "\n"
    ++ "  Files skipped: " ++ toString r.filesSkipped ++ "\n"
    ++ (if r.diagnostics.isEmpty then ""
      else "  Diagnostics:   " ++ toString r.diagnostics.length ++ "\n"
        ++ "    Unresolved:  " ++ toString r.unresolvedReferences ++ "\n")

/-- The fields of a report. -/
def fields (r : Report) : List (String × Json) :=
  [("nodes_created", .ofNat r.nodesCreated), ("edges_created", .ofNat r.edgesCreated),
   ("edges_dropped", .ofNat r.edgesDropped), ("files_skipped", .ofNat r.filesSkipped),
   ("file_errors", .array (r.fileErrors.map fun f =>
     .object [("path", .string f.path), ("error", .string f.error)])),
   ("diagnostics", .array (r.diagnostics.map (·.toJson)))]

end Report

end CodeGraph.Build

import CodeGraph.Graph.Node
import CodeGraph.Module.Specifier
/-! # The module index — which file or directory an import means

    Modules are found by the last of their segments, and then compared in
    full.

    * A module answers if its segments end with all the segments asked for, so
      `react-dom/client` never means `src/api/client.ts`.
    * Of several, the one nearest to the importing file is meant, then a file
      rather than a directory, then the smaller identifier.
    * If none answers, the last segment may be an item inside a module, and
      the rest is asked for once more. -/

namespace CodeGraph

/-- A file or a directory that can be imported. -/
structure Module where
  id : NodeId
  path : String
  segments : List String
  isFile : Bool
deriving DecidableEq, Repr

namespace Module

/-- The stems of files that also stand for the directory they are in. -/
def packageStems : List String := ["mod", "index", "__init__"]

/-- The segments of a directory, none at the top of the repository. -/
def directorySegments (path : String) : List String :=
  if path = "" then [] else Path.components path

/-- The modules that a file is: perhaps its directory, and itself. -/
def ofFile (path : String) : List Module :=
  let above := directorySegments (Path.parent path)
  let stem := Path.stem path
  (if packageStems.contains stem && !above.isEmpty
    then [⟨.file path, path, above, true⟩] else [])
    ++ [⟨.file path, path, above ++ [stem], true⟩]

/-- The module that a directory is. -/
def ofDirectory (path : String) : Module :=
  ⟨.directory path, path, Path.components path, false⟩

/-- Whether a module answers to some segments: it has all of them at its end. -/
def answers (m : Module) (segments : List String) : Bool :=
  Path.commonEnd m.segments segments = segments.length

/-- The order of preference seen from a directory: the nearer module is greater,
    then a file, then the smaller identifier. -/
def compareFrom (directory : String) (a b : Module) : Ordering :=
  ((compare (Path.nearness (Path.parent a.path) directory)
      (Path.nearness (Path.parent b.path) directory)).then
    (compare a.isFile.toNat b.isFile.toNat)).then (compare b.id a.id)

/-- The most preferred of some modules, the last of equal ones. -/
def preferred? (directory : String) (ms : List Module) : Option Module :=
  ms.foldl (fun best m => match best with
    | some b => if compareFrom directory b m = .gt then some b else some m
    | none => some m) none

end Module

/-- Modules by the last of their segments, in the order they were added. -/
structure ModuleIndex where
  byLast : Std.ExtTreeMap String (List Module) := ∅

namespace ModuleIndex

/-- Adds a module. -/
def add (index : ModuleIndex) (m : Module) : ModuleIndex :=
  match m.segments.getLast? with
  | some last => ⟨index.byLast.alter last fun ms => some (ms.getD [] ++ [m])⟩
  | none => index

/-- Adds a file. -/
def addFile (index : ModuleIndex) (path : String) : ModuleIndex :=
  (Module.ofFile path).foldl add index

/-- Adds a directory. -/
def addDirectory (index : ModuleIndex) (path : String) : ModuleIndex :=
  index.add (Module.ofDirectory path)

/-- The modules that answer to some segments, in the order they were added. -/
def candidates (index : ModuleIndex) (segments : List String) : List Module :=
  match segments.getLast? with
  | some last => (index.byLast.getD last []).filter fun m => m.answers segments
  | none => []

/-- The module that is meant by exactly these segments. -/
def only? (index : ModuleIndex) (importer : String) (segments : List String) :
    Option Module :=
  Module.preferred? (Path.parent importer)
    ((index.candidates segments).filter fun m => m.id ≠ NodeId.file importer)

/-- The module that a file means by some segments. -/
def resolve? (index : ModuleIndex) (importer : String) (segments : List String) :
    Option Module :=
  match index.only? importer segments with
  | some m => some m
  | none =>
      -- the last segment may be a name inside the module
      if segments.length < 2 then none else index.only? importer segments.dropLast

end ModuleIndex

end CodeGraph

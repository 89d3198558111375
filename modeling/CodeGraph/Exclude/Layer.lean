import CodeGraph.Exclude.Rule
import CodeGraph.Files.Basic
/-! # Layers — the rules of one directory over what is below it

    Every directory may have files of rules, and the rules of a directory hold
    for all that lies below it.

    * There are three kinds: general rules, the shared rules of a repository,
      and the personal ones beside it.  A kind decides only what the kind before
      it leaves open.
    * Within a kind, the nearest directory that decides wins.
    * The rules of a repository count only inside one, and those of directories
      above it do not.
    * Behind all of them stand the rules of the user, and a hidden name is left
      out unless some rule keeps it. -/

namespace CodeGraph.Exclude

/-- The rules of a directory. -/
structure Layer where
  /-- The names on the way from this directory to the one that is looked at. -/
  way : List String
  general : List Rule
  shared : List Rule
  personal : List Rule
  isRepository : Bool

namespace Layer

/-- The layer as seen from a directory inside the one that is looked at. -/
def enter (l : Layer) (name : String) : Layer := { l with way := l.way ++ [name] }

/-- The path to a name in the directory that is looked at. -/
def pathTo (l : Layer) (name : String) : List UInt8 :=
  (Text.join "/" (l.way ++ [name])).toUTF8.toList

end Layer

/-- The layers up to the nearest repository. -/
def upToRepository : List Layer → List Layer
  | [] => []
  | l :: ls => if l.isRepository then [l] else l :: upToRepository ls

/-- What the nearest of some layers decides that decides at all. -/
def nearest? (rules : Layer → List Rule) (layers : List Layer) (name : String)
    (isDirectory : Bool) : Option Verdict :=
  layers.findSome? fun l => verdict? (rules l) (l.pathTo name) isDirectory

/-- What all rules decide about a name in the directory that is looked at; the
    layers are those of that directory and of those above it, nearest first. -/
def decide? (layers : List Layer) (user : List Rule) (path : List UInt8)
    (name : String) (isDirectory : Bool) : Option Verdict :=
  let general := nearest? Layer.general layers name isDirectory
  if layers.any Layer.isRepository then
    let inside := upToRepository layers
    general.or <| (nearest? Layer.shared inside name isDirectory).or <|
      (nearest? Layer.personal inside name isDirectory).or <|
        verdict? user path isDirectory
  else general

/-- Whether a name is left out. -/
def isExcluded (layers : List Layer) (user : List Rule) (path : List UInt8)
    (name : String) (isDirectory : Bool) : Bool :=
  match decide? layers user path name isDirectory with
  | some .kept => false
  | some .excluded => true
  | none => Files.isHidden name

end CodeGraph.Exclude

import CodeGraph.Module.Path
import CodeGraph.Text.Lines
/-! # Files — what the program asks of a file system

    The operations on files as a record, so that the rest of the library does
    not depend on where the files are: on a disk, or in memory.

    * A path is a text with `/` between its components; one that begins with
      `/` is absolute.
    * A failure is the wording that the file system has for it.
    * `joinPath`, `parent?` and the order of paths look at the text alone.
    * A text file is read as lines, as far as they are text. -/

namespace CodeGraph

/-- The operations on files. -/
structure Files (m : Type → Type) where
  /-- Whether there is anything at a path. -/
  present : String → m Bool
  /-- The contents of a file. -/
  read : String → m (Except String ByteArray)
  /-- Makes a directory and those above it that are missing. -/
  makeDirectories : String → m (Except String Unit)
  /-- Writes a file, in place of the one that may be there. -/
  write : String → ByteArray → m (Except String Unit)
  /-- Moves a file, in place of the one that may be there. -/
  move : String → String → m (Except String Unit)
  /-- The names in a directory, each with whether it is that of a directory. -/
  list? : String → m (Option (List (String × Bool)))
  /-- The names on the way from the root to what is at a path. -/
  locate? : String → m (Option (List String))

namespace Files

open Text

/-- The contents of a file as text. -/
def readText {m : Type → Type} [Monad m] (files : Files m) (path : String) :
    m (Except String String) := do
  match ← files.read path with
  | .error reason => return .error reason
  | .ok bytes =>
      match String.fromUTF8? bytes with
      | some s => return .ok s
      | none => return .error "stream did not contain valid UTF-8"

/-- The first lines of some bytes, as long as they are text, each without its
    end. -/
def textLines : List (List UInt8) → List String
  | [] => []
  | line :: rest =>
      match Utf8.decode line with
      | .error _ => []
      | .ok cs => String.ofList (dropLineEnd cs) :: textLines rest

/-- The lines of a file, none if it cannot be read. -/
def readLines {m : Type → Type} [Monad m] (files : Files m) (path : String) :
    m (List String) := do
  match ← files.read path with
  | .error _ => return []
  | .ok bytes => return textLines (lines bytes.toList)

/-! ## Paths -/

/-- A path below a directory.  A path that begins at the root stands alone, and
    no slash is doubled. -/
def joinPath (directory path : String) : String :=
  if path.toList.head? = some '/' then path
  else if directory = "" ∨ directory.toList.getLast? = some '/' then directory ++ path
  else directory ++ "/" ++ path

/-- Whether a path begins at the root. -/
def isAbsolute (path : String) : Bool := path.toList.head? = some '/'

/-- The components of a path that mean something: a dot does so only at the
    very front. -/
def components (path : String) : List String :=
  match split (· = '/') path with
  | [] => []
  | first :: rest =>
      (if first = "" then [] else [first]) ++ rest.filter fun c => c ≠ "" && c ≠ "."

/-- Names without those at their end that mean nothing. -/
def trimNames (names : List String) : List String :=
  (names.reverse.dropWhile fun c => c = "" || c = ".").reverse

/-- The text of the directory that a path lies in, empty for the current one;
    nothing lies above the root.  What is in front of the last name stays as it
    is written. -/
def parent? (path : String) : Option String :=
  match split (· = '/') path with
  | [] => none
  | first :: rest =>
      match trimNames rest with
      | [] => if first = "" then none else some ""
      | names =>
          match trimNames names.dropLast with
          | [] => some (if first = "" then "/" else first)
          | above => some (join "/" (first :: above))

/-- A path and the directories above it, as far as `more` of them. -/
def upwards : (more : Nat) → String → List String
  | 0, path => [path]
  | more + 1, path =>
      match parent? path with
      | none | some "" => [path]
      | some directory => path :: upwards more directory

/-- A path and the directories above it, itself first; the current directory is
    left out. -/
def ancestors (path : String) : List String := upwards path.length path

/-- What a component is, in the order of paths. -/
def componentRank (c : String) : Nat :=
  if c = "." then 1 else if c = ".." then 2 else 3

/-- A path as its components, each behind its rank. -/
def pathKey (path : String) : List (Nat × String) :=
  (if isAbsolute path then [(0, "")] else []) ++
    (components path).map fun c => (componentRank c, c)

/-- The order of lists, item by item. -/
def compareKeys : List (Nat × String) → List (Nat × String) → Ordering
  | [], [] => .eq
  | [], _ :: _ => .lt
  | _ :: _, [] => .gt
  | x :: xs, y :: ys =>
      ((compare x.1 y.1).then (compare x.2 y.2)).then (compareKeys xs ys)

/-- The order of paths: component by component, absolute paths first. -/
def comparePaths (a b : String) : Ordering := compareKeys (pathKey a) (pathKey b)

/-- The last component of a path, if it is a name. -/
def name? (path : String) : Option String :=
  (components path).getLast?.bind fun c => if c = "." ∨ c = ".." then none else some c

/-- Whether a name is hidden. -/
def isHidden (name : String) : Bool := name.toList.head? = some '.'

/-- What stands behind the last dot of the name of a path. -/
def extension? (path : String) : Option String :=
  (name? path).bind fun name => (Path.cutExtension? name).map (·.2)

example : parent? "a//b/./c" = some "a//b" := by decide +kernel
example : parent? "./a" = some "." := by decide +kernel
example : parent? "/a/" = some "/" := by decide +kernel
example : ancestors "a//b/c" = ["a//b/c", "a//b", "a"] := by decide +kernel

end Files

end CodeGraph

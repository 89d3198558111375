import CodeGraph.Files.Basic
import Std.Data.ExtTreeMap
/-! # A file tree — files and directories in memory

    A file system without a disk: what is at each location, a location being
    the names on the way from the root.

    * A path is looked up name by name, and every name but the last has to be
      that of a directory; `..` leads back up, and stays at the root.
    * A relative path starts at the root.
    * A name has at most 255 bytes, and a path fewer than 4096.
    * Failures have the wording that a disk would give. -/

namespace CodeGraph

/-- What is at a location. -/
inductive FileTree.Entry where
  | directory
  | file (contents : ByteArray)

/-- The entries by location; the root is a directory and is not listed. -/
structure FileTree where
  entries : Std.ExtTreeMap (List String) FileTree.Entry := ∅

namespace FileTree

/-! ## Failures -/

/-- A missing file or directory. -/
def missing : String := "No such file or directory (os error 2)"

/-- A place that cannot be replaced. -/
def busy : String := "Device or resource busy (os error 16)"

/-- Something where there must be nothing. -/
def occupied : String := "File exists (os error 17)"

/-- A file where a directory is needed. -/
def notDirectory : String := "Not a directory (os error 20)"

/-- A directory where a file is needed. -/
def isDirectory : String := "Is a directory (os error 21)"

/-- A name or a path with too many bytes. -/
def tooLong : String := "File name too long (os error 36)"

/-- A path with the character that ends paths. -/
def hasEnd : String := "file name contained an unexpected NUL byte"

/-! ## Looking up -/

/-- What is at a location. -/
def at? (t : FileTree) (location : List String) : Option Entry :=
  if location = [] then some .directory else t.entries[location]?

/-- The location that a name leads to. -/
def enter (location : List String) (name : String) : List String :=
  if name = "" ∨ name = "." then location
  else if name = ".." then location.dropLast
  else location ++ [name]

/-- The location that names lead to; there may be nothing at it. -/
def locate (t : FileTree) : List String → List String → Except String (List String)
  | location, [] => .ok location
  | location, name :: names =>
      match t.at? location with
      | none => .error missing
      | some (.file _) => .error notDirectory
      | some .directory =>
          if 255 < name.utf8ByteSize then .error tooLong
          else t.locate (enter location name) names

/-- The names in a path. -/
def namesIn (path : String) : Except String (List String) :=
  if path.toList.contains '\x00' then .error hasEnd
  else if path = "" then .error missing
  else if 4096 ≤ path.utf8ByteSize then .error tooLong
  else .ok (Text.split (· = '/') path)

/-- The location of a path. -/
def resolve (t : FileTree) (path : String) : Except String (List String) := do
  t.locate [] (← namesIn path)

/-- What is at a path, if anything is. -/
def lookup? (t : FileTree) (path : String) : Option Entry :=
  match t.resolve path with
  | .ok location => t.at? location
  | .error _ => none

/-- The location that something can be put at; a path that ends in a dot, or is
    the root, has `special` as its failure. -/
def slot (t : FileTree) (path special : String) : Except String (List String) := do
  let names := ((← namesIn path).reverse.dropWhile (· = "")).reverse
  let location ← t.locate [] names
  let last := names.getLast?.getD "."
  if last = "." ∨ last = ".." then .error special else .ok location

/-! ## Reading -/

/-- The contents of a file. -/
def read (t : FileTree) (path : String) : Except String ByteArray := do
  match t.at? (← t.resolve path) with
  | some (.file contents) => .ok contents
  | some .directory => .error isDirectory
  | none => .error missing

/-- The names in a directory, each with whether it is that of a directory. -/
def list? (t : FileTree) (path : String) : Option (List (String × Bool)) :=
  match t.resolve path with
  | .error _ => none
  | .ok location =>
      match t.at? location with
      | some .directory => some <| t.entries.toList.filterMap fun e =>
          match e.1.getLast?, e.2 with
          | some name, .directory =>
              if e.1.dropLast = location then some (name, true) else none
          | some name, .file _ =>
              if e.1.dropLast = location then some (name, false) else none
          | none, _ => none
      | _ => none

/-- The location of what is at a path. -/
def locate? (t : FileTree) (path : String) : Option (List String) :=
  match t.resolve path with
  | .ok location => (t.at? location).map fun _ => location
  | .error _ => none

/-! ## Changing -/

/-- Makes one directory. -/
def makeDirectory (t : FileTree) (path : String) : Except String FileTree := do
  let location ← t.slot path occupied
  match t.at? location with
  | some _ => .error occupied
  | none => .ok ⟨t.entries.insert location .directory⟩

/-- Makes one directory that may be there. -/
def ensureDirectory (t : FileTree) (path : String) : Except String FileTree :=
  match t.makeDirectory path, t.lookup? path with
  | .ok t', _ => .ok t'
  | .error _, some .directory => .ok t
  | .error reason, _ => .error reason

/-- Makes the first of some directories, each of which lies in the next.  Those
    that were made before a failure stay. -/
def makeFirst (t : FileTree) : List String → Except String Unit × FileTree
  | [] => (.ok (), t)
  | path :: above =>
      match t.ensureDirectory path with
      | .ok t' => (.ok (), t')
      | .error reason =>
          -- the directory above is missing, and has to be made first
          if reason = missing then
            match makeFirst t above with
            | (.ok (), t') =>
                match t'.ensureDirectory path with
                | .ok t'' => (.ok (), t'')
                | .error reason => (.error reason, t')
            | failed => failed
          else (.error reason, t)

/-- Makes a directory and those above it that are missing. -/
def makeDirectories (t : FileTree) (path : String) : Except String Unit × FileTree :=
  makeFirst t (Files.ancestors path)

/-- Puts a file at a location. -/
def put (t : FileTree) (location : List String) (contents : ByteArray) :
    Except String FileTree :=
  match t.at? location with
  | some .directory => .error isDirectory
  | _ => .ok ⟨t.entries.insert location (.file contents)⟩

/-- Writes a file. -/
def write (t : FileTree) (path : String) (contents : ByteArray) :
    Except String FileTree := do
  t.put (← t.resolve path) contents

/-- Moves a file.  Only a directory could take a place with a slash behind
    it. -/
def move (t : FileTree) (source target : String) : Except String FileTree := do
  let here ← t.resolve source
  let there ← t.slot target busy
  let contents ← t.read source
  if target.toList.getLast? = some '/' then .error notDirectory
  else
    let t ← t.put there contents
    return if here = there then t else ⟨t.entries.erase here⟩

/-- Runs an operation that may change the tree; a failure leaves it as it is. -/
def change (f : FileTree → Except String FileTree) :
    StateM FileTree (Except String Unit) := fun t =>
    match f t with
    | .ok t' => (.ok (), t')
    | .error reason => (.error reason, t)

/-- The tree as a file system. -/
def files : Files (StateM FileTree) where
  present path := do return ((← get).lookup? path).isSome
  read path := do return (← get).read path
  makeDirectories path := fun t => t.makeDirectories path
  write path contents := change fun t => t.write path contents
  move source target := change fun t => t.move source target
  list? path := do return (← get).list? path
  locate? path := do return (← get).locate? path

end FileTree

end CodeGraph

import CodeGraph.Environment
import CodeGraph.Exclude.Layer
/-! # Surveys — the files below a directory that no rule leaves out

    Goes through a directory and all below it, and finds the files that are not
    left out.

    * What is left out is not entered, so nothing below it can be kept.
    * The directory itself is never left out, nor is a file in its place.
    * The rules of the directories above count as well. -/

namespace CodeGraph.Exclude

section

variable {m : Type → Type} [Monad m]

/-! ## Reading rules -/

/-- The rules in a file, none if it cannot be read. -/
def readRules (files : Files m) (path : String) : m (List Rule) := do
  return rulesOf (← files.readLines path)

/-- The rules in the first file that a repository itself has for them. -/
def readPersonal (files : Files m) (home : String) : m (List Rule) :=
  readRules files (Files.joinPath home "info/exclude")

/-- What follows a beginning of a text. -/
def behind? (front text : String) : Option String :=
  (Text.stripPrefix? front.toList text.toList).map String.ofList

/-- The personal rules of a directory.  A file in the place of a repository says
    where the repository is, and that says where it has what it shares. -/
def personalRules (files : Files m) (directory : String) : m (List Rule) := do
  let place := Files.joinPath directory ".git"
  match ← files.read place with
  | .error _ => readPersonal files place
  | .ok bytes =>
      let lines := Files.textLines (Text.lines bytes.toList)
      match lines.head?.bind (behind? "gitdir: ") with
      | none => return []
      | some home =>
          match (← files.readLines (Files.joinPath home "commondir")).head? with
          | none => return []
          | some common =>
              if Files.isHidden common then
                readPersonal files (Files.joinPath home common)
              else readPersonal files common

/-- The rules of a directory. -/
def readLayer (files : Files m) (directory : String) (way : List String) :
    m Layer := do
  let inside := Files.joinPath directory
  let marks ← [".git", ".jj"].mapM fun name => files.present (inside name)
  return {
    way := way
    general := ← readRules files (inside ".ignore")
    shared := ← readRules files (inside ".gitignore")
    personal := ← personalRules files directory
    isRepository := marks.any id }

/-- The rules of the directories above one, nearest first.  The directory is
    given by its names, the last one first, and `way` leads on from it. -/
def layersAbove (files : Files m) : List String → (way : List String) → m (List Layer)
  | [], _ => return []
  | name :: rest, way => do
      let directory := "/" ++ Text.join "/" rest.reverse
      let layer ← readLayer files directory (name :: way)
      return layer :: (← layersAbove files rest (name :: way))

/-! ## The rules of the user -/

/-- Whether a character is a space of ASCII. -/
def isSpace (c : Char) : Bool := c = ' ' || 9 ≤ c.toNat && c.toNat ≤ 13

/-- A value without the quotes around it; it has no spaces inside. -/
def unquote? (s : List Char) : Option (List Char) :=
  let s := Text.trimEnds isSpace s
  let s := if s.head? = some '"' then s.tail else s
  let s := if s.getLast? = some '"' then s.dropLast else s
  let s := Text.trimEnds isSpace s
  if s.isEmpty || s.any isSpace then none else some s

/-- The file that a line of settings names for the rules of the user. -/
def namedFile? (line : String) : Option (List Char) := do
  let s := line.toList.dropWhile isSpace
  let key := "excludesfile".toList
  if (s.take key.length).map Char.toLower = key then
    match (s.drop key.length).dropWhile isSpace with
    | '=' :: value => unquote? value
    | _ => none
  else none

/-- A path with the directory of the user in place of every tilde. -/
def expand (home : Option String) (path : List Char) : String :=
  match home with
  | some h => String.ofList (path.flatMap fun c => if c = '~' then h.toList else [c])
  | none => String.ofList path

/-- The directory that the user has for settings. -/
def settingsDirectory? (env : Environment) : Option String :=
  ((env "XDG_CONFIG_HOME").filter (· ≠ "")).or
    ((env "HOME").map (Files.joinPath · ".config"))

/-- The file with the rules of the user: one that settings name, or that in its
    usual place. -/
def userFile? (files : Files m) (env : Environment) : m (Option String) := do
  let home := env "HOME"
  let directory := settingsDirectory? env
  let places := (home.map (Files.joinPath · ".gitconfig")).toList
    ++ (directory.map (Files.joinPath · "git/config")).toList
  let settings ← places.mapM files.readLines
  return ((settings.findSome? (·.findSome? namedFile?)).map (expand home)).or
    (directory.map (Files.joinPath · "git/ignore"))

/-- The rules of the user. -/
def userRules (files : Files m) (env : Environment) : m (List Rule) := do
  match ← userFile? files env with
  | some path => readRules files path
  | none => return []

/-! ## Going through -/

/-- The number of directories that one may lie in; a path has no room for
    more. -/
def maxDepth : Nat := 4096

/-- A path without the current directory in front. -/
def dropHere : List Char → List Char
  | '.' :: '/' :: s => dropHere s
  | s => s

/-- The files below a directory that are not left out. -/
def survey (files : Files m) (user : List Rule) :
    (depth : Nat) → (above : List Layer) → (path : String) → m (List String)
  | 0, _, _ => return []
  | depth + 1, above, path => do
      let layers := (← readLayer files path []) :: above
      let entries := (← files.list? path).getD []
      let found ← entries.mapM fun (name, isDirectory) => do
        let child := Files.joinPath path name
        let walked := (String.ofList (dropHere child.toList)).toUTF8.toList
        if isExcluded layers user walked name isDirectory then return []
        else if isDirectory then survey files user depth (layers.map (·.enter name)) child
        else return [child]
      return found.flatten

/-- The files at and below a path that are not left out. -/
def filesBelow (files : Files m) (env : Environment) (path : String) :
    m (List String) := do
  match ← files.list? path with
  | none => return if ← files.present path then [path] else []
  | some _ =>
      let location := (← files.locate? path).getD []
      let above ← layersAbove files location.reverse []
      survey files (← userRules files env) maxDepth above path

end

end CodeGraph.Exclude

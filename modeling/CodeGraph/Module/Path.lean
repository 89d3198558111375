import CodeGraph.Text.Split
/-! # Paths — names of files inside a repository

    Paths with `/` between their components, as text.

    * `normalize` brings the spellings of a path to one form.
    * `ancestors` lists the directories above a path from the outermost one;
      the last of them is its `parent`.
    * The extension of a file begins behind the last dot of its name, unless
      that is the first character. -/

namespace CodeGraph.Path

open Text

/-- Takes `./` off the front as often as it stands there. -/
def stripCurrent : List Char → List Char
  | '.' :: '/' :: rest => stripCurrent rest
  | cs => cs

/-- Characters without slashes at either end. -/
def stripSlashes (cs : List Char) : List Char :=
  ((cs.dropWhile (· = '/')).reverse.dropWhile (· = '/')).reverse

/-- A path with `/` as separator, without `./` in front of it and without a
    slash at either end. -/
def normalize (path : String) : String :=
  let unified := path.toList.map fun c => if c = '\\' then '/' else c
  String.ofList (stripSlashes (stripCurrent unified))

/-- The components of a path. -/
def components (path : String) : List String := split (· = '/') path

/-- The last component. -/
def fileName (path : String) : String := ((components path).getLast?).getD path

/-- A name cut at its last dot; none if there is no dot behind the first
    character. -/
def cutExtension? (name : String) : Option (String × String) :=
  let ws := pieces (· = '.') name.toList
  match ws.getLast? with
  | none => none
  | some last =>
      let front := ['.'].intercalate ws.dropLast
      if ws.length ≤ 1 ∨ front = [] then none
      else some (String.ofList front, String.ofList last)

/-- What stands behind the last dot of the file name. -/
def extension (path : String) : String :=
  match cutExtension? (fileName path) with
  | some (_, e) => e
  | none => ""

/-- The file name without its extension. -/
def stem (path : String) : String :=
  match cutExtension? (fileName path) with
  | some (s, _) => s
  | none => fileName path

/-- The directory of a path, empty at the top of the repository. -/
def parent (path : String) : String := join "/" (components path).dropLast

/-- The directories above a path, the outermost first. -/
def ancestors (path : String) : List String :=
  let parts := components path
  (List.range' 1 (parts.length - 1)).map fun n => join "/" (parts.take n)

/-- How many elements two lists have in common at their fronts. -/
def commonFront {α : Type} [DecidableEq α] : List α → List α → Nat
  | a :: as, b :: bs => if a = b then commonFront as bs + 1 else 0
  | _, _ => 0

/-- How many elements two lists have in common at their ends. -/
def commonEnd {α : Type} [DecidableEq α] (as bs : List α) : Nat :=
  commonFront as.reverse bs.reverse

/-- How many components two directories have in common at their fronts; an
    empty component ends the comparison. -/
def nearness (a b : String) : Nat :=
  commonFront ((components a).takeWhile (· ≠ "")) ((components b).takeWhile (· ≠ ""))

end CodeGraph.Path

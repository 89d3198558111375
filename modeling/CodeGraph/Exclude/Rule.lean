import CodeGraph.Exclude.Glob
import CodeGraph.Text.Blank
/-! # Rules — lines that say which files are left out

    A file of rules has one on each line, and a rule is a pattern with marks
    around it.

    * A mark in front, `!`, makes a rule keep what it describes; a slash behind
      makes it speak of directories only.
    * A pattern with a slash in it, or in front of it, describes the whole path
      from the directory of the rules; any other describes names at any depth.
    * The last rule that describes a path decides about it.
    * Lines that begin with `#`, blank lines and lines that are no patterns say
      nothing. -/

namespace CodeGraph.Exclude

/-- A rule. -/
structure Rule where
  glob : Glob
  keeps : Bool
  directoriesOnly : Bool

/-- What rules decide about a path. -/
inductive Verdict where
  | kept
  | excluded
deriving DecidableEq, Repr

/-! ## Reading -/

/-- A line without the blanks at its end; a blank behind a backslash stays, and
    then so do those in front of it. -/
def trimEnd (line : List Char) : List Char :=
  if ['\\', ' '].isSuffixOf line then line
  else (line.reverse.dropWhile Text.isBlank).reverse

/-- The marks in front of a pattern: whether it keeps, whether it is anchored,
    and the rest. -/
def frontMarks : List Char → Bool × Bool × List Char
  | '\\' :: '!' :: s => (false, false, '!' :: s)
  | '\\' :: '#' :: s => (false, false, '#' :: s)
  | '!' :: '/' :: s => (true, true, s)
  | '!' :: s => (true, false, s)
  | '/' :: s => (false, true, s)
  | s => (false, false, s)

/-- The mark behind a pattern: whether it speaks of directories only, and the
    rest.  A backslash in front of the mark goes with it. -/
def endMark (s : List Char) : Bool × List Char :=
  match s.reverse with
  | '/' :: '\\' :: t => (true, t.reverse)
  | '/' :: t => (true, t.reverse)
  | _ => (false, s)

/-- Any directories, as the beginning of a pattern. -/
def anywhere : List Char := "**/".toList

/-- The pattern for whole paths that a line between its marks stands for: names
    may stand anywhere, and what is below a directory is not the directory
    itself. -/
def wholePattern (anchored : Bool) (s : List Char) : List Char :=
  let t := if anchored || s.contains '/' || s = "**".toList then s else anywhere ++ s
  if "/**".toList.isSuffixOf t then t ++ "/*".toList else t

/-- The rule that a line says, if it says one. -/
def Rule.ofLine? (line : List Char) : Option Rule :=
  if line.head? = some '#' then none
  else
    let line := trimEnd line
    if line.isEmpty then none
    else
      let (keeps, anchored, s) := frontMarks line
      let (directoriesOnly, s) := endMark s
      (Glob.parse? (wholePattern anchored s)).map fun glob =>
        ⟨glob, keeps, directoriesOnly⟩

/-- The rules on some lines; a byte order mark in front of them is no part of
    the first. -/
def rulesOf : List String → List Rule
  | [] => []
  | first :: rest =>
      ((first.toList.dropWhile (· = '\ufeff')) :: rest.map String.toList).filterMap
        Rule.ofLine?

/-! ## Deciding -/

/-- Whether a rule describes a path. -/
def Rule.describes (r : Rule) (path : List UInt8) (isDirectory : Bool) : Bool :=
  (isDirectory || !r.directoriesOnly) && r.glob.isMatch path

/-- What rules decide about a path; the last of those that describe it wins. -/
def verdict? (rules : List Rule) (path : List UInt8) (isDirectory : Bool) :
    Option Verdict :=
  (rules.reverse.find? (·.describes path isDirectory)).map fun r =>
    if r.keeps then .kept else .excluded

/-- What the lines of a file decide about the path of a file. -/
def verdictOn (lines : List String) (path : String) : Option Verdict :=
  verdict? (rulesOf lines) path.toUTF8.toList false

example : verdictOn ["*.log", "!keep.log"] "a/keep.log" = some .kept := by decide +kernel
example : verdictOn ["/a.log"] "b/a.log" = none := by decide +kernel
example : verdictOn ["# a", "a "] "a" = some .excluded := by decide +kernel
example : verdictOn ["a/**"] "a" = none := by decide +kernel
example : verdictOn ["a/"] "a" = none := by decide +kernel

end CodeGraph.Exclude

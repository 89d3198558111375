import CodeGraph.Module.Path
import CodeGraph.Text.Blank
import Std.Data.ExtTreeMap
/-! # Specifiers — how source files name modules and functions

    What an import names, what a call names, and the words they are made of.

    * An alias replaces the front of a specifier where that ends at a boundary;
      the longest alias that fits is taken.
    * The segments of a specifier are its words without relative markers; a
      path loses the extension of its last component.
    * A scoped package keeps its scope. -/

namespace CodeGraph

/-- What stands for the front of a specifier. -/
abbrev Aliases := Std.ExtTreeMap String String

namespace Specifier

open Text

/-- The first words of a specifier that only say where the search begins. -/
def relativeMarkers : List String := [".", "..", "crate", "self", "super"]

/-- Whether an alias fits the front of a specifier and ends at a boundary. -/
def aliasFits (specifier front : List Char) : Bool :=
  match stripPrefix? front specifier with
  | some rest => rest.isEmpty || rest.head? = some '/' || front.getLast? = some '/'
  | none => false

/-- The longest alias that fits, measured in bytes; the last of equally long
    ones. -/
def longestAlias? (specifier : String) (aliases : Aliases) : Option (String × String) :=
  (aliases.toList.filter fun a => aliasFits specifier.toList a.1.toList).foldl
    (fun best a => match best with
      | some b => if a.1.utf8ByteSize < b.1.utf8ByteSize then some b else some a
      | none => some a) none

/-- A specifier with its alias replaced. -/
def applyAlias (specifier : String) (aliases : Aliases) : String :=
  match longestAlias? specifier aliases with
  | some (front, target) =>
      target ++ String.ofList (specifier.toList.drop front.length)
  | none => specifier

/-- Whether a specifier is written as a path. -/
def isPathLike (specifier : String) : Bool :=
  specifier.toList.any fun c => c = '/' || c = '\\'

/-- The last of some components without its extension. -/
def stemLast (parts : List String) : List String :=
  match parts.getLast? with
  | some last => parts.dropLast ++ [Path.stem last]
  | none => []

/-- The words of a specifier whose alias is replaced. -/
def words (specifier : String) : List String :=
  if isPathLike specifier then
    stemLast (split (fun c => c = '/' || c = '\\') specifier)
  else split (fun c => c = '.' || c = ':' || c = '/') specifier

/-- The segments of the module that a specifier names. -/
def segments (specifier : String) (aliases : Aliases) : List String :=
  ((words (applyAlias (trim specifier) aliases)).filter fun w =>
    w ≠ "" && w ≠ "." && w ≠ "..").dropWhile relativeMarkers.contains

/-- The package that a specifier names if no module inside the repository is
    meant. -/
def package? (specifier : String) : Option String :=
  let cs := (trim specifier).toList.dropWhile fun c => c = '.' || c = '/'
  match cs with
  | '@' :: _ =>
      match pieces (· = '/') cs with
      | scope :: name :: _ =>
          if name.isEmpty then some (String.ofList scope)
          else some (String.ofList (scope ++ '/' :: name))
      | _ => some (String.ofList cs)
  | _ =>
      let isMark := fun (c : Char) => c = '.' || c = ':' || c = '/' || c = '\\'
      (split isMark (String.ofList cs)).find? fun w =>
        w ≠ "" && !relativeMarkers.contains w

end Specifier

/-! ## Called names -/

namespace Callee

open Text

/-- Takes pairs of parentheses off the end as often as they stand there, given
    the text backwards. -/
def stripParentheses : List Char → List Char
  | ')' :: '(' :: rest => stripParentheses rest
  | cs => cs

/-- A called name without blanks and parentheses around it. -/
def clean (callee : String) : String :=
  String.ofList (stripParentheses (trim callee).toList.reverse).reverse

/-- The names in a called name, without those of the caller's own object. -/
def parts (callee : String) : List String :=
  (split (fun c => c = '.' || c = ':' || c = '>' || c = '-') (clean callee)).filter
    fun w => w ≠ "" && w ≠ "self" && w ≠ "this" && w ≠ "super"

/-- The last name in a called name. -/
def last (callee : String) : String := ((parts callee).getLast?).getD (clean callee)

/-- The names in a called name with dots between them. -/
def dotted (callee : String) : String := join "." (parts callee)

end Callee

end CodeGraph

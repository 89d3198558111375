import CodeGraph.Text.Reader
/-! # Globs — patterns for the paths of files

    A pattern is a text that describes paths, and a path is the bytes of names
    with slashes between them.

    * `?` is one byte of a name, and `*` is any number of them.
    * `**` is any number of directories where it stands for all names between
      two slashes, and elsewhere it is two stars.
    * `[a-z]` is one byte of a class, `[!a-z]` one of any other; a bracket that
      is never closed is itself.
    * Braces hold branches with commas between them, and may be nested; an
      empty branch does not count.
    * A backslash takes away what the next character means. -/

namespace CodeGraph.Glob

open Text (Read Reader)

/-! ## Symbols -/

/-- What the characters of a pattern mean, each for itself. -/
inductive Symbol where
  | plain (c : Char)
  | escaped (c : Char)
  | question
  | star
  | opening
  | comma
  | closing
  | oneOf (negated : Bool) (ranges : List (Char × Char))
deriving DecidableEq, Repr

/-- The ranges of a class up to its closing bracket, the last one first, or
    nothing if one of them runs backwards.  A bracket is itself as the `first`
    character, and a hyphen as the first or the last; `waiting` says that a range
    waits for its end. -/
def classBody (first waiting : Bool) (ranges : List (Char × Char)) :
    (s : List Char) → Option (Read (Option (List (Char × Char))) s)
  | [] => none
  | c :: s =>
      if c = ']' ∧ !first then
        some (.first (some (if waiting then ('-', '-') :: ranges else ranges)) c s)
      else if c = '-' ∧ !first ∧ !waiting then
        (classBody false true ranges s).map (·.behind c)
      else
        match waiting, ranges with
        | true, (low, _) :: more =>
            if c < low then some (.first none c s)
            else (classBody false false ((low, c) :: more) s).map (·.behind c)
        | _, _ => (classBody false false ((c, c) :: ranges) s).map (·.behind c)

/-- A class from behind its opening bracket. -/
def classOff (s : List Char) : Option (Read (Option Symbol) s) :=
  match s with
  | '!' :: t => (classBody true false [] t).map fun r =>
      (r.map fun ranges => ranges.map (.oneOf true)).behind '!'
  | '^' :: t => (classBody true false [] t).map fun r =>
      (r.map fun ranges => ranges.map (.oneOf true)).behind '^'
  | t => (classBody true false [] t).map fun r =>
      r.map fun ranges => ranges.map (.oneOf false)

/-- What a character means that is neither a backslash nor a bracket. -/
def Symbol.ofChar (c : Char) : Symbol :=
  match c with
  | '?' => .question
  | '*' => .star
  | '\x7b' => .opening
  | ',' => .comma
  | '\x7d' => .closing
  | c => .plain c

/-- The symbol at the front of a pattern, and whether a bracket was found that
    is never closed.  Behind such a one all opening brackets are themselves. -/
def symbolOff (classes : Bool) : Reader (Option (Symbol × Bool))
  | [] => none
  | '\\' :: s =>
      match s with
      | c :: t => some ((Read.first (some (.escaped c, classes)) c t).behind '\\')
      | [] => some (.first none '\\' [])
  | '[' :: s =>
      match (if classes then classOff s else none) with
      | some r => some ((r.map fun x => x.map (·, true)).behind '[')
      | none => some (.first (some (.plain '[', false)) '[' s)
  | c :: s => some (.first (some (Symbol.ofChar c, classes)) c s)

/-- The symbols of a pattern; none if a class runs backwards or nothing follows
    a backslash. -/
def symbols? (classes : Bool) (s : List Char) : Option (List Symbol) :=
  match symbolOff classes s with
  | none => some []
  | some ⟨none, _, _⟩ => none
  | some ⟨some (symbol, classes'), rest, _⟩ => (symbols? classes' rest).map (symbol :: ·)
termination_by s.length

/-! ## Parts -/

/-- The parts of a pattern. -/
inductive Part where
  /-- The given byte. -/
  | byte (b : UInt8)
  /-- A byte of a name. -/
  | one
  /-- Bytes of a name. -/
  | run
  /-- A byte of a class. -/
  | oneOf (negated : Bool) (ranges : List (UInt8 × UInt8))
  /-- Directories at the front, with the slash behind them. -/
  | above
  /-- Directories between two slashes, with the slashes. -/
  | between
  /-- All that is below a directory, with the slash in front of it. -/
  | beneath
  /-- One of some branches; nothing if there are none. -/
  | choice (branches : List (List Part))

/-- The byte between names. -/
def slash : UInt8 := 47

/-- The bytes of a character, each as a part. -/
def partsOf (c : Char) : List Part := (String.utf8EncodeChar c).map .byte

/-- A range of characters as ranges of bytes: only the last byte of the first
    character and the first byte of the last one make a range. -/
def byteRanges (r : Char × Char) : List (UInt8 × UInt8) :=
  let single := fun (b : UInt8) => (b, b)
  let low := String.utf8EncodeChar r.1
  let high := String.utf8EncodeChar r.2
  if r.1 = r.2 then low.map single
  else low.dropLast.map single ++ [(low.getLastD 0, high.headD 0)] ++ high.tail.map single

/-- Whether a branch says nothing. -/
def isBlank (branch : List Part) : Bool :=
  branch.all fun
    | .choice [] => true
    | _ => false

/-- A pattern that is being put together. -/
structure Draft where
  /-- The parts of the branch so far, the last one first. -/
  parts : List Part := []
  /-- The other branches of the innermost braces. -/
  finished : List (List Part) := []
  /-- What was there when the braces around were opened. -/
  outer : List (List Part × List (List Part)) := []

namespace Draft

/-- Adds a part. -/
def add (d : Draft) (p : Part) : Draft := { d with parts := p :: d.parts }

/-- Adds a character. -/
def addChar (d : Draft) (c : Char) : Draft :=
  { d with parts := (partsOf c).reverse ++ d.parts }

/-- Whether there are braces around. -/
def isNested (d : Draft) : Bool := !d.outer.isEmpty

/-- Opens braces. -/
def openBraces (d : Draft) : Draft := { outer := (d.parts, d.finished) :: d.outer }

/-- Begins the next branch. -/
def nextBranch (d : Draft) : Draft :=
  { d with parts := [], finished := d.parts.reverse :: d.finished }

/-- Closes braces, if there are any. -/
def closeBraces? (d : Draft) : Option Draft :=
  match d.outer with
  | [] => none
  | (parts, finished) :: outer =>
      let branches := (d.parts.reverse :: d.finished).filter fun b => !isBlank b
      some { parts := .choice branches :: parts, finished := finished, outer := outer }

end Draft

/-- What stands behind two stars. -/
inductive Next where
  | slash
  /-- The end of the pattern. -/
  | ending
  /-- The end of a branch. -/
  | branch
  | other
deriving DecidableEq, Repr

/-- What the next symbols are. -/
def Next.ofSymbols (nested : Bool) : List Symbol → Next
  | [] => .ending
  | .plain '/' :: _ => .slash
  | .comma :: _ | .closing :: _ => if nested then .branch else .other
  | _ => .other

/-- Two stars as directories, if they stand for all names between two slashes.
    The part in front of them, which is a slash, becomes part of them. -/
def Draft.directories? (d : Draft) (previous : Option Char) (next : Next) :
    Option Draft :=
  match d.parts with
  | [] => if next = .slash ∨ next = .ending then some (d.add .above) else none
  | part :: parts =>
      let begins := previous = some '/'
        || d.isNested && (previous = some ',' || previous = some '\x7b')
      if !begins ∨ next = .other then none
      else
        let wide : Part := match part with
          | .above => .above
          | .beneath => .beneath
          | _ => if next = .slash then .between else .beneath
        some { d with parts := wide :: parts }

/-- Adds symbols to a pattern, the first of which stands behind the character
    `previous`. -/
def assemble? : Draft → (previous : Option Char) → List Symbol → Option Draft
  | d, _, [] => some d
  | d, previous, .star :: .star :: rest =>
      match d.directories? previous (.ofSymbols d.isNested rest), rest with
      | some d', .plain '/' :: rest' => assemble? d' (some '/') rest'
      | some d', rest => assemble? d' (some '*') rest
      | none, rest => assemble? ((d.add .run).add .run) (some '*') rest
  | d, _, .star :: rest => assemble? (d.add .run) (some '*') rest
  | d, _, .question :: rest => assemble? (d.add .one) (some '?') rest
  | d, _, .plain c :: rest => assemble? (d.addChar c) (some c) rest
  | d, _, .escaped c :: rest => assemble? (d.addChar c) (some c) rest
  | d, _, .oneOf negated ranges :: rest =>
      assemble? (d.add (.oneOf negated (ranges.flatMap byteRanges))) (some ']') rest
  | d, _, .opening :: rest => assemble? d.openBraces (some '\x7b') rest
  -- outside of braces a comma stands for itself
  | d, _, .comma :: rest =>
      assemble? (if d.isNested then d.nextBranch else d.addChar ',') (some ',') rest
  | d, _, .closing :: rest =>
      match d.closeBraces? with
      | some d' => assemble? d' (some '\x7d') rest
      | none => none

end Glob

/-- A pattern for paths. -/
structure Glob where
  parts : List Glob.Part

namespace Glob

/-- The pattern that a text says; none if its braces do not match or its symbols
    make no sense. -/
def parse? (text : List Char) : Option Glob :=
  match (symbols? true text).bind (assemble? {} none) with
  | some d => if d.isNested then none else some ⟨d.parts.reverse⟩
  | none => none

/-! ## Matching -/

/-- What may follow bytes of a name. -/
def behindRun : List UInt8 → List (List UInt8)
  | [] => [[]]
  | b :: s => (b :: s) :: (if b = slash then [] else behindRun s)

/-- What follows each slash. -/
def behindSlashes : List UInt8 → List (List UInt8)
  | [] => []
  | b :: s => if b = slash then s :: behindSlashes s else behindSlashes s

/-- All that a path may end with. -/
def endings : List UInt8 → List (List UInt8)
  | [] => [[]]
  | b :: s => (b :: s) :: endings s

/-- Whether a byte belongs to a class. -/
def belongs (negated : Bool) (ranges : List (UInt8 × UInt8)) (b : UInt8) : Bool :=
  (ranges.any fun r => r.1 ≤ b && b ≤ r.2) != negated

/-- What may follow one byte of a kind. -/
def behindByte (p : UInt8 → Bool) : List UInt8 → List (List UInt8)
  | [] => []
  | b :: s => if p b then [s] else []

mutual

/-- What may follow a part, given what may be in front of its end. -/
def Part.advance : Part → List (List UInt8) → List (List UInt8)
  | .byte b, ss => ss.flatMap (behindByte (· = b))
  | .one, ss => ss.flatMap (behindByte (· ≠ slash))
  | .oneOf negated ranges, ss => ss.flatMap (behindByte (belongs negated ranges))
  | .run, ss => (ss.flatMap behindRun).eraseDups
  | .above, ss => (ss.flatMap fun s => s :: behindSlashes s).eraseDups
  | .between, ss =>
      ((ss.flatMap (behindByte (· = slash))).flatMap fun s =>
        s :: behindSlashes s).eraseDups
  | .beneath, ss => ((ss.flatMap (behindByte (· = slash))).flatMap endings).eraseDups
  | .choice [], ss => ss
  | .choice branches, ss => (advanceAny branches ss).eraseDups

/-- What may follow some parts, one behind the other. -/
def advanceAll : List Part → List (List UInt8) → List (List UInt8)
  | [], ss => ss
  | p :: ps, ss => advanceAll ps (p.advance ss)

/-- What may follow one of some branches. -/
def advanceAny : List (List Part) → List (List UInt8) → List (List UInt8)
  | [], _ => []
  | ps :: rest, ss => advanceAll ps ss ++ advanceAny rest ss

end

/-- Whether a pattern describes a path.  Directories alone describe every
    path. -/
def isMatch (g : Glob) (path : List UInt8) : Bool :=
  match g.parts with
  | [.above] => true
  | parts => (advanceAll parts [path]).any List.isEmpty

/-- Whether the pattern that a text says describes a path. -/
def fits (text path : String) : Bool :=
  (parse? text.toList).any fun g => g.isMatch path.toUTF8.toList

example : fits "**/*.rs" "a/b.rs" = true := by decide +kernel
example : fits "*.rs" "a/b.rs" = false := by decide +kernel
example : fits "a/**/b" "a/b" = true := by decide +kernel
example : fits "a/**/*" "a" = false := by decide +kernel
example : fits "x[!a-c]\x7by,z*\x7d" "xdzz" = true := by decide +kernel
example : fits "[a" "[a" = true := by decide +kernel
example : fits "a[z-a]" "az" = false := by decide +kernel

end Glob

end CodeGraph

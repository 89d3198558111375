import CodeGraph.Graph.Kind
import CodeGraph.Settings.Loading
/-! # Arguments — what the words of a command line ask for

    A command line names a command, with options before and after the name that
    every command takes, and options and words of the command's own.

    * An option has a name, a letter, or both.  Its value is the next
      word, or stands behind it: `--depth=2`, `-k2`.  A word that begins with a
      hyphen is no value, but a lone hyphen is.
    * Letters of options may share one hyphen.  Behind `--` all words are words.
    * An option is given once, unless it collects values.
    * A command line that asks for nothing sensible is refused as a whole. -/

namespace CodeGraph.Command

/-- What to do. -/
inductive Request where
  /-- Builds the graph from fact files. -/
  | build (files : List String) (factsDir : Option String)
  /-- Estimates what a change of a node affects. -/
  | impact (target : String) (depth : Option Nat)
  /-- Lists what a node depends on. -/
  | dependencies (target : String) (depth : Option Nat)
  /-- Retrieves the part of the graph that a query is about. -/
  | retrieve (query : List String) (k : Option Nat)
  /-- Exports the graph for drawing. -/
  | draw (kinds : List NodeKind) (relationships : List Relationship)
  /-- Counts what the graph holds. -/
  | statistics
  /-- Writes a file with the default settings. -/
  | initConfig (force : Bool)
deriving DecidableEq, Repr

/-- A whole command line. -/
structure Invocation where
  config : Option String := none
  snapshot : Option String := none
  verbose : Bool := false
  request : Request
deriving DecidableEq, Repr

/-! ## Options -/

/-- An option of a command. -/
structure Flag where
  name : String
  /-- Whether it can be given by its name. -/
  long : Bool := true
  short : Option Char := none
  /-- Whether it has a value. -/
  valued : Bool := true
  /-- Whether it may be given again. -/
  collects : Bool := false
deriving DecidableEq, Repr

/-- The options that were given, by name, with their values. -/
abbrev Given := List (String × String)

/-- The options that every command takes. -/
def commonFlags : List Flag :=
  [{ name := "config", short := some 'c' }, { name := "snapshot", short := some 's' },
   { name := "verbose", short := some 'v', valued := false }]

/-- A word that can be the value of an option. -/
def isValue (word : String) : Bool := word = "-" || word.toList.head? ≠ some '-'

/-- Options taken apart, and what follows them. -/
structure Taken where
  given : Given
  rest : List String

/-- Takes letters that share a hyphen.  The first that has a value takes the
    letters behind it, or the next word. -/
def takeLetters (flags : List Flag) (rest : List String) : List Char → Option Taken
  | [] => some ⟨[], rest⟩
  | c :: cs =>
      match flags.find? fun f => f.short = some c with
      | none => none
      | some f =>
          if f.valued then
            match cs, rest with
            | '=' :: value, _ => some ⟨[(f.name, String.ofList value)], rest⟩
            | c' :: cs', _ => some ⟨[(f.name, String.ofList (c' :: cs'))], rest⟩
            | [], word :: rest' =>
                if isValue word then some ⟨[(f.name, word)], rest'⟩ else none
            | [], [] => none
          else
            (takeLetters flags rest cs).map fun t => ⟨(f.name, "") :: t.given, t.rest⟩

/-- Takes an option by its long name, given without its hyphens. -/
def takeLong (flags : List Flag) (name : List Char) (rest : List String) : Option Taken :=
  let long := String.ofList (name.takeWhile (· ≠ '='))
  match flags.find? fun f => f.long && f.name = long with
  | none => none
  | some f =>
      match name.dropWhile (· ≠ '='), f.valued, rest with
      | _ :: value, true, _ => some ⟨[(f.name, String.ofList value)], rest⟩
      | [], true, word :: rest' =>
          if isValue word then some ⟨[(f.name, word)], rest'⟩ else none
      | [], false, _ => some ⟨[(f.name, "")], rest⟩
      | _, _, _ => none

/-- Takes the option that a word is, or those that it holds. -/
def takeOption (flags : List Flag) (word : String) (rest : List String) : Option Taken :=
  match word.toList with
  | '-' :: '-' :: name => takeLong flags name rest
  | '-' :: letters => takeLetters flags rest letters
  | _ => none

theorem takeLetters_rest {flags : List Flag} {rest : List String} {cs : List Char}
    {t : Taken} (h : takeLetters flags rest cs = some t) :
    t.rest.length ≤ rest.length := by
  induction cs generalizing t with
  | nil =>
      cases h
      exact Nat.le_refl _
  | cons c cs ih =>
      rw [takeLetters] at h
      split at h
      · cases h
      · split at h
        · split at h
          · cases h
            exact Nat.le_refl _
          · cases h
            exact Nat.le_refl _
          · split at h
            · cases h
              simp
            · cases h
          · cases h
        · obtain ⟨u, hu, rfl⟩ := Option.map_eq_some_iff.mp h
          have := ih hu
          exact this

theorem takeLong_rest {flags : List Flag} {name : List Char} {rest : List String}
    {t : Taken} (h : takeLong flags name rest = some t) :
    t.rest.length ≤ rest.length := by
  unfold takeLong at h
  dsimp only at h
  split at h
  · cases h
  · split at h
    · cases h
      exact Nat.le_refl _
    · split at h
      · cases h
        simp
      · cases h
    · cases h
      exact Nat.le_refl _
    · cases h

theorem takeOption_rest {flags : List Flag} {word : String} {rest : List String}
    {t : Taken} (h : takeOption flags word rest = some t) :
    t.rest.length ≤ rest.length := by
  unfold takeOption at h
  split at h
  · exact takeLong_rest h
  · exact takeLetters_rest h
  · cases h

/-- The options at the front of some words, up to the first that is none. -/
def leading (flags : List Flag) (words : List String) : Option Taken :=
  match words with
  | [] => some ⟨[], []⟩
  | word :: rest =>
      if isValue word then some ⟨[], word :: rest⟩
      else
        match h : takeOption flags word rest with
        | none => none
        | some t =>
            have := takeOption_rest h
            (leading flags t.rest).map fun u => ⟨t.given ++ u.given, u.rest⟩
termination_by words.length
decreasing_by
  simp only [List.length_cons]
  omega

/-- Some words taken apart into options and words that are none. -/
def sift (flags : List Flag) (words : List String) : Option Taken :=
  match words with
  | [] => some ⟨[], []⟩
  | word :: rest =>
      if word = "--" then some ⟨[], rest⟩
      else if isValue word then
        (sift flags rest).map fun u => ⟨u.given, word :: u.rest⟩
      else
        match h : takeOption flags word rest with
        | none => none
        | some t =>
            have := takeOption_rest h
            (sift flags t.rest).map fun u => ⟨t.given ++ u.given, u.rest⟩
termination_by words.length
decreasing_by
  all_goals
    simp only [List.length_cons]
    omega

/-- Whether no option is given twice that may be given once. -/
def isSound (flags : List Flag) (given : Given) : Bool :=
  flags.all fun f => f.collects || (given.countP fun g => g.1 = f.name) ≤ 1

/-! ## Values -/

/-- The value of an option. -/
def value? (given : Given) (name : String) : Option String := given.lookup name

/-- A path; it is not empty. -/
def path? (s : String) : Option String := if s = "" then none else some s

/-- An option with a value that has to be read; outer none if it cannot be. -/
def read? {α : Type} (read : String → Option α) (given : Given) (name : String) :
    Option (Option α) :=
  match value? given name with
  | none => some none
  | some s => (read s).map some

/-- All the values of an option, several of them separated by commas. -/
def readAll? {α : Type} (read : String → Option α) (given : Given) (name : String) :
    Option (List α) :=
  ((given.filter fun g => g.1 = name).flatMap fun g =>
    Text.split (· = ',') g.2).mapM read

/-! ## Commands -/

/-- The options of a command's own. -/
def flagsOf? : String → Option (List Flag)
  | "build" => some [{ name := "facts-dir" }]
  | "impact" | "deps" => some [{ name := "depth" }]
  | "retrieve" => some [{ name := "k", long := false, short := some 'k' }]
  | "export" =>
      some [{ name := "kind", collects := true },
        { name := "relationship", collects := true }]
  | "stats" => some []
  | "init-config" => some [{ name := "force", valued := false }]
  | _ => none

/-- What a command with its options and words asks for. -/
def request? (command : String) (given : Given) (words : List String) : Option Request :=
  match command, words with
  | "build", files => do
      return .build (← files.mapM path?) (← read? path? given "facts-dir")
  | "impact", [target] => do
      return .impact target (← read? Settings.readNumber? given "depth")
  | "deps", [target] => do
      return .dependencies target (← read? Settings.readNumber? given "depth")
  | "retrieve", word :: words => do
      return .retrieve (word :: words) (← read? Settings.readNumber? given "k")
  | "export", [] => do
      return .draw (← readAll? NodeKind.parse? given "kind")
        (← readAll? Relationship.parse? given "relationship")
  | "stats", [] => some .statistics
  | "init-config", [] => some (.initConfig (value? given "force").isSome)
  | _, _ => none

/-- What a command line asks for.  What is given behind the name of the command
    counts more than what is given before it. -/
def parse? (words : List String) : Option Invocation := do
  let before ← leading commonFlags words
  match before.rest with
  | [] => none
  | command :: rest =>
      let flags := (← flagsOf? command) ++ commonFlags
      let behind ← sift flags rest
      if !isSound commonFlags before.given || !isSound flags behind.given then none
      let request ← request? command behind.given behind.rest
      let common := fun name => do
        let outer ← read? path? before.given name
        let inner ← read? path? behind.given name
        return inner.or outer
      return {
        config := ← common "config"
        snapshot := ← common "snapshot"
        verbose := (value? (behind.given ++ before.given) "verbose").isSome
        request := request }

end CodeGraph.Command

import CodeGraph.Fact.Basic
/-! # Facts as values — what one line of a fact stream says

    How a fact is read from a value and written as one.

    * The type of a fact is a field of its object, or the first item of its
      array; it is a name, or the number of the type.
    * A line may report a failure instead; this is tried first.
    * Writing gives every field, `null` for what is not known. -/

namespace CodeGraph

open Json

/-! ## Reading -/

namespace DefinitionKind

/-- The value that may stand below the name of a kind. -/
def isUnit : Json → Bool
  | .null | .object [] => true
  | _ => false

/-- Reads the kind of a definition. -/
def ofJson? (v : Json) : Option DefinitionKind :=
  match tagName? isUnit v with
  | some "function" => some .function
  | some "class" => some .class
  | _ => none

end DefinitionKind

/-- Reads a file. -/
def FileFact.ofJson? (v : Json) : Option FileFact :=
  match v.record? ["path", "language", "size"] with
  | some [path, language, size] => do
      return {
        path := ← required asString? path
        language := ← optional asString? language
        size := ← optional asUInt64? size }
  | _ => none

/-- Reads a definition. -/
def DefinitionFact.ofJson? (v : Json) : Option DefinitionFact :=
  match v.record? ["file", "name", "kind", "line_number", "parameters", "return_type",
      "parent_class", "signature", "doc"] with
  | some [file, name, kind, lineNumber, parameters, returnType, parentClass, signature,
      doc] => do
      return {
        file := ← required asString? file
        name := ← required asString? name
        kind := ← required DefinitionKind.ofJson? kind
        lineNumber := ← optional asUInt32? lineNumber
        parameters := ← orElse [] (list? asString?) parameters
        returnType := ← optional asString? returnType
        parentClass := ← optional asString? parentClass
        signature := ← optional asString? signature
        doc := ← optional asString? doc }
  | _ => none

/-- Reads a call. -/
def CallFact.ofJson? (v : Json) : Option CallFact :=
  match v.record? ["file", "caller", "callee", "callee_file", "line"] with
  | some [file, caller, callee, calleeFile, line] => do
      return {
        file := ← required asString? file
        caller := ← required asString? caller
        callee := ← required asString? callee
        calleeFile := ← optional asString? calleeFile
        line := ← optional asUInt32? line }
  | _ => none

/-- Reads an import. -/
def ImportFact.ofJson? (v : Json) : Option ImportFact :=
  match v.record? ["file", "module", "alias", "line"] with
  | some [file, module, localName, line] => do
      return {
        file := ← required asString? file
        module := ← required asString? module
        localName := ← optional asString? localName
        line := ← optional asUInt32? line }
  | _ => none

/-- Reads an inheritance. -/
def InheritFact.ofJson? (v : Json) : Option InheritFact :=
  match v.record? ["file", "class", "base", "base_file"] with
  | some [file, cls, base, baseFile] => do
      return {
        file := ← required asString? file
        «class» := ← required asString? cls
        base := ← required asString? base
        baseFile := ← optional asString? baseFile }
  | _ => none

/-- Reads a declared package. -/
def DeclaredDependency.ofJson? (v : Json) : Option DeclaredDependency :=
  match v.record? ["name", "version"] with
  | some [name, version] => do
      return {
        name := ← required asString? name
        version := ← optional asString? version }
  | _ => none

/-- Reads a manifest. -/
def ManifestFact.ofJson? (v : Json) : Option ManifestFact :=
  match v.record? ["entry_points", "dependencies"] with
  | some [entryPoints, dependencies] => do
      return {
        entryPoints := ← orElse [] (list? asString?) entryPoints
        dependencies := ← orElse [] (list? DeclaredDependency.ofJson?) dependencies }
  | _ => none

/-- The name of a type, given by name or by number. -/
def Fact.typeOf? : Json → Option String
  | .string s => some s
  | v => v.asNat?.bind fun n =>
      ["file", "definition", "call", "import", "inherit", "manifest"][n]?

/-- The type of a fact, and the fact without its type. -/
def Fact.untag? : Json → Option (Json × Json)
  | .object fields =>
      match fields.filter fun f => f.1 = "type" with
      | [tag] => some (tag.2, .object (fields.filter fun f => f.1 ≠ "type"))
      | _ => none
  | .array (tag :: items) => some (tag, .array items)
  | _ => none

/-- Reads a fact. -/
def Fact.ofJson? (v : Json) : Option Fact :=
  match Fact.untag? v with
  | none => none
  | some (tag, body) =>
      match Fact.typeOf? tag with
      | some "file" => (FileFact.ofJson? body).map .file
      | some "definition" => (DefinitionFact.ofJson? body).map .definition
      | some "call" => (CallFact.ofJson? body).map .call
      | some "import" => (ImportFact.ofJson? body).map .import
      | some "inherit" => (InheritFact.ofJson? body).map .inherit
      | some "manifest" => (ManifestFact.ofJson? body).map .manifest
      | _ => none

/-- Reads the tag that marks a failure. -/
def ParseFailure.isTag (v : Json) : Bool :=
  tagName? (fun v => v = .null) v = some "parse_failure"

/-- Reads a failure. -/
def ParseFailure.ofJson? (v : Json) : Option ParseFailure :=
  match v.record? ["type", "path", "error"] with
  | some [tag, path, error] => do
      let tag ← tag
      let path ← required asString? path
      let error ← required asString? error
      if isTag tag then return { path, error } else none
  | _ => none

/-! ## Writing -/

/-- A file as fields. -/
def FileFact.fields (f : FileFact) : List (String × Json) :=
  [("path", .string f.path), ("language", .ofOption .string f.language),
   ("size", .ofOption ofUInt64 f.size)]

/-- A definition as fields. -/
def DefinitionFact.fields (d : DefinitionFact) : List (String × Json) :=
  [("file", .string d.file), ("name", .string d.name), ("kind", .string d.kind.name),
   ("line_number", .ofOption ofUInt32 d.lineNumber),
   ("parameters", ofStrings d.parameters),
   ("return_type", .ofOption .string d.returnType),
   ("parent_class", .ofOption .string d.parentClass),
   ("signature", .ofOption .string d.signature), ("doc", .ofOption .string d.doc)]

/-- A call as fields. -/
def CallFact.fields (c : CallFact) : List (String × Json) :=
  [("file", .string c.file), ("caller", .string c.caller), ("callee", .string c.callee),
   ("callee_file", .ofOption .string c.calleeFile), ("line", .ofOption ofUInt32 c.line)]

/-- An import as fields. -/
def ImportFact.fields (i : ImportFact) : List (String × Json) :=
  [("file", .string i.file), ("module", .string i.module),
   ("alias", .ofOption .string i.localName), ("line", .ofOption ofUInt32 i.line)]

/-- An inheritance as fields. -/
def InheritFact.fields (i : InheritFact) : List (String × Json) :=
  [("file", .string i.file), ("class", .string i.class), ("base", .string i.base),
   ("base_file", .ofOption .string i.baseFile)]

/-- A declared package as a value. -/
def DeclaredDependency.toJson (d : DeclaredDependency) : Json :=
  .object [("name", .string d.name), ("version", .ofOption .string d.version)]

/-- A manifest as fields. -/
def ManifestFact.fields (m : ManifestFact) : List (String × Json) :=
  [("entry_points", ofStrings m.entryPoints),
   ("dependencies", .array (m.dependencies.map (·.toJson)))]

/-- The fields of a fact without its type. -/
def Fact.fields : Fact → List (String × Json)
  | .file f => f.fields
  | .definition d => d.fields
  | .call c => c.fields
  | .import i => i.fields
  | .inherit i => i.fields
  | .manifest m => m.fields

/-- A fact as a value. -/
def Fact.toJson (f : Fact) : Json := .object (("type", .string f.typeName) :: f.fields)

/-- A failure as a value. -/
def ParseFailure.toJson (f : ParseFailure) : Json :=
  .object [("type", .string "parse_failure"), ("path", .string f.path),
    ("error", .string f.error)]

end CodeGraph

import CodeGraph.Json.Basic
/-! # Records — structures read from values

    A record is written as an object, or as an array of its fields in their
    order.

    * In an object, fields that are not declared are ignored, and a declared
      field that is repeated is refused.
    * In an array, fields may be missing at the end, and nothing may follow
      the last field.
    * Whether a missing field is an error is for the field to say: `required`,
      `optional` and `orElse` are the three ways to read one. -/

namespace CodeGraph.Json

/-- The field of an object, refused if it is repeated. -/
def uniqueField? (fields : List (String × Json)) (name : String) :
    Option (Option Json) :=
  match fields.filter fun f => f.1 = name with
  | [] => some none
  | [f] => some (some f.2)
  | _ => none

/-- The declared fields of a record, none for those that are missing. -/
def record? (names : List String) : Json → Option (List (Option Json))
  | .object fields => names.mapM (uniqueField? fields)
  | .array items =>
      if names.length < items.length then none
      else some (items.map some ++ List.replicate (names.length - items.length) none)
  | _ => none

/-- A field that must be there. -/
def required {α : Type} (read : Json → Option α) (field : Option Json) : Option α :=
  field.bind read

/-- A field that may be missing or `null`. -/
def optional {α : Type} (read : Json → Option α) : Option Json → Option (Option α)
  | none | some .null => some none
  | some v => (read v).map some

/-- A field with a value of its own when it is missing. -/
def orElse {α : Type} (default : α) (read : Json → Option α) : Option Json → Option α
  | none => some default
  | some v => read v

/-- A list of values. -/
def list? {α : Type} (read : Json → Option α) (v : Json) : Option (List α) :=
  v.asArray?.bind fun items => items.mapM read

/-- A text, given as a name alone or as the only key of an object over a value
    that says nothing. -/
def tagName? (empty : Json → Bool) : Json → Option String
  | .string s => some s
  | .object [(s, v)] => if empty v then some s else none
  | _ => none

/-- A natural number of 64 bits. -/
def asUInt64? (v : Json) : Option UInt64 := v.asNat?.map (·.toUInt64)

/-- A natural number of 32 bits. -/
def asUInt32? (v : Json) : Option UInt32 :=
  v.asNat?.bind fun n => if n < 4294967296 then some n.toUInt32 else none

/-- A natural number of 64 bits as a value. -/
def ofUInt64 (n : UInt64) : Json :=
  .number (.integer ⟨n.toNat, by omega, by have := n.toNat_lt; omega⟩)

/-- A natural number of 32 bits as a value. -/
def ofUInt32 (n : UInt32) : Json :=
  .number (.integer ⟨n.toNat, by omega, by have := n.toNat_lt; omega⟩)

end CodeGraph.Json

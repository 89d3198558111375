import CodeGraph.Decimal.Layout
/-! # JSON values — the data that attributes, facts and reports are made of

    A value as a reader finds it and a printer writes it.

    * A number is a whole number of 64 bits, signed or not, or a floating-point
      number; the two kinds are never equal.
    * An object keeps its fields in the order they were written, repeated keys
      included, because some readers refuse repetitions and others take the
      last one.
    * `canonical` settles both: keys ascending, the last of equal keys wins. -/

namespace CodeGraph

/-- A whole number of 64 bits, signed or unsigned: from −2⁶³ up to 2⁶⁴ − 1. -/
structure Json.Integer where
  val : Int
  lower : -9223372036854775808 ≤ val := by omega
  upper : val < 18446744073709551616 := by omega
deriving DecidableEq

namespace Json

/-- A number.  Single precision arises only where a value of that precision is
    written; reading always gives double precision. -/
inductive Number where
  | integer (n : Integer)
  | double (x : Float)
  | single (x : Float32)
deriving DecidableEq

/-- A natural number; beyond 64 bits it becomes a floating-point number. -/
def Number.ofNat (n : Nat) : Number :=
  if h : n < 18446744073709551616 then .integer ⟨n, by omega, by omega⟩
  else .double (Float.ofNat n)

/-- Numbers that a program cannot tell apart by comparing them: the zeros of
    both signs agree, a whole number and a floating-point number never do. -/
def Number.agrees : Number → Number → Bool
  | .integer m, .integer n => m = n
  | .double x, .double y => x == y
  | .single x, .single y => x == y
  | _, _ => false

end Json

/-- A JSON value. -/
inductive Json where
  | null
  | bool (b : Bool)
  | number (n : Json.Number)
  | string (s : String)
  | array (items : List Json)
  | object (fields : List (String × Json))

namespace Json

instance : Inhabited Json := ⟨.null⟩

/-! ## Equality -/

mutual

/-- Whether two values are the same, fields in the same order. -/
def decEq : (a b : Json) → Decidable (a = b)
  | .null, .null => isTrue rfl
  | .bool a, .bool b => decidable_of_iff (a = b) (by simp)
  | .number a, .number b => decidable_of_iff (a = b) (by simp)
  | .string a, .string b => decidable_of_iff (a = b) (by simp)
  | .array a, .array b =>
      match decEqItems a b with
      | isTrue h => isTrue (by rw [h])
      | isFalse h => isFalse (by simpa using h)
  | .object a, .object b =>
      match decEqFields a b with
      | isTrue h => isTrue (by rw [h])
      | isFalse h => isFalse (by simpa using h)
  | .null, .bool _ | .null, .number _ | .null, .string _ | .null, .array _
  | .null, .object _ | .bool _, .null | .bool _, .number _ | .bool _, .string _
  | .bool _, .array _ | .bool _, .object _ | .number _, .null | .number _, .bool _
  | .number _, .string _ | .number _, .array _ | .number _, .object _
  | .string _, .null | .string _, .bool _ | .string _, .number _
  | .string _, .array _ | .string _, .object _ | .array _, .null
  | .array _, .bool _ | .array _, .number _ | .array _, .string _
  | .array _, .object _ | .object _, .null | .object _, .bool _
  | .object _, .number _ | .object _, .string _ | .object _, .array _ =>
      isFalse (by simp)

/-- Whether two lists of values are the same. -/
def decEqItems : (a b : List Json) → Decidable (a = b)
  | [], [] => isTrue rfl
  | [], _ :: _ => isFalse (by simp)
  | _ :: _, [] => isFalse (by simp)
  | x :: xs, y :: ys =>
      match decEq x y, decEqItems xs ys with
      | isTrue h, isTrue hs => isTrue (by rw [h, hs])
      | isFalse h, _ => isFalse (by simp [h])
      | _, isFalse hs => isFalse (by simp [hs])

/-- Whether two lists of fields are the same. -/
def decEqFields : (a b : List (String × Json)) → Decidable (a = b)
  | [], [] => isTrue rfl
  | [], _ :: _ => isFalse (by simp)
  | _ :: _, [] => isFalse (by simp)
  | (k, x) :: xs, (l, y) :: ys =>
      if hk : k = l then
        match decEq x y, decEqFields xs ys with
        | isTrue h, isTrue hs => isTrue (by rw [hk, h, hs])
        | isFalse h, _ => isFalse (by simp [h])
        | _, isFalse hs => isFalse (by simp [hs])
      else isFalse (by simp [hk])

end

instance : DecidableEq Json := decEq

mutual

/-- Whether two values agree, numbers compared by `Number.agrees`. -/
def agrees : Json → Json → Bool
  | .number a, .number b => a.agrees b
  | .array a, .array b => agreeItems a b
  | .object a, .object b => agreeFields a b
  | .null, .null => true
  | .bool a, .bool b => a = b
  | .string a, .string b => a = b
  | _, _ => false

/-- Whether two lists of values agree item by item. -/
def agreeItems : List Json → List Json → Bool
  | [], [] => true
  | x :: xs, y :: ys => agrees x y && agreeItems xs ys
  | _, _ => false

/-- Whether two lists of fields have the same keys in the same order and
    values that agree. -/
def agreeFields : List (String × Json) → List (String × Json) → Bool
  | [], [] => true
  | (k, x) :: xs, (l, y) :: ys => k = l && agrees x y && agreeFields xs ys
  | _, _ => false

end

/-! ## Canonical form -/

/-- Sets a key of a list with ascending keys. -/
def setField (key : String) (value : Json) : List (String × Json) → List (String × Json)
  | [] => [(key, value)]
  | (k, v) :: rest =>
      match compare key k with
      | .lt => (key, value) :: (k, v) :: rest
      | .eq => (key, value) :: rest
      | .gt => (k, v) :: setField key value rest

/-- Fields with ascending keys; the last of equal keys wins. -/
def sortFields (fields : List (String × Json)) : List (String × Json) :=
  fields.foldl (fun sorted f => setField f.1 f.2 sorted) []

mutual

/-- The value with the fields of every object in it sorted. -/
def canonical : Json → Json
  | .array items => .array (canonicalItems items)
  | .object fields => .object (sortFields (canonicalFields fields))
  | v => v

/-- Each value in canonical form. -/
def canonicalItems : List Json → List Json
  | [] => []
  | x :: xs => canonical x :: canonicalItems xs

/-- Each field's value in canonical form. -/
def canonicalFields : List (String × Json) → List (String × Json)
  | [] => []
  | (k, x) :: xs => (k, canonical x) :: canonicalFields xs

end

/-! ## Reading a value -/

/-- A natural number as a value. -/
def ofNat (n : Nat) : Json := .number (.ofNat n)

/-- The text of a string. -/
def asString? : Json → Option String
  | .string s => some s
  | _ => none

/-- A truth value. -/
def asBool? : Json → Option Bool
  | .bool b => some b
  | _ => none

/-- A whole number that is not negative. -/
def asNat? : Json → Option Nat
  | .number (.integer n) => if 0 ≤ n.val then some n.val.toNat else none
  | _ => none

/-- The items of an array. -/
def asArray? : Json → Option (List Json)
  | .array items => some items
  | _ => none

/-- The fields of an object. -/
def asObject? : Json → Option (List (String × Json))
  | .object fields => some fields
  | _ => none

/-- The first field with the given key. -/
def get? (key : String) : Json → Option Json
  | .object fields => fields.lookup key
  | _ => none

/-- An optional value, `null` if there is none. -/
def ofOption {α : Type} (f : α → Json) : Option α → Json
  | some a => f a
  | none => .null

/-- The texts of a list. -/
def ofStrings (xs : List String) : Json := .array (xs.map .string)

end Json

end CodeGraph

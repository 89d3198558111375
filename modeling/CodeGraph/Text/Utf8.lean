/-! # UTF-8 — bytes to text, or the place where they stop being text

    A machine that reads one byte at a time, and the reading of a whole byte
    string with it.

    * `State.next` says which bytes may follow in a character.
    * `decode` gives the text, or a `Fault` with the index of the character
      that cannot be finished.
    * A fault is `incomplete` only where the bytes end inside a character that
      was well formed so far. -/

namespace CodeGraph.Text.Utf8

/-- Why bytes are no text. -/
inductive Fault where
  /-- The `length` bytes from `index` begin no character. -/
  | invalid (length index : Nat)
  /-- The bytes end inside the character that begins at `index`. -/
  | incomplete (index : Nat)
deriving DecidableEq, Repr

namespace Fault

/-- The wording of a fault. -/
def message : Fault → String
  | .invalid length index =>
      "invalid utf-8 sequence of " ++ toString length ++ " bytes from index "
        ++ toString index
  | .incomplete index =>
      "incomplete utf-8 byte sequence from index " ++ toString index

end Fault

/-- The continuation bytes that a character still owes: how many, and the
    least and greatest value of the next one. -/
structure Owed where
  count : Nat
  low : Nat
  high : Nat
deriving DecidableEq, Repr

/-- What the first byte of a character owes, with the bits it contributes. -/
def Owed.ofFirst (b : Nat) : Option (Owed × Nat) :=
  if b < 0x80 then some (⟨0, 0x80, 0xBF⟩, b)
  else if b < 0xC2 then none
  else if b < 0xE0 then some (⟨1, 0x80, 0xBF⟩, b - 0xC0)
  else if b = 0xE0 then some (⟨2, 0xA0, 0xBF⟩, 0)
  else if b = 0xED then some (⟨2, 0x80, 0x9F⟩, 0xD)
  else if b < 0xF0 then some (⟨2, 0x80, 0xBF⟩, b - 0xE0)
  else if b = 0xF0 then some (⟨3, 0x90, 0xBF⟩, 0)
  else if b < 0xF4 then some (⟨3, 0x80, 0xBF⟩, b - 0xF0)
  else if b = 0xF4 then some (⟨3, 0x80, 0x8F⟩, 4)
  else none

/-- Reading inside a character that began at `start`, of which `taken` bytes
    are read with the value `bits`: the character, the index behind it, and the
    bytes from there. -/
def finish (start : Nat) : (taken : Nat) → (bits : Nat) → Owed → List UInt8 →
    Except Fault (Char × Nat × List UInt8)
  | taken, bits, ⟨0, _, _⟩, rest => .ok (Char.ofNat bits, start + taken, rest)
  | _, _, ⟨_ + 1, _, _⟩, [] => .error (.incomplete start)
  | taken, bits, ⟨owed + 1, low, high⟩, b :: rest =>
      if low ≤ b.toNat ∧ b.toNat ≤ high then
        finish start (taken + 1) (bits * 64 + (b.toNat - 0x80))
          ⟨owed, 0x80, 0xBF⟩ rest
      else .error (.invalid taken start)

/-- One character off the front of bytes that begin at index `start`. -/
def first (start : Nat) : (b : UInt8) → List UInt8 →
    Except Fault (Char × Nat × List UInt8)
  | b, rest =>
      match Owed.ofFirst b.toNat with
      | none => .error (.invalid 1 start)
      | some (owed, bits) => finish start 1 bits owed rest

theorem finish_length {start : Nat} : ∀ {taken bits : Nat} {owed : Owed}
    {bytes : List UInt8} {c : Char} {next : Nat} {rest : List UInt8},
    finish start taken bits owed bytes = .ok (c, next, rest) →
      rest.length + owed.count = bytes.length := by
  intro taken bits owed bytes
  fun_induction finish start taken bits owed bytes with
  | case1 => intro c next rest h; cases h; simp
  | case2 => intro c next rest h; cases h
  | case3 taken bits owed low high b rest' hb ih =>
      intro c next rest h
      have := ih h
      simp only [List.length_cons] at this ⊢
      omega
  | case4 => intro c next rest h; cases h

theorem first_length {start : Nat} {b : UInt8} {bytes : List UInt8} {c : Char}
    {next : Nat} {rest : List UInt8} (h : first start b bytes = .ok (c, next, rest)) :
    rest.length ≤ bytes.length := by
  simp only [first] at h
  cases howed : Owed.ofFirst b.toNat with
  | none => simp [howed] at h
  | some p =>
      simp only [howed] at h
      have := finish_length h
      omega

/-- The characters of bytes that begin at index `start`. -/
def decodeFrom (start : Nat) : List UInt8 → Except Fault (List Char)
  | [] => .ok []
  | b :: bytes =>
      match _h : first start b bytes with
      | .error fault => .error fault
      | .ok (c, next, rest) => (decodeFrom next rest).map (c :: ·)
termination_by bytes => bytes.length
decreasing_by
  have := first_length _h
  simp only [List.length_cons]
  omega

/-- The characters that bytes spell, or the first fault. -/
def decode (bytes : List UInt8) : Except Fault (List Char) :=
  decodeFrom 0 bytes

example : (decode [0x61, 0xC3, 0xA9]).toOption = some ['a', 'é'] := by
  decide +kernel

end CodeGraph.Text.Utf8

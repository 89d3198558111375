import CodeGraph.Proofs.Text.Lines
import CodeGraph.Text.Utf8
import Mathlib.Data.List.Basic
/-! # UTF-8 — text as bytes is read as the same text

    The bytes of a character are a first byte that owes the others, and what it admits
    behind it is what the character needs.

    * `ofFirst_three` and `ofFirst_four` settle the first bytes that admit less than all
      continuation bytes: forms that are too long, surrogates, and what lies beyond the
      last character.
    * `decode_encode` goes on from one character to a whole text.
    * Only the character of a newline has the byte of a newline in it
      (`lineFeed_mem_encode`). -/

namespace CodeGraph

/-! ## Arrays of bytes -/

theorem toList_loop (bs : ByteArray) (i : Nat) (r : List UInt8) :
    ByteArray.toList.loop bs i r = r.reverse ++ bs.data.toList.drop i := by
  fun_induction ByteArray.toList.loop bs i r with
  | case1 i r h ih =>
      have hi : i < bs.data.toList.length := h
      have hget : bs.get! i = bs.data.toList[i] := by
        rw [Array.getElem_toList]
        exact getElem!_pos bs.data i h
      rw [ih, List.reverse_cons, List.append_assoc, List.singleton_append, hget,
        List.getElem_cons_drop]
  | case2 i r h =>
      have hi : bs.data.toList.length ≤ i := Nat.le_of_not_lt h
      rw [List.drop_of_length_le hi, List.append_nil]

/-- The bytes of an array are listed in their order. -/
theorem toList_eq_data (bs : ByteArray) : bs.toList = bs.data.toList := by
  rw [ByteArray.toList, toList_loop]
  rfl

theorem toList_inj {a b : ByteArray} (h : a.toList = b.toList) : a = b := by
  rw [toList_eq_data, toList_eq_data] at h
  exact ByteArray.ext (Array.toList_inj.mp h)

namespace Text.Utf8

/-- The bytes of a text. -/
def encode (cs : List Char) : List UInt8 := cs.flatMap String.utf8EncodeChar

theorem encode_append (as bs : List Char) : encode (as ++ bs) = encode as ++ encode bs :=
  List.flatMap_append

/-- Texts are encoded one by one. -/
theorem encode_flatten (texts : List (List Char)) :
    encode texts.flatten = (texts.map encode).flatten := by
  induction texts with
  | nil => rfl
  | cons t texts ih => rw [List.flatten_cons, encode_append, ih, List.map_cons, List.flatten_cons]

/-- The bytes of a string are those of its characters. -/
theorem toUTF8_eq_encode (s : String) : s.toUTF8.toList = encode s.toList := by
  rw [toList_eq_data, String.toUTF8_eq_toByteArray]
  conv => lhs; rw [← String.ofList_toList (s := s)]
  rw [String.toByteArray_ofList, List.utf8Encode, List.toList_data_toByteArray, encode]

/-! ## One character -/

section Character

variable {start taken bits owed low high : Nat}

/-- A character is finished when no byte is owed. -/
theorem finish_zero (rest : List UInt8) :
    finish start taken bits ⟨0, low, high⟩ rest =
      .ok (Char.ofNat bits, start + taken, rest) := by
  rw [finish]

/-- An admitted byte adds its bits. -/
theorem finish_succ {x : Nat} (hx : x < 64) (hlow : low ≤ x + 128) (hhigh : x + 128 ≤ high)
    (rest : List UInt8) :
    finish start taken bits ⟨owed + 1, low, high⟩ (UInt8.ofNat (x + 128) :: rest) =
      finish start (taken + 1) (bits * 64 + x) ⟨owed, 0x80, 0xBF⟩ rest := by
  have hbyte : (UInt8.ofNat (x + 128)).toNat = x + 128 := by
    rw [UInt8.toNat_ofNat']
    omega
  rw [finish, hbyte, if_pos ⟨hlow, hhigh⟩, Nat.add_sub_cancel]

end Character

/-- A character of three bytes is not too long for them, and it is no surrogate. -/
theorem ofFirst_three {k x : Nat} (hk : k < 16) (hx : x < 64) (hshort : k = 0 → 32 ≤ x)
    (hsurrogate : k = 13 → x < 32) :
    ∃ low high, Owed.ofFirst (k + 224) = some (⟨2, low, high⟩, k) ∧
      low ≤ x + 128 ∧ x + 128 ≤ high := by
  by_cases hzero : k = 0
  · subst hzero
    have := hshort rfl
    exact ⟨0xA0, 0xBF, rfl, by omega, by omega⟩
  · by_cases hgap : k = 13
    · subst hgap
      have := hsurrogate rfl
      exact ⟨0x80, 0x9F, rfl, by omega, by omega⟩
    · refine ⟨0x80, 0xBF, ?_, by omega, by omega⟩
      rw [Owed.ofFirst, if_neg (by omega), if_neg (by omega), if_neg (by omega),
        if_neg (by omega), if_neg (by omega), if_pos (by omega), Nat.add_sub_cancel]

/-- A character of four bytes is not too long for them, and it is not beyond the last
    one. -/
theorem ofFirst_four {k x : Nat} (hk : k < 5) (hx : x < 64) (hshort : k = 0 → 16 ≤ x)
    (hlast : k = 4 → x < 16) :
    ∃ low high, Owed.ofFirst (k + 240) = some (⟨3, low, high⟩, k) ∧
      low ≤ x + 128 ∧ x + 128 ≤ high := by
  by_cases hzero : k = 0
  · subst hzero
    have := hshort rfl
    exact ⟨0x90, 0xBF, rfl, by omega, by omega⟩
  · by_cases hfour : k = 4
    · subst hfour
      have := hlast rfl
      exact ⟨0x80, 0x8F, rfl, by omega, by omega⟩
    · refine ⟨0x80, 0xBF, ?_, by omega, by omega⟩
      rw [Owed.ofFirst, if_neg (by omega), if_neg (by omega), if_neg (by omega),
        if_neg (by omega), if_neg (by omega), if_neg (by omega), if_neg (by omega),
        if_pos (by omega), Nat.add_sub_cancel]

/-- The bytes of a character, by the number of them. -/
theorem utf8EncodeChar_eq (c : Char) :
    String.utf8EncodeChar c =
      if c.toNat ≤ 127 then [UInt8.ofNat c.toNat]
      else if c.toNat ≤ 2047 then
        [UInt8.ofNat (c.toNat / 64 % 32 + 192), UInt8.ofNat (c.toNat % 64 + 128)]
      else if c.toNat ≤ 65535 then
        [UInt8.ofNat (c.toNat / 4096 % 16 + 224), UInt8.ofNat (c.toNat / 64 % 64 + 128),
          UInt8.ofNat (c.toNat % 64 + 128)]
      else
        [UInt8.ofNat (c.toNat / 262144 % 8 + 240), UInt8.ofNat (c.toNat / 4096 % 64 + 128),
          UInt8.ofNat (c.toNat / 64 % 64 + 128), UInt8.ofNat (c.toNat % 64 + 128)] :=
  rfl

/-- No character is a surrogate. -/
theorem toNat_valid (c : Char) : c.toNat < 55296 ∨ 57343 < c.toNat ∧ c.toNat < 1114112 :=
  c.valid

/-- **The bytes of a character are read as that character,** whatever stands behind
    them. -/
theorem first_encode (start : Nat) (c : Char) (rest : List UInt8) :
    ∃ b bs next, String.utf8EncodeChar c = b :: bs ∧
      first start b (bs ++ rest) = .ok (c, next, rest) := by
  have hencode := utf8EncodeChar_eq c
  have hvalid := toNat_valid c
  obtain ⟨v, hv⟩ : ∃ v, c.toNat = v := ⟨_, rfl⟩
  have hc : c = Char.ofNat v := by rw [← hv, Char.ofNat_toNat]
  rw [hv] at hencode hvalid
  have hlead : ∀ n : Nat, n < 256 → (UInt8.ofNat n).toNat = n := fun n hn => by
    rw [UInt8.toNat_ofNat']
    omega
  by_cases hone : v ≤ 127
  · rw [if_pos hone] at hencode
    refine ⟨_, _, start + 1, hencode, ?_⟩
    rw [first, hlead v (by omega), Owed.ofFirst, if_pos (by omega), List.nil_append, hc]
    exact finish_zero rest
  by_cases htwo : v ≤ 2047
  · rw [if_neg hone, if_pos htwo] at hencode
    refine ⟨_, _, start + 2, hencode, ?_⟩
    rw [first, hlead _ (by omega), Owed.ofFirst, if_neg (by omega), if_neg (by omega),
      if_pos (by omega), List.singleton_append, hc]
    dsimp only
    rw [finish_succ (by omega) (by omega) (by omega), finish_zero]
    congr 3
    omega
  by_cases hthree : v ≤ 65535
  · rw [if_neg hone, if_neg htwo, if_pos hthree] at hencode
    obtain ⟨low, high, howed, hlow, hhigh⟩ := ofFirst_three (k := v / 4096 % 16)
      (x := v / 64 % 64) (by omega) (by omega) (by omega) (by omega)
    refine ⟨_, _, start + 3, hencode, ?_⟩
    rw [first, hlead _ (by omega), howed, List.cons_append, List.singleton_append, hc]
    dsimp only
    rw [finish_succ (by omega) hlow hhigh, finish_succ (by omega) (by omega) (by omega),
      finish_zero]
    congr 3
    omega
  · rw [if_neg hone, if_neg htwo, if_neg hthree] at hencode
    obtain ⟨low, high, howed, hlow, hhigh⟩ := ofFirst_four (k := v / 262144 % 8)
      (x := v / 4096 % 64) (by omega) (by omega) (by omega) (by omega)
    refine ⟨_, _, start + 4, hencode, ?_⟩
    rw [first, hlead _ (by omega), howed, List.cons_append, List.cons_append,
      List.singleton_append, hc]
    dsimp only
    rw [finish_succ (by omega) hlow hhigh, finish_succ (by omega) (by omega) (by omega),
      finish_succ (by omega) (by omega) (by omega), finish_zero]
    congr 3
    omega

/-! ## Whole texts -/

/-- The first character is decoded, and then what follows its bytes. -/
theorem decodeFrom_cons {start next : Nat} {b : UInt8} {bytes rest : List UInt8} {c : Char}
    (h : first start b bytes = .ok (c, next, rest)) :
    decodeFrom start (b :: bytes) = (decodeFrom next rest).map (c :: ·) := by
  rw [decodeFrom]
  split
  · rename_i fault hfault
    rw [h] at hfault
    cases hfault
  · rename_i hfirst
    rw [h] at hfirst
    cases hfirst
    rfl

/-- **What was encoded is decoded,** from wherever the count begins. -/
theorem decodeFrom_encode (start : Nat) (cs : List Char) :
    decodeFrom start (encode cs) = .ok cs := by
  induction cs generalizing start with
  | nil => rw [encode, List.flatMap_nil, decodeFrom]
  | cons c cs ih =>
      obtain ⟨b, bs, next, hencode, hfirst⟩ := first_encode start c (encode cs)
      rw [encode, List.flatMap_cons, hencode, List.cons_append, ← encode,
        decodeFrom_cons hfirst, ih]
      rfl

/-- **A text written as bytes is read as that text.** -/
theorem decode_encode (cs : List Char) : decode (encode cs) = .ok cs :=
  decodeFrom_encode 0 cs

/-- The bytes of a character that has several are all behind the first 128. -/
theorem eq_of_lineFeed_mem {c : Char} (h : lineFeed ∈ String.utf8EncodeChar c) :
    c = '\n' := by
  have hbyte : ∀ n : Nat, lineFeed = UInt8.ofNat n → n < 256 → n = 10 := by
    intro n heq hn
    have hnat := congrArg UInt8.toNat heq
    rw [UInt8.toNat_ofNat', Nat.mod_eq_of_lt (by omega)] at hnat
    exact hnat.symm
  rw [utf8EncodeChar_eq] at h
  have hvalid := toNat_valid c
  by_cases hone : c.toNat ≤ 127
  · rw [if_pos hone, List.mem_singleton] at h
    rw [← Char.ofNat_toNat c, hbyte _ h (by omega)]
  · refine absurd h ?_
    rw [if_neg hone]
    split
    · simp only [List.mem_cons, List.not_mem_nil, or_false]
      rintro (h | h) <;> have := hbyte _ h (by omega) <;> omega
    split
    · simp only [List.mem_cons, List.not_mem_nil, or_false]
      rintro (h | h | h) <;> have := hbyte _ h (by omega) <;> omega
    · simp only [List.mem_cons, List.not_mem_nil, or_false]
      rintro (h | h | h | h) <;> have := hbyte _ h (by omega) <;> omega

/-- A newline stands among the bytes only where it stands in the text. -/
theorem lineFeed_mem_encode {cs : List Char} : lineFeed ∈ encode cs ↔ '\n' ∈ cs := by
  rw [encode, List.mem_flatMap]
  constructor
  · rintro ⟨c, hc, hmem⟩
    rw [← eq_of_lineFeed_mem hmem]
    exact hc
  · exact fun h => ⟨'\n', h, by decide⟩

end Text.Utf8

end CodeGraph

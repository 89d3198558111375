import CodeGraph.Proofs.Json.Numeral
import CodeGraph.Proofs.Json.Plain
/-! # Numbers are told apart by their texts

    Two numbers that are written alike are the same, if both can stand in an attribute,
    and so are two finite numbers of single precision.

    * A numeral is found again in front of whatever may stand behind a number, so the text
      tells the numeral (`text_append_inj`).
    * The numeral tells the sign and the decimal, and no decimal is chosen for two numbers
      (`eq_of_shownValue`).
    * A whole number has neither a point nor a mark for the exponent, every other number
      has one of them. -/

namespace CodeGraph

namespace Decimal

open Binary

variable {width : ℕ} {least : ℤ} {k l : ℕ}

theorem mantissa_atRank_eq_zero : (atRank width least k).mantissa = 0 ↔ k = 0 := by
  have hk := Nat.div_add_mod k (2 ^ width)
  have hpos := Nat.two_pow_pos width
  rw [atRank, ofFields]
  generalize k / 2 ^ width = e at hk ⊢
  generalize k % 2 ^ width = f at hk ⊢
  split
  · rename_i he
    rw [he, Nat.mul_zero, Nat.zero_add] at hk
    rw [← hk]
  · rename_i he
    dsimp only
    rw [Nat.one_shiftLeft]
    have hmul : 0 < 2 ^ width * e := Nat.mul_pos hpos (Nat.pos_of_ne_zero he)
    omega

/-- **The decimal that is shown tells the number.** -/
theorem eq_of_shownValue (hwidth : 0 < width)
    (h : Json.shownValue (atRank width least k) = Json.shownValue (atRank width least l)) :
    k = l := by
  rw [Json.shownValue, Json.shownValue] at h
  by_cases hk : (atRank width least k).mantissa = 0
  · by_cases hl : (atRank width least l).mantissa = 0
    · rw [mantissa_atRank_eq_zero.mp hk, mantissa_atRank_eq_zero.mp hl]
    · rw [if_pos hk, if_neg hl] at h
      exact absurd h (ne_of_lt (value_shortest_pos hl))
  · by_cases hl : (atRank width least l).mantissa = 0
    · rw [if_neg hk, if_pos hl] at h
      exact absurd h.symm (ne_of_lt (value_shortest_pos hk))
    · rw [if_neg hk, if_neg hl] at h
      have hadmits := admits_shortest hk
      rw [h] at hadmits
      exact eq_of_admits hwidth hadmits (admits_shortest hl)

/-- The parts of a number of double precision are those at the place that its bits say,
    the sign left out. -/
theorem ofDouble_eq (bits : UInt64) :
    ofDouble bits = atRank 52 (-1074) (bits.toNat % 9223372036854775808) := by
  rw [ofDouble, atRank]
  norm_num
  congr 1
  omega

theorem ofSingle_eq (bits : UInt32) :
    ofSingle bits = atRank 23 (-149) (bits.toNat % 2147483648) := by
  rw [ofSingle, atRank]
  norm_num
  congr 1
  omega

end Decimal

namespace Json

open Text Reader Decimal

variable {m n : Numeral} {x y : Number} {rest rest' : List Char}

/-- A numeral is told by its text. -/
theorem text_append_inj (hm : m.Proper) (hn : n.Proper) (hrest : Ends rest)
    (hrest' : Ends rest') (h : m.text ++ rest = n.text ++ rest') : m = n ∧ rest = rest' := by
  have hread := taken_numeral hm hrest
  rw [h, taken_numeral hn hrest'] at hread
  cases hread
  exact ⟨rfl, rfl⟩

/-- A numeral is not `null`, whatever stands behind it. -/
theorem text_append_ne_null (hm : m.Proper) (s : List Char) :
    m.text ++ rest ≠ ['n', 'u', 'l', 'l'] ++ s := by
  intro h
  have hhead : (m.text ++ rest).head? = some 'n' := by
    rw [h]
    rfl
  obtain ⟨c, ds, hwhole⟩ := List.exists_cons_of_ne_nil hm.whole.1
  have hdigit := hm.whole.2 c (by rw [hwhole]; exact List.mem_cons_self)
  rw [Numeral.text, hwhole] at hhead
  cases hnegative : m.negative with
  | true =>
      rw [hnegative] at hhead
      cases hhead
  | false =>
      rw [hnegative] at hhead
      cases hhead
      cases hdigit

/-- Two numbers with one sign and one decimal are laid out alike only if signs and decimals
    are the same. -/
theorem signed_inj {layout : Layout} {negative negative' : Bool} {b b' : Binary}
    (h : layout.signed negative b = layout.signed negative' b') :
    negative = negative' ∧ shownValue b = shownValue b' := by
  obtain ⟨m, hm, htext⟩ := exists_text_eq_signed layout negative b
  obtain ⟨n, hn, htext'⟩ := exists_text_eq_signed layout negative' b'
  have hsame : m.text ++ [] = n.text ++ [] := by rw [htext, htext', h]
  obtain ⟨rfl, -⟩ := text_append_inj hm.proper hn.proper ends_nil ends_nil hsame
  exact ⟨hm.negative.symm.trans hn.negative, hm.magnitude.symm.trans hn.magnitude⟩

/-! ## Numbers of one precision -/

/-- A finite number is not written `null`. -/
theorem signed_ne_null (layout : Layout) (negative : Bool) (b : Binary) :
    layout.signed negative b ≠ ['n', 'u', 'l', 'l'] := by
  obtain ⟨m, hm, htext⟩ := exists_text_eq_signed layout negative b
  intro h
  refine text_append_ne_null hm.proper [] (?_ : m.text ++ [] = _)
  rw [htext, h, List.append_nil]

/-- **Finite numbers of double precision are told apart by their texts.** -/
theorem double_inj {x y : Float} (hx : x.isFinite = true)
    (h : (Number.double x).print = (Number.double y).print) : x = y := by
  rw [Number.print, Number.print, doubleText?, doubleText?, if_pos hx] at h
  by_cases hy : y.isFinite = true
  · rw [if_pos hy, Option.getD_some, Option.getD_some] at h
    obtain ⟨hsign, hvalue⟩ := signed_inj h
    rw [ofDouble_eq, ofDouble_eq] at hvalue
    have hrank := eq_of_shownValue (by decide) hvalue
    rw [decide_eq_decide, ge_iff_le, ge_iff_le, UInt64.le_iff_toNat_le,
      UInt64.le_iff_toNat_le] at hsign
    have hlt := x.toBits.toNat_lt
    have hlt' := y.toBits.toNat_lt
    have hhigh : (9223372036854775808 : UInt64).toNat = 9223372036854775808 := rfl
    rw [hhigh] at hsign
    have hbits : x.toBits = y.toBits := UInt64.toNat_inj.mp (by omega)
    obtain ⟨⟨a, ha⟩⟩ := x
    obtain ⟨⟨b, hb⟩⟩ := y
    obtain rfl : a = b := hbits
    rfl
  · rw [if_neg hy] at h
    exact absurd h (signed_ne_null _ _ _)

/-- **Finite numbers of single precision are told apart by their texts.** -/
theorem single_inj {x y : Float32} (hx : x.isFinite = true)
    (h : (Number.single x).print = (Number.single y).print) : x = y := by
  rw [Number.print, Number.print, singleText?, singleText?, if_pos hx] at h
  by_cases hy : y.isFinite = true
  · rw [if_pos hy, Option.getD_some, Option.getD_some] at h
    obtain ⟨hsign, hvalue⟩ := signed_inj h
    rw [ofSingle_eq, ofSingle_eq] at hvalue
    have hrank := eq_of_shownValue (by decide) hvalue
    rw [decide_eq_decide, ge_iff_le, ge_iff_le, UInt32.le_iff_toNat_le,
      UInt32.le_iff_toNat_le] at hsign
    have hlt := x.toBits.toNat_lt
    have hlt' := y.toBits.toNat_lt
    have hhigh : (2147483648 : UInt32).toNat = 2147483648 := rfl
    rw [hhigh] at hsign
    have hbits : x.toBits = y.toBits := UInt32.toNat_inj.mp (by omega)
    obtain ⟨⟨a, ha⟩⟩ := x
    obtain ⟨⟨b, hb⟩⟩ := y
    obtain rfl : a = b := hbits
    rfl
  · rw [if_neg hy] at h
    exact absurd h (signed_ne_null _ _ _)

/-! ## Numbers in attributes -/

theorem Integer.numeral_inj {m n : Integer} (h : m.numeral = n.numeral) : m = n := by
  obtain ⟨a, ha, ha'⟩ := m
  obtain ⟨b, hb, hb'⟩ := n
  rw [numeral, numeral] at h
  injection h with hnegative hwhole
  have habs := congrArg (Nat.ofDigitChars 10 · 0) hwhole
  simp only [digitsOf, Nat.ofDigitChars_ten_toDigits] at habs
  rw [decide_eq_decide] at hnegative
  dsimp only at hnegative
  obtain rfl : a = b := by omega
  rfl

theorem Number.print_ne_null (hx : x.isPlain = true) : x.print ≠ ['n', 'u', 'l', 'l'] := by
  cases x with
  | integer n =>
      rw [← n.text_numeral]
      intro h
      refine text_append_ne_null n.proper_numeral [] (?_ : n.numeral.text ++ [] = _)
      rw [h, List.append_nil]
  | double x =>
      have hfinite : x.isFinite = true := hx
      rw [Number.print, doubleText?, if_pos hfinite, Option.getD_some]
      exact signed_ne_null _ _ _
  | single x => cases hx

/-- A whole number is not written with a point or a power of ten. -/
theorem Integer.print_ne_double (n : Integer) {x : Float} (hx : x.isFinite = true) :
    (Number.integer n).print ≠ (Number.double x).print := by
  rw [← n.text_numeral, Number.print, doubleText?, if_pos hx, Option.getD_some]
  intro h
  obtain ⟨m, hm, htext⟩ := exists_text_eq_signed .double (x.toBits ≥ 0x8000000000000000)
    (ofDouble x.toBits)
  have hsame : n.numeral.text ++ [] = m.text ++ [] := by rw [htext, h]
  obtain ⟨rfl, -⟩ := text_append_inj n.proper_numeral hm.proper ends_nil ends_nil hsame
  rcases hm.marked with hfraction | hexponent
  · exact hfraction rfl
  · exact hexponent rfl

/-- **Numbers in attributes are told apart by their texts.** -/
theorem Number.eq_of_print (hx : x.isPlain = true) (hy : y.isPlain = true)
    (h : x.print = y.print) : x = y := by
  cases x with
  | single x => cases hx
  | integer m =>
      cases y with
      | single y => cases hy
      | double y => exact absurd h (m.print_ne_double hy)
      | integer n =>
          have hsame : m.numeral.text ++ [] = n.numeral.text ++ [] := by
            rw [m.text_numeral, n.text_numeral, h]
          obtain ⟨hnumeral, -⟩ :=
            text_append_inj m.proper_numeral n.proper_numeral ends_nil ends_nil hsame
          rw [Integer.numeral_inj hnumeral]
  | double x =>
      cases y with
      | single y => cases hy
      | integer n => exact absurd h.symm (n.print_ne_double hx)
      | double y => rw [double_inj hx h]

end Json

end CodeGraph

import CodeGraph.Decimal.Shortest
import Mathlib.Algebra.Order.Field.Power
import Mathlib.Order.Monotone.Basic
import Mathlib.Tactic.FieldSimp
import Mathlib.Tactic.Linarith
import Mathlib.Tactic.Positivity
import Mathlib.Tactic.Ring
/-! # Shortest decimals tell numbers apart

    The decimal that is chosen for a binary number rounds to it, and no rational rounds
    to two numbers of one format.

    * `Admits` says that a rational rounds to a number.  On a grid that is what `rounds`
      decides (`rounds_iff`), and so the chosen decimal is admitted (`admits_shortest`).
    * In the order of a format each number ends where the next one begins
      (`high_eq_low_succ`), and of two neighbours one is odd and takes neither of its ends.
    * Hence the numbers that admit one rational are the same (`eq_of_admits`). -/

namespace CodeGraph.Decimal

/-- The rational that a decimal is. -/
def Scaled.value (d : Scaled) : ℚ := d.digits * (10 : ℚ) ^ d.exponent

namespace Binary

variable {b : Binary} {x : ℚ}

/-! ## Rounding -/

/-- A quarter of the distance to the next larger number. -/
def quarter (b : Binary) : ℚ := (2 : ℚ) ^ b.exponent / 4

/-- A rational that rounds to a number. -/
def Admits (b : Binary) (x : ℚ) : Prop :=
  if b.closed then b.low * b.quarter ≤ x ∧ x ≤ b.high * b.quarter
  else b.low * b.quarter < x ∧ x < b.high * b.quarter

theorem zpow_eq_div {c : ℚ} (hc : c ≠ 0) (e : ℤ) : c ^ e = c ^ e.toNat / c ^ (-e).toNat := by
  rw [eq_div_iff (pow_ne_zero _ hc), ← zpow_natCast, ← zpow_natCast, ← zpow_add₀ hc]
  congr 1
  omega

/-- The numerator and the denominator of a grid are those of the quarter and of the
    grid's own unit over one denominator. -/
theorem exists_denominator (b : Binary) (e : ℤ) : ∃ d : ℚ, 0 < d ∧
    ((b.scale.1 * Nat.pow 10 (-e).toNat : ℕ) : ℚ) = b.quarter * d ∧
    ((b.scale.2 * Nat.pow 10 e.toNat : ℕ) : ℚ) = (10 : ℚ) ^ e * d := by
  refine ⟨4 * 2 ^ (-b.exponent).toNat * 10 ^ (-e).toNat, by positivity, ?_, ?_⟩
  · rw [scale, quarter, zpow_eq_div two_ne_zero, Nat.one_shiftLeft]
    simp only [Nat.pow_eq]
    push_cast
    field_simp
  · rw [scale, zpow_eq_div (by norm_num : (10 : ℚ) ≠ 0)]
    simp only [Nat.pow_eq, Nat.shiftLeft_eq]
    push_cast
    field_simp

/-- **On a grid, rounding is decided.** -/
theorem rounds_iff (b : Binary) (e : ℤ) (n : ℕ) :
    b.rounds (b.scale.1 * Nat.pow 10 (-e).toNat) (b.scale.2 * Nat.pow 10 e.toNat) n = true ↔
      b.Admits (n * (10 : ℚ) ^ e) := by
  obtain ⟨d, hd, hparts, hunit⟩ := exists_denominator b e
  generalize b.scale.1 * Nat.pow 10 (-e).toNat = parts at hparts ⊢
  generalize b.scale.2 * Nat.pow 10 e.toNat = unit at hunit ⊢
  have hle : ∀ m : ℕ, m * parts ≤ n * unit ↔ m * b.quarter ≤ n * (10 : ℚ) ^ e := by
    intro m
    rw [← mul_le_mul_iff_left₀ hd, mul_assoc, mul_assoc, ← hparts, ← hunit]
    exact_mod_cast Iff.rfl
  have hge : ∀ m : ℕ, n * unit ≤ m * parts ↔ n * (10 : ℚ) ^ e ≤ m * b.quarter := by
    intro m
    rw [← mul_le_mul_iff_left₀ hd, mul_assoc, mul_assoc, ← hparts, ← hunit]
    exact_mod_cast Iff.rfl
  rw [rounds, Admits]
  split
  · rw [decide_eq_true_eq, hle, hge]
  · rw [decide_eq_true_eq, ← not_le, ← not_le, hle, hge, not_le, not_le]

/-- Digits on the grid of a number round to it. -/
theorem rounds_of_onGrid? {e : ℤ} {n : ℕ} (h : b.onGrid? e = some n) :
    b.rounds (b.scale.1 * Nat.pow 10 (-e).toNat) (b.scale.2 * Nat.pow 10 e.toNat) n = true := by
  rw [onGrid?] at h
  split at h
  · rename_i hbelow _
    rw [← Option.some.inj h]
    exact hbelow
  · rename_i _ habove
    rw [← Option.some.inj h]
    exact habove
  · cases h
  · rename_i hbelow habove
    split at h
    · rw [← Option.some.inj h]
      exact hbelow
    · rw [← Option.some.inj h]
      exact habove
    · rw [← Option.some.inj h]
      split
      · exact hbelow
      · exact habove

/-- Below a number that is not zero there is room for others that round to it. -/
theorem low_lt_centre (h : b.mantissa ≠ 0) : b.low < b.centre := by
  rw [low, centre]
  split <;> omega

/-- Above it there is room as well. -/
theorem centre_lt_high (b : Binary) : b.centre < b.high := by
  rw [high]
  omega

theorem quarter_pos (b : Binary) : 0 < b.quarter := by
  rw [quarter]
  positivity

/-- The exact value is in the middle. -/
theorem value_exact (b : Binary) : b.exact.value = b.centre * b.quarter := by
  rw [exact, Scaled.value, centre, quarter]
  split
  · rename_i h
    obtain ⟨k, hk⟩ := Int.eq_ofNat_of_zero_le h
    rw [hk, Int.toNat_natCast, Nat.shiftLeft_eq]
    push_cast
    rw [zpow_natCast]
    ring
  · rename_i h
    obtain ⟨k, hk⟩ := Int.eq_ofNat_of_zero_le (neg_nonneg.mpr (not_le.mp h).le)
    have hexponent : b.exponent = -(k : ℤ) := by omega
    rw [hexponent, neg_neg, Int.toNat_natCast, zpow_neg, zpow_neg, zpow_natCast, zpow_natCast,
      Nat.pow_eq]
    push_cast
    rw [show (10 : ℚ) = 2 * 5 by norm_num, mul_pow]
    field_simp

/-- The exact digits of a number round to it. -/
theorem admits_exact (h : b.mantissa ≠ 0) : b.Admits b.exact.value := by
  have hlow : (b.low : ℚ) * b.quarter < b.centre * b.quarter :=
    mul_lt_mul_of_pos_right (by exact_mod_cast low_lt_centre h) b.quarter_pos
  have hhigh : (b.centre : ℚ) * b.quarter < b.high * b.quarter :=
    mul_lt_mul_of_pos_right (by exact_mod_cast b.centre_lt_high) b.quarter_pos
  rw [Admits, value_exact]
  split
  · exact ⟨hlow.le, hhigh.le⟩
  · exact ⟨hlow, hhigh⟩

/-- **The chosen decimal rounds to the number.** -/
theorem admits_shortest (h : b.mantissa ≠ 0) : b.Admits b.shortest.value := by
  rw [shortest]
  cases hgrid : (List.range 20).findSome? fun (i : Nat) =>
      (b.onGrid? (b.coarsest - i)).map fun n => Scaled.mk n (b.coarsest - i) with
  | none => exact admits_exact h
  | some d =>
      obtain ⟨i, -, hi⟩ := List.exists_of_findSome?_eq_some hgrid
      obtain ⟨n, hn, rfl⟩ := Option.map_eq_some_iff.mp hi
      exact (rounds_iff b _ n).mp (rounds_of_onGrid? hn)

/-- **The chosen decimal of a positive number is positive.** -/
theorem value_shortest_pos (h : b.mantissa ≠ 0) : 0 < b.shortest.value := by
  have hlow : (0 : ℚ) < b.low * b.quarter := by
    refine mul_pos ?_ b.quarter_pos
    have hpos : 0 < b.low := by
      rw [low, centre]
      split <;> omega
    exact_mod_cast hpos
  have hadmits := admits_shortest h
  rw [Admits] at hadmits
  split at hadmits
  · exact lt_of_lt_of_le hlow hadmits.1
  · exact hlow.trans hadmits.1

/-- A number that is not zero is not printed as zero. -/
theorem shortest_pos (h : b.mantissa ≠ 0) : 0 < b.shortest.digits := by
  refine Nat.pos_of_ne_zero fun hzero => ?_
  have hvalue := value_shortest_pos h
  rw [Scaled.value, hzero, Nat.cast_zero, zero_mul] at hvalue
  exact lt_irrefl 0 hvalue

/-! ## The numbers of a format in their order -/

/-- The number at a place in the order of the positive numbers of a format. -/
def atRank (width : ℕ) (least : ℤ) (k : ℕ) : Binary :=
  ofFields width least (k / 2 ^ width) (k % 2 ^ width)

/-- How often the distance between numbers has doubled up to a place. -/
def doublings (width k : ℕ) : ℕ := k / 2 ^ width - 1

variable {width : ℕ} {least : ℤ} {k l : ℕ}

/-- The exponent goes up by one with every doubling. -/
theorem exponent_atRank (width : ℕ) (least : ℤ) (k : ℕ) :
    (atRank width least k).exponent = least + doublings width k := by
  rw [atRank, ofFields, doublings]
  generalize k / 2 ^ width = e
  split
  · rename_i h
    rw [h]
    simp
  · dsimp only
    omega

theorem quarter_atRank (width : ℕ) (least : ℤ) (k : ℕ) :
    (atRank width least k).quarter = 2 ^ doublings width k * ((2 : ℚ) ^ least / 4) := by
  rw [quarter, exponent_atRank, zpow_add₀ two_ne_zero, zpow_natCast]
  ring

/-- The least real that rounds to the number at a place, in the unit of the format. -/
def lowAt (width : ℕ) (k : ℕ) : ℕ := (atRank width 0 k).low * 2 ^ doublings width k

/-- Where the numbers of a format lie to each other does not depend on its least exponent. -/
theorem low_atRank (width : ℕ) (least : ℤ) (k : ℕ) :
    (atRank width least k).low = (atRank width 0 k).low := by
  rw [atRank, atRank, ofFields, ofFields]
  split <;> rfl

theorem high_atRank (width : ℕ) (least : ℤ) (k : ℕ) :
    (atRank width least k).high = (atRank width 0 k).high := by
  rw [atRank, atRank, ofFields, ofFields]
  split <;> rfl

/-- The place of a number with given fields. -/
theorem lowAt_add {e f : ℕ} (hf : f < 2 ^ width) :
    lowAt width (2 ^ width * e + f) = (ofFields width 0 e f).low * 2 ^ (e - 1) := by
  have hpos : 0 < 2 ^ width := Nat.two_pow_pos width
  rw [lowAt, doublings, atRank, Nat.mul_add_div hpos, Nat.div_eq_of_lt hf, Nat.add_zero,
    Nat.mul_add_mod, Nat.mod_eq_of_lt hf]

/-- A number ends where the next one begins. -/
theorem high_eq_low_succ (width k : ℕ) :
    (atRank width 0 k).high * 2 ^ doublings width k = lowAt width (k + 1) := by
  have hpos : 0 < 2 ^ width := Nat.two_pow_pos width
  have hf : k % 2 ^ width < 2 ^ width := Nat.mod_lt k hpos
  have hk : 2 ^ width * (k / 2 ^ width) + k % 2 ^ width = k := Nat.div_add_mod k _
  rw [atRank, doublings]
  generalize k / 2 ^ width = e at hk ⊢
  generalize k % 2 ^ width = f at hf hk ⊢
  by_cases hnext : f + 1 < 2 ^ width
  · -- the next number has the same exponent
    rw [← hk, Nat.add_assoc, lowAt_add hnext]
    rcases Nat.eq_zero_or_pos e with rfl | he
    · simp [ofFields, high, low, centre]
      omega
    · simp [ofFields, high, low, centre, Nat.ne_of_gt he]
      omega
  · -- it is the first one with the next exponent
    have hlast : k + 1 = 2 ^ width * (e + 1) + 0 := by
      rw [← hk, Nat.mul_add, Nat.mul_one]
      omega
    rw [hlast, lowAt_add hpos]
    rcases Nat.eq_zero_or_pos e with rfl | he
    · simp [ofFields, high, low, centre]
      omega
    · obtain ⟨e, rfl⟩ := Nat.exists_eq_succ_of_ne_zero (Nat.ne_of_gt he)
      simp [ofFields, high, low, centre, Nat.one_shiftLeft]
      rw [show 4 * (2 ^ width + f) + 2 = (4 * 2 ^ width - 1) * 2 by omega, Nat.pow_succ']
      rw [Nat.mul_assoc]

theorem low_atRank_lt_high (width k : ℕ) : (atRank width 0 k).low < (atRank width 0 k).high := by
  rw [low, high]
  split <;> omega

/-- A greater number begins further up. -/
theorem strictMono_lowAt (width : ℕ) : StrictMono (lowAt width) :=
  strictMono_nat_of_lt_succ fun k => by
    rw [← high_eq_low_succ, lowAt]
    exact Nat.mul_lt_mul_of_pos_right (low_atRank_lt_high width k) (Nat.two_pow_pos _)

/-- The numbers in even places are even. -/
theorem closed_atRank (hwidth : 0 < width) :
    (atRank width least k).closed = true ↔ k % 2 = 0 := by
  obtain ⟨w, rfl⟩ := Nat.exists_eq_succ_of_ne_zero (Nat.ne_of_gt hwidth)
  have hk := Nat.div_add_mod k (2 ^ (w + 1))
  rw [closed, decide_eq_true_eq, atRank, ofFields]
  generalize k / 2 ^ (w + 1) = e at hk ⊢
  generalize k % 2 ^ (w + 1) = f at hk ⊢
  rw [Nat.pow_succ', Nat.mul_assoc] at hk
  split
  · dsimp only
    omega
  · dsimp only
    rw [Nat.one_shiftLeft, Nat.pow_succ']
    omega

/-- **What rounds to the number at a place:** what lies between its place and the next, the
    ends only if the place is even. -/
theorem admits_atRank (hwidth : 0 < width) : (atRank width least k).Admits x ↔
    if k % 2 = 0 then
      lowAt width k * ((2 : ℚ) ^ least / 4) ≤ x ∧ x ≤ lowAt width (k + 1) * ((2 : ℚ) ^ least / 4)
    else
      lowAt width k * ((2 : ℚ) ^ least / 4) < x ∧
        x < lowAt width (k + 1) * ((2 : ℚ) ^ least / 4) := by
  have hlow : ((atRank width least k).low : ℚ) * (atRank width least k).quarter =
      lowAt width k * ((2 : ℚ) ^ least / 4) := by
    rw [quarter_atRank, low_atRank, lowAt]
    push_cast
    ring
  have hhigh : ((atRank width least k).high : ℚ) * (atRank width least k).quarter =
      lowAt width (k + 1) * ((2 : ℚ) ^ least / 4) := by
    rw [quarter_atRank, high_atRank, ← high_eq_low_succ]
    push_cast
    ring
  rw [Admits, hlow, hhigh]
  by_cases heven : k % 2 = 0
  · rw [if_pos ((closed_atRank hwidth).mpr heven), if_pos heven]
  · rw [if_neg fun h => heven ((closed_atRank hwidth).mp h), if_neg heven]

/-- **No rational rounds to two numbers of a format.** -/
theorem eq_of_admits (hwidth : 0 < width) (hk : (atRank width least k).Admits x)
    (hl : (atRank width least l).Admits x) : k = l := by
  wlog hlt : k < l generalizing k l
  · rcases Nat.lt_or_eq_of_le (Nat.le_of_not_lt hlt) with h | h
    · exact (this hl hk h).symm
    · exact h.symm
  exfalso
  have hunit : 0 < (2 : ℚ) ^ least / 4 := by positivity
  rw [admits_atRank hwidth] at hk hl
  have hle : lowAt width (k + 1) ≤ lowAt width l := (strictMono_lowAt width).monotone hlt
  have hmul : lowAt width (k + 1) * ((2 : ℚ) ^ least / 4) ≤
      lowAt width l * ((2 : ℚ) ^ least / 4) :=
    mul_le_mul_of_nonneg_right (by exact_mod_cast hle) hunit.le
  split at hk
  · split at hl
    · -- both are even, so they are not neighbours
      have hfar : lowAt width (k + 1) < lowAt width l := strictMono_lowAt width (by omega)
      have hmul : lowAt width (k + 1) * ((2 : ℚ) ^ least / 4) <
          lowAt width l * ((2 : ℚ) ^ least / 4) :=
        mul_lt_mul_of_pos_right (by exact_mod_cast hfar) hunit
      linarith [hk.2, hl.1]
    · linarith [hk.2, hl.1]
  · split at hl <;> linarith [hk.2, hl.1]

end Binary

end CodeGraph.Decimal

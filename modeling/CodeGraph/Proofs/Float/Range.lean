import Mathlib
/-! # The range of double precision

    Which operations on finite numbers give finite numbers again.

    * A number is finite if its last bit stands for a power of two up to 971
      (`isFinite_pack`), and then its leading bit stands for at most 1023
      (`unpack_of_isFinite`).
    * Rounding cuts bits off and adds one to the rest at most (`exists_rounded`), so the
      last bit moves up by one place at most from where the bits that are kept end.
    * So whole numbers of 64 bits are finite, and quotients by powers of ten are; a product
      is finite or infinite, and never undefined. -/

namespace CodeGraph.Double

open Float.Model Float.Model.UnpackedFloat

/-! ## Packing -/

/-- The last bit of a number is in range. -/
def Fits : UnpackedFloat → Prop
  | .zero _ => True
  | .finite _ _ e _ => e ≤ 971
  | _ => False

/-- Only one exponent marks what is not finite. -/
theorem isFinite_unpack {b : BitVec Format.binary64.numBits} (h : unpackExponent b ≠ -1#11) :
    (UnpackedFloat.unpack Format.binary64 b).isFinite = true := by
  fun_cases UnpackedFloat.unpack Format.binary64 b with
  | case1 => contradiction
  | case2 => contradiction
  | case3 => rfl
  | case4 => rfl
  | case5 => rfl

/-- What fits is packed as a finite number. -/
theorem unpackExponent_pack {u : UnpackedFloat} (h : Fits u) :
    unpackExponent (UnpackedFloat.pack Format.binary64 u) ≠ -1#11 := by
  fun_cases UnpackedFloat.pack Format.binary64 u with
  | case1 => cases h
  | case2 => cases h
  | case3 s =>
      rw [packedZero, unpackExponent_packComponents]
      decide
  | case4 s m e hm biased hlarge =>
      -- what is too large does not fit
      have he : e ≤ 971 := h
      have hbiased : 2 ^ 11 ≤ (e + 1023 + 52).toNat + 1 := hlarge
      omega
  | case5 s m e hm bits biased hlarge =>
      have hbiased : ¬ 2 ^ 11 ≤ biased + 1 := hlarge
      rw [unpackExponent_packComponents]
      intro heq
      have htoNat : biased % 2 ^ 11 = 2047 := congrArg BitVec.toNat heq
      omega
  | case6 s m e hm =>
      rw [unpackExponent_packComponents]
      decide

/-- A number that fits is packed as a finite one. -/
theorem isFinite_pack {u : UnpackedFloat} (h : Fits u) :
    (Float.Model.pack u).isFinite = true := by
  rw [Float.Model.isFinite, Float.Model.unpack, Float.Model.pack]
  exact isFinite_unpack (unpackExponent_pack h)

theorem log2_lt {m k : ℕ} (hk : 0 < k) (h : m < 2 ^ k) : m.log2 < k := by
  by_cases hm : m = 0
  · rw [hm]
    exact hk
  · exact (Nat.log2_lt hm).mpr h

/-- What a finite number is unpacked as. -/
theorem unpack_of_isFinite {x : Float.Model} (h : x.isFinite = true) :
    (∃ s, x.unpack = .zero s) ∨
      ∃ s m e hm, x.unpack = .finite s m e hm ∧ (m.log2 : ℤ) + e ≤ 1023 ∧ e ≤ 971 := by
  rw [Float.Model.isFinite] at h
  generalize hunpack : x.unpack = u at h ⊢
  rw [Float.Model.unpack] at hunpack
  revert hunpack
  fun_cases UnpackedFloat.unpack Format.binary64 x.toBits.toBitVec with
  | case1 =>
      rintro rfl
      cases h
  | case2 =>
      rintro rfl
      cases h
  | case3 M E S s =>
      rintro rfl
      exact Or.inl ⟨s, rfl⟩
  | case4 M E e S s hinfinite hzero hM =>
      -- the numbers next to zero, which all have the least exponent
      rintro rfl
      have hlog := log2_lt (k := 52) (by decide) M.isLt
      have he : e = -1075 := by
        show (E.toNat : ℤ) - (1023 + 52) = _
        rw [hzero]
        rfl
      refine Or.inr ⟨_, _, _, _, rfl, ?_, ?_⟩
      · omega
      · omega
  | case5 M E e S s hinfinite hzero =>
      rintro rfl
      have hlog := log2_lt (k := 53) (by decide) (1#1 ++ M).isLt
      have hlt : E.toNat < 2 ^ 11 := E.isLt
      have hne : E.toNat ≠ 2047 := fun heq => hinfinite (BitVec.toNat_inj.mp heq)
      have he : e = (E.toNat : ℤ) - (1023 + 52) := rfl
      refine Or.inr ⟨_, _, _, _, rfl, ?_, ?_⟩
      · omega
      · omega

/-! ## Rounding -/

theorem mantissa_shiftRight (em : ExtendedMantissa) (k : ℕ) :
    (em >>> k).mantissa = em.mantissa / 2 ^ k := by
  induction k with
  | zero => exact (Nat.div_one _).symm
  | succ k ih =>
      show (em >>> k).mantissa / 2 = _
      rw [ih, Nat.div_div_eq_div_mul, ← pow_succ]

/-- Rounding adds one to a mantissa at most. -/
theorem roundedMantissa_bounds (em : ExtendedMantissa) :
    em.mantissa ≤ em.roundedMantissa ∧ em.roundedMantissa ≤ em.mantissa + 1 := by
  obtain ⟨m, r, s⟩ := em
  cases r <;> cases s <;>
    simp only [ExtendedMantissa.roundedMantissa, ExtendedMantissa.accuracy,
      Accuracy.roundToNearestEven]
  all_goals omega

/-- The place that the last bit of a number is shifted to. -/
def place (m : ℕ) (e : ℤ) : ℤ := max e (max (m.log2 + e - 52) (-1074))

theorem snd_shiftToTargetExponent (m : ℕ) (e : ℤ) (a : Accuracy) :
    (shiftToTargetExponent Format.binary64 m e a).2 = place m e := by
  have htarget : Format.binary64.targetExponent (totalExponent m e) =
      max (m.log2 + e - 52) (-1074) := by
    show max ((m.log2 : ℤ) + 1 + e - 53) (-1074) = _
    omega
  rw [shiftToTargetExponent, htarget, shiftToExponent, place]
  dsimp only
  omega

/-- A mantissa is moved to its place by a division. -/
theorem mantissa_shiftToTargetExponent (m : ℕ) (e : ℤ) (a : Accuracy) :
    (shiftToTargetExponent Format.binary64 m e a).1.mantissa =
      m / 2 ^ (place m e - e).toNat := by
  rw [← snd_shiftToTargetExponent m e a, shiftToTargetExponent, shiftToExponent]
  dsimp only
  rw [mantissa_shiftRight, add_sub_cancel_left, Int.toNat_natCast]
  cases a with
  | exact => rfl
  | inexact o => cases o <;> rfl

section Rounded

variable {m : ℕ} {e : ℤ} {a : Accuracy} {s : Sign}

/-- **What rounding does:** the bits that are not kept are cut off, the rest is perhaps one
    more, and that is cut off again. -/
theorem exists_rounded (s : Sign) (m : ℕ) (e : ℤ) (a : Accuracy) : ∃ r,
    m / 2 ^ (place m e - e).toNat ≤ r ∧ r ≤ m / 2 ^ (place m e - e).toNat + 1 ∧
      roundWithAccuracy Format.binary64 s m e a =
        if h : r / 2 ^ (place r (place m e) - place m e).toNat = 0 then .zero s
        else .finite s (r / 2 ^ (place r (place m e) - place m e).toNat)
          (place r (place m e)) (Nat.pos_of_ne_zero h) := by
  have hplace := snd_shiftToTargetExponent m e a
  have hkept := mantissa_shiftToTargetExponent m e a
  rw [roundWithAccuracy]
  generalize shiftToTargetExponent Format.binary64 m e a = first at hplace hkept ⊢
  obtain ⟨em, e₁⟩ := first
  obtain rfl : e₁ = place m e := hplace
  have hbounds := roundedMantissa_bounds em
  have hkept : em.mantissa = m / 2 ^ (place m e - e).toNat := hkept
  rw [hkept] at hbounds
  refine ⟨em.roundedMantissa, hbounds.1, hbounds.2, ?_⟩
  dsimp only
  simp only [mantissa_shiftToTargetExponent, snd_shiftToTargetExponent]

/-- The bits that rounding keeps fit into a mantissa. -/
theorem kept_lt (m : ℕ) (e : ℤ) : m / 2 ^ (place m e - e).toNat < 2 ^ 53 := by
  rw [Nat.div_lt_iff_lt_mul (Nat.two_pow_pos _), ← pow_add]
  refine lt_of_lt_of_le Nat.lt_log2_self (Nat.pow_le_pow_right (by decide) ?_)
  rw [place]
  omega

theorem isFinite_roundWithAccuracy (s : Sign) (m : ℕ) (e : ℤ) (a : Accuracy) :
    (roundWithAccuracy Format.binary64 s m e a).isFinite = true := by
  obtain ⟨r, -, -, hround⟩ := exists_rounded s m e a
  rw [hround]
  split <;> rfl

/-- **Rounding moves the last bit up by one place at most.** -/
theorem fits_roundWithAccuracy (he : e ≤ 970) (hm : (m.log2 : ℤ) + e ≤ 1022) :
    Fits (roundWithAccuracy Format.binary64 s m e a) := by
  obtain ⟨r, -, hr, hround⟩ := exists_rounded s m e a
  have hkept := kept_lt m e
  have hlog := log2_lt (m := r) (k := 54) (by decide) (by omega)
  rw [hround]
  split
  · exact trivial
  · show place r (place m e) ≤ 971
    rw [place, place]
    omega

/-- What has more bits than are kept is rounded to as many bits as are kept. -/
theorem exists_roundWithAccuracy (hlog : 52 ≤ m.log2) (hm : -1022 ≤ (m.log2 : ℤ) + e) :
    ∃ m' e' hm', roundWithAccuracy Format.binary64 s m e a = .finite s m' e' hm' ∧
      m'.log2 = 52 ∧ (m.log2 : ℤ) + e - 52 ≤ e' ∧ e' ≤ m.log2 + e - 51 := by
  obtain ⟨r, hleast, hmost, hround⟩ := exists_rounded s m e a
  have hkept := kept_lt m e
  have hplace : place m e = m.log2 + e - 52 := by
    rw [place]
    omega
  have hfull : 2 ^ 52 ≤ m / 2 ^ (place m e - e).toNat := by
    rw [Nat.le_div_iff_mul_le (Nat.two_pow_pos _), ← pow_add,
      show 52 + (place m e - e).toNat = m.log2 by omega]
    exact Nat.log2_self_le (by rintro rfl; cases hlog)
  -- rounding may carry into one more bit; then the place moves once more
  have hagain : (r / 2 ^ (place r (place m e) - place m e).toNat).log2 = 52 ∧
      place m e ≤ place r (place m e) ∧ place r (place m e) ≤ place m e + 1 := by
    by_cases hsame : r < 2 ^ 53
    · have hr : r.log2 = 52 := (Nat.log2_eq_iff (by omega)).mpr ⟨by omega, hsame⟩
      have hstay : place r (place m e) = place m e := by
        rw [place, hr]
        omega
      rw [hstay, sub_self, Int.toNat_zero, pow_zero, Nat.div_one]
      omega
    · -- only the bits that are all set are rounded up to one more bit
      obtain rfl : r = 2 ^ 53 := by omega
      have hstep : place (2 ^ 53) (place m e) = place m e + 1 := by
        rw [place, Nat.log2_two_pow]
        omega
      rw [hstep, add_sub_cancel_left]
      exact ⟨Nat.log2_two_pow (n := 52), by omega, by omega⟩
  rw [hround]
  split
  · rename_i hzero
    rw [hzero] at hagain
    cases hagain.1
  · rename_i hpos
    exact ⟨_, _, Nat.pos_of_ne_zero hpos, rfl, hagain.1, by omega, by omega⟩

end Rounded

/-! ## Operations -/

theorem fits_round {s : Sign} {m : ℕ} (hm : m < 2 ^ 64) :
    Fits (UnpackedFloat.round Format.binary64 s m 0) := by
  rw [UnpackedFloat.round, decreaseExponent]
  dsimp only
  generalize (0 - Format.binary64.targetExponent (totalExponent m 0)).toNat = k
  have hlog := log2_lt (m := m <<< k) (k := 64 + k) (by omega) (by
    rw [Nat.shiftLeft_eq, pow_add]
    exact Nat.mul_lt_mul_of_pos_right hm (Nat.two_pow_pos k))
  exact fits_roundWithAccuracy (by omega) (by omega)

/-- A whole number of 64 bits is finite. -/
theorem isFinite_toFloat (n : UInt64) : n.toFloat.isFinite = true := by
  refine isFinite_pack (?_ : Fits (UnpackedFloat.normalize Format.binary64 n.toNat 0 .positive))
  have hn := n.toNat_lt
  rw [UnpackedFloat.normalize]
  split
  · exact fits_round (by omega)
  · exact trivial
  · exact fits_round (by omega)

theorem isFinite_neg {x : Float} (h : x.isFinite = true) : (-x).isFinite = true := by
  refine isFinite_pack (?_ : Fits x.toModel.unpack.neg)
  obtain ⟨s, hx⟩ | ⟨s, m, e, hm, hx, -, he⟩ := unpack_of_isFinite h
  · rw [hx]
    exact trivial
  · rw [hx]
    exact he

/-- A number that does not fit is packed as an infinite one. -/
theorem isFinite_or_isInf_pack {u : UnpackedFloat} (h : u.isFinite = true) :
    (Float.Model.pack u).isFinite = true ∨ (Float.Model.pack u).isInf = true := by
  cases u with
  | notANumber => cases h
  | infinity s => cases h
  | zero s => exact Or.inl (isFinite_pack trivial)
  | finite s m e hm =>
      by_cases he : e ≤ 971
      · exact Or.inl (isFinite_pack he)
      · have hlarge : 2 ^ 11 ≤ (e + 1023 + 52).toNat + 1 := by omega
        have hpack : UnpackedFloat.pack Format.binary64 (.finite s m e hm) =
            packedInfinity Format.binary64 s := if_pos hlarge
        refine Or.inr (?_ : (UnpackedFloat.unpack Format.binary64
          (UnpackedFloat.pack Format.binary64 (.finite s m e hm))).isInf = true)
        rw [hpack]
        cases s <;> decide

/-- A product of finite numbers is not undefined. -/
theorem isFinite_or_isInf_mul {x y : Float} (hx : x.isFinite = true) (hy : y.isFinite = true) :
    (x * y).isFinite = true ∨ (x * y).isInf = true := by
  refine isFinite_or_isInf_pack
    (?_ : (UnpackedFloat.mul Format.binary64 x.toModel.unpack y.toModel.unpack).isFinite = true)
  obtain ⟨s, hx⟩ | ⟨s, m, e, hm, hx, -⟩ := unpack_of_isFinite hx
  · obtain ⟨s', hy⟩ | ⟨s', m', e', hm', hy, -⟩ := unpack_of_isFinite hy
    · rw [hx, hy]
      rfl
    · rw [hx, hy]
      rfl
  · obtain ⟨s', hy⟩ | ⟨s', m', e', hm', hy, -⟩ := unpack_of_isFinite hy
    · rw [hx, hy]
      rfl
    · rw [hx, hy]
      exact isFinite_roundWithAccuracy _ _ _ _

/-! ## Large numbers -/

/-- A number that is at least two, as its leading bit says. -/
def IsLarge (x : Float) : Bool :=
  match x.toModel.unpack with
  | .finite _ m e _ => decide (1 ≤ (m.log2 : ℤ) + e)
  | _ => false

/-- A large number is finite all the same. -/
theorem isFinite_of_isLarge {x : Float} (h : IsLarge x = true) : x.isFinite = true := by
  rw [IsLarge] at h
  rw [Float.isFinite, Float.Model.isFinite]
  split at h
  · rename_i hx
    rw [hx]
    rfl
  · cases h

/-- A number that is not next to zero is unpacked with all the bits that are kept. -/
theorem unpack_normal {b : BitVec Format.binary64.numBits} (hinfinite : unpackExponent b ≠ -1#11)
    (hzero : unpackExponent b ≠ 0#11) :
    ∃ s m hm, UnpackedFloat.unpack Format.binary64 b =
      .finite s m ((unpackExponent b).toNat - 1075) hm ∧ m.log2 = 52 := by
  fun_cases UnpackedFloat.unpack Format.binary64 b with
  | case1 => contradiction
  | case2 => contradiction
  | case3 => contradiction
  | case4 => contradiction
  | case5 M E e S s hE hE' =>
      have hlow : 2 ^ 52 ≤ (1#1 ++ M).toNat := by
        rw [BitVec.toNat_append]
        exact Nat.left_le_or
      exact ⟨_, _, _, rfl, (Nat.log2_eq_iff (by omega)).mpr ⟨hlow, (1#1 ++ M).isLt⟩⟩

theorem isLarge_pack {s : Sign} {m : ℕ} {e : ℤ} {hm : 0 < m} (hlog : m.log2 = 52)
    (hlow : -51 ≤ e) (hhigh : e ≤ 971) :
    IsLarge (.ofModel (Float.Model.pack (.finite s m e hm))) = true := by
  have hsmall : ¬ 2 ^ 11 ≤ (e + 1023 + 52).toNat + 1 := by omega
  have hkept : m.log2 + 1 = 53 := by rw [hlog]
  have hpack : UnpackedFloat.pack Format.binary64 (.finite s m e hm) =
      packComponents Format.binary64 s (BitVec.ofNat 11 (e + 1023 + 52).toNat)
        (BitVec.ofNat 52 m) := (if_neg hsmall).trans (if_pos hkept)
  have hexponent : (unpackExponent (UnpackedFloat.pack Format.binary64 (.finite s m e hm))).toNat =
      (e + 1023 + 52).toNat := by
    rw [hpack, unpackExponent_packComponents]
    exact Nat.mod_eq_of_lt (by omega)
  have hzero : unpackExponent (UnpackedFloat.pack Format.binary64 (.finite s m e hm)) ≠ 0#11 := by
    intro h
    rw [h] at hexponent
    have hfirst : (0 : ℕ) = (e + 1023 + 52).toNat := hexponent
    omega
  obtain ⟨s', m', hm', hunpack, hlog'⟩ := unpack_normal
    (unpackExponent_pack (u := .finite s m e hm) hhigh) hzero
  have hmodel : (Float.Model.pack (.finite s m e hm)).unpack = .finite s' m' _ hm' := hunpack
  rw [IsLarge, hmodel, hexponent]
  dsimp only
  rw [decide_eq_true_eq, hlog']
  omega

theorem log2_shiftLeft_le (m k : ℕ) : (m <<< k).log2 ≤ m.log2 + k := by
  refine Nat.lt_add_one_iff.mp (log2_lt (Nat.succ_pos _) ?_)
  rw [Nat.shiftLeft_eq, Nat.add_right_comm, pow_add]
  exact Nat.mul_lt_mul_of_pos_right Nat.lt_log2_self (Nat.two_pow_pos k)

/-- The leading bit of a quotient. -/
theorem log2_div_add_le {m n : ℕ} (h : n ≤ m) (hn : 0 < n) :
    (m / n).log2 + n.log2 ≤ m.log2 := by
  have hq : m / n ≠ 0 := Nat.ne_of_gt (Nat.div_pos h hn)
  rw [Nat.le_log2 (by omega), pow_add]
  calc 2 ^ (m / n).log2 * 2 ^ n.log2 ≤ (m / n) * n :=
        Nat.mul_le_mul (Nat.log2_self_le hq) (Nat.log2_self_le (Nat.ne_of_gt hn))
    _ ≤ m := Nat.div_mul_le_self m n

/-- **A finite number over a large one is finite.** -/
theorem isFinite_div {x y : Float} (hx : x.isFinite = true) (hy : IsLarge y = true) :
    (x / y).isFinite = true := by
  refine isFinite_pack
    (?_ : Fits (UnpackedFloat.div Format.binary64 x.toModel.unpack y.toModel.unpack))
  rw [IsLarge] at hy
  split at hy
  · rename_i s' m' e' hm' hy'
    rw [decide_eq_true_eq] at hy
    rw [hy']
    obtain ⟨s, hx⟩ | ⟨s, m, e, hm, hx, hlog, he⟩ := unpack_of_isFinite hx
    · rw [hx]
      exact trivial
    · have htarget : Format.binary64.targetExponent (totalExponent m e - totalExponent m' e') =
          max (m.log2 + e - (m'.log2 + e') - 53) (-1074) := by
        show max ((m.log2 : ℤ) + 1 + e - (m'.log2 + 1 + e') - 53) (-1074) = _
        omega
      rw [hx, UnpackedFloat.div, divCore, htarget]
      dsimp only
      generalize hplace : min (e - e') _ = t
      generalize hshift : (e - e' - t).toNat = k
      -- the divisor is at least two, so there is a place left for rounding up
      refine fits_roundWithAccuracy (by omega) ?_
      by_cases hquotient : m' ≤ m <<< k
      · have hleading := log2_div_add_le hquotient hm'
        have hmoved := log2_shiftLeft_le m k
        omega
      · rw [Nat.div_eq_of_lt (by omega)]
        show (0 : ℤ) + t ≤ 1022
        omega
  · cases hy

/-! ## Powers of ten -/

theorem isLarge_ofScientific_of_lt :
    ∀ k < 23, 0 < k → IsLarge (Float.ofScientific 1 false k) = true := by
  decide +kernel

/-- The powers of ten that are rounded, but for the last. -/
theorem isLarge_ofScientific_of_le {k : ℕ} (hlow : 22 < k) (hhigh : k ≤ 307) :
    IsLarge (Float.ofScientific 1 false k) = true := by
  have hslow : ¬ (1 < 2 ^ 53 ∧ k ≤ 22) := fun h => absurd h.2 (Nat.not_le.mpr hlow)
  have hscaled : UnpackedFloat.ofScientific Format.binary64 1 k =
      roundWithAccuracy Format.binary64 (.positive * .positive) (2 ^ 53 * 10 ^ k) (-53) .exact := by
    have hlarge : ¬ (k : ℤ) > 2 ^ 11 := by omega
    have hsmall : ¬ (k : ℤ) < -(2 ^ 11 + (Nat.log2 1 : ℤ)) := by omega
    rw [UnpackedFloat.ofScientific, dif_neg one_ne_zero, if_neg hlarge, if_neg hsmall,
      if_pos (Int.natCast_nonneg k)]
    rfl
  have hten : 10 ^ k < 2 ^ 1022 :=
    lt_of_le_of_lt (Nat.pow_le_pow_right (by decide) hhigh) (by decide +kernel)
  have hupper : (2 ^ 53 * 10 ^ k).log2 < 53 + 1022 := by
    refine log2_lt (by decide) ?_
    rw [pow_add]
    exact Nat.mul_lt_mul_of_pos_left hten (by decide)
  have hlower : 54 ≤ (2 ^ 53 * 10 ^ k).log2 := by
    rw [Nat.le_log2 (Nat.ne_of_gt (Nat.mul_pos (by decide) (Nat.pow_pos (by decide))))]
    calc 2 ^ 54 = 2 ^ 53 * 2 := pow_succ 2 53
      _ ≤ 2 ^ 53 * 10 ^ k :=
        Nat.mul_le_mul_left _ (le_trans (by decide) (Nat.pow_le_pow_right (by decide) hlow))
  generalize 2 ^ 53 * 10 ^ k = m at hscaled hupper hlower
  obtain ⟨m', e, hm, hround, hlog, hleast, hmost⟩ := exists_roundWithAccuracy
    (s := .positive * .positive) (m := m) (e := -53) (a := .exact) (by omega) (by omega)
  rw [Float.ofScientific, dif_neg hslow]
  show IsLarge (.ofModel (.pack (UnpackedFloat.ofScientific Format.binary64 1 k))) = true
  rw [hscaled, hround]
  exact isLarge_pack hlog (by omega) (by omega)

/-- The powers of ten in range are large. -/
theorem isLarge_ofScientific {k : ℕ} (hpos : 0 < k) (h : k ≤ 308) :
    IsLarge (Float.ofScientific 1 false k) = true := by
  rcases Nat.lt_or_ge k 23 with hsmall | hlarge
  · exact isLarge_ofScientific_of_lt k hsmall hpos
  · rcases Nat.lt_or_ge k 308 with hless | hmost
    · exact isLarge_ofScientific_of_le hlarge (by omega)
    · -- its leading bit is in the last place, so whether it is rounded up has to be computed
      obtain rfl : k = 308 := by omega
      decide +kernel

theorem isFinite_ofScientific {k : ℕ} (h : k ≤ 308) :
    (Float.ofScientific 1 false k).isFinite = true := by
  rcases Nat.eq_zero_or_pos k with rfl | hpos
  · decide +kernel
  · exact isFinite_of_isLarge (isLarge_ofScientific hpos h)

end CodeGraph.Double

import CodeGraph.Json.Shape
import CodeGraph.Proofs.Float.Range
import CodeGraph.Proofs.Text.Reader
/-! # What is read is plain

    A reader finds finite numbers only.

    * Scaling by powers of ten does not leave the range without being noticed
      (`isFinite_scaleByTen?`), and so every numeral is a whole number, a finite number or
      none (`isPlain_of_toNumber?`).
    * Every value that is found is made of such numbers, however it is looked at
      (`yields_shaped`). -/

namespace CodeGraph.Json

open Text (Yields Reader)

/-! ## Plain values -/

/-- A number that a reader can find: a whole number or a finite number of double
    precision. -/
def Number.isPlain : Number → Bool
  | .integer _ => true
  | .double x => x.isFinite
  | .single _ => false

/-- A value that a reader can find: all numbers in it are plain. -/
inductive Plain : Json → Prop
  | null : Plain .null
  | bool (b : Bool) : Plain (.bool b)
  | number (x : Number) : x.isPlain = true → Plain (.number x)
  | string (s : String) : Plain (.string s)
  | array (xs : List Json) : (∀ x ∈ xs, Plain x) → Plain (.array xs)
  | object (fs : List (String × Json)) : (∀ f ∈ fs, Plain f.2) → Plain (.object fs)

/-! ## Numerals -/

/-- **A finite number is scaled to a finite number or to none.** -/
theorem isFinite_scaleByTen? {x y : Float} {e : Int} (hx : x.isFinite = true)
    (h : scaleByTen? x e = some y) : y.isFinite = true := by
  fun_induction scaleByTen? x e with
  | case1 => cases h
  | case2 x e hsmall hup z hnot =>
      -- an infinite product has been refused, and an undefined one does not arise
      rw [← Option.some.inj h]
      have hp := Double.isFinite_ofScientific hsmall
      exact (Double.isFinite_or_isInf_mul hx hp).resolve_right hnot
  | case3 x e hsmall hdown =>
      cases h
      exact Double.isFinite_div hx (Double.isLarge_ofScientific (by omega) hsmall)
  | case4 x e hfar hzero =>
      cases h
      exact hx
  | case5 => cases h
  | case6 x e hfar hne hdown ih =>
      exact ih (Double.isFinite_div hx (Double.isLarge_ofScientific (by decide) (by decide))) h

/-- A sign keeps a number finite. -/
theorem isFinite_withSign {n : Numeral} {x : Float} (h : x.isFinite = true) :
    (n.withSign x).isFinite = true := by
  rw [Numeral.withSign]
  split
  · exact Double.isFinite_neg h
  · exact h

/-- A numeral that would be infinite is refused. -/
theorem isFinite_double? {n : Numeral} {s : Significand} {x : Float}
    (h : n.double? s = some x) : x.isFinite = true := by
  have hscaled : ∀ e : Int,
      (scaleByTen? s.value.toUInt64.toFloat e).map n.withSign = some x → x.isFinite = true := by
    intro e he
    obtain ⟨y, hy, rfl⟩ := Option.map_eq_some_iff.mp he
    exact isFinite_withSign (isFinite_scaleByTen? (Double.isFinite_toFloat _) hy)
  rw [Numeral.double?] at h
  dsimp only at h
  split at h
  · exact hscaled _ h
  · split at h
    · exact hscaled _ h
    · split at h
      · cases h
      · cases h
        exact isFinite_withSign (by decide)

/-- The collected digits fit in 64 bits. -/
theorem value_takeWhole_lt (ds : List Char) {s : Significand}
    (h : s.value < 18446744073709551616) :
    (s.takeWhole ds).value < 18446744073709551616 := by
  induction ds generalizing s with
  | nil => exact h
  | cons d ds ih =>
      rw [Significand.takeWhole]
      split
      · rename_i hfits
        rw [Significand.fits, decide_eq_true_eq] at hfits
        exact ih hfits
      · exact h

/-- **Every numeral is a plain number, or none.** -/
theorem isPlain_of_toNumber? {n : Numeral} {x : Number} (h : n.toNumber? = some x) :
    x.isPlain = true := by
  have hdouble : ∀ s, (n.double? s).map Number.double = some x → x.isPlain = true := by
    intro s hs
    obtain ⟨y, hy, rfl⟩ := Option.map_eq_some_iff.mp hs
    exact isFinite_double? hy
  rw [Numeral.toNumber?] at h
  split at h
  · split at h
    · dsimp only at h
      split at h
      · split at h
        · cases h
          rfl
        · cases h
          exact Double.isFinite_neg (Double.isFinite_toFloat _)
      · have hfits : n.wholePart.value < 18446744073709551616 :=
          value_takeWhole_lt n.whole (by decide)
        rw [Number.ofNat, dif_pos hfits] at h
        cases h
        rfl
    · exact hdouble _ h
  · exact hdouble _ h
  · exact hdouble _ h

/-! ## Values -/

namespace Reader

/-- Every number that is read is plain. -/
theorem yields_number : Yields number fun x => x.isPlain = true := by
  intro s r hr
  rw [number] at hr
  obtain ⟨q, -, hq⟩ := Option.bind_eq_some_iff.mp hr
  obtain ⟨x, hx, rfl⟩ := Option.map_eq_some_iff.mp hq
  exact isPlain_of_toNumber? hx

theorem yields_word : Yields word Plain := by
  intro s r hr
  unfold word at hr
  split at hr
  · cases hr
    exact .null
  · cases hr
    exact .bool true
  · cases hr
    exact .bool false
  · cases hr

/-- What stands under a key is what the reader for it finds. -/
theorem yields_member {α : Type} {key : Reader (List Char)} {item : String → Reader α}
    {P : α → Prop} (h : ∀ name, Yields (item name) P) :
    Yields (member key item) fun f => P f.2 := by
  intro s r hr
  unfold member at hr
  split at hr
  · split at hr
    · cases hr
    · split at hr
      · cases hr
      · obtain ⟨q, hq, rfl⟩ := Option.map_eq_some_iff.mp hr
        obtain ⟨p, hp, rfl⟩ := Option.map_eq_some_iff.mp hq
        exact h _ _ p hp
  · cases hr

/-- A value is plain if the values that are nested in it are. -/
theorem yields_value_of_nested {depth : ℕ}
    (hnested : ∀ k, k + 1 = depth → Yields (value k) Plain) : Yields (value depth) Plain := by
  intro s r hr
  unfold value at hr
  split at hr
  · obtain ⟨q, -, rfl⟩ := Option.map_eq_some_iff.mp hr
    exact .string _
  · obtain ⟨q, hq, rfl⟩ := Option.map_eq_some_iff.mp hr
    exact .array _ ((hnested _ rfl).list _ q hq)
  · obtain ⟨q, hq, rfl⟩ := Option.map_eq_some_iff.mp hr
    exact .object _ ((yields_member fun _ => hnested _ rfl).list _ q hq)
  · split at hr
    · rename_i hword
      cases hr
      exact yields_word _ _ hword
    · obtain ⟨q, hq, rfl⟩ := Option.map_eq_some_iff.mp hr
      exact .number _ (yields_number _ q hq)

/-- **Every value that is read is plain.** -/
theorem yields_value (depth : ℕ) : Yields (value depth) Plain := by
  induction depth with
  | zero =>
      -- nothing may be nested any more
      exact yields_value_of_nested nofun
  | succ depth ih =>
      refine yields_value_of_nested fun k hk => ?_
      cases hk
      exact ih

theorem yields_skipped : Yields skipped Plain := by
  intro s r hr
  obtain ⟨q, -, rfl⟩ := Option.map_eq_some_iff.mp hr
  exact .null

/-- A value is plain if all values one level down are. -/
theorem yields_shaped_of_nested {depth : ℕ} {shape : Shape}
    (hnested : ∀ k, k + 1 = depth → ∀ shape, Yields (shaped k shape) Plain) :
    Yields (shaped depth shape) Plain := by
  intro s r hr
  unfold shaped at hr
  split at hr
  · obtain ⟨q, hq, rfl⟩ := Option.map_eq_some_iff.mp hr
    exact .array _ ((hnested _ rfl _).list _ q hq)
  · obtain ⟨q, hq, rfl⟩ := Option.map_eq_some_iff.mp hr
    refine .object _ ((yields_member fun name => ?_).list _ q hq)
    split
    · exact hnested _ rfl _
    · exact yields_skipped
  · exact yields_value _ _ r hr

/-- However a value is looked at, what is found is plain. -/
theorem yields_shaped (depth : ℕ) (shape : Shape) : Yields (shaped depth shape) Plain := by
  induction depth generalizing shape with
  | zero => exact yields_shaped_of_nested nofun
  | succ depth ih =>
      refine yields_shaped_of_nested fun k hk => ?_
      cases hk
      exact ih

end Reader

/-- **Every value that is parsed is plain.** -/
theorem plain_of_parseAs? {shape : Shape} {s : List Char} {v : Json}
    (h : parseAs? shape s = some v) : Plain v := by
  rw [parseAs?] at h
  split at h
  · rename_i r hr
    split at h
    · cases h
      exact Reader.yields_shaped _ _ _ r hr
    · cases h
  · cases h

end CodeGraph.Json

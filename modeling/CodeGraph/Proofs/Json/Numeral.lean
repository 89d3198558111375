import CodeGraph.Json.Printer
import CodeGraph.Proofs.Decimal.Shortest
import CodeGraph.Proofs.Text.Reader
/-! # Numerals — what is written for a number is read as one

    The text of a finite number is the text of a numeral, and a numeral is read
    whole wherever a number may end.

    * `Numeral.Proper` is the grammar: digits, no zero in front of others, and
      at least one digit behind a point or a mark for the exponent.
    * `exists_text_eq_print` lays out every finite number as such a numeral.
      The digits of a decimal begin with a zero only if it is zero, and the
      shortest decimal of a positive number is positive. -/

namespace CodeGraph

namespace Decimal

/-! ## Digits -/

/-- A natural number is written in digits. -/
theorem isDigit_of_mem_digitsOf {n : Nat} {c : Char} (h : c ∈ digitsOf n) :
    c.isDigit = true :=
  Nat.isDigit_of_mem_toDigits (by decide) (by decide) h

theorem digitsOf_ne_nil (n : Nat) : digitsOf n ≠ [] := Nat.toDigits_ne_nil

theorem digitChar_ne_zero : ∀ n < 10, 0 < n → n.digitChar ≠ '0' := by decide

/-- A positive number has no zero in front. -/
theorem head?_digitsOf_ne {n : Nat} (h : 0 < n) : (digitsOf n).head? ≠ some '0' := by
  induction n using Nat.strongRecOn with
  | ind n ih =>
      rw [digitsOf, Nat.toDigits_eq_if (by decide)]
      split
      · rename_i hlt
        simpa using digitChar_ne_zero n hlt h
      · rename_i hlt
        have hne := ih (n / 10) (Nat.div_lt_self h (by decide))
          (Nat.div_pos (by omega) (by decide))
        rw [digitsOf] at hne
        cases hds : Nat.toDigits 10 (n / 10) with
        | nil => exact absurd hds Nat.toDigits_ne_nil
        | cons c ds =>
            rw [hds] at hne
            exact hne

end Decimal

namespace Json

open Text Reader

/-! ## The grammar -/

namespace Numeral

/-- How a fraction is written. -/
def fractionText : Option (List Char) → List Char
  | none => []
  | some ds => '.' :: ds

/-- How a power of ten is written. -/
def exponentText : Option (Bool × List Char) → List Char
  | none => []
  | some (down, ds) => 'e' :: (if down then '-' else '+') :: ds

/-- How a numeral is written. -/
def text (n : Numeral) : List Char :=
  (if n.negative then ['-'] else []) ++
    (n.whole ++ (fractionText n.fraction ++ exponentText n.exponent))

/-- At least one digit, and nothing but digits. -/
def Digits (ds : List Char) : Prop := ds ≠ [] ∧ ∀ c ∈ ds, c.isDigit = true

/-- A numeral with all the digits that it has to have, and none too many. -/
structure Proper (n : Numeral) : Prop where
  whole : Digits n.whole
  leading : n.whole.head? = some '0' → n.whole.length = 1
  fraction : ∀ ds, n.fraction = some ds → Digits ds
  exponent : ∀ down ds, n.exponent = some (down, ds) → Digits ds

end Numeral

/-! ## Reading -/

/-- What may stand behind a value: nothing, a comma, or a closing mark. -/
def Ends (rest : List Char) : Prop :=
  ∀ c t, rest = c :: t → c = ',' ∨ c = ']' ∨ c = '\x7d'

theorem ends_nil : Ends [] := fun _ _ h => nomatch h

/-- A comma or a closing mark ends a numeral. -/
theorem ends_cons {c : Char} {t : List Char} (h : c = ',' ∨ c = ']' ∨ c = '\x7d') :
    Ends (c :: t) := by
  intro d u heq
  cases heq
  exact h

/-- What is not a digit ends a run of digits. -/
theorem digitsOff_append {ds rest : List Char} (hds : ∀ c ∈ ds, c.isDigit = true)
    (hrest : ∀ c t, rest = c :: t → c.isDigit = false) :
    digitsOff (ds ++ rest) = (ds, rest) := by
  rw [digitsOff, List.takeWhile_append_of_pos hds, List.dropWhile_append_of_pos hds]
  cases rest with
  | nil => rw [List.takeWhile_nil, List.append_nil, List.dropWhile_nil]
  | cons c t =>
      have hc : ¬ c.isDigit = true := by
        rw [hrest c t rfl]
        exact Bool.false_ne_true
      rw [List.takeWhile_cons_of_neg hc, List.append_nil, List.dropWhile_cons_of_neg hc]

/-- What ends a numeral does not begin with one more digit. -/
theorem isDigit_of_ends {rest : List Char} (h : Ends rest) (c : Char) (t : List Char)
    (heq : rest = c :: t) : c.isDigit = false := by
  rcases h c t heq with rfl | rfl | rfl <;> decide

variable {n : Numeral} {rest : List Char}

/-- The exponent is taken off as it was written, or none is found. -/
theorem exponentOff?_text (h : n.Proper) (hrest : Ends rest) :
    exponentOff? (Numeral.exponentText n.exponent ++ rest) = some (n.exponent, rest) := by
  cases hexponent : n.exponent with
  | none =>
      cases rest with
      | nil => rfl
      | cons c t =>
          rw [Numeral.exponentText, List.nil_append, exponentOff?, if_neg]
          rcases hrest c t rfl with rfl | rfl | rfl <;> decide
  | some e =>
      obtain ⟨down, ds⟩ := e
      obtain ⟨hne, hds⟩ := h.exponent down ds hexponent
      have hoff := digitsOff_append hds (isDigit_of_ends hrest)
      have hempty : ds.isEmpty = false := List.isEmpty_eq_false_iff.mpr hne
      cases down <;>
        simp only [Numeral.exponentText, Bool.false_eq_true, ↓reduceIte, List.cons_append,
          exponentOff?, true_or, signOff, hoff, hempty]

/-- The fraction is taken off as it was written, and the exponent stays behind it. -/
theorem fractionOff?_text (h : n.Proper) (hrest : Ends rest) :
    fractionOff? (Numeral.fractionText n.fraction ++
      (Numeral.exponentText n.exponent ++ rest)) =
        some (n.fraction, Numeral.exponentText n.exponent ++ rest) := by
  -- neither an exponent nor the end begins with a point or with a digit
  have hnext : ∀ c t, Numeral.exponentText n.exponent ++ rest = c :: t →
      c.isDigit = false ∧ c ≠ '.' := by
    intro c t heq
    cases hexponent : n.exponent with
    | none =>
        rw [hexponent, Numeral.exponentText, List.nil_append] at heq
        rcases hrest c t heq with rfl | rfl | rfl <;> decide
    | some e =>
        rw [hexponent, Numeral.exponentText] at heq
        cases heq
        decide
  cases hfraction : n.fraction with
  | none =>
      rw [Numeral.fractionText, List.nil_append]
      generalize Numeral.exponentText n.exponent ++ rest = s at hnext
      unfold fractionOff?
      split
      · exact absurd rfl (hnext _ _ rfl).2
      · rfl
  | some ds =>
      obtain ⟨hne, hds⟩ := h.fraction ds hfraction
      have hoff := digitsOff_append hds fun c t heq => (hnext c t heq).1
      have hempty : ds.isEmpty = false := List.isEmpty_eq_false_iff.mpr hne
      simp only [Numeral.fractionText, List.cons_append, fractionOff?, hoff, hempty,
        Bool.false_eq_true, ↓reduceIte]

/-- Behind its sign a numeral is read as it was written. -/
theorem taken_unsigned (h : n.Proper) (hrest : Ends rest) :
    taken (unsigned n.negative) (n.whole ++ (Numeral.fractionText n.fraction ++
      (Numeral.exponentText n.exponent ++ rest))) = some (n, rest) := by
  -- behind the digits in front stands a point, an exponent or the end, and never a digit
  have hnext : ∀ c t, Numeral.fractionText n.fraction ++
      (Numeral.exponentText n.exponent ++ rest) = c :: t → c.isDigit = false := by
    intro c t heq
    cases hfraction : n.fraction with
    | some ds =>
        rw [hfraction, Numeral.fractionText] at heq
        cases heq
        rfl
    | none =>
        rw [hfraction, Numeral.fractionText, List.nil_append] at heq
        cases hexponent : n.exponent with
        | none =>
            rw [hexponent, Numeral.exponentText, List.nil_append] at heq
            exact isDigit_of_ends hrest c t heq
        | some e =>
            rw [hexponent, Numeral.exponentText] at heq
            cases heq
            rfl
  have hoff := digitsOff_append h.whole.2 hnext
  rw [taken, unsigned]
  simp only [hoff]
  have hwhole : ¬ (n.whole = [] ∨ n.whole.head? = some '0' ∧ n.whole.length ≠ 1) := by
    rintro (hnil | ⟨hzero, hlength⟩)
    · exact h.whole.1 hnil
    · exact hlength (h.leading hzero)
  rw [dif_neg hwhole]
  split
  · rename_i hf
    rw [hoff, fractionOff?_text h hrest] at hf
    cases hf
  · rename_i fraction s₂ hf
    rw [hoff, fractionOff?_text h hrest] at hf
    cases hf
    split
    · rename_i he
      rw [exponentOff?_text h hrest] at he
      cases he
    · rename_i exponent rest' he
      rw [exponentOff?_text h hrest] at he
      cases he
      rfl

/-- **A numeral is read whole.** -/
theorem taken_numeral (h : n.Proper) (hrest : Ends rest) :
    taken numeral (n.text ++ rest) = some (n, rest) := by
  have hunsigned := taken_unsigned h hrest
  rw [Numeral.text, List.append_assoc, List.append_assoc, List.append_assoc]
  cases hnegative : n.negative with
  | true =>
      rw [hnegative] at hunsigned
      obtain ⟨hshorter, hread⟩ := taken_eq_some.mp hunsigned
      rw [taken, if_pos rfl, List.singleton_append, numeral, hread]
      rfl
  | false =>
      rw [hnegative] at hunsigned
      rw [if_neg Bool.false_ne_true, List.nil_append, taken, numeral]
      · exact hunsigned
      · intro s heq
        obtain ⟨c, ds, hwhole⟩ := List.exists_cons_of_ne_nil h.whole.1
        have hdigit := h.whole.2 c (by rw [hwhole]; exact List.mem_cons_self)
        rw [hwhole] at heq
        cases heq
        cases hdigit

/-! ## Writing -/

open Decimal

theorem digits_digitsOf (n : Nat) : Numeral.Digits (digitsOf n) :=
  ⟨digitsOf_ne_nil n, fun _ => isDigit_of_mem_digitsOf⟩

theorem digits_zero : Numeral.Digits ['0'] :=
  ⟨List.cons_ne_nil _ _, List.forall_mem_singleton.mpr rfl⟩

/-- Only zero is written with a zero in front. -/
theorem length_digitsOf_of_head? {n : Nat} (h : (digitsOf n).head? = some '0') :
    (digitsOf n).length = 1 := by
  cases n with
  | zero => rfl
  | succ n => exact absurd h (head?_digitsOf_ne (Nat.succ_pos n))

/-- Zeros may be put in front of digits. -/
theorem digits_zeros {k : Nat} {ds : List Char} (h : Numeral.Digits ds) :
    Numeral.Digits (List.replicate k '0' ++ ds) := by
  refine ⟨List.append_ne_nil_of_right_ne_nil _ h.1, ?_⟩
  intro c hc
  rcases List.mem_append.mp hc with hc | hc
  · rw [List.eq_of_mem_replicate hc]
    rfl
  · exact h.2 c hc

/-- The power of ten that a numeral is marked with. -/
def Numeral.power (n : Numeral) : ℤ :=
  match n.exponent with
  | none => 0
  | some (down, ds) =>
      if down then -(Nat.ofDigitChars 10 ds 0 : ℤ) else (Nat.ofDigitChars 10 ds 0 : ℤ)

/-- The rational that a numeral stands for, without its sign. -/
def Numeral.magnitude (n : Numeral) : ℚ :=
  Nat.ofDigitChars 10 (n.whole ++ n.fraction.getD []) 0 *
    (10 : ℚ) ^ (n.power - (n.fraction.getD []).length)

/-- A numeral of some sign and magnitude, with a point or with a power of ten. -/
structure Numeral.Shows (m : Numeral) (negative : Bool) (x : ℚ) : Prop where
  proper : m.Proper
  negative : m.negative = negative
  magnitude : m.magnitude = x
  marked : m.fraction ≠ none ∨ m.exponent ≠ none

/-- The sign of a number. -/
def signText (negative : Bool) : List Char := if negative then ['-'] else []

/-- Zeros behind digits are powers of ten. -/
theorem Numeral.magnitude_of_zeros {n : Numeral} (ds : List Char) (k : ℕ)
    (h : n.whole ++ n.fraction.getD [] = ds ++ List.replicate k '0') : n.magnitude =
      Nat.ofDigitChars 10 ds 0 * (10 : ℚ) ^ (k + n.power - (n.fraction.getD []).length) := by
  rw [magnitude, h, Nat.ofDigitChars_append, Nat.ofDigitChars_replicate_zero, add_sub_assoc,
    zpow_add₀ (by norm_num), zpow_natCast]
  push_cast
  ring

/-- The point is put between digits, zeros fill the places in front of it. -/
theorem exists_text_eq_pointAfter (negative : Bool) {whole : Nat} (hwhole : 0 < whole)
    {ds : List Char} (hds : Numeral.Digits ds) (hhead : ds.head? ≠ some '0') :
    ∃ m : Numeral, m.Shows negative
        (Nat.ofDigitChars 10 ds 0 * (10 : ℚ) ^ ((whole : ℤ) - ds.length)) ∧
      m.text = signText negative ++ Layout.pointAfter whole ds := by
  obtain ⟨c, tail, rfl⟩ := List.exists_cons_of_ne_nil hds.1
  obtain ⟨k, rfl⟩ := Nat.exists_eq_succ_of_ne_zero (Nat.ne_of_gt hwhole)
  refine ⟨⟨negative, (c :: tail).take (k + 1) ++ List.replicate (k + 1 - (c :: tail).length) '0',
    some (if ((c :: tail).drop (k + 1)).isEmpty then ['0'] else (c :: tail).drop (k + 1)),
    none⟩, ⟨⟨⟨?_, ?_⟩, ?_, ?_, nofun⟩, rfl, ?_, Or.inl (Option.some_ne_none _)⟩, ?_⟩
  · exact List.cons_ne_nil _ _
  · intro d hd
    rcases List.mem_append.mp hd with hd | hd
    · exact hds.2 d (List.mem_of_mem_take hd)
    · rw [List.eq_of_mem_replicate hd]
      rfl
  · intro hzero
    exact absurd hzero hhead
  · rintro fraction heq
    cases heq
    split
    · exact digits_zero
    · rename_i hne
      rw [List.isEmpty_iff] at hne
      exact ⟨hne, fun d hd => hds.2 d (List.mem_of_mem_drop hd)⟩
  · generalize c :: tail = ds
    by_cases hlength : ds.length ≤ k + 1
    · -- all digits stand in front of the point, and a zero behind it
      rw [if_pos (List.isEmpty_iff.mpr (List.drop_of_length_le hlength)),
        List.take_of_length_le hlength,
        Numeral.magnitude_of_zeros ds (k + 1 - ds.length + 1) (by simp [List.replicate_succ'])]
      congr 2
      simp only [Numeral.power, Option.getD_some, List.length_singleton]
      omega
    · have hne : ¬ (ds.drop (k + 1)).isEmpty = true := by
        rw [List.isEmpty_iff, List.drop_eq_nil_iff]
        exact hlength
      have hzeros : k + 1 - ds.length = 0 := by omega
      rw [if_neg hne, Numeral.magnitude_of_zeros ds 0 (by simp [hzeros])]
      congr 2
      simp only [Numeral.power, Option.getD_some, List.length_drop]
      omega
  · simp only [Numeral.text, Numeral.fractionText, Numeral.exponentText, List.append_nil,
      signText, Layout.pointAfter, List.append_assoc]

/-- One digit in front of the point, and a power of ten. -/
theorem exists_text_eq_scientific (negative : Bool) (leading : Int) {ds : List Char}
    (hds : Numeral.Digits ds) (hhead : ds.head? ≠ some '0') :
    ∃ m : Numeral, m.Shows negative
        (Nat.ofDigitChars 10 ds 0 * (10 : ℚ) ^ (leading - (ds.length - 1 : ℕ))) ∧
      m.text = signText negative ++ Layout.scientific ds leading := by
  obtain ⟨c, tail, rfl⟩ := List.exists_cons_of_ne_nil hds.1
  have hc : Numeral.Digits [c] := by
    refine ⟨List.cons_ne_nil _ _, ?_⟩
    intro d hd
    rw [List.mem_singleton.mp hd]
    exact hds.2 c List.mem_cons_self
  have hexponent : ∀ down ds,
      some (decide (leading < 0), digitsOf leading.natAbs) = some (down, ds) →
        Numeral.Digits ds := by
    rintro down ds heq
    cases heq
    exact digits_digitsOf _
  -- the sign is read apart from the digits of the exponent
  have hpower : ∀ (negative : Bool) (whole : List Char) (fraction : Option (List Char)),
      Numeral.power ⟨negative, whole, fraction,
        some (decide (leading < 0), digitsOf leading.natAbs)⟩ = leading := by
    intro negative whole fraction
    rw [Numeral.power, digitsOf]
    dsimp only
    rw [Nat.ofDigitChars_ten_toDigits]
    split
    · rename_i hneg
      rw [decide_eq_true_eq] at hneg
      omega
    · rename_i hneg
      rw [decide_eq_true_eq] at hneg
      omega
  -- a single digit stands without a point
  cases tail with
  | nil =>
      refine ⟨⟨negative, [c], none, some (decide (leading < 0), digitsOf leading.natAbs)⟩,
        ⟨⟨hc, fun _ => rfl, nofun, hexponent⟩, rfl, ?_, Or.inr (Option.some_ne_none _)⟩, ?_⟩
      · rw [Numeral.magnitude, hpower]
        simp
      · simp only [Numeral.text, Numeral.fractionText, Numeral.exponentText, List.nil_append,
          signText, Layout.scientific, decide_eq_true_eq]
  | cons d tail =>
      refine ⟨⟨negative, [c], some (d :: tail),
        some (decide (leading < 0), digitsOf leading.natAbs)⟩,
        ⟨⟨hc, fun _ => rfl, ?_, hexponent⟩, rfl, ?_, Or.inr (Option.some_ne_none _)⟩, ?_⟩
      · rintro fraction heq
        cases heq
        exact ⟨List.cons_ne_nil _ _, fun e he => hds.2 e (List.mem_cons_of_mem _ he)⟩
      · rw [Numeral.magnitude, hpower]
        simp
      · simp only [Numeral.text, Numeral.fractionText, Numeral.exponentText, List.cons_append,
          List.nil_append, signText, Layout.scientific, decide_eq_true_eq]

/-- The digits of a positive decimal are laid out as a numeral. -/
theorem exists_text_eq_render (layout : Layout) (negative : Bool) {d : Scaled}
    (h : 0 < d.digits) :
    ∃ m : Numeral, m.Shows negative d.value ∧ m.text = signText negative ++ layout.render d := by
  have hds := digits_digitsOf d.digits
  have hhead := head?_digitsOf_ne h
  have hvalue : Nat.ofDigitChars 10 (digitsOf d.digits) 0 = d.digits :=
    Nat.ofDigitChars_ten_toDigits
  have hlength : 0 < (digitsOf d.digits).length := List.length_pos_of_ne_nil hds.1
  rw [Layout.render, Scaled.value]
  generalize hleading : d.exponent + ((digitsOf d.digits).length - 1 : Nat) = leading
  split
  · split
    · -- a zero, and perhaps more zeros behind the point
      refine ⟨⟨negative, ['0'],
        some (List.replicate (-leading - 1).toNat '0' ++ digitsOf d.digits), none⟩,
        ⟨⟨digits_zero, fun _ => rfl, ?_, ?_⟩, rfl, ?_, Or.inl (Option.some_ne_none _)⟩, ?_⟩
      · rintro ds heq
        cases heq
        exact digits_zeros hds
      · rintro down ds heq
        cases heq
      · rw [Numeral.magnitude, Option.getD_some, ← List.append_assoc, List.singleton_append,
          ← List.replicate_succ, Nat.ofDigitChars_append, Nat.ofDigitChars_replicate_zero,
          Nat.mul_zero, hvalue]
        congr 2
        simp only [Numeral.power, List.length_append, List.length_replicate]
        omega
      · simp only [Numeral.text, Numeral.fractionText, Numeral.exponentText, List.append_nil,
          List.cons_append, List.nil_append, signText]
    · -- the leading digit stands in front of the point
      obtain ⟨m, hm, htext⟩ := exists_text_eq_pointAfter negative (Nat.succ_pos leading.toNat)
        hds hhead
      refine ⟨m, ?_, htext⟩
      rw [hvalue, show ((leading.toNat + 1 : ℕ) : ℤ) - (digitsOf d.digits).length = d.exponent by
        omega] at hm
      exact hm
  · obtain ⟨m, hm, htext⟩ := exists_text_eq_scientific negative leading hds hhead
    refine ⟨m, ?_, htext⟩
    rw [hvalue, show leading - ((digitsOf d.digits).length - 1 : ℕ) = d.exponent by omega] at hm
    exact hm

/-- The rational that the text of a binary number shows. -/
def shownValue (b : Binary) : ℚ := if b.mantissa = 0 then 0 else b.shortest.value

/-- Whichever layout is chosen for a number of some precision, the text is a numeral of the
    same value. -/
theorem exists_text_eq_signed (layout : Layout) (negative : Bool) (b : Binary) :
    ∃ m : Numeral, m.Shows negative (shownValue b) ∧ m.text = layout.signed negative b := by
  rw [Layout.signed, shownValue]
  by_cases hmantissa : b.mantissa = 0
  · rw [if_pos hmantissa, if_pos hmantissa]
    refine ⟨⟨negative, ['0'], some ['0'], none⟩, ⟨⟨digits_zero, fun _ => rfl, ?_, nofun⟩, rfl,
      ?_, Or.inl (Option.some_ne_none _)⟩, rfl⟩
    · rintro ds heq
      cases heq
      exact digits_zero
    · rw [Numeral.magnitude]
      simp [Nat.ofDigitChars_cons]
  · rw [if_neg hmantissa, if_neg hmantissa]
    exact exists_text_eq_render layout negative (Binary.shortest_pos hmantissa)

/-- The numeral of a whole number. -/
def Integer.numeral (n : Integer) : Numeral :=
  ⟨decide (n.val < 0), digitsOf n.val.natAbs, none, none⟩

theorem Integer.proper_numeral (n : Integer) : n.numeral.Proper :=
  ⟨digits_digitsOf _, length_digitsOf_of_head?, nofun, nofun⟩

/-- A whole number is printed as its numeral. -/
theorem Integer.text_numeral (n : Integer) : n.numeral.text = (Number.integer n).print := by
  simp only [numeral, Numeral.text, Numeral.fractionText, Numeral.exponentText, List.append_nil,
    decide_eq_true_eq, Number.print]
  split <;> rfl

/-- **A number is written as a numeral,** or as `null` if it is not finite. -/
theorem exists_text_eq_print (x : Number) :
    x.print = ['n', 'u', 'l', 'l'] ∨ ∃ m : Numeral, m.Proper ∧ m.text = x.print := by
  cases x with
  | integer n => exact Or.inr ⟨n.numeral, n.proper_numeral, n.text_numeral⟩
  | double y =>
      rw [Number.print, doubleText?]
      split
      · obtain ⟨m, hm, htext⟩ := exists_text_eq_signed .double (y.toBits ≥ 0x8000000000000000)
          (ofDouble y.toBits)
        exact Or.inr ⟨m, hm.proper, htext⟩
      · exact Or.inl rfl
  | single y =>
      rw [Number.print, singleText?]
      split
      · obtain ⟨m, hm, htext⟩ := exists_text_eq_signed .single (y.toBits ≥ 0x80000000)
          (ofSingle y.toBits)
        exact Or.inr ⟨m, hm.proper, htext⟩
      · exact Or.inl rfl

end Json

end CodeGraph

import CodeGraph.Proofs.Json.Reprint
/-! # Values that come back as they are

    A value whose numbers are whole is read as itself where it is printed, if it is not
    nested too deeply.

    * `Integer.toNumber?_numeral`: the digits of a number of 64 bits are collected without
      a loss.
    * `settle_array` and `settle_object` go up from the parts to the whole, one level at a
      time.
    * `isPlain_of_mem_print`: no text of a value holds a control character, so none breaks
      a line. -/

namespace CodeGraph.Json

open Text Reader

/-! ## Whole numbers -/

/-- More digits make no smaller number, so a number that fits has fitted from its first digit
    on. -/
theorem le_ofDigitChars (ds : List Char) (v : Nat) : v ≤ Nat.ofDigitChars 10 ds v := by
  induction ds generalizing v with
  | nil => exact Nat.le_refl v
  | cons d ds ih =>
      rw [Nat.ofDigitChars_cons]
      refine Nat.le_trans ?_ (ih _)
      omega

/-- Digits of a number that fits in 64 bits are collected whole. -/
theorem takeWhole_eq {ds : List Char} {v : Nat}
    (h : Nat.ofDigitChars 10 ds v < 18446744073709551616) :
    Significand.takeWhole ⟨v, 0⟩ ds = ⟨Nat.ofDigitChars 10 ds v, 0⟩ := by
  induction ds generalizing v with
  | nil => rfl
  | cons d ds ih =>
      have hvalue : 10 * v + (d.toNat - '0'.toNat) = v * 10 + digitValue d := by
        rw [digitValue, Nat.mul_comm]
      rw [Nat.ofDigitChars_cons, hvalue] at h ⊢
      have hfits : Significand.fits ⟨v, 0⟩ d = true :=
        decide_eq_true (Nat.lt_of_le_of_lt (le_ofDigitChars ds _) h)
      rw [Significand.takeWhole, if_pos hfits]
      exact ih h

/-- **The numeral of a whole number of 64 bits is that number.** -/
theorem Integer.toNumber?_numeral (n : Integer) : n.numeral.toNumber? = some (.integer n) := by
  obtain ⟨m, hlower, hupper⟩ := n
  have hvalue : Nat.ofDigitChars 10 (Decimal.digitsOf m.natAbs) 0 = m.natAbs :=
    Nat.ofDigitChars_ten_toDigits
  have hwhole : ∀ negative, Numeral.wholePart
      ⟨negative, Decimal.digitsOf m.natAbs, none, none⟩ = ⟨m.natAbs, 0⟩ := by
    intro negative
    rw [Numeral.wholePart, takeWhole_eq (by rw [hvalue]; omega), hvalue]
  by_cases hsign : m < 0
  · have hrange : 0 < m.natAbs ∧ m.natAbs ≤ 9223372036854775808 := by omega
    simp [Numeral.toNumber?, numeral, hsign, hwhole, hrange.2, abs_of_neg, Int.ne_of_lt]
  · have hrange : m.natAbs < 18446744073709551616 := by omega
    have hback : (m.natAbs : Int) = m := by omega
    simp [Numeral.toNumber?, numeral, hsign, hwhole, Number.ofNat, hrange, hback]

/-! ## Values -/

variable {depth : Nat}

/-- A whole number is read back as itself. -/
theorem settle_integer (depth : Nat) (n : Integer) :
    settle depth (.number (.integer n)) = some (.number (.integer n)) := by
  have hread := taken_value_text n.proper_numeral ends_nil 0
  rw [List.append_nil, n.toNumber?_numeral, n.text_numeral] at hread
  obtain ⟨_, hread⟩ := taken_eq_some.mp hread
  have hnumber : settleNumber (.integer n) = some (.number (.integer n)) := by
    rw [settleNumber, hread]
    rfl
  cases depth <;> exact hnumber

/-- Nothing is read back as nothing, however deep it is. -/
theorem settle_null (depth : Nat) : settle depth .null = some .null := by
  cases depth <;> rfl

/-- If what is written is read back as itself, so is what need not be there. -/
theorem settle_ofOption {α : Type} {write : α → Json}
    (h : ∀ a, settle depth (write a) = some (write a)) (a? : Option α) :
    settle depth (.ofOption write a?) = some (.ofOption write a?) := by
  cases a? with
  | none => exact settle_null depth
  | some a => exact h a

theorem mapM_eq_self {α : Type} {f : α → Option α} {l : List α}
    (h : ∀ a ∈ l, f a = some a) : l.mapM f = some l := by
  induction l with
  | nil => rfl
  | cons a l ih =>
      rw [List.mapM_cons, h a List.mem_cons_self, ih fun b hb => h b (List.mem_cons_of_mem a hb)]
      rfl

/-- An array is read back as itself if its elements are, one level down. -/
theorem settle_array {xs : List Json} (h : ∀ x ∈ xs, settle depth x = some x) :
    settle (depth + 1) (.array xs) = some (.array xs) := by
  rw [settle, mapM_eq_self h]
  rfl

/-- An object is read back as itself if the values of its fields are, one level down. -/
theorem settle_object {fields : List (String × Json)}
    (h : ∀ f ∈ fields, settle depth f.2 = some f.2) :
    settle (depth + 1) (.object fields) = some (.object fields) := by
  have hfields : ∀ f ∈ fields, (settle depth f.2).map (f.1, ·) = some f := by
    intro f hf
    rw [h f hf]
    rfl
  rw [settle, mapM_eq_self hfields]
  rfl

/-- A printed value is read to its end. -/
theorem read?_print {v : Json} (h : settle maxDepth v = some v) :
    read? (print v) = some (v, []) := by
  have hread := taken_value_print maxDepth v ends_nil
  have hskip : skipSpace (print v ++ []) = print v ++ [] := (begins_print v).skip []
  rw [h, List.append_nil] at hread
  rw [List.append_nil] at hskip
  obtain ⟨_, hread⟩ := taken_eq_some.mp hread
  rw [read?, hskip, hread]
  rfl

/-! ## Characters of a text -/

theorem isPlain_hexDigit : ∀ n < 16, isPlain (hexDigit n) = true := by decide

/-- A digit is no control character. -/
theorem isPlain_of_isDigit {c : Char} (h : c.isDigit = true) : isPlain c = true := by
  rw [Char.isDigit, Bool.and_eq_true, decide_eq_true_eq, decide_eq_true_eq] at h
  have hlow : 48 ≤ c.toNat := h.1
  rw [isPlain, decide_eq_true_eq]
  omega

/-- A control character is escaped by characters that are none. -/
theorem isPlain_of_mem_escapeChar {c d : Char} (h : d ∈ escapeChar c) : isPlain d = true := by
  refine List.all_eq_true.mp ?_ d h
  unfold escapeChar
  split
  case h_8 =>
    split
    · rename_i hcontrol
      have hhigh := isPlain_hexDigit (c.toNat / 16) (by omega)
      have hlow := isPlain_hexDigit (c.toNat % 16) (by omega)
      simp only [List.all_cons, hhigh, hlow]
      decide
    · rename_i hplain
      rw [List.all_cons, List.all_nil, Bool.and_true, isPlain, decide_eq_true_eq]
      omega
  all_goals decide

/-- A string in quotes holds no control character, whatever is in the string. -/
theorem isPlain_of_mem_printString {s : String} {c : Char} (h : c ∈ printString s) :
    isPlain c = true := by
  rw [printString, List.mem_append, List.mem_cons, List.mem_flatMap, List.mem_singleton] at h
  rcases h with (rfl | ⟨d, -, hd⟩) | rfl
  · decide
  · exact isPlain_of_mem_escapeChar hd
  · decide

theorem isPlain_of_mem_digits {ds : List Char} (hds : Numeral.Digits ds) {c : Char}
    (h : c ∈ ds) : isPlain c = true := isPlain_of_isDigit (hds.2 c h)

/-- A numeral is made of digits, signs, a dot and an exponent mark. -/
theorem isPlain_of_mem_text {m : Numeral} (hm : m.Proper) {c : Char} (h : c ∈ m.text) :
    isPlain c = true := by
  rw [Numeral.text, List.mem_append, List.mem_append, List.mem_append] at h
  rcases h with hsign | hwhole | hfraction | hexponent
  · split at hsign
    · rw [List.mem_singleton.mp hsign]
      decide
    · cases hsign
  · exact isPlain_of_mem_digits hm.whole hwhole
  · cases hf : m.fraction with
    | none =>
        rw [hf] at hfraction
        cases hfraction
    | some ds =>
        rw [hf, Numeral.fractionText, List.mem_cons] at hfraction
        rcases hfraction with rfl | hmem
        · decide
        · exact isPlain_of_mem_digits (hm.fraction ds hf) hmem
  · cases he : m.exponent with
    | none =>
        rw [he] at hexponent
        cases hexponent
    | some e =>
        obtain ⟨down, ds⟩ := e
        rw [he, Numeral.exponentText, List.mem_cons, List.mem_cons] at hexponent
        rcases hexponent with rfl | rfl | hmem
        · decide
        · split <;> decide
        · exact isPlain_of_mem_digits (hm.exponent down ds he) hmem

/-- A number is printed as a numeral, or as `null`. -/
theorem isPlain_of_mem_number {x : Number} {c : Char} (h : c ∈ x.print) : isPlain c = true := by
  rcases exists_text_eq_print x with hnull | ⟨m, hm, htext⟩
  · rw [hnull] at h
    exact List.all_eq_true.mp (by decide) c h
  · rw [← htext] at h
    exact isPlain_of_mem_text hm h

mutual

/-- **No text of a value holds a control character.** -/
theorem isPlain_of_mem_print (v : Json) : ∀ c ∈ print v, isPlain c = true := by
  cases v with
  | null => exact List.all_eq_true.mp (by decide)
  | bool b => cases b <;> exact List.all_eq_true.mp (by decide)
  | number x => exact fun c => isPlain_of_mem_number
  | string s => exact fun c => isPlain_of_mem_printString
  | array xs =>
      cases xs with
      | nil => exact List.all_eq_true.mp (by decide)
      | cons x xs =>
          rw [print, List.cons_append, List.forall_mem_cons, List.forall_mem_append]
          exact ⟨by decide, isPlain_of_mem_print x, isPlain_of_mem_printItems xs⟩
  | object fields =>
      cases fields with
      | nil => exact List.all_eq_true.mp (by decide)
      | cons f fields =>
          obtain ⟨k, x⟩ := f
          rw [print, List.append_assoc, List.cons_append, List.forall_mem_cons,
            List.forall_mem_append, List.cons_append, List.forall_mem_cons,
            List.forall_mem_append]
          exact ⟨by decide, fun c => isPlain_of_mem_printString, by decide,
            isPlain_of_mem_print x, isPlain_of_mem_printFields fields⟩

theorem isPlain_of_mem_printItems (xs : List Json) :
    ∀ c ∈ printItems xs, isPlain c = true := by
  cases xs with
  | nil => exact List.all_eq_true.mp (by decide)
  | cons x xs =>
      rw [printItems, List.cons_append, List.forall_mem_cons, List.forall_mem_append]
      exact ⟨by decide, isPlain_of_mem_print x, isPlain_of_mem_printItems xs⟩

theorem isPlain_of_mem_printFields (fields : List (String × Json)) :
    ∀ c ∈ printFields fields, isPlain c = true := by
  cases fields with
  | nil => exact List.all_eq_true.mp (by decide)
  | cons f fields =>
      obtain ⟨k, x⟩ := f
      rw [printFields, List.append_assoc, List.cons_append, List.forall_mem_cons,
        List.forall_mem_append, List.cons_append, List.forall_mem_cons, List.forall_mem_append]
      exact ⟨by decide, fun c => isPlain_of_mem_printString, by decide,
        isPlain_of_mem_print x, isPlain_of_mem_printFields fields⟩

end

end CodeGraph.Json

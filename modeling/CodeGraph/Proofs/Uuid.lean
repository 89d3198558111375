import CodeGraph.Proofs.Text.Split
import CodeGraph.Uuid
import Mathlib.Algebra.GroupWithZero.Nat
/-! # Identifiers come back from their text

    The digits of an identifier spell its number again, and cutting its text at
    the hyphens gives these digits back. -/

namespace CodeGraph.Uuid

open Text

/-! ## Digits -/

/-- The digits of a number spell it, in front of whatever was read before. -/
theorem exists_mapM_hexDigits {width n : Nat} (h : n < 16 ^ width) :
    ∃ vs, (hexDigits width n).mapM hexValue? = some vs ∧
      ∀ acc, vs.foldl (fun m v => m * 16 + v) acc = acc * 16 ^ width + n := by
  induction width generalizing n with
  | zero =>
      refine ⟨[], rfl, fun acc => ?_⟩
      rw [Nat.pow_zero] at h
      rw [List.foldl_nil, Nat.pow_zero]
      omega
  | succ width ih =>
      have hpos : 0 < 16 ^ width := Nat.pow_pos (by decide)
      have hfirst : n / 16 ^ width < 16 := by
        rw [Nat.div_lt_iff_lt_mul hpos, Nat.mul_comm, ← Nat.pow_succ]
        exact h
      obtain ⟨vs, hvs, hfold⟩ := ih (Nat.mod_lt n hpos)
      have hdigit := hexValue?_hexDigit ⟨n / 16 ^ width, hfirst⟩
      refine ⟨n / 16 ^ width :: vs, ?_, fun acc => ?_⟩
      · show (hexDigit (n / 16 ^ width) :: hexDigits width (n % 16 ^ width)).mapM hexValue? = _
        rw [List.mapM_cons, hdigit, hvs]
        rfl
      · rw [List.foldl_cons, hfold, Nat.add_mul, Nat.mul_assoc, ← Nat.pow_succ',
          Nat.add_assoc, Nat.mul_comm (n / 16 ^ width), Nat.div_add_mod]

/-- Digits are read as the number they were written for, if it fits in them. -/
theorem hexNumber?_hexDigits {width n : Nat} (h : n < 16 ^ width) :
    hexNumber? (hexDigits width n) = some n := by
  obtain ⟨vs, hvs, hfold⟩ := exists_mapM_hexDigits h
  rw [hexNumber?, hvs, Option.map_some, hfold, Nat.zero_mul, Nat.zero_add]

theorem length_hexDigits (width n : Nat) : (hexDigits width n).length = width := by
  induction width generalizing n with
  | zero => rfl
  | succ width ih => rw [hexDigits, List.length_cons, ih]

/-- Each digit is one of sixteen. -/
theorem exists_hexDigit_of_mem {width n : Nat} (h : n < 16 ^ width) {c : Char}
    (hc : c ∈ hexDigits width n) : ∃ k < 16, c = hexDigit k := by
  induction width generalizing n with
  | zero => cases hc
  | succ width ih =>
      have hpos : 0 < 16 ^ width := Nat.pow_pos (by decide)
      rcases List.mem_cons.mp hc with rfl | hc
      · refine ⟨_, ?_, rfl⟩
        show n / 16 ^ width < 16
        rw [Nat.div_lt_iff_lt_mul hpos, Nat.mul_comm, ← Nat.pow_succ]
        exact h
      · exact ih (Nat.mod_lt n hpos) hc

/-- A digit is none of the marks around digits. -/
theorem hexDigit_ne : ∀ k < 16, hexDigit k ≠ '-' ∧ hexDigit k ≠ '\x7b' ∧
    (hexDigit k).toLower ≠ 'u' := by decide

/-! ## Groups -/

/-- Cutting at the hyphens gives the groups back. -/
theorem pieces_hyphenate {ns : List Nat} (hne : ns ≠ []) {ds : List Char}
    (hds : ∀ c ∈ ds, c ≠ '-') (hlength : ds.length = ns.sum) :
    (pieces (· = '-') (hyphenate ns ds)).map List.length = ns ∧
      (pieces (· = '-') (hyphenate ns ds)).flatten = ds := by
  -- on the lengths of the groups; the digits behind the first group are the rest
  induction ns generalizing ds with
  | nil => exact absurd rfl hne
  | cons n ns ih =>
      have hplain : ∀ c ∈ ds.take n, decide (c = '-') = false :=
        fun c hc => decide_eq_false (hds c (List.mem_of_mem_take hc))
      rw [List.sum_cons] at hlength
      cases ns with
      | nil =>
          rw [List.sum_nil, Nat.add_zero] at hlength
          rw [hyphenate, List.take_of_length_le (Nat.le_of_eq hlength)] at *
          rw [pieces_of_forall hplain]
          exact ⟨congrArg (fun m => [m]) hlength, List.append_nil ds⟩
      | cons m ns =>
          have hrest : (ds.drop n).length = (m :: ns).sum := by
            rw [List.length_drop]
            omega
          obtain ⟨hlengths, hflatten⟩ := ih (List.cons_ne_nil _ _)
            (fun c hc => hds c (List.mem_of_mem_drop hc)) hrest
          have htake : (ds.take n).length = n := by
            rw [List.length_take]
            omega
          rw [hyphenate, pieces_append (by decide), pieces_of_forall hplain,
            List.singleton_append]
          · refine ⟨?_, ?_⟩
            · rw [List.map_cons, hlengths, htake]
            · rw [List.flatten_cons, hflatten, List.take_append_drop]
          · exact nofun

/-- Between the groups stands one hyphen each. -/
theorem length_hyphenate {ns : List Nat} (hne : ns ≠ []) {ds : List Char}
    (hlength : ds.length = ns.sum) :
    (hyphenate ns ds).length + 1 = ds.length + ns.length := by
  induction ns generalizing ds with
  | nil => exact absurd rfl hne
  | cons n ns ih =>
      rw [List.sum_cons] at hlength
      cases ns with
      | nil =>
          rw [List.sum_nil, Nat.add_zero] at hlength
          rw [hyphenate, List.take_of_length_le (Nat.le_of_eq hlength)]
          rfl
      | cons m ns =>
          have hrest : (ds.drop n).length = (m :: ns).sum := by
            rw [List.length_drop]
            omega
          have := ih (List.cons_ne_nil _ _) hrest
          rw [List.length_drop] at this
          rw [hyphenate, List.length_append, List.length_cons, List.length_take,
            List.length_cons]
          · omega
          · exact nofun

/-! ## The whole -/

/-- Text that begins with something else is not in braces. -/
theorem unbrace?_cons {c : Char} (h : c ≠ '\x7b') (t : List Char) :
    unbrace? (c :: t) = none := by
  rw [unbrace?]
  rintro s heq
  exact h (List.cons.inj heq).1

/-- Text that begins with something else than the letter `u` has no mark in front. -/
theorem unmark?_cons {c : Char} (h : c.toLower ≠ 'u') (t : List Char) :
    unmark? (c :: t) = none := by
  have hmark : "urn:uuid:".toList = 'u' :: "rn:uuid:".toList := by decide
  have hne : ('u' == c.toLower) = false := beq_eq_false_iff_ne.mpr h.symm
  rw [unmark?, hmark, List.map_cons, List.isPrefixOf_cons_cons, hne, Bool.false_and,
    if_neg Bool.false_ne_true]

/-- **An identifier comes back from its text.** -/
theorem ofText?_toText (u : Uuid) : ofText? u.toText = some u := by
  have hbound : u.bits.toNat < 16 ^ 32 := u.bits.isLt
  have hdigits : ∀ c ∈ hexDigits 32 u.bits.toNat, c ≠ '-' := by
    intro c hc
    obtain ⟨k, hk, rfl⟩ := exists_hexDigit_of_mem hbound hc
    exact (hexDigit_ne k hk).1
  have hgroups : groups ≠ [] := List.cons_ne_nil _ _
  have hlength : (hexDigits 32 u.bits.toNat).length = groups.sum := length_hexDigits _ _
  obtain ⟨hlengths, hflatten⟩ := pieces_hyphenate hgroups hdigits hlength
  have hlong := length_hyphenate hgroups hlength
  -- the text begins with a digit, so it has no marks around it
  obtain ⟨c, t, hcons, hc⟩ : ∃ c t, hyphenate groups (hexDigits 32 u.bits.toNat) = c :: t ∧
      c ∈ hexDigits 32 u.bits.toNat := ⟨_, _, rfl, List.mem_cons_self⟩
  obtain ⟨k, hk, rfl⟩ := exists_hexDigit_of_mem hbound hc
  obtain ⟨-, hbrace, hmark⟩ := hexDigit_ne k hk
  have hbare : ((unbrace? (hexDigit k :: t)).or (unmark? (hexDigit k :: t))).getD
      (hexDigit k :: t) = hexDigit k :: t := by
    rw [unbrace?_cons hbrace, unmark?_cons hmark]
    rfl
  have hthirtysix : (hexDigit k :: t).length ≠ 32 := by
    rw [hcons, length_hexDigits] at hlong
    rw [show groups.length = 5 from rfl] at hlong
    omega
  rw [hcons] at hlengths hflatten
  -- the groups are cut off again, and the digits in them are read
  rw [ofText?, toText, String.toList_ofList, hcons, if_neg hthirtysix, hbare]
  rw [ofGroups?, if_pos hlengths, hflatten]
  rw [ofDigits?, if_pos (length_hexDigits _ _), hexNumber?_hexDigits hbound]
  rw [Option.map_some, BitVec.ofNat_toNat, BitVec.setWidth_eq]

end CodeGraph.Uuid

import CodeGraph.Proofs.Retrieval.Token
import Mathlib
/-! # Spelling — tokens and the text that they come from

    The tokens of a text spell its letters and digits in lower case.  Where a text is cut
    depends on two neighbouring characters only, so it does not matter how an identifier
    marks its words.

    * A token is not empty and holds small letters and digits only
      (`small_of_mem_tokensOf`); one after the other the tokens are the letters and digits
      of the text (`flatten_tokensOf`).
    * An underscore in front of a capital behind a small letter changes no token
      (`tokensOf_divide`).
    * A token is its own only token (`tokenize_of_mem`). -/

namespace CodeGraph.Retrieval

/-! ## What tokens hold -/

/-- What belongs to tokens is small in lower case. -/
theorem isSmall_toLower {c : Char} (h : ¬ Separates c) : isSmall c.toLower = true := by
  cases hsmall : isSmall c with
  | true => rw [toLower_of_isSmall hsmall, hsmall]
  | false =>
      have hcapital : c.isUpper = true := by
        rw [← isCapital_eq, ← Bool.not_eq_false]
        exact fun hcapital => h ⟨hcapital, hsmall⟩
      rw [isSmall_eq, Char.isLower_toLower_eq_isAlpha, Char.isAlpha, hcapital]
      rfl

/-- A token is a word of small letters and digits. -/
theorem small_of_mem_tokensOf {cs w : List Char} (h : w ∈ tokensOf cs) :
    w ≠ [] ∧ ∀ c ∈ w, isSmall c = true := by
  induction cs generalizing w with
  | nil =>
      rw [tokensOf_nil] at h
      cases h
  | cons a cs ih =>
      rcases tokensOf_cons_cases a cs with ⟨-, htokens⟩ | ⟨ha, htokens⟩ | ⟨ha, v, vs, hv, htokens⟩
      · exact ih (htokens ▸ h)
      · rw [htokens] at h
        rcases List.mem_cons.mp h with rfl | h
        · refine ⟨List.cons_ne_nil _ _, ?_⟩
          intro c hc
          rw [List.mem_singleton.mp hc]
          exact isSmall_toLower ha
        · exact ih h
      · rw [htokens] at h
        rcases List.mem_cons.mp h with rfl | h
        · refine ⟨List.cons_ne_nil _ _, ?_⟩
          intro c hc
          rcases List.mem_cons.mp hc with rfl | hc
          · exact isSmall_toLower ha
          · exact (ih (hv ▸ List.mem_cons_self)).2 c hc
        · exact ih (hv ▸ List.mem_cons_of_mem v h)

/-- One after the other the tokens are the letters and digits of the text. -/
theorem flatten_tokensOf (cs : List Char) :
    (tokensOf cs).flatten = (cs.filter Char.isAlphanum).map Char.toLower := by
  induction cs with
  | nil =>
      rw [tokensOf_nil]
      rfl
  | cons a cs ih =>
      -- left out, before the tokens or in the first of them: the letter is seen once or never
      rcases tokensOf_cons_cases a cs with ⟨ha, htokens⟩ | ⟨ha, htokens⟩ | ⟨ha, v, vs, hv, htokens⟩
      · rw [separates_iff] at ha
        rw [htokens, List.filter_cons_of_neg (Bool.eq_false_iff.mp ha), ih]
      · rw [separates_iff, Bool.not_eq_false] at ha
        rw [htokens, List.filter_cons_of_pos ha, List.map_cons, ← ih]
        rfl
      · rw [separates_iff, Bool.not_eq_false] at ha
        rw [htokens, List.filter_cons_of_pos ha, List.map_cons, ← ih, hv]
        rfl

/-- A word of small letters and digits is its only token. -/
theorem tokensOf_word {w : List Char} (hne : w ≠ []) (h : ∀ c ∈ w, isSmall c = true) :
    tokensOf w = [w] := by
  cases w with
  | nil => exact absurd rfl hne
  | cons a w =>
      have hw : ∀ c ∈ w, isSmall c = true := fun c hc => h c (List.mem_cons_of_mem a hc)
      rw [tokensOf_small (h a List.mem_cons_self), List.takeWhile_eq_self_iff.mpr hw,
        List.dropWhile_eq_nil_iff.mpr hw, tokensOf_nil]

/-- A token is its own only token. -/
theorem tokenize_of_mem {s t : String} (h : t ∈ tokenize s) : tokenize t = [t] := by
  obtain ⟨w, hw, rfl⟩ := List.mem_map.mp h
  obtain ⟨hne, hsmall⟩ := small_of_mem_tokensOf hw
  rw [tokenize, String.toList_ofList, tokensOf_word hne hsmall, List.map_singleton]

/-! ## How identifiers mark their words -/

/-- Which characters are taken for capitals, and which for small letters or digits.  Letters
    outside ASCII may be among them, but no ASCII character is taken for what it is not. -/
structure Script where
  capital : Char → Bool
  small : Char → Bool
  capital_not_small : ∀ c, capital c = true → isSmall c = false
  small_not_capital : ∀ c, small c = true → isCapital c = false

namespace Script

/-- The letters and digits of ASCII. -/
def ascii : Script where
  capital := isCapital
  small := isSmall
  capital_not_small c h := by
    rw [← Bool.not_eq_true]
    intro hsmall
    exact absurd h (Bool.eq_false_iff.mp (isCapital_of_isSmall hsmall))
  small_not_capital _ := isCapital_of_isSmall

variable (script : Script)

/-- Puts `_` in front of each capital behind a small letter or a digit; the text stands
    behind `before`. -/
def divideFrom (before : Option Char) : List Char → List Char
  | [] => []
  | c :: cs =>
      if before.any script.small && script.capital c then '_' :: c :: divideFrom (some c) cs
      else c :: divideFrom (some c) cs

/-- The text with `_` in front of each capital behind a small letter or a digit. -/
def divide (s : String) : String := String.ofList (script.divideFrom none s.toList)

theorem joins_eq_false {a b : Char} (ha : script.small a = true) (hb : script.capital b = true) :
    joins a b = false := by
  rw [joins, script.small_not_capital a ha, script.capital_not_small b hb, Bool.false_and,
    Bool.and_false, Bool.or_false]

theorem tokensOf_divideFrom (a : Char) (cs : List Char) :
    tokensOf (a :: script.divideFrom (some a) cs) = tokensOf (a :: cs) := by
  induction cs generalizing a with
  | nil => rfl
  | cons b cs ih =>
      rw [divideFrom]
      split
      · rename_i hmarked
        obtain ⟨ha, hb⟩ := Bool.and_eq_true_iff.mp hmarked
        have hunderscore : Separates '_' := ⟨by decide, by decide⟩
        have hparted : Parted [a] (b :: cs) := by
          intro c hc d hd
          cases hc
          cases hd
          exact script.joins_eq_false ha hb
        calc tokensOf ([a] ++ '_' :: b :: script.divideFrom (some b) cs)
            = tokensOf [a] ++ tokensOf (b :: script.divideFrom (some b) cs) :=
              tokensOf_append hunderscore _ _
          _ = tokensOf [a] ++ tokensOf (b :: cs) := by rw [ih]
          _ = tokensOf ([a] ++ b :: cs) := (tokensOf_append_of_parted hparted).symm
      · -- the texts begin alike behind `a`, and have the same tokens there
        have hbehind : tokensOf (b :: script.divideFrom (some b) cs) =
            tokensOf (b :: cs) ++ [] := by
          rw [ih, List.append_nil]
        rw [tokensOf_cons_cons a hbehind, List.append_nil]

/-- Underscores between the words of an identifier change no token. -/
theorem tokenize_divide (s : String) : tokenize (script.divide s) = tokenize s := by
  rw [tokenize, divide, String.toList_ofList, tokenize]
  cases s.toList with
  | nil => rfl
  | cons a cs =>
      rw [divideFrom, Option.any_none, Bool.false_and, if_neg Bool.false_ne_true,
        tokensOf_divideFrom]

end Script

/-! ## Tokens of texts -/

theorem small_of_mem_tokenize {s t : String} (h : t ∈ tokenize s) :
    t ≠ "" ∧ ∀ c ∈ t.toList, c.isLower = true ∨ c.isDigit = true := by
  obtain ⟨w, hw, rfl⟩ := List.mem_map.mp h
  obtain ⟨hne, hsmall⟩ := small_of_mem_tokensOf hw
  refine ⟨mt String.ofList_eq_empty_iff.mp hne, ?_⟩
  intro c hc
  rw [String.toList_ofList] at hc
  rw [← Bool.or_eq_true, ← isSmall_eq]
  exact hsmall c hc

theorem join_tokenize (s : String) : String.join (tokenize s) =
    String.ofList ((s.toList.filter Char.isAlphanum).map Char.toLower) := by
  have hback : String.toList ∘ String.ofList = id := funext fun _ => String.toList_ofList
  rw [← flatten_tokensOf, String.join_eq, tokenize, List.map_map, hback, List.map_id]

theorem tokenize_append_iff {a b : String} :
    tokenize (a ++ b) = tokenize a ++ tokenize b ↔ Parted a.toList b.toList := by
  rw [tokenize, tokenize, tokenize, ← List.map_append, String.toList_append,
    List.map_inj_right fun _ _ => String.ofList_inj.mp, tokensOf_append_iff]

/-- **Tokens spell the text and are cut where two characters do not join.**  They are words of
    small letters and digits, one after the other all letters and digits of the text.  Another
    character is in no token and ends the one before it.  Underscores in front of capitals
    change nothing, nor does cutting again what is cut. -/
theorem tokenize_spells (script : Script) (s : String) :
    (∀ t ∈ tokenize s, t ≠ "" ∧ ∀ c ∈ t.toList, c.isLower = true ∨ c.isDigit = true) ∧
      String.join (tokenize s) =
        String.ofList ((s.toList.filter Char.isAlphanum).map Char.toLower) ∧
      (∀ (c : Char) (b : String), c.isAlphanum = false →
        tokenize (s ++ String.singleton c ++ b) = tokenize s ++ tokenize b) ∧
      tokenize (script.divide s) = tokenize s ∧
      tokenize (" ".intercalate (tokenize s)) = tokenize s ∧
      ∀ b, tokenize (s ++ b) = tokenize s ++ tokenize b ↔ Parted s.toList b.toList := by
  refine ⟨fun t ht => small_of_mem_tokenize ht, join_tokenize s, ?_, script.tokenize_divide s, ?_,
    fun b => tokenize_append_iff⟩
  · intro c b hc
    exact tokenize_append (separates_iff.mpr hc) s b
  · calc tokenize (" ".intercalate (tokenize s))
        = (tokenize s).flatMap tokenize := tokenize_intercalate _
      _ = (tokenize s).flatMap fun t => [t] := List.flatMap_congr fun t ht => tokenize_of_mem ht
      _ = tokenize s := List.flatMap_singleton' _

/-- `parseHTML` is cut in front of its capitals and not between them, with or without an
    underscore. -/
theorem tokenize_spells_parseHTML :
    "html" ∈ tokenize "parseHTML" ∧ '-'.isAlphanum = false ∧
      (∀ c ∈ "html".toList, c.isLower = true ∨ c.isDigit = true) ∧
      String.join (tokenize "parseHTML") = "parsehtml" ∧
      tokenize ("parseHTML" ++ String.singleton '-' ++ "v2File") = ["parse", "html", "v2", "file"] ∧
      tokenize "parse_HTML" = ["parse", "html"] ∧
      tokenize "parse html" = ["parse", "html"] ∧
      tokenize ("parseHTML" ++ "file") ≠ ["parse", "html", "file"] := by
  have hparse : tokenize "parseHTML" = ["parse", "html"] := by cbv
  have hfile : tokenize "v2File" = ["v2", "file"] := by cbv
  have hdivide : Script.ascii.divide "parseHTML" = "parse_HTML" := by cbv
  have hhtml : "html" ∈ tokenize "parseHTML" := by
    rw [hparse]
    exact List.mem_cons_of_mem _ List.mem_cons_self
  have hminus : '-'.isAlphanum = false := by decide
  obtain ⟨hwords, hjoin, happend, hunderscore, hagain, hparted⟩ :=
    tokenize_spells Script.ascii "parseHTML"
  refine ⟨hhtml, hminus, (hwords "html" hhtml).2, ?_, ?_, ?_, ?_, ?_⟩
  · rw [hjoin]
    decide
  · rw [happend '-' "v2File" hminus, hparse, hfile]
    rfl
  · rw [← hdivide, hunderscore, hparse]
  · rw [hparse] at hagain
    exact hagain
  · -- a token goes on from the last capital to the small letter
    intro h
    have hword : tokenize "file" = ["file"] := by cbv
    have hnone : joins 'L' 'f' = false := by
      refine (hparted "file").mp ?_ 'L' (by decide) 'f' (by decide)
      rw [hparse, hword]
      exact h
    exact absurd hnone (by decide)

end CodeGraph.Retrieval

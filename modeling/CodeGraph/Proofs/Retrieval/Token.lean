import CodeGraph.Retrieval.Token
import Mathlib.Data.List.TakeWhile
/-! # Tokens — where they are cut

    A token goes on from one character to the next if the two join, and is cut where they
    do not.  So tokens can be read one character at a time.

    * The tokens of a longer text are those of the text behind its first character, with
      this character left out, put before them, or put into the first of them
      (`tokensOf_cons_cases`).
    * Two texts together have the tokens of the one and then those of the other exactly
      if no token reaches over the border between them (`tokensOf_append_iff`).  A
      character that is no letter and no digit is such a border
      (`tokensOf_append`). -/

namespace CodeGraph.Retrieval

/-- A character that belongs to no token. -/
def Separates (c : Char) : Prop := isCapital c = false ∧ isSmall c = false

/-- Whether a token goes on from one character to the next: capitals go on with anything
    that belongs to tokens, small letters and digits only with their like. -/
def joins (a b : Char) : Bool :=
  isCapital a && (isCapital b || isSmall b) || isSmall a && isSmall b

/-! ## Characters -/

theorem isCapital_eq (c : Char) : isCapital c = c.isUpper :=
  (Bool.decide_and _ _).symm

theorem isSmall_eq (c : Char) : isSmall c = (c.isLower || c.isDigit) := rfl

/-- The characters of tokens are the letters and digits of ASCII. -/
theorem separates_iff {c : Char} : Separates c ↔ c.isAlphanum = false := by
  show _ ↔ (c.isUpper || c.isLower || c.isDigit) = false
  rw [Separates, isCapital_eq, isSmall_eq, Bool.or_assoc, Bool.or_eq_false_iff (x := c.isUpper)]

/-- No character is both. -/
theorem isCapital_of_isSmall {c : Char} (h : isSmall c = true) : isCapital c = false := by
  rw [← Bool.not_eq_true, isCapital, Bool.and_eq_true]
  rintro ⟨hfirst, hlast⟩
  rw [isSmall, Bool.or_eq_true, Bool.and_eq_true, Bool.and_eq_true] at h
  rcases h with ⟨hletter, -⟩ | ⟨-, hdigit⟩
  · have hle : 'a' ≤ 'Z' := UInt32.le_trans (of_decide_eq_true hletter) (of_decide_eq_true hlast)
    exact absurd hle (by decide)
  · have hle : 'A' ≤ '9' := UInt32.le_trans (of_decide_eq_true hfirst) (of_decide_eq_true hdigit)
    exact absurd hle (by decide)

/-- Small letters and digits stay as they are. -/
theorem toLower_of_isSmall {c : Char} (h : isSmall c = true) : c.toLower = c := by
  have hcapital := isCapital_of_isSmall h
  rw [isCapital_eq] at hcapital
  exact dif_neg (of_decide_eq_false hcapital)

/-- Small letters and digits are in lower case already. -/
theorem map_toLower_takeWhile (cs : List Char) :
    (cs.takeWhile isSmall).map Char.toLower = cs.takeWhile isSmall :=
  (List.map_congr_left fun _ hc => toLower_of_isSmall (List.mem_takeWhile_imp hc)).trans
    (List.map_id _)

/-- Nothing is joined to a separator. -/
theorem joins_of_separates_left {a : Char} (h : Separates a) (b : Char) :
    joins a b = false := by
  rw [joins, h.1, h.2]
  rfl

theorem joins_of_separates_right (a : Char) {b : Char} (h : Separates b) :
    joins a b = false := by
  rw [joins, h.1, h.2, Bool.or_false, Bool.and_false, Bool.and_false]
  rfl

/-! ## One character at a time -/

theorem tokensOf_nil : tokensOf [] = [] := by rw [tokensOf]

/-- A separator is no part of a token. -/
theorem tokensOf_separator {c : Char} (h : Separates c) (cs : List Char) :
    tokensOf (c :: cs) = tokensOf cs := by
  rw [tokensOf.eq_2, h.1, h.2]
  rfl

/-- A capital begins a token, which goes on with the capitals behind it and then with small
    letters and digits. -/
theorem tokensOf_capital {c : Char} (h : isCapital c = true) (cs : List Char) :
    tokensOf (c :: cs) =
      (c :: cs.takeWhile isCapital ++ (cs.dropWhile isCapital).takeWhile isSmall).map Char.toLower
        :: tokensOf ((cs.dropWhile isCapital).dropWhile isSmall) := by
  rw [tokensOf.eq_2, if_pos h]

/-- A small letter begins a token, which goes on with small letters and digits. -/
theorem tokensOf_small {c : Char} (h : isSmall c = true) (cs : List Char) :
    tokensOf (c :: cs) = (c :: cs.takeWhile isSmall) :: tokensOf (cs.dropWhile isSmall) := by
  rw [tokensOf.eq_2, isCapital_of_isSmall h, if_neg Bool.false_ne_true, if_pos h]

/-- The predicate that fails at the front of a list takes nothing off it. -/
theorem span_of_head? {p : Char → Bool} {cs : List Char} (h : ∀ b ∈ cs.head?, p b = false) :
    cs.takeWhile p = [] ∧ cs.dropWhile p = cs := by
  cases cs with
  | nil => exact ⟨rfl, rfl⟩
  | cons b cs =>
      have hb : ¬ p b = true := Bool.eq_false_iff.mp (h b rfl)
      exact ⟨List.takeWhile_cons_of_neg hb, List.dropWhile_cons_of_neg hb⟩

/-- A character that does not join the next one is a token of its own. -/
theorem tokensOf_alone {a : Char} (ha : ¬ Separates a) {cs : List Char}
    (h : ∀ b ∈ cs.head?, joins a b = false) :
    tokensOf (a :: cs) = [a.toLower] :: tokensOf cs := by
  -- a capital is followed by neither kind, a small letter by no small letter
  cases hcapital : isCapital a with
  | true =>
      have hnext : ∀ b ∈ cs.head?, isCapital b = false ∧ isSmall b = false := by
        intro b hb
        have hjoins := h b hb
        rw [joins, hcapital, Bool.true_and, Bool.or_eq_false_iff, Bool.or_eq_false_iff] at hjoins
        exact hjoins.1
      obtain ⟨hcapitals, hbehind⟩ := span_of_head? fun b hb => (hnext b hb).1
      obtain ⟨hsmalls, hrest⟩ := span_of_head? fun b hb => (hnext b hb).2
      rw [tokensOf_capital hcapital, hcapitals, hbehind, hsmalls, hrest]
      rfl
  | false =>
      have hsmall : isSmall a = true := by
        rw [← Bool.not_eq_false]
        exact fun hsmall => ha ⟨hcapital, hsmall⟩
      have hnext : ∀ b ∈ cs.head?, isSmall b = false := by
        intro b hb
        have hjoins := h b hb
        rw [joins, hsmall, Bool.true_and, Bool.or_eq_false_iff] at hjoins
        exact hjoins.2
      obtain ⟨hsmalls, hrest⟩ := span_of_head? hnext
      rw [tokensOf_small hsmall, hsmalls, hrest, toLower_of_isSmall hsmall]

/-- A character that joins the next one begins the token of that one. -/
theorem tokensOf_joined {a b : Char} (h : joins a b = true) (cs : List Char) :
    ∃ w ws, tokensOf (b :: cs) = w :: ws ∧
      tokensOf (a :: b :: cs) = (a.toLower :: w) :: ws := by
  rw [joins, Bool.or_eq_true, Bool.and_eq_true, Bool.and_eq_true, Bool.or_eq_true] at h
  rcases h with ⟨ha, hb | hb⟩ | ⟨ha, hb⟩
  · refine ⟨_, _, tokensOf_capital hb cs, ?_⟩
    rw [tokensOf_capital ha, List.takeWhile_cons_of_pos hb, List.dropWhile_cons_of_pos hb]
    rfl
  · refine ⟨_, _, tokensOf_small hb cs, ?_⟩
    have hcapital : ¬ isCapital b = true := Bool.eq_false_iff.mp (isCapital_of_isSmall hb)
    rw [tokensOf_capital ha, List.takeWhile_cons_of_neg hcapital,
      List.dropWhile_cons_of_neg hcapital, List.takeWhile_cons_of_pos hb,
      List.dropWhile_cons_of_pos hb, List.cons_append, List.nil_append, List.map_cons,
      List.map_cons, map_toLower_takeWhile, toLower_of_isSmall hb]
  · refine ⟨_, _, tokensOf_small hb cs, ?_⟩
    rw [tokensOf_small ha, List.takeWhile_cons_of_pos hb, List.dropWhile_cons_of_pos hb,
      toLower_of_isSmall ha]

theorem tokensOf_singleton {a : Char} (ha : ¬ Separates a) : tokensOf [a] = [[a.toLower]] := by
  have hnone : ∀ b ∈ ([] : List Char).head?, joins a b = false := nofun
  rw [tokensOf_alone ha hnone, tokensOf_nil]

theorem tokensOf_apart {a b : Char} (ha : ¬ Separates a) (h : joins a b = false)
    (cs : List Char) : tokensOf (a :: b :: cs) = [a.toLower] :: tokensOf (b :: cs) :=
  tokensOf_alone ha fun _ hc => Option.some.inj hc ▸ h

/-- **What a character in front does to the tokens of a text:** nothing, or it is put
    before them, or into the first of them. -/
theorem tokensOf_cons_cases (a : Char) (cs : List Char) :
    (Separates a ∧ tokensOf (a :: cs) = tokensOf cs) ∨
    (¬ Separates a ∧ tokensOf (a :: cs) = [a.toLower] :: tokensOf cs) ∨
    (¬ Separates a ∧ ∃ w ws, tokensOf cs = w :: ws ∧
      tokensOf (a :: cs) = (a.toLower :: w) :: ws) := by
  by_cases ha : Separates a
  · exact Or.inl ⟨ha, tokensOf_separator ha cs⟩
  · cases cs with
    | nil => exact Or.inr (Or.inl ⟨ha, tokensOf_alone ha nofun⟩)
    | cons b cs =>
        cases h : joins a b with
        | true => exact Or.inr (Or.inr ⟨ha, tokensOf_joined h cs⟩)
        | false => exact Or.inr (Or.inl ⟨ha, tokensOf_apart ha h cs⟩)

/-! ## Two texts -/

/-- No token reaches from one text into the next. -/
def Parted (as bs : List Char) : Prop :=
  ∀ a ∈ as.getLast?, ∀ b ∈ bs.head?, joins a b = false

/-- If a text goes on as another one does and with more tokens behind, so it does with a
    character in front of both. -/
theorem tokensOf_cons_cons (a : Char) {b : Char} {cs ds : List Char} {more : List (List Char)}
    (h : tokensOf (b :: ds) = tokensOf (b :: cs) ++ more) :
    tokensOf (a :: b :: ds) = tokensOf (a :: b :: cs) ++ more := by
  by_cases ha : Separates a
  · rw [tokensOf_separator ha, tokensOf_separator ha, h]
  · cases hjoins : joins a b with
    | false => rw [tokensOf_apart ha hjoins, tokensOf_apart ha hjoins, h, List.cons_append]
    | true =>
        obtain ⟨w, ws, hw, hfront⟩ := tokensOf_joined hjoins cs
        obtain ⟨v, vs, hv, hlonger⟩ := tokensOf_joined hjoins ds
        -- both texts begin with the same token
        have heq : v :: vs = w :: (ws ++ more) := by rw [← hv, h, hw, List.cons_append]
        obtain ⟨rfl, rfl⟩ := List.cons.inj heq
        rw [hlonger, hfront, List.cons_append]

/-- **A text that is cut where no two characters join has the tokens of its parts.** -/
theorem tokensOf_append_of_parted {as bs : List Char} (h : Parted as bs) :
    tokensOf (as ++ bs) = tokensOf as ++ tokensOf bs := by
  -- the border stays where it is while characters go off the front of the first text
  induction as with
  | nil => rw [List.nil_append, tokensOf_nil, List.nil_append]
  | cons a as ih =>
      cases as with
      | nil =>
          by_cases ha : Separates a
          · rw [List.cons_append, tokensOf_separator ha, tokensOf_separator ha, tokensOf_nil]
            rfl
          · rw [List.cons_append, List.nil_append, tokensOf_alone ha (h a (by rfl)),
              tokensOf_singleton ha]
            rfl
      | cons b as => exact tokensOf_cons_cons a (ih h)

/-- How many tokens a character adds depends on the one behind it. -/
theorem exists_length_tokensOf (a b : Char) : ∃ n, ∀ cs,
    (tokensOf (a :: b :: cs)).length = n + (tokensOf (b :: cs)).length := by
  by_cases ha : Separates a
  · exact ⟨0, fun cs => by rw [tokensOf_separator ha, Nat.zero_add]⟩
  · cases hjoins : joins a b with
    | false => exact ⟨1, fun cs => by rw [tokensOf_apart ha hjoins, List.length_cons, Nat.add_comm]⟩
    | true =>
        refine ⟨0, fun cs => ?_⟩
        obtain ⟨w, ws, hw, hmore⟩ := tokensOf_joined hjoins cs
        rw [hmore, hw, List.length_cons, List.length_cons, Nat.zero_add]

/-- A token that reaches over the border is one token of the whole, and two of the parts. -/
theorem length_tokensOf_append {as bs : List Char} {a b : Char} (ha : as.getLast? = some a)
    (hb : bs.head? = some b) (h : joins a b = true) :
    (tokensOf (as ++ bs)).length + 1 = (tokensOf as).length + (tokensOf bs).length := by
  obtain ⟨bs, rfl⟩ := List.head?_eq_some_iff.mp hb
  induction as with
  | nil => cases ha
  | cons c as ih =>
      cases as with
      | nil =>
          obtain rfl : c = a := Option.some.inj ha
          have hown : ¬ Separates c := fun hsep =>
            Bool.false_ne_true ((joins_of_separates_left hsep b).symm.trans h)
          obtain ⟨w, ws, hw, hmore⟩ := tokensOf_joined h bs
          rw [List.cons_append, List.nil_append, hmore, hw, tokensOf_singleton hown]
          simp only [List.length_cons, List.length_nil]
          omega
      | cons d as =>
          obtain ⟨n, hn⟩ := exists_length_tokensOf c d
          have hrest : (tokensOf (d :: (as ++ b :: bs))).length + 1 =
              (tokensOf (d :: as)).length + (tokensOf (b :: bs)).length := ih ha
          rw [List.cons_append, List.cons_append, hn, hn]
          omega

/-- **Two texts keep their tokens exactly if no token reaches over the border.** -/
theorem tokensOf_append_iff {as bs : List Char} :
    tokensOf (as ++ bs) = tokensOf as ++ tokensOf bs ↔ Parted as bs := by
  refine ⟨?_, tokensOf_append_of_parted⟩
  intro h a ha b hb
  rw [← Bool.not_eq_true]
  intro hjoins
  have hlength := length_tokensOf_append ha hb hjoins
  rw [h, List.length_append] at hlength
  omega

/-- **No token reaches over a separator.** -/
theorem tokensOf_append {c : Char} (hc : Separates c) (as bs : List Char) :
    tokensOf (as ++ c :: bs) = tokensOf as ++ tokensOf bs := by
  rw [tokensOf_append_of_parted, tokensOf_separator hc]
  intro a ha b hb
  cases hb
  exact joins_of_separates_right a hc

/-- A separator cuts a text in two. -/
theorem tokenize_append {c : Char} (hc : Separates c) (a b : String) :
    tokenize (a ++ String.singleton c ++ b) = tokenize a ++ tokenize b := by
  have hlist : (a ++ String.singleton c ++ b).toList = a.toList ++ c :: b.toList := by
    rw [String.toList_append, String.toList_append, String.toList_singleton, List.append_assoc]
    rfl
  rw [tokenize, hlist, tokensOf_append hc, List.map_append, tokenize, tokenize]

/-- **The tokens of joined texts are those of the texts themselves,** in their order. -/
theorem tokenize_intercalate (texts : List String) :
    tokenize (" ".intercalate texts) = texts.flatMap tokenize := by
  have hspace : Separates ' ' := ⟨by decide, by decide⟩
  induction texts with
  | nil =>
      rw [String.intercalate_nil, tokenize, String.toList_empty, tokensOf_nil]
      rfl
  | cons a texts ih =>
      cases texts with
      | nil => rw [String.intercalate_singleton, List.flatMap_singleton]
      | cons b texts =>
          rw [String.intercalate_cons_cons, show " " = String.singleton ' ' from rfl,
            tokenize_append hspace]
          exact congrArg (tokenize a ++ ·) ih

end CodeGraph.Retrieval

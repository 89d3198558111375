import CodeGraph.Json.Shape
import CodeGraph.Proofs.Json.Numeral
/-! # What is printed can be read

    Reading takes back what printing wrote, wherever a value may end.

    * Strings come back as they are, and so do the items of an array and the
      fields of an object (`taken_list_array`, `taken_list_object`).
    * `settle` is what a value comes back as: the same but for its numbers, as
      long as it is not nested too deeply (`taken_value_print`).
    * With a shape it comes back as what the shape looks at
      (`taken_shaped_print`), and what is not looked at is skipped, whatever it
      is (`taken_skippedValue_print`). -/

namespace CodeGraph.Json

open Text Reader

/-! ## Strings -/

/-- Four digits of which the first two are zero stand for a control character. -/
theorem hexNumber?_byte {n : Nat} (h : n < 0x20) :
    hexNumber? ['0', '0', hexDigit (n / 16), hexDigit (n % 16)] = some n := by
  have hhigh := hexValue?_hexDigit ⟨n / 16, by omega⟩
  have hlow := hexValue?_hexDigit ⟨n % 16, by omega⟩
  have hzero : hexValue? '0' = some 0 := rfl
  simp only [hexNumber?, List.mapM_cons, List.mapM_nil, hhigh, hlow, hzero,
    Option.pure_def, Option.bind_eq_bind, Option.bind_some, Option.map_some, List.foldl]
  congr 1
  omega

theorem taken_fourDigits {n : Nat} (h : n < 0x20) (q : List Char) :
    taken fourDigits ('0' :: '0' :: hexDigit (n / 16) :: hexDigit (n % 16) :: q) =
      some (n, q) := by
  rw [taken, fourDigits]
  show (Option.map _ ((hexNumber? ['0', '0', hexDigit (n / 16), hexDigit (n % 16)]).map _)) = _
  rw [hexNumber?_byte h]
  rfl

/-- A character stands for itself, or it is escaped so that it is found again. -/
theorem escapeChar_cases (c : Char) :
    escapeChar c = [c] ∧ c ≠ '"' ∧ c ≠ '\\' ∧ isPlain c = true ∨
      ∃ e, escapeChar c = '\\' :: e ∧ (∀ q, taken escape (e ++ q) = some (c, q)) ∧
        ∃ d, ∀ q, taken skippedEscape (e ++ q) = some (d, q) := by
  unfold escapeChar
  split
  · exact Or.inr ⟨['"'], rfl, fun _ => rfl, '"', fun _ => rfl⟩
  · exact Or.inr ⟨['\\'], rfl, fun _ => rfl, '\\', fun _ => rfl⟩
  · exact Or.inr ⟨['b'], rfl, fun _ => rfl, '\x08', fun _ => rfl⟩
  · exact Or.inr ⟨['f'], rfl, fun _ => rfl, '\x0c', fun _ => rfl⟩
  · exact Or.inr ⟨['n'], rfl, fun _ => rfl, '\n', fun _ => rfl⟩
  · exact Or.inr ⟨['r'], rfl, fun _ => rfl, '\r', fun _ => rfl⟩
  · exact Or.inr ⟨['t'], rfl, fun _ => rfl, '\t', fun _ => rfl⟩
  · rename_i hquote hbackslash _ _ _ _ _
    split
    · rename_i hcontrol
      refine Or.inr ⟨_, rfl, ?_, '\ufffd', ?_⟩
      · intro q
        obtain ⟨hshorter, hread⟩ := taken_eq_some.mp (taken_fourDigits hcontrol q)
        have hhigh : ¬ (0xD800 ≤ c.toNat ∧ c.toNat ≤ 0xDBFF) := by omega
        have hlow : ¬ (0xDC00 ≤ c.toNat ∧ c.toNat ≤ 0xDFFF) := by omega
        rw [List.cons_append, taken, escape, codePoint]
        simp only [List.cons_append, List.nil_append, hread, if_neg hhigh, if_neg hlow]
        show some (Char.ofNat c.toNat, q) = _
        rw [Char.ofNat_toNat]
      · intro q
        obtain ⟨hshorter, hread⟩ := taken_eq_some.mp (taken_fourDigits hcontrol q)
        rw [List.cons_append, taken, skippedEscape]
        simp only [List.cons_append, List.nil_append, hread]
        rfl
    · rename_i hplain
      refine Or.inl ⟨rfl, hquote, hbackslash, ?_⟩
      rw [isPlain, decide_eq_true_eq]
      omega

/-- **A string in quotes is read as it was printed,** whatever is in it. -/
theorem taken_stringBody (cs q : List Char) :
    taken stringBody (cs.flatMap escapeChar ++ '"' :: q) = some (cs, q) := by
  induction cs with
  | nil => exact taken_quoted_close
  | cons c cs ih =>
      rw [List.flatMap_cons, List.append_assoc]
      rcases escapeChar_cases c with ⟨hc, hquote, hbackslash, hplain⟩ | ⟨e, hc, he, -⟩
      · rw [hc, List.singleton_append, stringBody,
          taken_quoted_plain hquote hbackslash hplain, ← stringBody, ih]
        rfl
      · rw [hc, List.cons_append, stringBody, taken_quoted_escape (by decide) (he _),
          ← stringBody, ih]
        rfl

/-- A reader that skips a string stops at the same quote. -/
theorem exists_taken_skippedString (cs : List Char) :
    ∃ ds, ∀ q, taken skippedString (cs.flatMap escapeChar ++ '"' :: q) = some (ds, q) := by
  induction cs with
  | nil => exact ⟨[], fun q => taken_quoted_close⟩
  | cons c cs ih =>
      obtain ⟨ds, ih⟩ := ih
      rcases escapeChar_cases c with ⟨hc, hquote, hbackslash, hplain⟩ | ⟨e, hc, -, d, hd⟩
      · refine ⟨c :: ds, fun q => ?_⟩
        rw [List.flatMap_cons, List.append_assoc, hc, List.singleton_append, skippedString,
          taken_quoted_plain hquote hbackslash hplain, ← skippedString, ih]
        rfl
      · refine ⟨d :: ds, fun q => ?_⟩
        rw [List.flatMap_cons, List.append_assoc, hc, List.cons_append, skippedString,
          taken_quoted_escape (by decide) (hd _), ← skippedString, ih]
        rfl

/-! ## Lists -/

/-- Nothing is skipped where no space stands. -/
theorem skip_cons {c : Char} (h : isSpace c = false) (t : List Char) :
    spaces.skip (c :: t) = c :: t := by
  refine List.dropWhile_cons_of_neg ?_
  rw [h]
  exact Bool.false_ne_true

/-- How a value begins: not with a space, and not with a closing mark. -/
def Begins (s : List Char) : Prop :=
  ∃ c t, s = c :: t ∧ isSpace c = false ∧ c ≠ ']' ∧ c ≠ '\x7d'

/-- Nothing is skipped in front of a text that begins with no space. -/
theorem Begins.skip {s : List Char} (h : Begins s) (rest : List Char) :
    spaces.skip (s ++ rest) = s ++ rest := by
  obtain ⟨c, t, rfl, hspace, -, -⟩ := h
  exact skip_cons hspace _

/-- The texts behind the first one, and the closing mark. -/
def behindFirst (close : Char) : List (List Char) → List Char
  | [] => [close]
  | t :: ts => ',' :: (t ++ behindFirst close ts)

/-- Texts with commas between them, and the closing mark. -/
def listText (close : Char) : List (List Char) → List Char
  | [] => [close]
  | t :: ts => t ++ behindFirst close ts

section Lists

variable {α β : Type} {item : Reader α} {text : β → List Char} {settled : β → Option α}
  {close : Char}

/-- Items that are found one by one are found in a list. -/
theorem taken_items_texts (hclose : close = ']' ∨ close = '\x7d') {x : β} {xs : List β}
    (hbegins : ∀ y ∈ x :: xs, Begins (text y))
    (hitem : ∀ y ∈ x :: xs, ∀ rest, Ends rest →
      taken item (text y ++ rest) = (settled y).map (·, rest)) (rest : List Char) :
    taken (spaces.items item close false)
        (text x ++ (behindFirst close (xs.map text) ++ rest)) =
      ((x :: xs).mapM settled).map (·, rest) := by
  have hmark : isSpace close = false := by rcases hclose with rfl | rfl <;> rfl
  have hcomma : ',' ≠ close := by rcases hclose with rfl | rfl <;> decide
  -- on the items behind the first; a comma or the closing mark tells which case it is
  induction xs generalizing x with
  | nil =>
      have hx := hitem x List.mem_cons_self (close :: rest) (ends_cons (Or.inr hclose))
      rw [List.map_nil, behindFirst, List.singleton_append, List.mapM_cons, List.mapM_nil]
      cases hsettled : settled x with
      | none =>
          rw [hsettled] at hx
          exact Gap.taken_items_none hx
      | some y =>
          rw [hsettled] at hx
          exact Gap.taken_items_last hx (skip_cons hmark rest)
  | cons y ys ih =>
      have hx := hitem x List.mem_cons_self
        (',' :: (text y ++ (behindFirst close (ys.map text) ++ rest))) (ends_cons (Or.inl rfl))
      have hrest := ih (fun z hz => hbegins z (List.mem_cons_of_mem x hz))
        (fun z hz => hitem z (List.mem_cons_of_mem x hz))
      rw [List.map_cons, behindFirst, List.cons_append, List.append_assoc, List.mapM_cons]
      cases hsettled : settled x with
      | none =>
          rw [hsettled] at hx
          exact Gap.taken_items_none hx
      | some z =>
          rw [hsettled] at hx
          rw [Gap.taken_items_more hx (skip_cons rfl _) hcomma,
            (hbegins y (List.mem_cons_of_mem x List.mem_cons_self)).skip, hrest]
          cases (y :: ys).mapM settled <;> rfl

/-- **A printed list is read item by item,** as each item is read alone with something behind
    that ends it. -/
theorem taken_list_texts (hclose : close = ']' ∨ close = '\x7d') {xs : List β}
    (hbegins : ∀ y ∈ xs, Begins (text y))
    (hitem : ∀ y ∈ xs, ∀ rest, Ends rest →
      taken item (text y ++ rest) = (settled y).map (·, rest)) (rest : List Char) :
    taken (spaces.list item close false) (listText close (xs.map text) ++ rest) =
      (xs.mapM settled).map (·, rest) := by
  have hmark : isSpace close = false := by rcases hclose with rfl | rfl <;> rfl
  cases xs with
  | nil =>
      rw [List.map_nil, listText, List.singleton_append]
      exact Gap.taken_list_nil (skip_cons hmark rest)
  | cons x xs =>
      rw [List.map_cons, listText, List.append_assoc]
      have hitems := taken_items_texts hclose hbegins hitem rest
      obtain ⟨c, t, hc, hspace, hbracket, hbrace⟩ := hbegins x List.mem_cons_self
      have hne : c ≠ close := by
        rcases hclose with rfl | rfl
        · exact hbracket
        · exact hbrace
      rw [hc, List.cons_append] at hitems ⊢
      rw [Gap.taken_list_items (skip_cons hspace _) hne, skip_cons hspace]
      exact hitems

end Lists

/-! ## Printed lists -/

/-- The text of a field. -/
def fieldText (f : String × Json) : List Char := printString f.1 ++ ':' :: print f.2

theorem printItems_eq (xs : List Json) :
    printItems xs = behindFirst ']' (xs.map print) := by
  induction xs with
  | nil => rfl
  | cons x xs ih => rw [printItems, ih, List.map_cons, behindFirst, List.cons_append]

theorem printFields_eq (fields : List (String × Json)) :
    printFields fields = behindFirst '\x7d' (fields.map fieldText) := by
  induction fields with
  | nil => rfl
  | cons f fields ih =>
      obtain ⟨k, x⟩ := f
      rw [printFields, ih, List.map_cons, behindFirst, fieldText]
      simp only [List.cons_append, List.append_assoc]

/-- An array is printed as the list of its texts. -/
theorem print_array (xs : List Json) :
    print (.array xs) = '[' :: listText ']' (xs.map print) := by
  cases xs with
  | nil => rfl
  | cons x xs => rw [print, printItems_eq, List.map_cons, listText, List.cons_append]

/-- An object is printed as the list of its fields, each with its name. -/
theorem print_object (fields : List (String × Json)) :
    print (.object fields) = '\x7b' :: listText '\x7d' (fields.map fieldText) := by
  cases fields with
  | nil => rfl
  | cons f fields =>
      obtain ⟨k, x⟩ := f
      rw [print, printFields_eq, List.map_cons, listText, fieldText]
      simp only [List.cons_append, List.append_assoc]

/-- What a numeral begins with is a sign or a digit. -/
theorem ne_of_numeral {c d : Char} (hc : c = '-' ∨ c.isDigit = true)
    (hd : d ≠ '-' ∧ d.isDigit = false) : c ≠ d := by
  rintro rfl
  rcases hc with rfl | hc
  · exact hd.1 rfl
  · rw [hd.2] at hc
    cases hc

/-- How a numeral begins. -/
theorem exists_text_eq_cons {m : Numeral} (hm : m.Proper) :
    ∃ c t, m.text = c :: t ∧ (c = '-' ∨ c.isDigit = true) := by
  obtain ⟨c, ds, hwhole⟩ := List.exists_cons_of_ne_nil hm.whole.1
  rw [Numeral.text, hwhole]
  cases m.negative with
  | true => exact ⟨_, _, rfl, Or.inl rfl⟩
  | false =>
      refine ⟨_, _, rfl, Or.inr (hm.whole.2 c ?_)⟩
      rw [hwhole]
      exact List.mem_cons_self

/-- A numeral begins with no space and no closing mark. -/
theorem begins_text {m : Numeral} (hm : m.Proper) : Begins m.text := by
  obtain ⟨c, t, htext, hc⟩ := exists_text_eq_cons hm
  refine ⟨c, t, htext, ?_, ne_of_numeral hc (by decide), ne_of_numeral hc (by decide)⟩
  rw [isSpace]
  simp only [Bool.or_eq_false_iff, beq_eq_false_iff_ne]
  exact ⟨⟨⟨ne_of_numeral hc (by decide), ne_of_numeral hc (by decide)⟩,
    ne_of_numeral hc (by decide)⟩, ne_of_numeral hc (by decide)⟩

/-- A printed value begins with no space and no closing mark. -/
theorem begins_print (v : Json) : Begins (print v) := by
  cases v with
  | null => exact ⟨_, _, rfl, by decide⟩
  | bool b => cases b <;> exact ⟨_, _, rfl, by decide⟩
  | string s => exact ⟨_, _, rfl, by decide⟩
  | array xs => exact ⟨_, _, print_array xs, by decide⟩
  | object fields => exact ⟨_, _, print_object fields, by decide⟩
  | number x =>
      rcases exists_text_eq_print x with hnull | ⟨m, hm, htext⟩
      · exact ⟨_, _, hnull, by decide⟩
      · rw [print, ← htext]
        exact begins_text hm

theorem begins_fieldText (f : String × Json) : Begins (fieldText f) :=
  ⟨_, _, rfl, by decide⟩

/-- A field is found under its key. -/
theorem taken_member {α : Type} {key : Reader (List Char)} {item : String → Reader α}
    {f : String × Json} {ks : List Char} {settled : Option α} {rest : List Char}
    (hkey : ∀ q, taken key (f.1.toList.flatMap escapeChar ++ '"' :: q) = some (ks, q))
    (hitem : taken (item (String.ofList ks)) (print f.2 ++ rest) = settled.map (·, rest)) :
    taken (member key item) (fieldText f ++ rest) =
      (settled.map (String.ofList ks, ·)).map (·, rest) := by
  obtain ⟨k, x⟩ := f
  have htext : fieldText (k, x) ++ rest =
      '"' :: (k.toList.flatMap escapeChar ++ '"' :: ':' :: (print x ++ rest)) := by
    simp only [fieldText, printString, List.cons_append, List.append_assoc, List.nil_append]
  obtain ⟨hshorter, hread⟩ := taken_eq_some.mp (hkey (':' :: (print x ++ rest)))
  have hcolon : taken (spaces.mark ':') (':' :: (print x ++ rest)) = some ((), print x ++ rest) :=
    Gap.taken_mark (skip_cons rfl _)
  obtain ⟨hbehind, hmark⟩ := taken_eq_some.mp hcolon
  have hbefore : taken (spaces.before (item (String.ofList ks))) (print x ++ rest) =
      settled.map (·, rest) := by
    rw [Gap.taken_before, (begins_print x).skip]
    exact hitem
  rw [htext, taken, member, hread]
  simp only [hmark]
  cases settled with
  | none => rw [taken_eq_none.mp hbefore]; rfl
  | some y =>
      obtain ⟨hitem, hy⟩ := taken_eq_some.mp hbefore
      rw [hy]
      rfl

/-- The items of an array are found one by one. -/
theorem taken_list_array {α : Type} {item : Reader α} {settled : Json → Option α}
    {xs : List Json} (hitem : ∀ x ∈ xs, ∀ rest, Ends rest →
      taken item (print x ++ rest) = (settled x).map (·, rest)) (rest : List Char) :
    taken (spaces.list item ']' false) (listText ']' (xs.map print) ++ rest) =
      (xs.mapM settled).map (·, rest) :=
  taken_list_texts (Or.inl rfl) (fun x _ => begins_print x) hitem rest

/-- The fields of an object are found one by one, each under its key. -/
theorem taken_list_object {α : Type} {item : String → Reader α}
    {settled : String × Json → Option α} {fields : List (String × Json)}
    (hitem : ∀ f ∈ fields, ∀ rest, Ends rest →
      taken (item f.1) (print f.2 ++ rest) = (settled f).map (·, rest)) (rest : List Char) :
    taken (spaces.list (member stringBody item) '\x7d' false)
        (listText '\x7d' (fields.map fieldText) ++ rest) =
      (fields.mapM fun f => (settled f).map (f.1, ·)).map (·, rest) := by
  refine taken_list_texts (Or.inr rfl) (fun f _ => begins_fieldText f) ?_ rest
  intro f hf rest hrest
  have hkey := taken_stringBody f.1.toList
  have hvalue := hitem f hf rest hrest
  rw [← String.ofList_toList (s := f.1)] at hvalue
  rw [taken_member hkey hvalue, String.ofList_toList]

/-! ## Numbers -/

section Numbers

variable {m : Numeral} (hm : m.Proper) {rest : List Char}

include hm

/-- A numeral opens nothing. -/
theorem text_append_ne {d : Char} (hd : d ≠ '-' ∧ d.isDigit = false) (s : List Char) :
    m.text ++ rest ≠ d :: s := by
  obtain ⟨c, t, htext, hc⟩ := exists_text_eq_cons hm
  rw [htext, List.cons_append]
  intro heq
  exact ne_of_numeral hc hd (List.cons.inj heq).1

/-- A numeral is not a word. -/
theorem word_text : word (m.text ++ rest) = none := by
  rw [word]
  · exact fun s => text_append_ne hm (by decide) _
  · exact fun s => text_append_ne hm (by decide) _
  · exact fun s => text_append_ne hm (by decide) _

/-- A numeral is read as its number at every depth. -/
theorem taken_value_text (hrest : Ends rest) (depth : Nat) :
    taken (value depth) (m.text ++ rest) = (m.toNumber?.map .number).map (·, rest) := by
  obtain ⟨hshorter, hread⟩ := taken_eq_some.mp (taken_numeral hm hrest)
  rw [taken, value, word_text hm, Reader.number, hread]
  · rw [Option.bind_some, Read.mapOption]
    cases m.toNumber? <;> rfl
  · exact fun s => text_append_ne hm (by decide) s
  · exact fun _ s _ => text_append_ne hm (by decide) s
  · exact fun _ s _ => text_append_ne hm (by decide) s

/-- A reader that skips a numeral stops where it ends. -/
theorem taken_skippedValue_text (hrest : Ends rest) (depth : Nat) :
    taken (skippedValue depth) (m.text ++ rest) = some ((), rest) := by
  obtain ⟨hshorter, hread⟩ := taken_eq_some.mp (taken_numeral hm hrest)
  rw [taken, skippedValue, word_text hm, hread]
  · rfl
  · exact fun s => text_append_ne hm (by decide) s
  · exact fun _ s _ => text_append_ne hm (by decide) s
  · exact fun _ s _ => text_append_ne hm (by decide) s

/-- A numeral has no parts that a shape could leave out. -/
theorem shaped_text (depth : Nat) (shape : Shape) :
    shaped depth shape (m.text ++ rest) = value depth (m.text ++ rest) := by
  rw [shaped]
  · exact fun _ _ s _ _ => text_append_ne hm (by decide) s
  · exact fun _ _ s _ _ => text_append_ne hm (by decide) s

end Numbers

/-- What a number comes back as; one that is not finite comes back as `null`. -/
def settleNumber (x : Number) : Option Json := (value 0 x.print).map (·.value)

/-- A number is read as what its numeral stands for. -/
theorem taken_value_number (x : Number) (depth : Nat) {rest : List Char} (hrest : Ends rest) :
    taken (value depth) (x.print ++ rest) = (settleNumber x).map (·, rest) := by
  rw [settleNumber]
  rcases exists_text_eq_print x with hnull | ⟨m, hm, htext⟩
  · rw [hnull]
    cases depth <;> rfl
  · have hwhole := taken_value_text hm ends_nil 0
    rw [List.append_nil] at hwhole
    rw [← htext, taken_value_text hm hrest]
    cases hnumber : m.toNumber? with
    | none =>
        rw [hnumber] at hwhole
        rw [taken_eq_none.mp hwhole]
        rfl
    | some y =>
        rw [hnumber] at hwhole
        obtain ⟨hshorter, hread⟩ := taken_eq_some.mp hwhole
        rw [hread]
        rfl

/-! ## Values -/

/-- What a value comes back as where at most `depth` arrays and objects may be
    nested. -/
def settle : (depth : Nat) → Json → Option Json
  | _, .null => some .null
  | _, .bool b => some (.bool b)
  | _, .number x => settleNumber x
  | _, .string s => some (.string s)
  | depth + 1, .array xs => (xs.mapM (settle depth)).map .array
  | depth + 1, .object fields =>
      (fields.mapM fun f => (settle depth f.2).map (f.1, ·)).map .object
  | 0, .array _ | 0, .object _ => none

theorem printString_append (s : String) (rest : List Char) :
    printString s ++ rest = '"' :: (s.toList.flatMap escapeChar ++ '"' :: rest) := by
  rw [printString, List.append_assoc]
  rfl

/-- A string is read as it was printed, and ends at its quote. -/
theorem taken_value_string (depth : Nat) (s : String) (rest : List Char) :
    taken (value depth) (printString s ++ rest) = some (.string s, rest) := by
  rw [printString_append, taken, value, taken_behind, taken_stringBody, Option.map_some,
    String.ofList_toList]

/-- **What is printed comes back settled,** wherever a value may end. -/
theorem taken_value_print (depth : Nat) (v : Json) {rest : List Char} (hrest : Ends rest) :
    taken (value depth) (print v ++ rest) = (settle depth v).map (·, rest) := by
  induction depth generalizing v rest with
  | zero =>
      cases v with
      | null => rfl
      | bool b => cases b <;> rfl
      | number x => exact taken_value_number x 0 hrest
      | string s => exact taken_value_string 0 s rest
      | array xs => rw [print_array]; rfl
      | object fields => rw [print_object]; rfl
  | succ depth ih =>
      cases v with
      | null => rfl
      | bool b => cases b <;> rfl
      | number x => exact taken_value_number x _ hrest
      | string s => exact taken_value_string _ s rest
      | array xs =>
          have hlist := taken_list_array (fun x (_ : x ∈ xs) _ => ih x) rest
          rw [print_array, List.cons_append, taken, value, taken_behind, hlist, settle]
          cases xs.mapM (settle depth) <;> rfl
      | object fields =>
          have hlist : taken
              (spaces.list (member stringBody fun _ => value depth) '\x7d' false) _ = _ :=
            taken_list_object (fun f (_ : f ∈ fields) _ => ih f.2) rest
          rw [print_object, List.cons_append, taken, value, taken_behind, hlist, settle]
          cases fields.mapM fun f => (settle depth f.2).map (f.1, ·) <;> rfl

/-! ## What is not looked at -/

theorem mapM_some {α β : Type} (f : α → β) (l : List α) :
    (l.mapM fun a => some (f a)) = some (l.map f) := List.mapM_pure

/-- Each text of a list is no longer than the whole. -/
theorem length_le_behindFirst {close : Char} {t : List Char} {ts : List (List Char)}
    (h : t ∈ ts) : t.length ≤ (behindFirst close ts).length := by
  induction h with
  | head ts =>
      rw [behindFirst, List.length_cons, List.length_append]
      omega
  | tail u _ ih =>
      rw [behindFirst, List.length_cons, List.length_append]
      omega

theorem length_le_listText {close : Char} {t : List Char} {ts : List (List Char)}
    (h : t ∈ ts) : t.length ≤ (listText close ts).length := by
  cases h with
  | head ts =>
      rw [listText, List.length_append]
      omega
  | tail u h =>
      have hlength : t.length ≤ (behindFirst close _).length := length_le_behindFirst h
      rw [listText, List.length_append]
      omega

/-- **Whatever is printed can be skipped,** since it does not nest deeper than it is
    long. -/
theorem taken_skippedValue_print {depth : Nat} {v : Json} (h : (print v).length ≤ depth)
    {rest : List Char} (hrest : Ends rest) :
    taken (skippedValue depth) (print v ++ rest) = some ((), rest) := by
  -- on the depth that is allowed: what stands in brackets is shorter than the whole text
  induction depth generalizing v rest with
  | zero =>
      obtain ⟨c, t, hprint, -⟩ := begins_print v
      rw [hprint] at h
      cases h
  | succ depth ih =>
      cases v with
      | null => rfl
      | bool b => cases b <;> rfl
      | number x =>
          rw [print]
          rcases exists_text_eq_print x with hnull | ⟨m, hm, htext⟩
          · rw [hnull]
            rfl
          · rw [← htext]
            exact taken_skippedValue_text hm hrest _
      | string s =>
          obtain ⟨ds, hds⟩ := exists_taken_skippedString s.toList
          rw [print, printString_append, taken, skippedValue, taken_behind, hds]
          rfl
      | array xs =>
          rw [print_array, List.length_cons] at h
          have hitem : ∀ x ∈ xs, ∀ rest, Ends rest →
              taken (skippedValue depth) (print x ++ rest) = (some ()).map (·, rest) := by
            intro x hx rest hrest
            have hlength : (print x).length ≤ (listText ']' (xs.map print)).length :=
              length_le_listText (List.mem_map_of_mem hx)
            exact ih (by omega) hrest
          rw [print_array, List.cons_append, taken, skippedValue, taken_behind,
            taken_list_array hitem, mapM_some]
          rfl
      | object fields =>
          rw [print_object, List.length_cons] at h
          -- each key is skipped as some characters; they are chosen for all keys at once
          obtain ⟨ks, hks⟩ := Classical.axiomOfChoice fun f : String × Json =>
            exists_taken_skippedString f.1.toList
          have hfield : ∀ f ∈ fields, ∀ rest, Ends rest →
              taken (member skippedString fun _ => skippedValue depth) (fieldText f ++ rest) =
                (some (String.ofList (ks f), ())).map (·, rest) := by
            intro f hf rest hrest
            have hlength : (fieldText f).length ≤ (listText '\x7d' (fields.map fieldText)).length :=
              length_le_listText (List.mem_map_of_mem hf)
            have hvalue : (print f.2).length ≤ (fieldText f).length := by
              rw [fieldText, List.length_append, List.length_cons]
              omega
            show _ = ((some ()).map (String.ofList (ks f), ·)).map (·, rest)
            refine taken_member (hks f) ?_
            exact ih (by omega) hrest
          rw [print_object, List.cons_append, taken, skippedValue, taken_behind,
            taken_list_texts (Or.inr rfl) (fun f _ => begins_fieldText f) hfield, mapM_some]
          rfl

/-! ## What is looked at -/

/-- **A reader that skips a value stops where its text ends,** however deep the value is. -/
theorem taken_skipped_print (v : Json) {rest : List Char} (hrest : Ends rest) :
    taken skipped (print v ++ rest) = some (.null, rest) := by
  have hlength : (print v).length ≤ (print v ++ rest).length := by
    rw [List.length_append]
    omega
  have hbounded : ∀ depth, (print v).length ≤ depth →
      taken (skippedValue depth) (print v ++ rest) = some ((), rest) :=
    fun depth h => taken_skippedValue_print h hrest
  obtain ⟨hshorter, hread⟩ := taken_eq_some.mp (hbounded _ hlength)
  rw [taken, skipped, hread]
  rfl

/-- A number has no parts that a shape could leave out. -/
theorem shaped_number (depth : Nat) (shape : Shape) (x : Number) (rest : List Char) :
    shaped depth shape (x.print ++ rest) = value depth (x.print ++ rest) := by
  rcases exists_text_eq_print x with hnull | ⟨m, hm, htext⟩
  · rw [hnull]
    cases depth <;> cases shape <;> rfl
  · rw [← htext]
    exact shaped_text hm depth shape

/-- What a field comes back as: `null` if it is not looked at. -/
def settleField (settled : Shape → Json → Option Json) (fields : List (String × Shape))
    (f : String × Json) : Option Json :=
  match fields.lookup f.1 with
  | some shape => settled shape f.2
  | none => some .null

/-- What a value comes back as where a shape says what is looked at. -/
def settleAs : (depth : Nat) → Shape → Json → Option Json
  | depth + 1, .items item, .array xs => (xs.mapM (settleAs depth item)).map .array
  | depth + 1, .record fields, .object fs =>
      (fs.mapM fun f => (settleField (settleAs depth) fields f).map (f.1, ·)).map .object
  | depth, _, v => settle depth v

/-- A string is read back as itself. -/
theorem settle_string (depth : Nat) (s : String) :
    settle depth (.string s) = some (.string s) := by
  cases depth <;> rfl

/-- The whole shape leaves nothing out. -/
theorem settleAs_whole (depth : Nat) (v : Json) : settleAs depth .whole v = settle depth v := by
  cases depth <;> rfl

/-- **With a shape, what is printed comes back as what the shape looks at.** -/
theorem taken_shaped_print (depth : Nat) (shape : Shape) (v : Json) {rest : List Char}
    (hrest : Ends rest) :
    taken (shaped depth shape) (print v ++ rest) = (settleAs depth shape v).map (·, rest) := by
  induction depth generalizing shape v rest with
  | zero =>
      have hvalue := taken_value_print 0 v hrest
      cases shape <;> exact hvalue
  | succ depth ih =>
      -- only an array of items and an object of fields are not read as a whole
      have hvalue := taken_value_print (depth + 1) v hrest
      cases v with
      | null => cases shape <;> exact hvalue
      | bool b => cases b <;> cases shape <;> exact hvalue
      | string s => cases shape <;> exact hvalue
      | number x =>
          rw [print, taken, shaped_number]
          cases shape <;> exact hvalue
      | array xs =>
          rw [print_array] at hvalue ⊢
          cases shape with
          | whole => exact hvalue
          | record fields => exact hvalue
          | items item =>
              have hlist := taken_list_array (fun x (_ : x ∈ xs) _ => ih item x) rest
              rw [List.cons_append, taken, shaped, taken_behind, hlist, settleAs]
              cases xs.mapM (settleAs depth item) <;> rfl
      | object fs =>
          rw [print_object] at hvalue ⊢
          cases shape with
          | whole => exact hvalue
          | items item => exact hvalue
          | record fields =>
              have hfield : ∀ f ∈ fs, ∀ rest, Ends rest →
                  taken ((fun key => match fields.lookup key with
                    | some shape => shaped depth shape
                    | none => skipped : String → Reader Json) f.1) (print f.2 ++ rest) =
                    (settleField (settleAs depth) fields f).map (·, rest) := by
                intro f hf rest hrest
                dsimp only
                rw [settleField]
                cases fields.lookup f.1 with
                | some shape => exact ih shape f.2 hrest
                | none => exact taken_skipped_print f.2 hrest
              rw [List.cons_append, taken, shaped, taken_behind, taken_list_object hfield,
                settleAs]
              cases fs.mapM fun f =>
                (settleField (settleAs depth) fields f).map (f.1, ·) <;> rfl

/-- A printed text is read as a whole. -/
theorem parseAs?_print (shape : Shape) (v : Json) :
    parseAs? shape (print v) = settleAs maxDepth shape v := by
  have hshaped := taken_shaped_print maxDepth shape v ends_nil
  have hskip : skipSpace (print v ++ []) = print v ++ [] := (begins_print v).skip []
  rw [List.append_nil] at hshaped hskip
  rw [← hskip] at hshaped
  rw [parseAs?]
  cases hsettled : settleAs maxDepth shape v with
  | none =>
      rw [hsettled] at hshaped
      rw [taken_eq_none.mp hshaped]
  | some w =>
      rw [hsettled] at hshaped
      obtain ⟨hshorter, hread⟩ := taken_eq_some.mp hshaped
      rw [hread]
      rfl

end CodeGraph.Json

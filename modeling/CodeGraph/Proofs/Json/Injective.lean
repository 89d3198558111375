import CodeGraph.Proofs.Json.Number
import CodeGraph.Proofs.Json.Reprint
/-! # Values are told apart by their texts

    Printing loses no part of a value, as long as all numbers in it are plain.

    * A reader that skips a value stops where its text ends, so the text is told from
      whatever stands behind it (`print_append_inj`), and the texts of a list are told
      from the text of the list (`listText_inj`).
    * The first character of a text tells what kind of value it is (`opening_eq`).
    * So values with one text are the same, part by part (`Plain.eq_of_print`). -/

namespace CodeGraph.Json

open Text Reader

/-! ## Where a text ends -/

/-- A text that is told from what stands behind it. -/
def Delimited {β : Type} (text : β → List Char) : Prop :=
  ∀ x y rest rest', Ends rest → Ends rest' → text x ++ rest = text y ++ rest' →
    text x = text y ∧ rest = rest'

/-- A value is told from what stands behind it. -/
theorem print_append_inj : Delimited print := by
  intro v w rest rest' hrest hrest' h
  have hskip := taken_skipped_print v hrest
  rw [h, taken_skipped_print w hrest'] at hskip
  cases hskip
  exact ⟨List.append_cancel_right h, rfl⟩

/-- A string in quotes is told from what stands behind it, and with its quotes it is told from
    any other. -/
theorem printString_append_inj {s t : String} {rest rest' : List Char}
    (h : printString s ++ rest = printString t ++ rest') : s = t ∧ rest = rest' := by
  rw [printString_append, printString_append] at h
  have hbody := taken_stringBody s.toList rest
  rw [(List.cons.inj h).2, taken_stringBody] at hbody
  obtain ⟨htext, hrest⟩ := Prod.mk.inj (Option.some.inj hbody)
  exact ⟨(String.toList_inj.mp htext).symm, hrest.symm⟩

/-- Strings with one text are the same. -/
theorem string_inj {s t : String} (h : print (.string s) = print (.string t)) : s = t := by
  have hsame : printString s ++ [] = printString t ++ [] := congrArg (· ++ []) h
  exact (printString_append_inj hsame).1

/-- Fields with one text have the same name, and values with one text. -/
theorem fieldText_inj {f g : String × Json} (h : fieldText f = fieldText g) :
    f.1 = g.1 ∧ print f.2 = print g.2 := by
  obtain ⟨hkey, hvalue⟩ := printString_append_inj h
  exact ⟨hkey, (List.cons.inj hvalue).2⟩

/-- A field is told from what stands behind it: its name ends with a quote, and its value is
    told. -/
theorem fieldText_append_inj : Delimited fieldText := by
  intro f g rest rest' hrest hrest' h
  rw [fieldText, fieldText, List.append_assoc, List.append_assoc] at h
  obtain ⟨hkey, hvalue⟩ := printString_append_inj h
  obtain ⟨hprint, hrest⟩ := print_append_inj _ _ _ _ hrest hrest' (List.cons.inj hvalue).2
  exact ⟨by rw [fieldText, fieldText, hkey, hprint], hrest⟩

/-! ## Lists -/

section Lists

variable {β : Type} {text : β → List Char} {close : Char}

/-- What stands behind the first element ends it: a comma, or the closing mark. -/
theorem ends_behindFirst (hclose : close = ']' ∨ close = '\x7d') (ts : List (List Char)) :
    Ends (behindFirst close ts) := by
  cases ts with
  | nil => exact ends_cons (Or.inr hclose)
  | cons t ts => exact ends_cons (Or.inl rfl)

/-- The texts of the other elements are told from what stands behind the first. -/
theorem behindFirst_inj (hclose : close = ']' ∨ close = '\x7d') (htext : Delimited text)
    {xs ys : List β} (h : behindFirst close (xs.map text) = behindFirst close (ys.map text)) :
    xs.map text = ys.map text := by
  have hcomma : ',' ≠ close := by rcases hclose with rfl | rfl <;> decide
  induction xs generalizing ys with
  | nil =>
      cases ys with
      | nil => rfl
      | cons y ys => exact absurd (List.cons.inj h).1.symm hcomma
  | cons x xs ih =>
      cases ys with
      | nil => exact absurd (List.cons.inj h).1 hcomma
      | cons y ys =>
          obtain ⟨hxy, hrest⟩ := htext x y _ _ (ends_behindFirst hclose _)
            (ends_behindFirst hclose _) (List.cons.inj h).2
          rw [List.map_cons, List.map_cons, hxy, ih hrest]

/-- **The texts of a list are told from the text of the list.** -/
theorem listText_inj (hclose : close = ']' ∨ close = '\x7d') (htext : Delimited text)
    (hbegins : ∀ y, Begins (text y)) {xs ys : List β}
    (h : listText close (xs.map text) = listText close (ys.map text)) :
    xs.map text = ys.map text := by
  -- an empty list is closed at once, and no text begins with a closing mark
  have hfirst : ∀ y s, [close] ≠ text y ++ s := by
    intro y s heq
    obtain ⟨c, t, hc, -, hbracket, hbrace⟩ := hbegins y
    rw [hc] at heq
    rcases hclose with rfl | rfl
    · exact hbracket (List.cons.inj heq).1.symm
    · exact hbrace (List.cons.inj heq).1.symm
  cases xs with
  | nil =>
      cases ys with
      | nil => rfl
      | cons y ys => exact absurd h (hfirst y _)
  | cons x xs =>
      cases ys with
      | nil => exact absurd h.symm (hfirst x _)
      | cons y ys =>
          obtain ⟨hxy, hrest⟩ := htext x y _ _ (ends_behindFirst hclose _)
            (ends_behindFirst hclose _) h
          rw [List.map_cons, List.map_cons, hxy, behindFirst_inj hclose htext hrest]

theorem forall₂_imp_of_mem {α γ : Type} {R S : α → γ → Prop} {xs : List α} {ys : List γ}
    (h : List.Forall₂ R xs ys) (himp : ∀ x ∈ xs, ∀ y ∈ ys, R x y → S x y) :
    List.Forall₂ S xs ys := by
  refine List.forall₂_iff_zip.mpr ⟨h.length_eq, fun {x y} hxy => ?_⟩
  have hmem := List.of_mem_zip hxy
  exact himp x hmem.1 y hmem.2 (List.forall₂_zip h hxy)

/-- Arrays with one text have elements with the same texts, in the same order. -/
theorem array_inj {xs ys : List Json} (h : print (.array xs) = print (.array ys)) :
    List.Forall₂ (fun x y => print x = print y) xs ys := by
  rw [print_array, print_array] at h
  have htexts := listText_inj (Or.inl rfl) print_append_inj begins_print (List.cons.inj h).2
  rw [← List.forall₂_eq_eq_eq, List.forall₂_map_left_iff, List.forall₂_map_right_iff] at htexts
  exact htexts

/-- Objects with one text have fields with the same names and texts, in the same order. -/
theorem object_inj {fs gs : List (String × Json)}
    (h : print (.object fs) = print (.object gs)) :
    List.Forall₂ (fun f g => f.1 = g.1 ∧ print f.2 = print g.2) fs gs := by
  rw [print_object, print_object] at h
  have htexts := listText_inj (Or.inr rfl) fieldText_append_inj begins_fieldText
    (List.cons.inj h).2
  rw [← List.forall₂_eq_eq_eq, List.forall₂_map_left_iff, List.forall₂_map_right_iff] at htexts
  exact htexts.imp fun f g => fieldText_inj

end Lists

/-! ## Kinds of values -/

/-- A character for all values of a kind; one of each kind begins with it. -/
def opening : Json → Char
  | .null => 'n'
  | .bool true => 't'
  | .bool false => 'f'
  | .number _ => '0'
  | .string _ => '"'
  | .array _ => '['
  | .object _ => '\x7b'

/-- The kind of value that a text is the beginning of, if its first character is given. -/
def openedBy (c : Char) : Char := if c = '-' ∨ c.isDigit = true then '0' else c

/-- The first character of a plain value tells its kind; a number that is not plain would
    begin like `null`. -/
theorem Plain.opening_eq {v : Json} (h : Plain v) :
    (print v).head?.map openedBy = some v.opening := by
  cases h with
  | null => rfl
  | bool b => cases b <;> rfl
  | string s => rfl
  | array xs =>
      rw [print_array]
      rfl
  | object fs =>
      rw [print_object]
      rfl
  | number x hx =>
      rcases exists_text_eq_print x with hnull | ⟨m, hm, htext⟩
      · exact absurd hnull (Number.print_ne_null hx)
      · obtain ⟨c, t, hc, hdigit⟩ := exists_text_eq_cons hm
        rw [print, ← htext, hc, List.head?_cons, Option.map_some, openedBy, if_pos hdigit]
        rfl

/-- Plain values with one text are of one kind. -/
theorem Plain.opening_inj {v w : Json} (hv : Plain v) (hw : Plain w) (h : print v = print w) :
    v.opening = w.opening := by
  have heq := hv.opening_eq
  rw [h, hw.opening_eq] at heq
  exact (Option.some.inj heq).symm

/-- **Plain values with one text are the same.** -/
theorem Plain.eq_of_print {v w : Json} (hv : Plain v) (hw : Plain w) (h : print v = print w) :
    v = w := by
  -- the texts begin alike, so the values are of one kind
  have hopening := hv.opening_inj hw h
  induction hv generalizing w with
  | null =>
      cases hw with
      | null => rfl
      | bool c => cases c <;> cases hopening
      | _ => cases hopening
  | bool b =>
      cases hw with
      | bool c => cases b <;> cases c <;> first | rfl | cases hopening
      | _ => cases b <;> cases hopening
  | number x hx =>
      cases hw with
      | number y hy => rw [Number.eq_of_print hx hy h]
      | bool c => cases c <;> cases hopening
      | _ => cases hopening
  | string s =>
      cases hw with
      | string t => rw [string_inj h]
      | bool c => cases c <;> cases hopening
      | _ => cases hopening
  | array xs hxs ih =>
      cases hw with
      | array ys hys =>
          have hitems := forall₂_imp_of_mem (array_inj h) fun x hx y hy hxy =>
            ih x hx (hys y hy) hxy ((hxs x hx).opening_inj (hys y hy) hxy)
          rw [List.forall₂_eq_eq_eq] at hitems
          rw [hitems]
      | bool c => cases c <;> cases hopening
      | _ => cases hopening
  | object fs hfs ih =>
      cases hw with
      | object gs hgs =>
          have hfields := forall₂_imp_of_mem (object_inj h) fun f hf g hg hfg =>
            Prod.ext hfg.1 (ih f hf (hgs g hg) hfg.2
              ((hfs f hf).opening_inj (hgs g hg) hfg.2))
          rw [List.forall₂_eq_eq_eq] at hfields
          rw [hfields]
      | bool c => cases c <;> cases hopening
      | _ => cases hopening

end CodeGraph.Json

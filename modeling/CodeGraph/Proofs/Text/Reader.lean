import CodeGraph.Text.Reader
/-! # What readers take — readers without their reasons

    A reader returns a proof that it shortened the text.  `taken` forgets it,
    so that two readings can be compared, and says of each way to build a
    reader what it takes. -/

namespace CodeGraph.Text

variable {α β : Type}

/-- What a reader takes off a text, and the text behind it. -/
def taken (read : Reader α) (s : List Char) : Option (α × List Char) :=
  (read s).map fun r => (r.value, r.rest)

variable {read : Reader α} {s q t : List Char} {x : α}

/-- What is taken is what was read, and the text behind it is shorter. -/
theorem taken_eq_some : taken read s = some (x, q) ↔ ∃ h, read s = some ⟨x, q, h⟩ := by
  rw [taken, Option.map_eq_some_iff]
  constructor
  · rintro ⟨⟨y, rest, h⟩, hread, heq⟩
    cases heq
    exact ⟨h, hread⟩
  · rintro ⟨h, hread⟩
    exact ⟨_, hread, rfl⟩

/-- Nothing is taken where nothing was read. -/
theorem taken_eq_none : taken read s = none ↔ read s = none := Option.map_eq_none_iff

/-- Behind a first character a reader takes what it takes. -/
theorem taken_behind (f : α → β) (c : Char) :
    (((read s).map fun r => (r.map f).behind c).map fun r => (r.value, r.rest)) =
      (taken read s).map fun r => (f r.1, r.2) := by
  rw [taken, Option.map_map, Option.map_map]
  rfl

/-! ## Quoted text -/

section Quoted

variable {quote c : Char} {escape : Reader Char} {plain : Char → Bool}

/-- The closing quote ends quoted text. -/
theorem taken_quoted_close :
    taken (quoted quote escape plain) (quote :: s) = some ([], s) := by
  rw [taken, quoted, if_pos rfl]
  rfl

/-- A backslash and what the escape takes stand for one character. -/
theorem taken_quoted_escape (hquote : '\\' ≠ quote) (h : taken escape s = some (c, q)) :
    taken (quoted quote escape plain) ('\\' :: s) =
      (taken (quoted quote escape plain) q).map fun r => (c :: r.1, r.2) := by
  obtain ⟨hshorter, hescape⟩ := taken_eq_some.mp h
  rw [taken, quoted, if_neg hquote, if_pos rfl, hescape]
  simp only [taken, Option.map_map]
  rfl

/-- A plain character stands for itself. -/
theorem taken_quoted_plain (hquote : c ≠ quote) (hescape : c ≠ '\\') (hplain : plain c = true) :
    taken (quoted quote escape plain) (c :: s) =
      (taken (quoted quote escape plain) s).map fun r => (c :: r.1, r.2) := by
  rw [taken, quoted, if_neg hquote, if_neg hescape, if_pos hplain]
  simp only [taken, Option.map_map]
  rfl

end Quoted

/-! ## Lists -/

namespace Gap

variable {gap : Gap} {c close : Char} {trailing : Bool}

/-- Space in front of a value makes no difference. -/
theorem taken_before : taken (gap.before read) s = taken read (gap.skip s) := by
  rw [taken, before, Option.map_map]
  rfl

/-- A mark is taken if it stands behind the space. -/
theorem taken_mark (h : gap.skip s = c :: t) : taken (gap.mark c) s = some ((), t) := by
  rw [mark, taken_before, h, taken]
  simp only [↓reduceIte]
  rfl

/-- No other character is taken for a mark. -/
theorem mark_eq_none (h : gap.skip s = c :: t) (hne : c ≠ close) : gap.mark close s = none := by
  rw [← taken_eq_none, mark, taken_before, h, taken]
  simp only [if_neg hne]
  rfl

/-- Without a first item there are no items. -/
theorem taken_items_none (h : taken read s = none) :
    taken (gap.items read close trailing) s = none := by
  rw [taken_eq_none] at h ⊢
  rw [items, h]

/-- The last item has the closing mark behind it. -/
theorem taken_items_last (h : taken read s = some (x, q)) (hq : gap.skip q = close :: t) :
    taken (gap.items read close trailing) s = some ([x], t) := by
  obtain ⟨hshorter, hread⟩ := taken_eq_some.mp h
  obtain ⟨hmark, hclose⟩ := taken_eq_some.mp (taken_mark hq)
  rw [taken, items, hread]
  simp only [hclose]
  rfl

/-- Every other item has a comma behind it, and items behind the comma. -/
theorem taken_items_more (h : taken read s = some (x, q)) (hq : gap.skip q = ',' :: t)
    (hclose : ',' ≠ close) :
    taken (gap.items read close false) s =
      (taken (gap.items read close false) (gap.skip t)).map fun r => (x :: r.1, r.2) := by
  obtain ⟨hshorter, hread⟩ := taken_eq_some.mp h
  obtain ⟨hmark, hcomma⟩ := taken_eq_some.mp (taken_mark hq)
  rw [taken, items, hread]
  simp only [mark_eq_none hq hclose, hcomma, Bool.false_eq_true, if_false, taken,
    Option.map_map]
  rfl

/-- A list that is closed at once is empty. -/
theorem taken_list_nil (h : gap.skip s = close :: t) :
    taken (gap.list read close trailing) s = some ([], t) := by
  obtain ⟨hmark, hclose⟩ := taken_eq_some.mp (taken_mark h)
  rw [taken, list]
  simp only [hclose]
  rfl

/-- A list that is not closed at once is a list of items. -/
theorem taken_list_items (h : gap.skip s = c :: t) (hne : c ≠ close) :
    taken (gap.list read close trailing) s =
      taken (gap.items read close trailing) (gap.skip s) := by
  rw [taken, list]
  simp only [mark_eq_none h hne]
  exact taken_before

end Gap

/-! ## What all values of a reader have in common -/

/-- All values that a reader can find have a property. -/
def Yields (read : Reader α) (P : α → Prop) : Prop := ∀ s r, read s = some r → P r.value

section Yields

variable {P : α → Prop} {gap : Gap} {close : Char} {trailing : Bool}

/-- If every value that is read has a property, all items have it. -/
theorem Yields.items (h : Yields read P) :
    Yields (gap.items read close trailing) fun xs => ∀ x ∈ xs, P x := by
  intro s
  fun_induction Gap.items gap read close trailing s with
  | case1 s hread =>
      intro r hr
      cases hr
  | case2 s x hread e hclose =>
      intro r hr
      cases hr
      exact List.forall_mem_singleton.mpr (h s x hread)
  | case3 s x hread hclose hcomma =>
      intro r hr
      cases hr
  | case4 s x hread hclose comma hcomma last e hlast =>
      intro r hr
      cases hr
      exact List.forall_mem_singleton.mpr (h s x hread)
  | case5 s x hread hclose comma hcomma last hlast hbehind hshorter hgap ih =>
      intro r hr
      obtain ⟨q, hq, rfl⟩ := Option.map_eq_some_iff.mp hr
      exact List.forall_mem_cons.mpr ⟨h s x hread, ih q hq⟩

/-- Then all elements of a list have the property too. -/
theorem Yields.list (h : Yields read P) :
    Yields (gap.list read close trailing) fun xs => ∀ x ∈ xs, P x := by
  intro s r hr
  rw [Gap.list] at hr
  split at hr
  · cases hr
    exact List.forall_mem_nil P
  · obtain ⟨q, hq, rfl⟩ := Option.map_eq_some_iff.mp hr
    exact h.items _ q hq

end Yields

end CodeGraph.Text

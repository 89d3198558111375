import CodeGraph.Files.Tree
/-! # Files that are read as they were written

    A file that was written or moved is found at its path, with its contents.

    * Putting a file somewhere, or taking one away, leaves every directory where
      it is, so the names on the way to a file lead where they led before
      (`locate_of_keeps`).
    * Where a file can be put is where its path leads: a path that ends in a
      slash takes no file (`resolve_of_slot`). -/

namespace CodeGraph.FileTree

open Std

/-- What succeeds in two steps succeeds in each. -/
theorem bind_ok {ε α β : Type} {x : Except ε α} {f : α → Except ε β} {b : β}
    (h : (x >>= f) = .ok b) : ∃ a, x = .ok a ∧ f a = .ok b := by
  cases x with
  | error reason => cases h
  | ok a => exact ⟨a, rfl, h⟩

/-! ## Directories stay -/

/-- Every directory of one tree is one of the other. -/
def Keeps (t t' : FileTree) : Prop :=
  ∀ location, t.at? location = some .directory → t'.at? location = some .directory

variable {t t' : FileTree} {location : List String} {contents : ByteArray}

/-- A place that is found is found as long as directories stay. -/
theorem locate_of_keeps (h : Keeps t t') {names here : List String}
    (hlocate : t.locate location names = .ok here) : t'.locate location names = .ok here := by
  induction names generalizing location with
  | nil => exact hlocate
  | cons name names ih =>
      rw [locate] at hlocate ⊢
      split at hlocate
      · cases hlocate
      · cases hlocate
      · rename_i hdirectory
        rw [h location hdirectory]
        dsimp only
        split at hlocate
        · cases hlocate
        · rename_i hshort
          rw [if_neg hshort]
          exact ih hlocate

/-- A path leads to the same place as long as directories stay. -/
theorem resolve_of_keeps (h : Keeps t t') {path : String}
    (hresolve : t.resolve path = .ok location) : t'.resolve path = .ok location := by
  obtain ⟨names, hnames, hlocate⟩ := bind_ok hresolve
  rw [resolve, hnames]
  exact locate_of_keeps h hlocate

/-! ## Putting a file -/

/-- A file is put where no directory stands. -/
theorem put_ok (h : t.put location contents = .ok t') :
    t.at? location ≠ some .directory ∧
      t' = ⟨t.entries.insert location (.file contents)⟩ := by
  rw [put] at h
  split at h
  · cases h
  · rename_i hfree
    exact ⟨hfree, (Except.ok.inj h).symm⟩

/-- The root is not a place for a file. -/
theorem ne_nil_of_at? (h : t.at? location ≠ some .directory) : location ≠ [] := by
  rintro rfl
  exact h rfl

/-- A file that is put is there, and all else is as it was. -/
theorem at?_put (h : t.put location contents = .ok t') (l : List String) :
    t'.at? l = if l = location then some (.file contents) else t.at? l := by
  obtain ⟨hfree, rfl⟩ := put_ok h
  have hne := ne_nil_of_at? hfree
  rw [at?, at?, ExtTreeMap.getElem?_insert]
  by_cases hl : l = location
  · subst hl
    rw [if_neg hne, if_pos ReflCmp.compare_self, if_pos rfl]
  · rw [if_neg hl, if_neg fun hc => hl (LawfulEqCmp.eq_of_compare hc).symm]

/-- To put a file leaves the directories. -/
theorem keeps_put (h : t.put location contents = .ok t') : Keeps t t' := by
  intro l hl
  rw [at?_put h, if_neg]
  · exact hl
  · rintro rfl
    exact (put_ok h).1 hl

theorem read_of_at? {path : String} (hresolve : t.resolve path = .ok location)
    (hfile : t.at? location = some (.file contents)) : t.read path = .ok contents := by
  rw [read, hresolve]
  dsimp only [bind, Except.bind]
  rw [hfile]

/-- **What is written is read.** -/
theorem read_of_write {path : String} (h : t.write path contents = .ok t') :
    t'.read path = .ok contents := by
  obtain ⟨location, hresolve, hput⟩ := bind_ok h
  refine read_of_at? (resolve_of_keeps (keeps_put hput) hresolve) ?_
  rw [at?_put hput, if_pos rfl]

/-! ## Moving a file -/

/-- A text that does not end with a separator has a last piece that is not
    empty. -/
theorem getLast?_pieces {p : Char → Bool} {cs : List Char} (hne : cs ≠ [])
    (h : ∀ c, cs.getLast? = some c → p c = false) :
    ∃ w, (Text.pieces p cs).getLast? = some w ∧ w ≠ [] := by
  induction cs with
  | nil => exact absurd rfl hne
  | cons c cs ih =>
      cases cs with
      | nil =>
          rw [Text.pieces, if_neg (by rw [h c rfl]; exact Bool.false_ne_true)]
          exact ⟨[c], rfl, List.cons_ne_nil _ _⟩
      | cons d cs =>
          obtain ⟨w, hw, hwne⟩ := ih (List.cons_ne_nil _ _) h
          rw [Text.pieces]
          split
          · refine ⟨w, ?_, hwne⟩
            rw [List.getLast?_cons, hw]
            rfl
          · cases hpieces : Text.pieces p (d :: cs) with
            | nil => exact absurd hpieces (Text.pieces_ne_nil p _)
            | cons v vs =>
                rw [hpieces, List.getLast?_cons] at hw
                cases vs with
                | nil => exact ⟨c :: v, rfl, List.cons_ne_nil _ _⟩
                | cons u us =>
                    refine ⟨w, ?_, hwne⟩
                    rw [List.getLast?_cons, ← hw]
                    rfl

/-- The names in a path that does not end with a slash end with one. -/
theorem trim_namesIn {path : String} {names : List String} (h : namesIn path = .ok names)
    (hslash : path.toList.getLast? ≠ some '/') :
    (names.reverse.dropWhile (· = "")).reverse = names := by
  rw [namesIn] at h
  split at h
  · cases h
  · split at h
    · cases h
    · rename_i hne
      split at h
      · cases h
      · cases h
        have hchar : ∀ c, path.toList.getLast? = some c → decide (c = '/') = false := by
          intro c hc
          refine decide_eq_false ?_
          rintro rfl
          exact hslash hc
        -- behind the last slash something stands, and so no empty name is dropped
        obtain ⟨w, hw, hwne⟩ := getLast?_pieces (mt String.toList_eq_nil_iff.mp hne) hchar
        have hlast : (Text.split (· = '/') path).reverse.head? = some (String.ofList w) := by
          rw [List.head?_reverse, Text.split, List.getLast?_map, hw]
          rfl
        obtain ⟨front, hfront⟩ := List.head?_eq_some_iff.mp hlast
        have hname : ¬ decide (String.ofList w = "") = true := by
          rw [decide_eq_true_eq, String.ofList_eq_empty_iff]
          exact hwne
        have hkept : (Text.split (· = '/') path).reverse.dropWhile (· = "") =
            (Text.split (· = '/') path).reverse := by
          rw [hfront]
          exact List.dropWhile_cons_of_neg hname
        rw [hkept, List.reverse_reverse]

/-- Where a file can be put is where its path leads. -/
theorem resolve_of_slot {path special : String} (h : t.slot path special = .ok location)
    (hslash : path.toList.getLast? ≠ some '/') : t.resolve path = .ok location := by
  obtain ⟨names, hnames, h⟩ := bind_ok h
  rw [trim_namesIn hnames hslash] at h
  obtain ⟨here, hlocate, h⟩ := bind_ok h
  rw [resolve, hnames]
  dsimp only at h
  split at h
  · cases h
  · cases h
    exact hlocate

/-! ## Taking a file away -/

/-- What is taken away is gone, and all else is as it was. -/
theorem at?_erase (hne : location ≠ []) (l : List String) :
    (⟨t.entries.erase location⟩ : FileTree).at? l =
      if l = location then none else t.at? l := by
  rw [at?, at?, ExtTreeMap.getElem?_erase]
  by_cases hl : l = location
  · subst hl
    rw [if_neg hne, if_pos ReflCmp.compare_self, if_pos rfl]
  · rw [if_neg hl, if_neg fun hc => hl (LawfulEqCmp.eq_of_compare hc).symm]

/-- What is read is a file. -/
theorem at?_of_read {path : String} (h : t.read path = .ok contents) :
    ∃ location, t.resolve path = .ok location ∧
      t.at? location = some (.file contents) := by
  obtain ⟨location, hresolve, h⟩ := bind_ok h
  refine ⟨location, hresolve, ?_⟩
  split at h
  · rename_i hfile
    cases h
    exact hfile
  · cases h
  · cases h

/-- **What is moved is read at its new place.** -/
theorem read_of_move {source target : String} (h : t.move source target = .ok t')
    (hread : t.read source = .ok contents) : t'.read target = .ok contents := by
  obtain ⟨here, hhere, h⟩ := bind_ok h
  obtain ⟨there, hthere, h⟩ := bind_ok h
  obtain ⟨found, hfound, h⟩ := bind_ok h
  cases hread.symm.trans hfound
  split at h
  · cases h
  rename_i hslash
  obtain ⟨u, hput, h⟩ := bind_ok h
  have hresolve := resolve_of_keeps (keeps_put hput) (resolve_of_slot hthere hslash)
  have hfile : u.at? there = some (.file contents) := by
    rw [at?_put hput, if_pos rfl]
  split at h
  · cases h
    exact read_of_at? hresolve hfile
  · rename_i hne
    cases h
    obtain ⟨location, hlocation, hsource⟩ := at?_of_read hread
    cases hlocation.symm.trans hhere
    have hroot : here ≠ [] := by
      rintro rfl
      cases hsource
    have hgone : u.at? here = some (.file contents) := by
      rw [at?_put hput, if_neg hne]
      exact hsource
    -- what is taken away was a file, so every directory stays
    have hkeeps : Keeps u ⟨u.entries.erase here⟩ := by
      intro l hl
      rw [at?_erase hroot, if_neg]
      · exact hl
      · rintro rfl
        cases hgone.symm.trans hl
    refine read_of_at? (resolve_of_keeps hkeeps hresolve) ?_
    rw [at?_erase hroot, if_neg (Ne.symm hne)]
    exact hfile

end CodeGraph.FileTree

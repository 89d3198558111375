import CodeGraph.Module.Path
import Mathlib.Data.List.DropRight
/-! # Normal form — which paths normalizing leaves alone

    Normalizing turns backslashes, takes `./` off the front and then slashes off both ends.
    Each step is made once, so slashes that go may leave `./` in front.

    * What is normalized has no backslash and no slash at its ends
      (`trimmed_normalize`).
    * It has `./` in front exactly if slashes stood before that `./`, and something other
      than slashes behind it (`dotted_normalize_iff`).
    * A path is left alone exactly if it has none of these (`normalize_eq_self_iff`). -/

namespace CodeGraph.Path

/-- The characters of a path, with slashes in place of backslashes. -/
def slashed (path : String) : List Char := path.toList.map fun c => if c = '\\' then '/' else c

/-- A path without backslashes and without slashes at its ends. -/
structure Trimmed (path : String) : Prop where
  backslash : '\\' ∉ path.toList
  first : path.toList.head? ≠ some '/'
  last : path.toList.getLast? ≠ some '/'

/-- A path with `./` in front. -/
def Dotted (path : String) : Prop := ['.', '/'] <+: path.toList

/-- A path in which slashes keep a `./` from the front: behind any number of `./` slashes
    follow, and then a `./` with something other than slashes behind it. -/
def Stranded (path : String) : Prop :=
  ∃ (n k : Nat) (rest : List Char), (∃ c ∈ rest, c ≠ '/') ∧
    slashed path = (List.replicate n ['.', '/']).flatten ++
      (List.replicate (k + 1) '/' ++ '.' :: '/' :: rest)

/-- What is done to a path is done to its characters: slashes all lean one way, then `./` is
    taken off the front, then slashes off both ends. -/
theorem toList_normalize (path : String) :
    (normalize path).toList = stripSlashes (stripCurrent (slashed path)) := by
  rw [normalize, String.toList_ofList]
  rfl

/-! ## Off the front -/

theorem not_prefix_of_forall {cs : List Char} (h : ∀ rest, cs = '.' :: '/' :: rest → False) :
    ¬ ['.', '/'] <+: cs := by
  rintro ⟨rest, rfl⟩
  exact h rest rfl

/-- Nothing is taken off a path that does not begin with `./`. -/
theorem stripCurrent_eq_self {cs : List Char} (h : ¬ ['.', '/'] <+: cs) :
    stripCurrent cs = cs := by
  rw [stripCurrent]
  rintro rest rfl
  exact h ⟨rest, rfl⟩

/-- What is left does not begin with `./`. -/
theorem not_prefix_stripCurrent (cs : List Char) : ¬ ['.', '/'] <+: stripCurrent cs := by
  induction cs using stripCurrent.induct with
  | case1 rest ih =>
      rw [stripCurrent]
      exact ih
  | case2 cs hcs =>
      rw [stripCurrent_eq_self (not_prefix_of_forall hcs)]
      exact not_prefix_of_forall hcs

/-- Any number of `./` is taken off. -/
theorem stripCurrent_append (n : Nat) (cs : List Char) :
    stripCurrent ((List.replicate n ['.', '/']).flatten ++ cs) = stripCurrent cs := by
  induction n with
  | zero => rfl
  | succ n ih => exact ih

/-- What goes off the front is `./`, any number of times. -/
theorem exists_stripCurrent (cs : List Char) :
    ∃ n, cs = (List.replicate n ['.', '/']).flatten ++ stripCurrent cs := by
  induction cs using stripCurrent.induct with
  | case1 rest ih =>
      obtain ⟨n, hn⟩ := ih
      refine ⟨n + 1, ?_⟩
      rw [stripCurrent, List.replicate_succ, List.flatten_cons, List.append_assoc, ← hn]
      rfl
  | case2 cs hcs =>
      refine ⟨0, ?_⟩
      rw [stripCurrent_eq_self (not_prefix_of_forall hcs)]
      rfl

theorem stripCurrent_suffix (cs : List Char) : stripCurrent cs <:+ cs := by
  obtain ⟨n, hn⟩ := exists_stripCurrent cs
  exact ⟨_, hn.symm⟩

/-! ## Off both ends -/

theorem stripSlashes_eq (cs : List Char) :
    stripSlashes cs = (cs.dropWhile (· = '/')).rdropWhile (· = '/') := rfl

/-- Nothing is taken off where no slash stands at either end. -/
theorem stripSlashes_eq_self {cs : List Char} (hfirst : cs.head? ≠ some '/')
    (hlast : cs.getLast? ≠ some '/') : stripSlashes cs = cs := by
  have hfront : cs.dropWhile (· = '/') = cs := by
    cases cs with
    | nil => rfl
    | cons c cs =>
        refine List.dropWhile_cons_of_neg fun hc => hfirst ?_
        rw [of_decide_eq_true hc, List.head?_cons]
  rw [stripSlashes_eq, hfront, List.rdropWhile_eq_self_iff]
  intro hne hslash
  exact hlast (by rw [List.getLast?_eq_some_getLast hne, of_decide_eq_true hslash])

/-- Nothing is added, and the order stays. -/
theorem strip_sublist (cs : List Char) : (stripSlashes (stripCurrent cs)).Sublist cs := by
  rw [stripSlashes_eq]
  exact ((List.rdropWhile_prefix _ _).sublist.trans (List.dropWhile_sublist _)).trans
    (stripCurrent_suffix cs).sublist

/-- What is taken off the front is slashes. -/
theorem exists_dropWhile (cs : List Char) :
    ∃ k, cs = List.replicate k '/' ++ cs.dropWhile (· = '/') := by
  refine ⟨(cs.takeWhile (· = '/')).length, ?_⟩
  have hslash : ∀ c ∈ cs.takeWhile (· = '/'), c = '/' := by
    intro c hc
    have hslash := List.mem_takeWhile_imp hc
    exact of_decide_eq_true hslash
  rw [← List.eq_replicate_of_mem hslash, List.takeWhile_append_dropWhile]

theorem dropWhile_replicate_append (k : Nat) (cs : List Char) :
    (List.replicate k '/' ++ cs).dropWhile (· = '/') = cs.dropWhile (· = '/') :=
  List.dropWhile_append_of_pos fun _ hc => decide_eq_true (List.eq_of_mem_replicate hc)

theorem head?_dropWhile (cs : List Char) : (cs.dropWhile (· = '/')).head? ≠ some '/' := by
  intro h
  have hnot := List.head?_dropWhile_not (fun c => c = '/') cs
  rw [h] at hnot
  exact absurd hnot (by decide)

/-- Slashes go off the end only as far as nothing else stands. -/
theorem rdropWhile_append {rest : List Char} (h : ∃ c ∈ rest, c ≠ '/') (front : List Char) :
    (front ++ rest).rdropWhile (· = '/') = front ++ rest.rdropWhile (· = '/') := by
  obtain ⟨c, hc, hne⟩ := h
  have hstop : ¬ (rest.reverse.dropWhile (· = '/')).isEmpty = true := by
    rw [List.isEmpty_iff, List.dropWhile_eq_nil_iff]
    intro hall
    exact hne (of_decide_eq_true (hall c (List.mem_reverse.mpr hc)))
  rw [List.rdropWhile, List.reverse_append, List.dropWhile_append, if_neg hstop,
    List.reverse_append, List.reverse_reverse, List.rdropWhile]

/-! ## Normal form -/

/-- Backslashes become slashes. -/
theorem backslash_not_mem_normalize (path : String) : '\\' ∉ (normalize path).toList := by
  rw [toList_normalize]
  intro h
  obtain ⟨c, -, hc⟩ := List.mem_map.mp ((strip_sublist _).mem h)
  split at hc
  · exact absurd hc (by decide)
  · rename_i hne
    exact hne hc

/-- No slash is left at the end. -/
theorem getLast?_normalize (path : String) : (normalize path).toList.getLast? ≠ some '/' := by
  rw [toList_normalize, stripSlashes, List.getLast?_reverse]
  exact head?_dropWhile _

/-- No slash is left in front. -/
theorem head?_normalize (path : String) : (normalize path).toList.head? ≠ some '/' := by
  rw [toList_normalize, stripSlashes_eq]
  intro h
  obtain ⟨slashes, hslashes⟩ := List.rdropWhile_prefix (· = '/')
    ((stripCurrent (slashed path)).dropWhile (· = '/'))
  refine head?_dropWhile (stripCurrent (slashed path)) ?_
  rw [← hslashes, List.head?_append, h]
  rfl

theorem trimmed_normalize (path : String) : Trimmed (normalize path) :=
  ⟨backslash_not_mem_normalize path, head?_normalize path, getLast?_normalize path⟩

/-- Without backslashes there is nothing to turn round. -/
theorem slashed_eq_self {path : String} (h : '\\' ∉ path.toList) : slashed path = path.toList := by
  rw [slashed]
  refine (List.map_congr_left fun c hc => if_neg ?_).trans (List.map_id _)
  rintro rfl
  exact h hc

/-- A path that begins with `./` gets shorter. -/
theorem length_normalize_lt {path : String} (h : Dotted path) :
    (normalize path).toList.length < path.toList.length := by
  obtain ⟨rest, hrest⟩ := h
  have hfront : stripCurrent (slashed path) =
      stripCurrent (rest.map fun c => if c = '\\' then '/' else c) := by
    rw [slashed, ← hrest]
    rfl
  have hlength : (normalize path).toList.length ≤ rest.length := by
    rw [toList_normalize, hfront]
    exact (strip_sublist _).length_le.trans_eq (List.length_map _)
  rw [← hrest, List.length_append]
  exact Nat.lt_of_le_of_lt hlength (Nat.lt_add_of_pos_left Nat.two_pos)

/-- **Normalizing leaves a path alone exactly if nothing of it can go.** -/
theorem normalize_eq_self_iff {path : String} :
    normalize path = path ↔ Trimmed path ∧ ¬ Dotted path := by
  constructor
  · intro h
    refine ⟨h ▸ trimmed_normalize path, ?_⟩
    intro hdotted
    have hlt := length_normalize_lt hdotted
    rw [h] at hlt
    exact Nat.lt_irrefl _ hlt
  · rintro ⟨htrimmed, hdotted⟩
    rw [← String.toList_inj, toList_normalize, slashed_eq_self htrimmed.backslash,
      stripCurrent_eq_self hdotted, stripSlashes_eq_self htrimmed.first htrimmed.last]

/-- Slashes are taken off after every `./` in front, so a `./` behind them comes to the
    front. -/
theorem Stranded.dotted {path : String} (h : Stranded path) : Dotted (normalize path) := by
  obtain ⟨n, k, rest, hrest, hpath⟩ := h
  have hstop : ¬ ['.', '/'] <+: List.replicate (k + 1) '/' ++ '.' :: '/' :: rest := by
    rintro ⟨other, hother⟩
    cases hother
  have hslashes : (List.replicate (k + 1) '/' ++ '.' :: '/' :: rest).dropWhile (· = '/') =
      ['.', '/'] ++ rest := by
    rw [dropWhile_replicate_append]
    rfl
  rw [Dotted, toList_normalize, hpath, stripCurrent_append, stripCurrent_eq_self hstop,
    stripSlashes_eq, hslashes, rdropWhile_append hrest]
  exact List.prefix_append _ _

/-- A `./` comes to the front in no other way. -/
theorem Dotted.stranded {path : String} (h : Dotted (normalize path)) : Stranded path := by
  obtain ⟨rest, hrest⟩ := h
  obtain ⟨n, hn⟩ := exists_stripCurrent (slashed path)
  obtain ⟨k, hk⟩ := exists_dropWhile (stripCurrent (slashed path))
  obtain ⟨slashes, hslashes⟩ := List.rdropWhile_prefix (· = '/')
    ((stripCurrent (slashed path)).dropWhile (· = '/'))
  rw [← stripSlashes_eq, ← toList_normalize, ← hrest, List.append_assoc] at hslashes
  rw [← hslashes] at hk
  -- the normal form does not end with a slash, so it goes on behind its `./`
  have hother : ∃ c ∈ rest, c ≠ '/' := by
    by_contra hnone
    have hall : ∀ c ∈ rest, c = '/' := fun c hc => by_contra fun hne => hnone ⟨c, hc, hne⟩
    refine getLast?_normalize path ?_
    rw [← hrest, List.getLast?_append, List.eq_replicate_of_mem hall, List.getLast?_replicate]
    split <;> rfl
  obtain ⟨c, hc, hne⟩ := hother
  cases k with
  | zero => exact absurd ⟨_, hk.symm⟩ (not_prefix_stripCurrent (slashed path))
  | succ k =>
      refine ⟨n, k, rest ++ slashes, ⟨c, List.mem_append_left _ hc, hne⟩, ?_⟩
      rw [hk] at hn
      exact hn

/-- **What is normalized has `./` in front exactly if slashes kept it from the front.** -/
theorem dotted_normalize_iff {path : String} : Dotted (normalize path) ↔ Stranded path :=
  ⟨Dotted.stranded, Stranded.dotted⟩

/-- What is normalized is left alone unless it has `./` in front. -/
theorem normalize_normalize_iff {path : String} :
    normalize (normalize path) = normalize path ↔ ¬ Dotted (normalize path) := by
  rw [normalize_eq_self_iff]
  exact and_iff_right (trimmed_normalize path)

end CodeGraph.Path

import CodeGraph.Module.Specifier
import CodeGraph.Proofs.Path
/-! # Specifiers — which names are kept as they are written

    A name goes through trimming, cutting and cleaning before it is looked up.
    Here is which names come out as they went in.

    * Behind `./` a name is its own segment unless it ends with a blank, has a
      dot behind its first character, or is a relative marker
      (`segments_relative`).
    * The last name of a called name is the called name itself if cleaning takes
      nothing off it and there is nothing to cut (`Callee.last_eq_self_iff`). -/

namespace CodeGraph

open Text

/-! ## Relative specifiers -/

namespace Specifier

/-- A name that is its own segment behind `./`. -/
structure Plain (name : String) : Prop where
  /-- No blank is at its end. -/
  ends : ∀ c ∈ name.toList.getLast?, isBlank c = false
  /-- No dot is behind its first character. -/
  dotless : '.' ∉ name.toList.tail
  unmarked : name ∉ relativeMarkers

theorem applyAlias_empty (specifier : String) : applyAlias specifier ∅ = specifier := by
  rw [applyAlias, longestAlias?, Std.ExtTreeMap.toList_eq_nil_iff.mpr rfl]
  rfl

/-- A text without blanks at its ends is kept. -/
theorem trim_eq_self {s : String} (hfirst : ∀ c, s.toList.head? = some c → isBlank c = false)
    (hlast : ∀ c, s.toList.getLast? = some c → isBlank c = false) : trim s = s := by
  have hkeep : ∀ {cs : List Char}, (∀ c, cs.head? = some c → isBlank c = false) →
      cs.dropWhile isBlank = cs := by
    intro cs hcs
    cases cs with
    | nil => rfl
    | cons c cs => rw [List.dropWhile_cons, hcs c rfl, if_neg Bool.false_ne_true]
  rw [trim, trimEnds, hkeep hfirst, hkeep, List.reverse_reverse, String.ofList_toList]
  intro c hc
  rw [List.head?_reverse] at hc
  exact hlast c hc

/-- Without a dot behind its first character a name has no extension. -/
theorem stem_eq_self {name : String} (hslash : '/' ∉ name.toList)
    (hdot : '.' ∉ name.toList.tail) : Path.stem name = name := by
  have hname : Path.fileName name = name := by
    rw [Path.fileName, Path.components_top hslash]
    rfl
  have hplain : ∀ cs : List Char, '.' ∉ cs → pieces (· = '.') cs = [cs] := by
    intro cs hcs
    refine pieces_of_forall fun c hc => decide_eq_false ?_
    rintro rfl
    exact hcs hc
  have hcut : Path.cutExtension? name = none := by
    rw [Path.cutExtension?]
    cases hcs : name.toList with
    | nil => rfl
    | cons c cs =>
        rw [hcs, List.tail_cons] at hdot
        by_cases hc : c = '.'
        · -- the dot at the front leaves nothing in front of it
          subst hc
          rw [pieces, if_pos (decide_eq_true rfl), hplain cs hdot]
          rfl
        · rw [hplain (c :: cs)]
          · rfl
          · rw [List.mem_cons, not_or]
            exact ⟨Ne.symm hc, hdot⟩
  rw [Path.stem, hname, hcut]

/-- **Behind `./` a plain name is the only segment.** -/
theorem segments_relative {name : String} (hname : name ≠ "")
    (hslash : '/' ∉ name.toList) (hbackslash : '\\' ∉ name.toList) (h : Plain name) :
    segments ("./" ++ name) ∅ = [name] := by
  have hlist : ("./" ++ name).toList = ['.'] ++ '/' :: name.toList := by
    rw [String.toList_append]
    rfl
  have hne : name.toList ≠ [] := mt String.toList_eq_nil_iff.mp hname
  have htrim : trim ("./" ++ name) = "./" ++ name := by
    refine trim_eq_self ?_ ?_
    · intro c hc
      rw [hlist] at hc
      cases hc
      decide
    · intro c hc
      obtain ⟨d, hd⟩ := Option.ne_none_iff_exists'.mp (mt List.getLast?_eq_none_iff.mp hne)
      rw [hlist, List.getLast?_append, List.getLast?_cons, Option.some_or, hd,
        Option.getD_some, Option.some.injEq] at hc
      exact h.ends c (hc ▸ hd)
  have hpath : isPathLike ("./" ++ name) = true := by
    rw [isPathLike, hlist]
    rfl
  have hplain : ∀ c ∈ name.toList, (decide (c = '/') || decide (c = '\\')) = false := by
    intro c hc
    rw [Bool.or_eq_false_iff, decide_eq_false_iff_not, decide_eq_false_iff_not]
    exact ⟨by rintro rfl; exact hslash hc, by rintro rfl; exact hbackslash hc⟩
  -- the stem is taken of the last word only, and without a dot it is the word itself
  have hwords : words ("./" ++ name) = [".", name] := by
    rw [words, if_pos hpath, split, hlist, pieces_append rfl, pieces_of_forall hplain]
    show stemLast [".", String.ofList name.toList] = _
    rw [String.ofList_toList]
    show [".", Path.stem name] = _
    rw [stem_eq_self hslash h.dotless]
  have hunmarked := h.unmarked
  have hmarker : ¬relativeMarkers.contains name = true := by
    rw [List.contains_iff_mem]
    exact hunmarked
  simp only [relativeMarkers, List.mem_cons, not_or] at hunmarked
  rw [segments, htrim, applyAlias_empty, hwords, List.filter_cons_of_neg (by decide),
    List.filter_cons_of_pos (by simp [hname, hunmarked]), List.filter_nil,
    List.dropWhile_cons_of_neg hmarker]

end Specifier

/-! ## Called names -/

namespace Callee

/-- Whether a called name is cut at a character. -/
def isSeparator (c : Char) : Bool := c = '.' || c = ':' || c = '>' || c = '-'

theorem sublist_stripParentheses (cs : List Char) : (stripParentheses cs).Sublist cs := by
  induction cs using stripParentheses.induct with
  | case1 rest ih =>
      rw [stripParentheses]
      exact (ih.cons '(').cons ')'
  | case2 cs hcs =>
      have hkeep : stripParentheses cs = cs := by
        rw [stripParentheses]
        exact hcs
      simp only [hkeep, List.Sublist.refl]

/-- Cleaning only takes characters off. -/
theorem sublist_clean (callee : String) : (clean callee).toList.Sublist callee.toList := by
  have hparentheses := (sublist_stripParentheses (trim callee).toList.reverse).reverse
  have hends : (trim callee).toList.Sublist callee.toList := by
    have hback := List.dropWhile_sublist isBlank (l := (callee.toList.dropWhile isBlank).reverse)
    rw [trim, trimEnds, String.toList_ofList]
    refine hback.reverse.trans ?_
    rw [List.reverse_reverse]
    exact List.dropWhile_sublist _
  rw [List.reverse_reverse] at hparentheses
  rw [clean, String.toList_ofList]
  exact hparentheses.trans hends

/-- **A called name is its own last name** if cleaning takes nothing off it, and it is not
    cut or nothing but separators and names of the caller's own object are in it. -/
theorem last_eq_self_iff (callee : String) : last callee = callee ↔
    clean callee = callee ∧
      ((∀ c ∈ callee.toList, isSeparator c = false) ∨ parts callee = []) := by
  constructor
  · intro hlast
    cases hparts : (parts callee).getLast? with
    | none =>
        rw [last, hparts, Option.getD_none] at hlast
        exact ⟨hlast, Or.inr (List.getLast?_eq_none_iff.mp hparts)⟩
    | some word =>
        rw [last, hparts, Option.getD_some] at hlast
        subst hlast
        -- the name is a piece of what cleaning leaves of it
        obtain ⟨hword, -⟩ := List.mem_filter.mp (List.mem_of_getLast? hparts)
        obtain ⟨cs, hcs, hofList⟩ := List.mem_map.mp hword
        rw [← String.toList_inj, String.toList_ofList] at hofList
        subst hofList
        refine ⟨?_, Or.inl (eq_false_of_mem_pieces hcs)⟩
        rw [← String.toList_inj]
        exact (sublist_clean word).eq_of_length_le (sublist_of_mem_pieces hcs).length_le
  · rintro ⟨hclean, hwhole | hnone⟩
    · have hsplit : split isSeparator callee = [callee] := by
        rw [split, pieces_of_forall hwhole, List.map_singleton, String.ofList_toList]
      have hparts : parts callee = [callee].filter fun w =>
          w ≠ "" && w ≠ "self" && w ≠ "this" && w ≠ "super" := by
        rw [parts, hclean]
        exact congrArg (List.filter _) hsplit
      rw [last, hparts, List.filter_cons]
      split
      · rfl
      · exact hclean
    · rw [last, hnone]
      exact hclean

end Callee

end CodeGraph

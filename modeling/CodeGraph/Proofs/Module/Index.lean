import CodeGraph.Module.Index
import CodeGraph.Proofs.Build.Schema
import CodeGraph.Proofs.Module.Naming
import Mathlib.Data.List.Induction
/-! # The module index — lookup agrees with a scan

    Modules are found by the last of their segments only, and yet no module that answers
    is missed, whatever was added and in whatever order.

    * `mem_candidates`: the candidates for some segments are all modules that answer to
      them, and these are the ones that end with them (`Module.answers_iff`).
    * `exists_preferred?`: the preferred one of several is preferred to all of them, and
      `isLE_compareFrom_iff` says what that means.
    * `round?_eq_some_iff` and `answer?_eq_some_iff` state the lookup without the index, and
      so the order of the additions does not matter (`answer?_congr`).
    * For no segments at all nothing is looked up, although every module ends with them
      (`nothing_meant_by_nothing`). -/

namespace CodeGraph

open Std

/-! ## Choosing from a list -/

/-- What is chosen from a list, by keeping what was chosen so far or taking the
    next, is on the list. -/
theorem mem_of_foldl_choice {α : Type} {step : Option α → α → Option α}
    (hstep : ∀ best y, step best y = best ∨ step best y = some y) {xs : List α} {x : α}
    (h : xs.foldl step none = some x) : x ∈ xs := by
  have hall : ∀ y, xs.foldl step none = some y → y ∈ xs := by
    refine List.foldlRecOn xs step (motive := fun best => ∀ y, best = some y → y ∈ xs) nofun ?_
    intro best hbest y hy z hz
    rcases hstep best y with hkeep | htake
    · exact hbest z (hkeep.symm.trans hz)
    · cases htake.symm.trans hz
      exact hy
  exact hall x h

/-- **A choice that never keeps the worse of two ends with the best of all.** -/
theorem exists_least_of_foldl_choice {α : Type} (cmp : α → α → Ordering) [TransCmp cmp]
    {step : Option α → α → Option α} (hfirst : ∀ y, step none y = some y)
    (hstep : ∀ b y, step (some b) y = some b ∧ (cmp b y).isLE ∨
      step (some b) y = some y ∧ (cmp y b).isLE) {xs : List α} (h : xs ≠ []) :
    ∃ x ∈ xs, xs.foldl step none = some x ∧ ∀ y ∈ xs, (cmp x y).isLE := by
  -- from the end, since the last candidate is compared with the choice among the others
  induction xs using List.reverseRecOn with
  | nil => exact absurd rfl h
  | append_singleton xs y ih =>
      rw [List.foldl_append, List.foldl_cons, List.foldl_nil]
      have hself : (cmp y y).isLE := ReflCmp.isLE_rfl
      by_cases hxs : xs = []
      · subst hxs
        refine ⟨y, List.mem_singleton_self y, hfirst y, ?_⟩
        intro z hz
        rw [List.mem_singleton.mp hz]
        exact hself
      · obtain ⟨x, hx, hfold, hleast⟩ := ih hxs
        rw [hfold]
        rcases hstep x y with ⟨hkeep, hle⟩ | ⟨htake, hle⟩
        · refine ⟨x, List.mem_append_left _ hx, hkeep, ?_⟩
          intro z hz
          rcases List.mem_append.mp hz with hz | hz
          · exact hleast z hz
          · rw [List.mem_singleton.mp hz]
            exact hle
        · refine ⟨y, List.mem_append_right _ (List.mem_singleton_self y), htake, ?_⟩
          intro z hz
          rcases List.mem_append.mp hz with hz | hz
          · exact TransCmp.isLE_trans hle (hleast z hz)
          · rw [List.mem_singleton.mp hz]
            exact hself

namespace Module

/-- A module answers to the segments that it ends with. -/
theorem answers_iff {m : Module} {segments : List String} :
    m.answers segments = true ↔ segments <:+ m.segments := by
  rw [answers, decide_eq_true_eq, Path.commonEnd_eq_length_iff]

/-- The modules of a file bear its identifier and its path. -/
theorem spec_of_mem_ofFile {path : String} {m : Module} (h : m ∈ ofFile path) :
    m.id = .file path ∧ m.path = path ∧ m.isFile = true := by
  rw [ofFile] at h
  rcases List.mem_append.mp h with h | h
  · split at h
    · rw [List.mem_singleton.mp h]
      exact ⟨rfl, rfl, rfl⟩
    · cases h
  · rw [List.mem_singleton.mp h]
    exact ⟨rfl, rfl, rfl⟩

instance (directory : String) : TransCmp (compareFrom directory) :=
  inferInstanceAs (TransCmp (compareLex
    (compareLex (compareOn fun m : Module => Path.nearness (Path.parent m.path) directory)
      (compareOn fun m => m.isFile.toNat))
    fun a b => compareOn (fun m : Module => m.id) b a))

theorem mem_of_preferred? {directory : String} {ms : List Module} {m : Module}
    (h : preferred? directory ms = some m) : m ∈ ms := by
  refine mem_of_foldl_choice ?_ h
  intro best y
  cases best with
  | none => exact Or.inr rfl
  | some b =>
      dsimp only
      split
      · exact Or.inl rfl
      · exact Or.inr rfl

/-- The preferred one of some modules is preferred to all others. -/
theorem exists_preferred? (directory : String) {ms : List Module} (h : ms ≠ []) :
    ∃ m ∈ ms, preferred? directory ms = some m ∧
      ∀ m' ∈ ms, (compareFrom directory m' m).isLE := by
  refine exists_least_of_foldl_choice (fun a b => compareFrom directory b a)
    (fun _ => rfl) ?_ h
  intro b y
  dsimp only
  split
  · rename_i hgt
    exact Or.inl ⟨rfl, by rw [OrientedCmp.lt_of_gt hgt]; rfl⟩
  · rename_i hle
    exact Or.inr ⟨rfl, Ordering.isLE_iff_ne_gt.mpr hle⟩

/-- A module that is at least as good as another, seen from an importing file: nearer to
    it, or as near and a file rather than a directory, or alike in both and with an
    identifier that is not greater. -/
def Precedes (importer : String) (a b : Module) : Prop :=
  let near (m : Module) := Path.nearness (Path.parent m.path) (Path.parent importer)
  near b < near a ∨ near b = near a ∧
    (b.isFile = false ∧ a.isFile = true ∨ b.isFile = a.isFile ∧ (compare a.id b.id).isLE)

theorem isLE_compareFrom_iff {importer : String} {a b : Module} :
    (compareFrom (Path.parent importer) b a).isLE ↔ a.Precedes importer b := by
  rw [compareFrom, Precedes]
  dsimp only
  rcases Nat.lt_trichotomy (Path.nearness (Path.parent b.path) (Path.parent importer))
    (Path.nearness (Path.parent a.path) (Path.parent importer)) with hlt | heq | hgt
  · rw [Nat.compare_eq_lt.mpr hlt]
    exact iff_of_true rfl (.inl hlt)
  · rw [heq, Nat.compare_eq_eq.mpr rfl]
    have hup : compare 0 1 = .lt := rfl
    have hdown : compare 1 0 = .gt := rfl
    cases b.isFile <;> cases a.isFile <;> simp [Ordering.then, hup, hdown]
  · rw [Nat.compare_eq_gt.mpr hgt]
    refine iff_of_false Bool.false_ne_true ?_
    rintro (hlt | ⟨heq, -⟩) <;> omega

end Module

namespace ModuleIndex

/-! ## Candidates -/

/-- A module is found under its last segment. -/
theorem mem_add {index : ModuleIndex} {m x : Module} {last : String} :
    x ∈ (index.add m).byLast.getD last [] ↔
      x ∈ index.byLast.getD last [] ∨ x = m ∧ m.segments.getLast? = some last := by
  rw [add]
  split
  · rename_i key hkey
    show x ∈ (index.byLast.alter key _).getD last [] ↔ _
    rw [ExtTreeMap.getD_alter, hkey, Option.some.injEq]
    by_cases hlast : key = last
    · subst hlast
      rw [if_pos ReflCmp.compare_self, Option.getD_some, ← ExtTreeMap.getD_eq_getD_getElem?,
        List.mem_append, List.mem_singleton, and_iff_left rfl]
    · rw [if_neg (hlast ∘ LawfulEqCmp.eq_of_compare)]
      simp [hlast]
  · rename_i hnone
    rw [hnone]
    simp

theorem mem_foldl_add (ms : List Module) {index : ModuleIndex} {x : Module} {last : String} :
    x ∈ (ms.foldl add index).byLast.getD last [] ↔
      x ∈ index.byLast.getD last [] ∨ x ∈ ms ∧ x.segments.getLast? = some last := by
  induction ms generalizing index with
  | nil => simp
  | cons m ms ih =>
      rw [List.foldl_cons, ih, mem_add, or_assoc, List.mem_cons, or_and_right]
      refine or_congr_right (or_congr_left (and_congr_right fun h => ?_))
      rw [h]

/-- **The candidates for some segments are all modules that end with them.** -/
theorem mem_candidates {ms : List Module} {segments : List String} {m : Module} :
    m ∈ (ms.foldl add {}).candidates segments ↔
      segments ≠ [] ∧ m ∈ ms ∧ m.answers segments = true := by
  rw [candidates]
  split
  · rename_i last hlast
    have hne : segments ≠ [] := by
      rintro rfl
      cases hlast
    rw [List.mem_filter, mem_foldl_add, ExtTreeMap.getD_empty, or_iff_right List.not_mem_nil]
    constructor
    · rintro ⟨⟨hm, -⟩, hanswers⟩
      exact ⟨hne, hm, hanswers⟩
    · rintro ⟨-, hm, hanswers⟩
      -- what ends with the segments ends with the last of them
      obtain ⟨front, hfront⟩ := Module.answers_iff.mp hanswers
      refine ⟨⟨hm, ?_⟩, hanswers⟩
      rw [← hfront, List.getLast?_append, hlast, Option.some_or]
  · rename_i hnone
    rw [List.getLast?_eq_none_iff] at hnone
    simp [hnone]

/-! ## What is added -/

/-- A path that is added to an index. -/
inductive Addition where
  | file (path : String)
  | directory (path : String)
deriving DecidableEq, Repr

/-- The modules that a path is. -/
def Addition.modules : Addition → List Module
  | file path => Module.ofFile path
  | directory path => [Module.ofDirectory path]

/-- An index with one more path. -/
def extend (index : ModuleIndex) : Addition → ModuleIndex
  | .file path => index.addFile path
  | .directory path => index.addDirectory path

/-- The index of some paths, added one after the other. -/
def built (additions : List Addition) : ModuleIndex := additions.foldl extend {}

theorem built_eq (additions : List Addition) :
    built additions = (additions.flatMap Addition.modules).foldl add {} := by
  have hextend : ∀ (index : ModuleIndex) (a : Addition),
      a.modules.foldl add index = index.extend a := by
    intro index a
    cases a <;> rfl
  rw [built, List.foldl_flatMap]
  simp only [hextend]

/-- Modules of paths that were added have one path for each identifier. -/
theorem path_eq_of_id_eq {a b : Addition} {m m' : Module} (hm : m ∈ a.modules)
    (hm' : m' ∈ b.modules) (h : m.id = m'.id) : m.path = m'.path := by
  have hfile : ∀ {p m}, m ∈ Addition.modules (.file p) → m.id = .file p ∧ m.path = p :=
    fun hm => ⟨(Module.spec_of_mem_ofFile hm).1, (Module.spec_of_mem_ofFile hm).2.1⟩
  have hdirectory : ∀ {p m}, m ∈ Addition.modules (.directory p) →
      m.id = .directory p ∧ m.path = p := by
    intro p m hm
    rw [List.mem_singleton.mp hm]
    exact ⟨rfl, rfl⟩
  have hother : ∀ p q, NodeId.file p ≠ NodeId.directory q := fun p q =>
    Build.ne_of_tag (Build.tag_file p) (Build.tag_directory q) (by decide)
  cases a with
  | file p =>
      obtain ⟨hid, hpath⟩ := hfile hm
      cases b with
      | file q =>
          obtain ⟨hid', hpath'⟩ := hfile hm'
          rw [hpath, hpath', Build.file_injective (hid.symm.trans (h.trans hid'))]
      | directory q =>
          exact absurd (hid.symm.trans (h.trans (hdirectory hm').1)) (hother p q)
  | directory p =>
      obtain ⟨hid, hpath⟩ := hdirectory hm
      cases b with
      | file q => exact absurd ((hfile hm').1.symm.trans (h.symm.trans hid)) (hother q p)
      | directory q =>
          obtain ⟨hid', hpath'⟩ := hdirectory hm'
          rw [hpath, hpath', Build.directory_injective (hid.symm.trans (h.trans hid'))]

/-! ## What is meant -/

/-- A module of a path that was added, other than the importing file, that ends with all
    segments. -/
structure Fits (additions : List Addition) (importer : String) (segments : List String)
    (m : Module) : Prop where
  added : ∃ a ∈ additions, m ∈ a.modules
  other : m.id ≠ .file importer
  ends : segments <:+ m.segments

/-- A module that fits and precedes all that fit. -/
structure Best (additions : List Addition) (importer : String) (segments : List String)
    (m : Module) : Prop where
  fits : Fits additions importer segments m
  precedes : ∀ m', Fits additions importer segments m' → m.Precedes importer m'

/-- The identifier and the path of the module that is meant by exactly these segments. -/
def round? (additions : List Addition) (importer : String) (segments : List String) :
    Option (NodeId × String) :=
  ((built additions).only? importer segments).map fun m => (m.id, m.path)

/-- The identifier and the path of the module that an import means. -/
def answer? (additions : List Addition) (importer : String) (segments : List String) :
    Option (NodeId × String) :=
  ((built additions).resolve? importer segments).map fun m => (m.id, m.path)

theorem answer?_eq (additions : List Addition) (importer : String) (segments : List String) :
    answer? additions importer segments =
      (round? additions importer segments).or
        (if segments.length < 2 then none
          else round? additions importer segments.dropLast) := by
  rw [answer?, resolve?, round?, round?]
  cases (built additions).only? importer segments with
  | some m => rfl
  | none =>
      dsimp only
      split <;> rfl

section Lookup

variable {additions : List Addition} {importer : String} {segments : List String}
  {id : NodeId} {path : String}

theorem mem_fitting {m : Module} :
    m ∈ ((built additions).candidates segments).filter (fun m => m.id ≠ .file importer) ↔
      segments ≠ [] ∧ Fits additions importer segments m := by
  rw [List.mem_filter, built_eq, mem_candidates, List.mem_flatMap,
    Module.answers_iff, decide_eq_true_eq]
  constructor
  · rintro ⟨⟨hne, hadded, hends⟩, hother⟩
    exact ⟨hne, hadded, hother, hends⟩
  · rintro ⟨hne, hadded, hother, hends⟩
    exact ⟨⟨hne, hadded, hends⟩, hother⟩

/-- There is one best identifier, and one path. -/
theorem Best.eq {m m' : Module} (h : Best additions importer segments m)
    (h' : Best additions importer segments m') : m.id = m'.id ∧ m.path = m'.path := by
  have hle := Module.isLE_compareFrom_iff.mpr (h.precedes m' h'.fits)
  have hle' := Module.isLE_compareFrom_iff.mpr (h'.precedes m h.fits)
  have heq : Module.compareFrom (Path.parent importer) m m' = .eq :=
    OrientedCmp.isLE_antisymm hle' hle
  rw [Module.compareFrom, Ordering.then_eq_eq] at heq
  have hid : m.id = m'.id := (LawfulEqCmp.eq_of_compare heq.2).symm
  obtain ⟨a, -, ha⟩ := h.fits.added
  obtain ⟨b, -, hb⟩ := h'.fits.added
  exact ⟨hid, path_eq_of_id_eq ha hb hid⟩

/-- **One round of the lookup gives the best of all modules that fit.** -/
theorem round?_eq_some_iff :
    round? additions importer segments = some (id, path) ↔
      segments ≠ [] ∧
        ∃ m, Best additions importer segments m ∧ m.id = id ∧ m.path = path := by
  rw [round?, only?, Option.map_eq_some_iff]
  have hbest : ∀ {m}, Module.preferred? (Path.parent importer)
      (((built additions).candidates segments).filter fun m => m.id ≠ .file importer) =
        some m → segments ≠ [] ∧ Best additions importer segments m := by
    intro m hm
    have hmem := Module.mem_of_preferred? hm
    obtain ⟨best, hin, hpreferred, hleast⟩ :=
      Module.exists_preferred? (Path.parent importer) (List.ne_nil_of_mem hmem)
    obtain rfl : best = m := Option.some.inj (hpreferred.symm.trans hm)
    obtain ⟨hne, hfits⟩ := mem_fitting.mp hin
    exact ⟨hne, hfits, fun m' hm' =>
      Module.isLE_compareFrom_iff.mp (hleast m' (mem_fitting.mpr ⟨hne, hm'⟩))⟩
  constructor
  · rintro ⟨m, hm, heq⟩
    obtain ⟨hid, hpath⟩ := Prod.mk.inj heq
    obtain ⟨hne, hm⟩ := hbest hm
    exact ⟨hne, m, hm, hid, hpath⟩
  · rintro ⟨hne, m, hm, rfl, rfl⟩
    obtain ⟨best, -, hpreferred, -⟩ := Module.exists_preferred? (Path.parent importer)
      (List.ne_nil_of_mem (mem_fitting.mpr ⟨hne, hm.fits⟩))
    obtain ⟨hid, hpath⟩ := (hbest hpreferred).2.eq hm
    exact ⟨best, hpreferred, by rw [hid, hpath]⟩

/-- A round finds nothing if and only if nothing fits. -/
theorem round?_eq_none_iff :
    round? additions importer segments = none ↔
      segments = [] ∨ ¬ ∃ m, Fits additions importer segments m := by
  rw [round?, only?, Option.map_eq_none_iff]
  constructor
  · intro hnone
    by_cases hne : segments = []
    · exact .inl hne
    · refine .inr fun ⟨m, hm⟩ => ?_
      obtain ⟨best, -, hpreferred, -⟩ := Module.exists_preferred? (Path.parent importer)
        (List.ne_nil_of_mem (mem_fitting.mpr ⟨hne, hm⟩))
      cases hnone.symm.trans hpreferred
  · intro h
    by_contra hsome
    obtain ⟨m, hm⟩ := Option.ne_none_iff_exists'.mp hsome
    obtain ⟨hne, hm⟩ := mem_fitting.mp (Module.mem_of_preferred? hm)
    exact h.resolve_left hne ⟨m, hm⟩

/-- **The order in which paths are added does not matter,** nor does adding them twice. -/
theorem answer?_congr {as bs : List Addition} (h : ∀ a, a ∈ as ↔ a ∈ bs) :
    answer? as importer segments = answer? bs importer segments := by
  have hfits : ∀ segments m, Fits as importer segments m ↔ Fits bs importer segments m := by
    intro segments m
    have hadded : (∃ a ∈ as, m ∈ a.modules) ↔ ∃ a ∈ bs, m ∈ a.modules :=
      exists_congr fun a => and_congr_left fun _ => h a
    exact ⟨fun hm => ⟨hadded.mp hm.added, hm.other, hm.ends⟩,
      fun hm => ⟨hadded.mpr hm.added, hm.other, hm.ends⟩⟩
  have hbest : ∀ segments m, Best as importer segments m ↔ Best bs importer segments m := by
    intro segments m
    exact ⟨fun hm => ⟨(hfits _ _).mp hm.fits, fun m' hm' => hm.precedes m' ((hfits _ _).mpr hm')⟩,
      fun hm => ⟨(hfits _ _).mpr hm.fits, fun m' hm' => hm.precedes m' ((hfits _ _).mp hm')⟩⟩
  have hround : ∀ segments, round? as importer segments = round? bs importer segments := by
    intro segments
    refine Option.ext fun ⟨id, path⟩ => ?_
    rw [round?_eq_some_iff, round?_eq_some_iff]
    simp only [hbest]
  rw [answer?_eq, answer?_eq, hround, hround]

/-- **The lookup means the best module that fits:** the best with all segments at its end,
    and if there is none, the best with all but the last, of two at least.  For no segments
    it means nothing. -/
theorem answer?_eq_some_iff (additions : List Addition) (importer : String)
    (segments : List String) (id : NodeId) (path : String) :
    answer? additions importer segments = some (id, path) ↔
      segments ≠ [] ∧
        ((∃ m, Best additions importer segments m ∧ m.id = id ∧ m.path = path) ∨
          (¬ ∃ m, Fits additions importer segments m) ∧ 2 ≤ segments.length ∧
            ∃ m, Best additions importer segments.dropLast m ∧ m.id = id ∧ m.path = path) := by
  have hfirst : round? additions importer segments = some (id, path) ↔ _ :=
    round?_eq_some_iff
  rw [answer?_eq]
  -- the second round is only asked if the first means nothing
  cases hround : round? additions importer segments with
  | some r =>
      have hfits : ∃ m, Fits additions importer segments m := by
        obtain ⟨i, p⟩ := r
        obtain ⟨-, m, hm, -⟩ := round?_eq_some_iff.mp hround
        exact ⟨m, hm.fits⟩
      rw [hround] at hfirst
      rw [Option.some_or, hfirst, or_iff_left fun h => h.1 hfits]
  | none =>
      have hnone := round?_eq_none_iff.mp hround
      rw [Option.none_or]
      by_cases hlength : segments.length < 2
      · rw [if_pos hlength]
        refine iff_of_false nofun ?_
        rintro ⟨hne, ⟨m, hm, -⟩ | ⟨-, htwo, -⟩⟩
        · exact hnone.resolve_left hne ⟨m, hm.fits⟩
        · omega
      · rw [if_neg hlength, round?_eq_some_iff]
        have hne : segments ≠ [] := by
          rintro rfl
          exact hlength (by decide)
        have hfront : segments.dropLast ≠ [] := by
          intro hnil
          have hlen := congrArg List.length hnil
          rw [List.length_dropLast, List.length_nil] at hlen
          omega
        constructor
        · rintro ⟨-, hm⟩
          exact ⟨hne, .inr ⟨hnone.resolve_left hne, by omega, hm⟩⟩
        · rintro ⟨-, ⟨m, hm, -⟩ | ⟨-, -, hm⟩⟩
          · exact absurd ⟨m, hm.fits⟩ (hnone.resolve_left hne)
          · exact ⟨hfront, hm⟩

end Lookup

/-- Every module ends with no segments, and yet none is meant by them. -/
theorem nothing_meant_by_nothing :
    Best [.file "a.py"] "b.py" [] ⟨.file "a.py", "a.py", ["a"], true⟩ ∧
      answer? [.file "a.py"] "b.py" [] = none := by
  have hmodules : Addition.modules (.file "a.py") = [⟨.file "a.py", "a.py", ["a"], true⟩] := by
    decide +kernel
  constructor
  · refine ⟨⟨⟨_, List.mem_singleton_self _, ?_⟩, by decide, List.nil_suffix⟩, ?_⟩
    · rw [hmodules]
      exact List.mem_singleton_self _
    · rintro m ⟨⟨a, ha, hm⟩, -, -⟩
      rw [List.mem_singleton.mp ha, hmodules] at hm
      rw [List.mem_singleton.mp hm]
      exact .inr ⟨rfl, .inr ⟨rfl, ReflCmp.isLE_rfl⟩⟩
  · rw [answer?_eq, round?_eq_none_iff.mpr (.inl rfl)]
    rfl

end ModuleIndex

end CodeGraph

import CodeGraph.Proofs.Build.Proposals
/-! # Choice — which of several candidates is meant

    A name may fit many nodes, and resolution goes through them in turn, keeping
    the better one.  What it ends with is the best of all.

    * `rank` is an order, so a choice step by step finds the least candidate
      (`exists_best?`).
    * `pickDefinition?_eq_some_iff` and `localDefinition?_eq_some_iff` say which
      node is meant without going through the candidates.
    * Resolution looks at five things of a node.  Stores whose definitions look
      the same resolve calls alike (`resolveCall_congr`), so a call leads to the
      same edge while a graph is built and when it is finished
      (`Settled.resolveCall`). -/

namespace CodeGraph.Build

open Std

/-! ## The order of preference -/

instance (imported : Imported) (r : Reference) : TransCmp (rank imported r) :=
  inferInstanceAs (TransCmp (compareLex
    (compareLex
      (compareLex (compareOn (tier imported r)) fun a b =>
        compareOn (fun n => (qualifiedMatch n (Callee.dotted r.name)).toNat) b a)
      fun a b => compareOn (fun n => proximity n (Path.parent r.fromFile)) b a)
    (compareOn (·.id))))

/-- Candidates that rank the same have the same identifier. -/
theorem id_eq_of_rank {imported : Imported} {r : Reference} {a b : Node}
    (h : rank imported r a b = .eq) : a.id = b.id := by
  rw [rank, Ordering.then_eq_eq] at h
  exact LawfulEqCmp.eq_of_compare h.2

/-- A better tier decides. -/
theorem rank_lt_of_tier {imported : Imported} {r : Reference} {a b : Node}
    (h : tier imported r a < tier imported r b) : (rank imported r a b).isLE := by
  rw [rank, Nat.compare_eq_lt.mpr h]
  rfl

/-- The best of some nodes ranks before all others. -/
theorem exists_best? (imported : Imported) (r : Reference) {ns : List Node} (h : ns ≠ []) :
    ∃ n ∈ ns, best? imported r ns = some n ∧ ∀ m ∈ ns, (rank imported r n m).isLE := by
  refine exists_least_of_foldl_choice (rank imported r) (fun _ => rfl) ?_ h
  intro b y
  dsimp only
  split
  · rename_i hgt
    exact Or.inr ⟨rfl, by rw [OrientedCmp.lt_of_gt hgt]; rfl⟩
  · rename_i hle
    exact Or.inl ⟨rfl, Ordering.isLE_iff_ne_gt.mpr hle⟩

/-! ## Candidates -/

/-- A node that a reference may mean. -/
structure Candidate (r : Reference) (n : Node) : Prop where
  kind : n.kind = r.kind
  name : n.text? Attribute.name = some (Callee.last r.name)
  other : some n.id ≠ r.exclude

/-- A node that a name may mean inside its own file, by its last word. -/
structure Local (file name : String) (kind : NodeKind) (n : Node) : Prop where
  kind : n.kind = kind
  name : n.text? Attribute.name = some (Callee.last name)
  file : n.filePath? = some file

section Store

variable {s : Store}

theorem mem_findByName (h : s.Sound) {name : String} {n : Node} : n ∈ s.findByName name ↔
    s.nodes[n.id]? = some n ∧ n.text? Attribute.name = some name := by
  rw [h.findByName_eq, List.mem_filter, decide_eq_true_eq, ← h.mem_nodeList_iff]
  simp only [and_true]

theorem mem_candidates (h : s.Sound) {r : Reference} {n : Node} :
    n ∈ candidates s r ↔ s.nodes[n.id]? = some n ∧ Candidate r n := by
  rw [candidates, List.mem_filter, mem_findByName h, Bool.and_eq_true, decide_eq_true_eq,
    decide_eq_true_eq]
  constructor
  · rintro ⟨⟨hn, hname⟩, hkind, hother⟩
    exact ⟨hn, hkind, hname, hother⟩
  · rintro ⟨hn, hkind, hname, hother⟩
    exact ⟨⟨hn, hname⟩, hkind, hother⟩

/-- **A reference means the candidate that ranks before all others.** -/
theorem pickDefinition?_eq_some_iff (h : s.Sound) {imported : Imported} {r : Reference}
    {id : NodeId} : pickDefinition? s imported r = some id ↔
      ∃ n, s.nodes[id]? = some n ∧ Candidate r n ∧ ∀ (i : NodeId) (m : Node),
        s.nodes[i]? = some m → Candidate r m → (rank imported r n m).isLE := by
  have hmem : ∀ {i : NodeId} {m : Node}, s.nodes[i]? = some m → Candidate r m →
      m ∈ candidates s r := by
    intro i m hm hcandidate
    rw [mem_candidates h, h.keyed i m hm]
    exact ⟨hm, hcandidate⟩
  constructor
  · intro hpick
    obtain ⟨n, hbest, rfl⟩ := Option.map_eq_some_iff.mp hpick
    obtain ⟨n', hn', hbest', hleast⟩ :=
      exists_best? imported r (List.ne_nil_of_mem (mem_of_best? hbest))
    cases hbest.symm.trans hbest'
    obtain ⟨hn, hcandidate⟩ := (mem_candidates h).mp hn'
    exact ⟨n, hn, hcandidate, fun i m hm hother => hleast m (hmem hm hother)⟩
  · rintro ⟨n, hn, hcandidate, hleast⟩
    obtain ⟨b, hb, hbest, hall⟩ :=
      exists_best? imported r (List.ne_nil_of_mem (hmem hn hcandidate))
    obtain ⟨hbin, hbcandidate⟩ := (mem_candidates h).mp hb
    -- each of the two ranks before the other
    have heq : rank imported r n b = .eq :=
      OrientedCmp.isLE_antisymm (hleast b.id b hbin hbcandidate) (hall n (hmem hn hcandidate))
    rw [pickDefinition?, hbest, Option.map_some, ← id_eq_of_rank heq, h.keyed id n hn]

/-- Something is meant if there is a candidate. -/
theorem exists_pickDefinition? (h : s.Sound) (imported : Imported) {r : Reference} :
    (∃ id, pickDefinition? s imported r = some id) ↔
      ∃ (id : NodeId) (n : Node), s.nodes[id]? = some n ∧ Candidate r n := by
  constructor
  · rintro ⟨id, hid⟩
    obtain ⟨n, hn, hcandidate, -⟩ := (pickDefinition?_eq_some_iff h).mp hid
    exact ⟨id, n, hn, hcandidate⟩
  · rintro ⟨id, n, hn, hcandidate⟩
    have hmem : n ∈ candidates s r := by
      rw [mem_candidates h, h.keyed id n hn]
      exact ⟨hn, hcandidate⟩
    obtain ⟨b, -, hbest, -⟩ := exists_best? imported r (List.ne_nil_of_mem hmem)
    exact ⟨b.id, by rw [pickDefinition?, hbest, Option.map_some]⟩

/-- In a list of ascending nodes the first with a property is the least. -/
theorem find?_eq_some_iff_of_ascending {ns : List Node} {p : Node → Bool} {n : Node}
    (h : ns.Pairwise fun a b => compare a.id b.id = .lt) : ns.find? p = some n ↔
      n ∈ ns ∧ p n = true ∧ ∀ m ∈ ns, p m = true → (compare n.id m.id).isLE := by
  induction ns with
  | nil => simp
  | cons a ns ih =>
      obtain ⟨ha, hns⟩ := List.pairwise_cons.mp h
      rw [List.find?_cons]
      cases hp : p a with
      | true =>
          rw [Option.some.injEq]
          constructor
          · rintro rfl
            refine ⟨List.mem_cons_self, hp, ?_⟩
            intro m hm _
            rcases List.mem_cons.mp hm with rfl | hm
            · exact ReflCmp.isLE_rfl
            · rw [ha m hm]
              rfl
          · rintro ⟨hn, -, hleast⟩
            rcases List.mem_cons.mp hn with rfl | hn
            · rfl
            · have hle := hleast a List.mem_cons_self hp
              rw [OrientedCmp.gt_of_lt (ha n hn)] at hle
              cases hle
      | false =>
          rw [ih hns]
          -- without the property the head is not what is found
          have hne : ∀ m, p m = true → m ≠ a := by
            rintro m hm rfl
            rw [hp] at hm
            cases hm
          constructor
          · rintro ⟨hn, hpn, hleast⟩
            refine ⟨List.mem_cons_of_mem a hn, hpn, ?_⟩
            intro m hm hpm
            exact hleast m (List.mem_of_ne_of_mem (hne m hpm) hm) hpm
          · rintro ⟨hn, hpn, hleast⟩
            refine ⟨List.mem_of_ne_of_mem (hne n hpn) hn, hpn, ?_⟩
            intro m hm
            exact hleast m (List.mem_cons_of_mem a hm)

/-- **A name means the definition with its identifier,** or else the first one in the
    file with its last word as name. -/
theorem localDefinition?_eq_some_iff (h : s.Sound) {file name : String} {kind : NodeKind}
    {id : NodeId} : localDefinition? s file name kind = some id ↔
      definitionId kind file name ∈ s.nodes ∧ id = definitionId kind file name ∨
        definitionId kind file name ∉ s.nodes ∧ ∃ n, s.nodes[id]? = some n ∧
          Local file name kind n ∧ ∀ (i : NodeId) (m : Node), s.nodes[i]? = some m →
            Local file name kind m → (compare id i).isLE := by
  rw [localDefinition?]
  split
  · rename_i hin
    have hmem : definitionId kind file name ∈ s.nodes := ExtTreeMap.mem_iff_contains.mpr hin
    rw [Option.some.injEq]
    constructor
    · intro hid
      exact Or.inl ⟨hmem, hid.symm⟩
    · rintro (⟨-, hid⟩ | ⟨hout, -⟩)
      · exact hid.symm
      · exact absurd hmem hout
  · rename_i hout
    have hmem : definitionId kind file name ∉ s.nodes :=
      fun hin => hout (ExtTreeMap.mem_iff_contains.mp hin)
    have hlocal : ∀ m : Node, m ∈ s.findByName (Callee.last name) ∧
        (decide (m.kind = kind) && decide (m.filePath? = some file)) = true ↔
          s.nodes[m.id]? = some m ∧ Local file name kind m := by
      intro m
      rw [mem_findByName h, Bool.and_eq_true, decide_eq_true_eq, decide_eq_true_eq]
      constructor
      · rintro ⟨⟨hm, hname⟩, hkind, hfile⟩
        exact ⟨hm, hkind, hname, hfile⟩
      · rintro ⟨hm, hkind, hname, hfile⟩
        exact ⟨⟨hm, hname⟩, hkind, hfile⟩
    -- nodes are found in the order of their identifiers, so the first is the least
    have hascends : (s.findByName (Callee.last name)).Pairwise
        fun a b => compare a.id b.id = .lt := by
      rw [h.findByName_eq]
      exact h.pairwise_nodeList.filter _
    rw [Option.map_eq_some_iff]
    constructor
    · rintro ⟨n, hfound, rfl⟩
      obtain ⟨hn, hp, hleast⟩ := (find?_eq_some_iff_of_ascending hascends).mp hfound
      obtain ⟨hin, hn⟩ := (hlocal n).mp ⟨hn, hp⟩
      refine Or.inr ⟨hmem, n, hin, hn, ?_⟩
      intro i m hm hother
      have hkey := h.keyed i m hm
      rw [← hkey] at hm
      obtain ⟨hmfound, hmp⟩ := (hlocal m).mpr ⟨hm, hother⟩
      rw [← hkey]
      exact hleast m hmfound hmp
    · rintro (⟨hin, -⟩ | ⟨-, n, hn, hlocaln, hleast⟩)
      · exact absurd hin hmem
      · have hkey := h.keyed id n hn
        rw [← hkey] at hn
        obtain ⟨hfound, hp⟩ := (hlocal n).mpr ⟨hn, hlocaln⟩
        refine ⟨n, (find?_eq_some_iff_of_ascending hascends).mpr ⟨hfound, hp, ?_⟩, hkey⟩
        intro m hm hmp
        obtain ⟨hmin, hmlocal⟩ := (hlocal m).mp ⟨hm, hmp⟩
        rw [hkey]
        exact hleast m.id m hmin hmlocal

end Store

/-! ## What resolution looks at -/

/-- Nodes that look the same to a reference. -/
structure LooksLike (n n' : Node) : Prop where
  id : n'.id = n.id
  kind : n'.kind = n.kind
  name : n'.text? Attribute.name = n.text? Attribute.name
  filePath : n'.filePath? = n.filePath?
  qualifiedName : n'.text? Attribute.qualifiedName = n.text? Attribute.qualifiedName

namespace LooksLike

variable {n n' m m' : Node}

theorem symm (h : LooksLike n n') : LooksLike n' n :=
  ⟨h.id.symm, h.kind.symm, h.name.symm, h.filePath.symm, h.qualifiedName.symm⟩

theorem candidate (h : LooksLike n n') {r : Reference} (hn : Candidate r n) :
    Candidate r n' :=
  ⟨h.kind.trans hn.kind, h.name.trans hn.name, by rw [h.id]; exact hn.other⟩

theorem isLocal (h : LooksLike n n') {file name : String} {kind : NodeKind}
    (hn : Local file name kind n) : Local file name kind n' :=
  ⟨h.kind.trans hn.kind, h.name.trans hn.name, h.filePath.trans hn.file⟩

theorem tier_eq (h : LooksLike n n') (imported : Imported) (r : Reference) :
    tier imported r n' = tier imported r n := by
  rw [tier, tier, h.filePath]

/-- What looks the same ranks the same. -/
theorem rank_eq (h : LooksLike n n') (hm : LooksLike m m') (imported : Imported)
    (r : Reference) : rank imported r n' m' = rank imported r n m := by
  have hqualified : ∀ {a a' : Node}, LooksLike a a' → ∀ dotted,
      qualifiedMatch a' dotted = qualifiedMatch a dotted := by
    intro a a' ha dotted
    rw [qualifiedMatch, qualifiedMatch, ha.qualifiedName]
  have hproximity : ∀ {a a' : Node}, LooksLike a a' → ∀ directory,
      proximity a' directory = proximity a directory := by
    intro a a' ha directory
    rw [proximity, proximity, ha.filePath]
  rw [rank, rank, h.tier_eq, hm.tier_eq, hqualified h, hqualified hm, hproximity h,
    hproximity hm, h.id, hm.id]

/-- A definition looks the same if it has the same texts. -/
theorem of_text? (hid : n'.id = n.id) (hkind : n'.kind = n.kind) (hdef : n.kind.isDefinition = true)
    (htext : ∀ key ∈ [Attribute.name, Attribute.definingFile, Attribute.qualifiedName],
      n'.text? key = n.text? key) : LooksLike n n' := by
  refine ⟨hid, hkind, htext _ (by decide), ?_, htext _ (by decide)⟩
  rw [Node.filePath?, Node.filePath?, hkind]
  cases hk : n.kind with
  | function | «class» => exact htext _ (by decide)
  | directory | dependency => rfl
  | file =>
      rw [hk] at hdef
      cases hdef

end LooksLike

/-- Every definition of a store is in another one and looks the same there. -/
def Shows (s s' : Store) : Prop :=
  ∀ (id : NodeId) (n : Node), s.nodes[id]? = some n → n.kind.isDefinition = true →
    ∃ n', s'.nodes[id]? = some n' ∧ LooksLike n n'

section Same

variable {s s' : Store} (h : Labelled s) (h' : Labelled s') (hshows : Shows s s')
  (hshows' : Shows s' s)

include h h' hshows hshows'

theorem localDefinition?_of_shows {file name : String} {kind : NodeKind}
    (hkind : kind.isDefinition = true) {id : NodeId}
    (hid : localDefinition? s file name kind = some id) :
    localDefinition? s' file name kind = some id := by
  have hmem : ∀ {t t' : Store}, Labelled t → Shows t t' → definitionId kind file name ∈ t.nodes →
      definitionId kind file name ∈ t'.nodes := by
    intro t t' ht hshows hin
    obtain ⟨n, hn, hnkind⟩ := (ht.hasKind_iff (tag_definitionId hkind file name)).mpr hin
    obtain ⟨n', hn', -⟩ := hshows _ n hn (by rw [hnkind]; exact hkind)
    exact (ExtTreeMap.getElem?_eq_some_iff.mp hn').1
  rw [localDefinition?_eq_some_iff h.sound] at hid
  rw [localDefinition?_eq_some_iff h'.sound]
  rcases hid with ⟨hin, rfl⟩ | ⟨hout, n, hn, hlocal, hleast⟩
  · exact Or.inl ⟨hmem h hshows hin, rfl⟩
  · refine Or.inr ⟨fun hin => hout (hmem h' hshows' hin), ?_⟩
    obtain ⟨n', hn', hlooks⟩ := hshows id n hn (by rw [hlocal.kind]; exact hkind)
    refine ⟨n', hn', hlooks.isLocal hlocal, ?_⟩
    intro i m' hm' hlocal'
    obtain ⟨m, hm, hlooks'⟩ := hshows' i m' hm' (by rw [hlocal'.kind]; exact hkind)
    exact hleast i m hm (hlooks'.isLocal hlocal')

theorem pickDefinition?_of_shows {imported : Imported} {r : Reference}
    (hkind : r.kind.isDefinition = true) {id : NodeId}
    (hid : pickDefinition? s imported r = some id) :
    pickDefinition? s' imported r = some id := by
  rw [pickDefinition?_eq_some_iff h.sound] at hid
  rw [pickDefinition?_eq_some_iff h'.sound]
  obtain ⟨n, hn, hcandidate, hleast⟩ := hid
  obtain ⟨n', hn', hlooks⟩ := hshows id n hn (by rw [hcandidate.kind]; exact hkind)
  refine ⟨n', hn', hlooks.candidate hcandidate, ?_⟩
  intro i m' hm' hcandidate'
  obtain ⟨m, hm, hlooks'⟩ := hshows' i m' hm' (by rw [hcandidate'.kind]; exact hkind)
  rw [hlooks.rank_eq hlooks'.symm]
  exact hleast i m hm (hlooks'.candidate hcandidate')

/-- **Stores whose definitions look the same resolve calls alike.** -/
theorem resolveCall_congr (imported : Imported) (c : CallFact) :
    resolveCall s' imported c = resolveCall s imported c := by
  have hcaller : localDefinition? s' c.file c.caller .function =
      localDefinition? s c.file c.caller .function :=
    Option.ext fun id => ⟨localDefinition?_of_shows h' h hshows' hshows rfl,
      localDefinition?_of_shows h h' hshows hshows' rfl⟩
  have hcallee : pickDefinition? s' imported (calleeReference c) =
      pickDefinition? s imported (calleeReference c) :=
    Option.ext fun id => ⟨pickDefinition?_of_shows h' h hshows' hshows rfl,
      pickDefinition?_of_shows h h' hshows hshows' rfl⟩
  rw [resolveCall, resolveCall, hcaller, hcallee]

end Same

/-! ## Settled definitions -/

namespace Settled

variable {s s' : Store}

/-- What is settled looks the same. -/
theorem shows (h : Settled s s') (hs : s.Sound) (hs' : s'.Sound) : Shows s s' := by
  intro id n hn hdef
  obtain ⟨n', hn', hkind, hattributes⟩ := h.kept id n hn
  refine ⟨n', hn', .of_text? ?_ hkind hdef ?_⟩
  · rw [hs.keyed id n hn, hs'.keyed id n' hn']
  · intro key hkey
    have hunmarked : ∀ key ∈ [Attribute.name, Attribute.definingFile, Attribute.qualifiedName],
        key ∉ marks := by decide
    rw [Node.text?, Node.text?, hattributes key (hunmarked key hkey)]

/-- Nodes other than packages were there before. -/
theorem hasKind_iff (h : Settled s s') (hs' : Labelled s') {id : NodeId} {kind : NodeKind}
    (hkind : kind ≠ .dependency) : HasKind s' id kind ↔ HasKind s id kind := by
  constructor
  · rintro ⟨n', hn', rfl⟩
    rcases h.added id n' hn' with hin | ⟨package, rfl⟩
    · obtain ⟨m, hm, hmkind, -⟩ := h.kept id _ (ExtTreeMap.getElem?_eq_some_getElem hin)
      cases hn'.symm.trans hm
      exact ⟨_, ExtTreeMap.getElem?_eq_some_getElem hin, hmkind.symm⟩
    · have htag := hs'.tag_of_getElem? hn'
      rw [tag_dependency] at htag
      exact absurd (NodeKind.tag_injective htag).symm hkind
  · rintro ⟨n, hn, rfl⟩
    obtain ⟨n', hn', hnkind, -⟩ := h.kept id n hn
    exact ⟨n', hn', hnkind⟩

/-- **Calls are resolved in a settled store as before.** -/
theorem resolveCall (h : Settled s s') (hs : Labelled s) (hs' : Labelled s')
    (imported : Imported) (c : CallFact) :
    resolveCall s' imported c = resolveCall s imported c := by
  have hshows := h.shows hs.sound hs'.sound
  refine resolveCall_congr hs hs' hshows ?_ imported c
  intro id n' hn' hdef
  have hkind : n'.kind ≠ .dependency := by
    intro heq
    rw [heq] at hdef
    cases hdef
  obtain ⟨n, hn, hnkind⟩ := (h.hasKind_iff hs' hkind).mp ⟨n', hn', rfl⟩
  obtain ⟨m, hm, hlooks⟩ := hshows id n hn (by rw [hnkind]; exact hdef)
  cases hn'.symm.trans hm
  exact ⟨n, hn, hlooks.symm⟩

end Settled

end CodeGraph.Build

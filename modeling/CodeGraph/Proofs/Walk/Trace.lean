import CodeGraph.Proofs.Walk.DepthFirst
/-! # Traces — the edge through which each node was found

    A link names the edge through which a node was found.  What is recorded of
    a node is either that it is a seed, or a link that leads to it from a node
    that is recorded nearer to the seeds.

    * `mem_steps` and `steps_ascend` say which edges a walk looks at from a node,
      and in which order.
    * `Trail.TracedAt` outlives whatever makes no distance larger.
    * Depth first, an entry carries its link while it waits on the stack.  The
      distance of the node it was pushed from may be repaired meanwhile, but
      only to a smaller one (`le_of_recorded`). -/

namespace CodeGraph.Walk

variable {s : Store} {config : Config} {ids : List NodeId}

/-! ## Edges and links -/

/-- The filters of a walk let it take an edge from one node to another. -/
def Config.Takes (config : Config) (e : Edge) (u v : NodeId) : Prop :=
  Store.admits config.relationships e.relationship = true ∧
    (config.direction.leaves = true ∧ e.source = u ∧ e.target = v ∨
      config.direction.enters = true ∧ e.target = u ∧ e.source = v)

/-- A link names an edge of the store, which the walk may take from the source of the link
    to a node. -/
def Via.LeadsTo (s : Store) (config : Config) (via : Via) (v : NodeId) : Prop :=
  ∃ e, s.edges[via.edgeIndex]? = some e ∧ e.relationship = via.relationship ∧
    config.Takes e via.source v

/-- The steps from a node are the edges that the walk may take from it. -/
theorem mem_steps (hs : s.Sound) {u : NodeId} {a : Adjacent} :
    a ∈ steps s config u ↔ (viaOf u a).LeadsTo s config a.neighbor := by
  rw [steps, hs.mem_adjacent]
  refine exists_congr fun e => and_congr_right fun _ => ?_
  rw [← and_assoc, and_comm (a := Store.admits _ _ = true), and_assoc]
  rfl

/-- The steps from a node come in the order of their neighbours, and those to one neighbour
    in the order of the edges. -/
theorem steps_ascend (s : Store) (config : Config) (u : NodeId) :
    (steps s config u).Pairwise fun a b =>
      ((compare a.neighbor b.neighbor).then (compare a.edgeIndex b.edgeIndex)).isLE :=
  Sorting.pairwise_mergeSort
    (compareLex (compareOn Adjacent.neighbor) (compareOn Adjacent.edgeIndex)) _

/-- A link joins its source with the node that it leads to. -/
theorem Via.LeadsTo.joined {via : Via} {v : NodeId} (h : via.LeadsTo s config v) :
    s.Joined config.relationships config.direction via.source v := by
  obtain ⟨e, he, -, htakes⟩ := h
  exact ⟨e, Array.mem_of_getElem? he, htakes⟩

/-! ## Traced records -/

/-- A record is that of a seed, or it names a link from a node that is recorded nearer. -/
def Trail.TracedAt (s : Store) (config : Config) (ids : List NodeId) (t : Trail)
    (v : NodeId) (r : Record) : Prop :=
  (r = ⟨0, none⟩ ∧ v ∈ ids ∧ v ∈ s.nodes) ∨ ∃ via d, r.via = some via ∧
    via.LeadsTo s config v ∧ t.distance? via.source = some d ∧ d < r.distance

/-- Every record is traced. -/
def Trail.Traced (s : Store) (config : Config) (ids : List NodeId) (t : Trail) : Prop :=
  ∀ v r, t.records[v]? = some r → t.TracedAt s config ids v r

/-- A trace outlives changes that make no distance larger. -/
theorem Trail.TracedAt.mono {t t' : Trail} {v : NodeId} {r : Record}
    (h : t.TracedAt s config ids v r)
    (hle : ∀ u d, t.distance? u = some d → ∃ d' ≤ d, t'.distance? u = some d') :
    t'.TracedAt s config ids v r := by
  rcases h with hseed | ⟨via, d, hvia, hleads, hd, hlt⟩
  · exact Or.inl hseed
  · obtain ⟨d', hd', hu⟩ := hle via.source d hd
    exact Or.inr ⟨via, d', hvia, hleads, hu, Nat.lt_of_le_of_lt hd' hlt⟩

/-! ## Depth first -/

namespace DepthFirst

/-- What a state records and what waits on its stack is traced. -/
structure Traced (s : Store) (config : Config) (ids : List NodeId) (st : State) : Prop where
  trail : st.trail.Traced s config ids
  entry : ∀ e ∈ st.stack, st.trail.TracedAt s config ids e.node e.record

theorem traced_start (s : Store) (config : Config) (ids : List NodeId) :
    Traced s config ids (start s ids) where
  trail := by
    intro v r hr
    simp [start] at hr
  entry := by
    intro e he
    obtain ⟨v, hv, rfl⟩ := List.mem_map.mp he
    exact Or.inl ⟨rfl, mem_seeds.mp hv⟩

/-- A record is only replaced by a nearer one. -/
theorem le_of_recorded {t t' : Trail} {e : Entry}
    (hset : settled t e.node e.record.distance = false)
    (hrec : t'.records = t.records.insert e.node e.record) :
    ∀ u d, t.distance? u = some d → ∃ d' ≤ d, t'.distance? u = some d' := by
  intro u d hu
  rw [Trail.distance?_of_insert hrec]
  by_cases he : e.node = u
  · refine ⟨e.record.distance, ?_, if_pos he⟩
    by_contra hlt
    -- a smaller record would have settled the entry
    have hsettled := settled_iff.mpr ⟨d, Nat.le_of_lt (Nat.lt_of_not_le hlt), he ▸ hu⟩
    rw [hset] at hsettled
    cases hsettled
  · exact ⟨d, Nat.le_refl d, by rw [if_neg he, hu]⟩

theorem Traced.more (hs : s.Sound) {st st' : State} (h : Traced s config ids st)
    (hmore : turn s config st = .more st') : Traced s config ids st' := by
  rcases turn_cases s config st with
    ⟨-, hturn⟩ | ⟨e, rest, hstack, ⟨-, hturn⟩ | ⟨t, -, ⟨-, -, -, hturn⟩ | ⟨hset, hrec, hturn⟩⟩⟩
  · cases hturn.symm.trans hmore
  · cases hturn.symm.trans hmore
    refine ⟨h.trail, ?_⟩
    intro e' he'
    exact h.entry e' (hstack ▸ List.mem_cons_of_mem e he')
  · cases hturn.symm.trans hmore
  · cases hturn.symm.trans hmore
    have hle := le_of_recorded hset hrec
    have hwait : ∀ e' ∈ st.stack, t.TracedAt s config ids e'.node e'.record :=
      fun e' he' => (h.entry e' he').mono hle
    refine ⟨?_, ?_⟩
    · rw [trail_expand]
      intro v r hr
      rw [Trail.getElem?_of_insert hrec] at hr
      split at hr
      · -- the entry was traced while it waited
        rename_i hv
        cases hr
        exact hv ▸ hwait e (hstack ▸ List.mem_cons_self)
      · exact (h.trail v r hr).mono hle
    · rw [trail_expand]
      intro e' he'
      unfold expand at he'
      split at he'
      · exact hwait e' (hstack ▸ List.mem_cons_of_mem e he')
      · rcases List.mem_append.mp he' with he' | he'
        · -- a pushed entry is traced by the node that was expanded
          obtain ⟨a, ha, -, rfl⟩ := mem_pushes.mp he'
          refine Or.inr ⟨viaOf e.node a, e.record.distance, rfl, (mem_steps hs).mp ha, ?_,
            Nat.lt_succ_self _⟩
          rw [viaOf, Trail.distance?_of_insert hrec, if_pos rfl]
        · exact hwait e' (hstack ▸ List.mem_cons_of_mem e he')

/-- **What a walk records is traced,** also when it was stopped. -/
theorem traced_run (hs : s.Sound) (config : Config) (ids : List NodeId) :
    (depthFirstState s ids config).trail.Traced s config ids := by
  obtain ⟨last, hlast, hhalt⟩ := run_induction (fun _ _ h hmore => h.more hs hmore)
    (start s ids) (traced_start s config ids)
  have hsame := distance?_of_halt hhalt
  intro v r hr
  rw [depthFirstState, ← start, records_of_halt hhalt] at hr
  refine (hlast.trail v r hr).mono fun u d hu => ⟨d, Nat.le_refl d, ?_⟩
  exact (hsame u).trans hu

end DepthFirst

end CodeGraph.Walk

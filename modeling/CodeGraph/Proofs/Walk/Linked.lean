import CodeGraph.Proofs.Walk.Discovery
/-! # Links — how each visit was come upon

    A walk that is stopped keeps what it has found so far.  Its distances need
    not be the shortest, but they still lead back to the seeds: whatever was
    visited away from the seeds is joined with a visited node that is nearer.

    * `Linked` says this of a trail, and `LinkedAt` of one node that may get a
      distance.
    * A trace names the edge through which a node was found; whoever does not ask
      for the edge has a link (`TracedAt.linkedAt`). -/

namespace CodeGraph.Walk

variable {s : Store} {config : Config} {ids : List NodeId}

/-- A node with a distance is a seed, or is joined with a recorded node that is
    nearer. -/
def Trail.LinkedAt (s : Store) (config : Config) (ids : List NodeId) (t : Trail)
    (v : NodeId) (d : Nat) : Prop :=
  d = 0 ∧ v ∈ ids ∧ v ∈ s.nodes ∨ ∃ u d', t.distance? u = some d' ∧ d' < d ∧
    s.Joined config.relationships config.direction u v

/-- Whatever is recorded leads back to the seeds. -/
def Trail.Linked (s : Store) (config : Config) (ids : List NodeId) (t : Trail) : Prop :=
  ∀ v d, t.distance? v = some d → t.LinkedAt s config ids v d

namespace Trail

variable {t : Trail} {v : NodeId} {r : Record}

/-- A trace is a link. -/
theorem TracedAt.linkedAt (h : t.TracedAt s config ids v r) :
    t.LinkedAt s config ids v r.distance := by
  rcases h with ⟨hr, hseed⟩ | ⟨via, d, -, hleads, hd, hlt⟩
  · exact Or.inl ⟨congrArg Record.distance hr, hseed⟩
  · exact Or.inr ⟨via.source, d, hd, hlt, hleads.joined⟩

theorem Traced.linked (h : t.Traced s config ids) : t.Linked s config ids := by
  intro v d hd
  obtain ⟨via, hr⟩ := distance?_eq_some_iff.mp hd
  exact (h v ⟨d, via⟩ hr).linkedAt

/-- What was visited away from the seeds is joined with what was visited nearer to
    them. -/
theorem Linked.of_visit (h : t.Linked s config ids) (hlaw : t.Lawful) {x : Visit}
    (hx : x ∈ t.visits) : x.node ∈ ids ∨ ∃ y ∈ t.visits, y.distance < x.distance ∧
      s.Joined config.relationships config.direction y.node x.node := by
  have hd : t.distance? x.node = some x.distance :=
    hlaw.exists_visit_iff.mp ⟨x, hx, rfl, rfl⟩
  rcases h x.node x.distance hd with ⟨-, hid, -⟩ | ⟨u, d', hu, hlt, hj⟩
  · exact Or.inl hid
  · obtain ⟨y, hy, rfl, rfl⟩ := hlaw.exists_visit_iff.mpr hu
    exact Or.inr ⟨y, hy, hlt, hj⟩

end Trail

/-- **What a walk records leads back to its seeds,** also when it was stopped. -/
theorem BreadthFirst.linked_run (hs : s.Sound) (config : Config) (ids : List NodeId) :
    (breadthFirstState s ids config).trail.Linked s config ids :=
  (traced_run hs config ids).linked

theorem BreadthFirst.linked_of_visit (hs : s.Sound) {x : Visit}
    (hx : x ∈ (breadthFirst s ids config).visits) :
    x.node ∈ ids ∨ ∃ y ∈ (breadthFirst s ids config).visits, y.distance < x.distance ∧
      s.Joined config.relationships config.direction y.node x.node :=
  (linked_run hs config ids).of_visit (grounded_run hs config ids).lawful hx

/-- **What a walk records leads back to its seeds,** also when it was stopped. -/
theorem DepthFirst.linked_run (hs : s.Sound) (config : Config) (ids : List NodeId) :
    (depthFirstState s ids config).trail.Linked s config ids :=
  (traced_run hs config ids).linked

theorem DepthFirst.linked_of_visit (hs : s.Sound) {x : Visit}
    (hx : x ∈ (depthFirst s ids config).visits) :
    x.node ∈ ids ∨ ∃ y ∈ (depthFirst s ids config).visits, y.distance < x.distance ∧
      s.Joined config.relationships config.direction y.node x.node :=
  (linked_run hs config ids).of_visit (grounded_run hs config ids).lawful hx

end CodeGraph.Walk

import CodeGraph.Graph.Store
/-! # Chains — nodes that edges lead from and to

    A chain of edges is given by its first edge and the chain behind it.  It can
    also be extended, and taken apart, at its other end. -/

namespace CodeGraph

/-- So many edges of some relationships lead from one node to another. -/
inductive Store.Leads (s : Store) (relationships : List Relationship) :
    Nat → NodeId → NodeId → Prop
  | here (u : NodeId) : Leads s relationships 0 u u
  | step {n : Nat} {e : Edge} {w : NodeId} : e ∈ s.edges → e.relationship ∈ relationships →
      Leads s relationships n e.target w → Leads s relationships (n + 1) e.source w

namespace Store.Leads

variable {s : Store} {relationships : List Relationship} {n : Nat} {u v : NodeId}

theorem eq_of_zero (h : s.Leads relationships 0 u v) : u = v := by
  cases h
  rfl

/-- A chain of edges has a first edge. -/
theorem exists_first (h : s.Leads relationships (n + 1) u v) :
    ∃ e ∈ s.edges, e.relationship ∈ relationships ∧ e.source = u ∧
      s.Leads relationships n e.target v := by
  cases h with
  | step he hrel hrest => exact ⟨_, he, hrel, rfl, hrest⟩

/-- A chain of edges goes on by an edge that leaves its end. -/
theorem snoc {e : Edge} (he : e ∈ s.edges) (hrel : e.relationship ∈ relationships)
    (h : s.Leads relationships n u e.source) :
    s.Leads relationships (n + 1) u e.target := by
  generalize hend : e.source = v at h
  induction h with
  | here u =>
      subst hend
      exact .step he hrel (.here e.target)
  | step he' hrel' _ ih => exact .step he' hrel' (ih hend)

/-- A chain of edges has a last edge. -/
theorem exists_last (h : s.Leads relationships (n + 1) u v) :
    ∃ e ∈ s.edges, e.relationship ∈ relationships ∧ e.target = v ∧
      s.Leads relationships n u e.source := by
  generalize hlength : n + 1 = m at h
  induction h generalizing n with
  | here u => cases hlength
  | @step m e w he hrel hrest ih =>
      cases hlength
      cases m with
      | zero => exact ⟨e, he, hrel, hrest.eq_of_zero, .here e.source⟩
      | succ m =>
          obtain ⟨e', he', hrel', htarget, hchain⟩ := ih rfl
          exact ⟨e', he', hrel', htarget, .step he hrel hchain⟩

end Store.Leads

end CodeGraph

import CodeGraph.Proofs.Graph.Scan
import CodeGraph.Proofs.Walk.Agreement
import Mathlib.Algebra.Order.BigOperators.Group.List
import Mathlib.Algebra.Order.Group.Nat
/-! # Effort — how much work a depth-first walk does

    A depth-first walk expands a node again whenever a shorter way to it turns up, and what it
    pushed in vain waits on the stack until it is dropped.  How much that can amount to is
    counted along the states in which the walk takes its turns, its history.

    * Whenever a node is expanded, its recorded distance becomes smaller
      (`lt_of_mem_expansions`).  It lies within the depth limit, so there are only so many
      expansions of one node (`countP_expansions_le`).
    * Whatever is taken off the stack was a seed, or it was pushed when a node was expanded
      (`length_popped_le`).  An expansion pushes at most one entry for each edge at the node,
      since a loop leads to where the walk is already (`length_pushes_le`).
    * So the walk halts within a number of turns that is known beforehand
      (`stateWithin_workload`).
    * The only sums are those of a distance below the limit and one, so they fit every word
      that holds the limit (`turnInWords?_eq`). -/

namespace CodeGraph.Walk

open Std

variable {s : Store} {config : Config} {ids : List NodeId}

/-! ## Edges at a node -/

/-- Whether the filters of a walk let it take an edge from a node. -/
def Config.takesFrom (config : Config) (u : NodeId) (e : Edge) : Bool :=
  Store.admits config.relationships e.relationship &&
    (config.direction.leaves && e.source = u || config.direction.enters && e.target = u)

/-- The number of edges that a walk may take from a node. -/
def degree (s : Store) (config : Config) (u : NodeId) : Nat :=
  s.edges.toList.countP (config.takesFrom u)

/-- **Every step to another node takes an edge of its own.** -/
theorem countP_steps_le (hs : s.Sound) (config : Config) (u : NodeId) :
    (steps s config u).countP (fun a => a.neighbor ≠ u) ≤ degree s config u := by
  have hedge : ∀ x : Edge × Nat,
      ((Store.sighting Edge.source Edge.target config.direction.leaves config.relationships u
          x).toList ++
        (Store.sighting Edge.target Edge.source config.direction.enters config.relationships u
          x).toList).countP (fun a => a.neighbor ≠ u) ≤
        if config.takesFrom u x.1 then 1 else 0 := by
    rintro ⟨e, i⟩
    simp only [Store.sighting, Config.takesFrom]
    grind
  have hscan : ∀ xs : List (Edge × Nat),
      (xs.flatMap fun x =>
        (Store.sighting Edge.source Edge.target config.direction.leaves config.relationships u
          x).toList ++
        (Store.sighting Edge.target Edge.source config.direction.enters config.relationships u
          x).toList).countP (fun a => a.neighbor ≠ u) ≤
        (xs.map Prod.fst).countP (config.takesFrom u) := by
    intro xs
    induction xs with
    | nil => exact Nat.le_refl 0
    | cons x xs ih =>
        rw [List.flatMap_cons, List.countP_append, List.map_cons, List.countP_cons, Nat.add_comm]
        exact Nat.add_le_add ih (hedge x)
  have hall := hscan s.edges.toList.zipIdx
  rw [List.zipIdx_map_fst] at hall
  rw [steps, (hs.adjacent_perm u).countP_eq]
  exact hall

/-- What is weighed by its key weighs as much as it does key by key. -/
theorem sum_map_eq_sum_countP {α κ : Type} [DecidableEq κ] {keys : List κ}
    (hnodup : keys.Nodup) (f : α → κ) (w : κ → Nat) {l : List α} (hall : ∀ a ∈ l, f a ∈ keys) :
    (l.map fun a => w (f a)).sum =
      (keys.map fun k => l.countP (fun a => f a = k) * w k).sum := by
  induction l with
  | nil => simp
  | cons a l ih =>
      have hone : (keys.map fun k => (if f a = k then 1 else 0) * w k).sum = w (f a) := by
        have hother : ∀ k, k ≠ f a → k ∈ keys → (if f a = k then 1 else 0) * w k = 0 := by
          intro k hk _
          rw [if_neg hk.symm, Nat.zero_mul]
        rw [List.sum_map_eq_nsmul_single (f a) _ hother, if_pos rfl, Nat.one_mul,
          List.count_eq_one_of_mem hnodup (hall a List.mem_cons_self)]
        exact Nat.one_mul _
      simp only [List.map_cons, List.sum_cons, List.countP_cons, decide_eq_true_eq, Nat.add_mul,
        List.sum_map_add, hone, ih fun b hb => hall b (List.mem_cons_of_mem a hb)]
      exact Nat.add_comm _ _

/-! ## Histories -/

/-- The states in which a process takes its turns, as far as so many turns go. -/
def history {State : Type} (turn : State → Turn State) : Nat → State → List State
  | 0, _ => []
  | n + 1, st =>
      match turn st with
      | .halt _ => [st]
      | .more st' => st :: history turn n st'

section

variable {State : Type} {turn : State → Turn State} {n : Nat} {st : State}

theorem history_of_halt {st' : State} (h : turn st = .halt st') :
    history turn (n + 1) st = [st] := by
  rw [history, h]

theorem history_of_more {st' : State} (h : turn st = .more st') :
    history turn (n + 1) st = st :: history turn n st' := by
  rw [history, h]

/-- What every turn keeps holds all along a history. -/
theorem forall_mem_history {P : State → Prop}
    (hmore : ∀ st st', P st → turn st = .more st' → P st') (h : P st) :
    ∀ st' ∈ history turn n st, P st' := by
  induction n generalizing st with
  | zero =>
      intro st' hst'
      cases hst'
  | succ n ih =>
      intro st' hst'
      cases hturn : turn st with
      | halt last =>
          rw [history_of_halt hturn] at hst'
          exact List.mem_singleton.mp hst' ▸ h
      | more next =>
          rw [history_of_more hturn] at hst'
          rcases List.mem_cons.mp hst' with rfl | hst'
          · exact h
          · exact ih (hmore st next h hturn) st' hst'

end

namespace DepthFirst

/-- The entry that a turn takes off the stack to expand its node. -/
def expanded? (config : Config) (st : State) : Option Entry :=
  st.stack.head?.filter fun e =>
    !settled st.trail e.node e.record.distance &&
      !(st.trail.record config e.node e.record).stopped

/-- The entries taken off the stack. -/
def popped (run : List State) : List Entry := run.filterMap fun st => st.stack.head?

/-- The entries whose nodes were expanded. -/
def expansions (config : Config) (run : List State) : List Entry :=
  run.filterMap (expanded? config)

theorem mem_expansions {run : List State} {e : Entry} :
    e ∈ expansions config run ↔ ∃ st ∈ run, expanded? config st = some e :=
  List.mem_filterMap

/-- A turn expands no node, and then it halts or drops an entry, or it expands one. -/
theorem expanded?_cases (s : Store) (config : Config) (st : State) :
    (expanded? config st = none ∧
        ((∃ st', turn s config st = .halt st') ∨
          ∃ e rest, st.stack = e :: rest ∧ turn s config st = .more { st with stack := rest })) ∨
      ∃ e rest t, st.stack = e :: rest ∧ expanded? config st = some e ∧
        settled st.trail e.node e.record.distance = false ∧
        t.records = st.trail.records.insert e.node e.record ∧
        turn s config st = .more (expand s config e rest t st.beyond) := by
  cases hstack : st.stack with
  | nil => exact Or.inl ⟨by rw [expanded?, hstack]; rfl, Or.inl ⟨st, by rw [turn, hstack]⟩⟩
  | cons e rest =>
      cases hset : settled st.trail e.node e.record.distance with
      | true =>
          refine Or.inl ⟨by simp [expanded?, hstack, hset], Or.inr ⟨e, rest, rfl, ?_⟩⟩
          rw [turn, hstack]
          exact if_pos hset
      | false =>
          have hturn : turn s config st =
              if (st.trail.record config e.node e.record).stopped then
                .halt ⟨rest, st.trail.record config e.node e.record, st.beyond⟩
              else .more (expand s config e rest (st.trail.record config e.node e.record)
                st.beyond) := by
            rw [turn, hstack]
            exact if_neg (Bool.eq_false_iff.mp hset)
          rcases st.trail.record_cases config e.node e.record with
            ⟨hstop, -, -⟩ | ⟨hgo, hrec, -⟩
          · rw [if_pos hstop] at hturn
            exact Or.inl ⟨by simp [expanded?, hstack, hstop], Or.inl ⟨_, hturn⟩⟩
          · rw [if_neg (Bool.eq_false_iff.mp hgo)] at hturn
            exact Or.inr ⟨e, rest, _, rfl, by simp [expanded?, hstack, hset, hgo], hset, hrec,
              hturn⟩

/-! ## Expansions -/

/-- A recorded distance never grows. -/
theorem exists_distance?_le {st st' : State} (hmore : turn s config st = .more st')
    {v : NodeId} {d : Nat} (hd : st.trail.distance? v = some d) :
    ∃ d' ≤ d, st'.trail.distance? v = some d' := by
  rcases expanded?_cases s config st with
    ⟨-, ⟨_, hturn⟩ | ⟨e, rest, -, hturn⟩⟩ | ⟨e, rest, t, -, -, hset, hrec, hturn⟩
  · cases hturn.symm.trans hmore
  · cases hturn.symm.trans hmore
    exact ⟨d, Nat.le_refl d, hd⟩
  · cases hturn.symm.trans hmore
    rw [trail_expand, Trail.distance?_of_insert hrec]
    by_cases hv : e.node = v
    · -- the entry is not settled, so the old distance was larger
      have hlt : ¬ d ≤ e.record.distance := by
        intro hle
        rw [settled_iff.mpr ⟨d, hle, hv ▸ hd⟩] at hset
        cases hset
      exact ⟨e.record.distance, by omega, if_pos hv⟩
    · exact ⟨d, Nat.le_refl d, by rw [if_neg hv, hd]⟩

/-- What was recorded for a node that is expanded is larger than what its entry says. -/
theorem lt_of_expanded {st : State} {e : Entry} (he : expanded? config st = some e) {d : Nat}
    (hd : st.trail.distance? e.node = some d) : e.record.distance < d := by
  have hset := (Option.filter_eq_some_iff.mp he).2
  rw [Bool.and_eq_true, Bool.not_eq_true'] at hset
  by_contra hle
  rw [settled_iff.mpr ⟨d, Nat.le_of_not_lt hle, hd⟩] at hset
  cases hset.1

/-- A node that is expanded gets the distance that its entry says. -/
theorem distance?_of_expanded (s : Store) {st : State} {e : Entry}
    (he : expanded? config st = some e) :
    ∃ st', turn s config st = .more st' ∧
      st'.trail.distance? e.node = some e.record.distance := by
  rcases expanded?_cases s config st with
    ⟨hnone, -⟩ | ⟨e', rest, t, -, he', -, hrec, hturn⟩
  · cases hnone.symm.trans he
  · cases he'.symm.trans he
    refine ⟨_, hturn, ?_⟩
    rw [trail_expand, Trail.distance?_of_insert hrec, if_pos rfl]

/-- Once a distance is recorded for a node, it is expanded at smaller ones only. -/
theorem lt_of_mem_expansions {n : Nat} {st : State} {e : Entry} {d : Nat}
    (hd : st.trail.distance? e.node = some d)
    (he : e ∈ expansions config (history (turn s config) n st)) : e.record.distance < d := by
  induction n generalizing st d with
  | zero => cases he
  | succ n ih =>
      obtain ⟨st', hst', hexpanded⟩ := mem_expansions.mp he
      cases hturn : turn s config st with
      | halt last =>
          rw [history_of_halt hturn] at hst'
          cases List.mem_singleton.mp hst'
          exact lt_of_expanded hexpanded hd
      | more next =>
          rw [history_of_more hturn] at hst'
          rcases List.mem_cons.mp hst' with rfl | hst'
          · exact lt_of_expanded hexpanded hd
          · obtain ⟨d', hle, hd'⟩ := exists_distance?_le hturn hd
            have hlater := mem_expansions.mpr ⟨st', hst', hexpanded⟩
            exact Nat.lt_of_lt_of_le (ih hd' hlater) hle

/-- **Expanded again, a node is nearer than before.** -/
theorem pairwise_expansions (s : Store) (config : Config) (n : Nat) (st : State) :
    (expansions config (history (turn s config) n st)).Pairwise fun e e' =>
      e.node = e'.node → e'.record.distance < e.record.distance := by
  induction n generalizing st with
  | zero => exact List.Pairwise.nil
  | succ n ih =>
      cases hturn : turn s config st with
      | halt last =>
          rw [history_of_halt hturn, expansions, List.filterMap_cons, List.filterMap_nil]
          split
          · exact List.Pairwise.nil
          · exact List.pairwise_singleton _ _
      | more next =>
          rw [history_of_more hturn, expansions, List.filterMap_cons]
          split
          · exact ih next
          · rename_i e he
            refine List.pairwise_cons.mpr ⟨?_, ih next⟩
            intro e' he' hnode
            obtain ⟨st', hst', hd⟩ := distance?_of_expanded s he
            cases hturn.symm.trans hst'
            exact lt_of_mem_expansions (hnode ▸ hd) he'

/-- Whatever the states of a walk speak of has a route. -/
theorem grounded_history (hs : s.Sound) {n : Nat} {st : State}
    (hst : st ∈ history (turn s config) n (start s ids)) : Grounded s config ids st :=
  forall_mem_history (fun _ _ h hmore => h.more hs hmore) (grounded_start s config ids) st hst

theorem mem_stack_of_expanded {st : State} {e : Entry} (he : expanded? config st = some e) :
    e ∈ st.stack :=
  List.mem_of_head? (Option.eq_some_of_filter_eq_some he)

/-- **No node is expanded more often than there are distances within the limit.** -/
theorem countP_expansions_le (hs : s.Sound) (config : Config) (ids : List NodeId) (n : Nat)
    (v : NodeId) :
    (expansions config (history (turn s config) n (start s ids))).countP (fun e => e.node = v) ≤
      config.maxDepth + 1 := by
  generalize hall : expansions config (history (turn s config) n (start s ids)) = l
  have hnodup : ((l.filter fun e => e.node = v).map (·.record.distance)).Nodup := by
    rw [List.Nodup, List.pairwise_map]
    refine List.Pairwise.imp_of_mem ?_ ((hall ▸ pairwise_expansions s config n _).filter _)
    intro e e' he he' hlt
    have hnode := of_decide_eq_true (List.mem_filter.mp he).2
    have hnode' := of_decide_eq_true (List.mem_filter.mp he').2
    exact Nat.ne_of_gt (hlt (hnode.trans hnode'.symm))
  have hsubset : ((l.filter fun e => e.node = v).map (·.record.distance)) ⊆
      List.range (config.maxDepth + 1) := by
    intro d hd
    obtain ⟨e, he, rfl⟩ := List.mem_map.mp hd
    obtain ⟨st, hst, he⟩ := mem_expansions.mp (hall ▸ (List.mem_filter.mp he).1)
    have hle := ((grounded_history hs hst).entry e (mem_stack_of_expanded he)).2
    exact List.mem_range.mpr (Nat.lt_succ_of_le hle)
  have hlength := (List.subperm_of_subset hnodup hsubset).length_le
  rwa [List.length_map, List.length_range, ← List.countP_eq_length_filter] at hlength

/-! ## Pops -/

/-- **An expansion pushes at most one entry for each edge at the node.** -/
theorem length_pushes_le (hs : s.Sound) {t : Trail} {u : NodeId} {d : Nat}
    (hd : t.distance? u = some d) :
    (pushes t u d (steps s config u)).length ≤ degree s config u := by
  refine Nat.le_trans ?_ (countP_steps_le hs config u)
  rw [pushes, List.length_map, ← List.countP_eq_length_filter]
  refine List.countP_mono_left fun a _ ha => ?_
  -- a loop leads to where the walk is, nearer than it would say
  refine decide_eq_true fun hloop => ?_
  rw [settled_iff.mpr ⟨d, Nat.le_succ d, hloop ▸ hd⟩] at ha
  cases ha

/-- An expansion leaves at most one entry more on the stack for each edge at the node. -/
theorem length_stack_expand_le (hs : s.Sound) {e : Entry} {rest : List Entry} {t : Trail}
    (hd : t.distance? e.node = some e.record.distance) (beyond : List NodeId) :
    (expand s config e rest t beyond).stack.length ≤
      degree s config e.node + rest.length := by
  rw [expand]
  split
  · exact Nat.le_add_left _ _
  · rw [List.length_append]
    exact Nat.add_le_add_right (length_pushes_le hs hd) _

theorem popped_cons {st : State} {e : Entry} {rest : List Entry} (hstack : st.stack = e :: rest)
    (run : List State) : popped (st :: run) = e :: popped run :=
  List.filterMap_cons_some (by rw [hstack, List.head?_cons])

/-- **What is taken off the stack was on it at first or was pushed by an expansion.** -/
theorem length_popped_le (hs : s.Sound) (config : Config) (n : Nat) (st : State) :
    (popped (history (turn s config) n st)).length ≤ st.stack.length +
      ((expansions config (history (turn s config) n st)).map fun e =>
        degree s config e.node).sum := by
  -- on the number of turns; the stack that a turn leaves is the one that the rest starts with
  induction n generalizing st with
  | zero => exact Nat.zero_le _
  | succ n ih =>
      rcases expanded?_cases s config st with
        ⟨hnone, ⟨_, hturn⟩ | ⟨e, rest, hstack, hturn⟩⟩ |
          ⟨e, rest, t, hstack, he, -, hrec, hturn⟩
      · rw [history_of_halt hturn]
        cases hstack : st.stack with
        | nil => simp [popped, hstack]
        | cons e rest =>
            rw [popped_cons hstack, List.length_cons, List.length_cons]
            exact Nat.le_add_right_of_le (Nat.succ_le_succ (Nat.zero_le _))
      · have hrest := ih { st with stack := rest }
        rw [history_of_more hturn, popped_cons hstack, expansions,
          List.filterMap_cons_none hnone, ← expansions, hstack, List.length_cons,
          List.length_cons, Nat.succ_add]
        exact Nat.succ_le_succ hrest
      · -- the entry that is taken off pays for itself, the expansion for what it pushes
        have hd : t.distance? e.node = some e.record.distance := by
          rw [Trail.distance?_of_insert hrec, if_pos rfl]
        have hnext := ih (expand s config e rest t st.beyond)
        have hpushed : (expand s config e rest t st.beyond).stack.length ≤
            degree s config e.node + rest.length := length_stack_expand_le hs hd st.beyond
        rw [history_of_more hturn, popped_cons hstack, expansions,
          List.filterMap_cons_some he, ← expansions, hstack, List.length_cons,
          List.length_cons, List.map_cons, List.sum_cons]
        omega

/-- The nodes that are expanded are nodes of the store. -/
theorem mem_keys_of_mem_expansions (hs : s.Sound) {n : Nat} {e : Entry}
    (he : e ∈ expansions config (history (turn s config) n (start s ids))) :
    e.node ∈ s.nodes.keys := by
  obtain ⟨st, hst, he⟩ := mem_expansions.mp he
  have hroute := ((grounded_history hs hst).entry e (mem_stack_of_expanded he)).1
  exact ExtTreeMap.mem_keys.mpr (hroute.mem_nodes hs)

/-- What is taken off the stack, counted node by node. -/
theorem length_popped_le_sum (hs : s.Sound) (config : Config) (ids : List NodeId) (n : Nat) :
    (popped (history (turn s config) n (start s ids))).length ≤ (seeds s ids).length +
      (s.ids.map fun v =>
        (expansions config (history (turn s config) n (start s ids))).countP
          (fun e => e.node = v) * degree s config v).sum := by
  have hpopped := length_popped_le hs config n (start s ids)
  rwa [start, List.length_map, ← start, sum_map_eq_sum_countP ExtTreeMap.nodup_keys Entry.node
    (degree s config) (fun _ he => mem_keys_of_mem_expansions hs he),
    ← ExtTreeMap.map_fst_toList_eq_keys] at hpopped

/-! ## The end -/

/-- A number of turns within which a walk halts. -/
def workload (s : Store) (config : Config) (ids : List NodeId) : Nat :=
  (seeds s ids).length + (s.ids.map fun v => (config.maxDepth + 1) * degree s config v).sum

/-- Every turn but the last takes something off the stack. -/
theorem length_popped_of_haltsWithin {n : Nat} {st : State}
    (h : haltsWithin (turn s config) n st = none) :
    (popped (history (turn s config) n st)).length = n := by
  induction n generalizing st with
  | zero => rfl
  | succ n ih =>
      cases hturn : turn s config st with
      | halt last =>
          rw [haltsWithin, hturn] at h
          cases h
      | more next =>
          rw [haltsWithin, hturn] at h
          obtain ⟨e, rest, hstack⟩ : ∃ e rest, st.stack = e :: rest := by
            cases hstack : st.stack with
            | nil =>
                rw [turn, hstack] at hturn
                cases hturn
            | cons e rest => exact ⟨e, rest, rfl⟩
          rw [history_of_more hturn, popped_cons hstack, List.length_cons, ih h]

/-- **A walk halts within a number of turns that is known beforehand.** -/
theorem stateWithin_workload (hs : s.Sound) (config : Config) (ids : List NodeId) :
    stateWithin (workload s config ids + 1) s ids config =
      some (depthFirstState s ids config) := by
  have hpopped := length_popped_le_sum hs config ids (workload s config ids + 1)
  have hbound : (s.ids.map fun v => (expansions config (history (turn s config)
        (workload s config ids + 1) (start s ids))).countP (fun e => e.node = v) *
        degree s config v).sum ≤
      (s.ids.map fun v => (config.maxDepth + 1) * degree s config v).sum :=
    List.sum_le_sum fun v _ => Nat.mul_le_mul_right _ (countP_expansions_le hs config ids _ v)
  cases hend : stateWithin (workload s config ids + 1) s ids config with
  | none =>
      rw [length_popped_of_haltsWithin hend] at hpopped
      have hle := Nat.le_trans hpopped (Nat.add_le_add_left hbound _)
      exact absurd hle (Nat.not_succ_le_self _)
  | some st => rw [depthFirstState_of_stateWithin hend]

/-! ## Distances in words -/

/-- The next distance, if a word holds it. -/
def next? (words distance : Nat) : Option Nat :=
  if distance + 1 < words then some (distance + 1) else none

/-- What to visit next, with distances that are words. -/
def pushesInWords? (words : Nat) (t : Trail) (id : NodeId) (distance : Nat) :
    List Adjacent → Option (List Entry)
  | [] => some []
  | a :: rest => do
      let d ← next? words distance
      let later ← pushesInWords? words t id distance rest
      return if settled t a.neighbor d then later
        else ⟨a.neighbor, ⟨d, some (viaOf id a)⟩⟩ :: later

/-- The state after the node of an entry was recorded, with distances that are words. -/
def expandInWords? (words : Nat) (s : Store) (config : Config) (e : Entry) (rest : List Entry)
    (t : Trail) (beyond : List NodeId) : Option State :=
  if config.maxDepth ≤ e.record.distance then some (expand s config e rest t beyond)
  else
    (pushesInWords? words t e.node e.record.distance (steps s config e.node)).map fun pushed =>
      ⟨pushed ++ rest, t, beyond⟩

/-- Takes one entry off the stack, with distances that are words.  There is no outcome if
    a sum does not fit. -/
def turnInWords? (words : Nat) (s : Store) (config : Config) (st : State) :
    Option (Turn State) :=
  match st.stack with
  | [] => some (.halt st)
  | e :: rest =>
      if settled st.trail e.node e.record.distance then some (.more { st with stack := rest })
      else
        let t := st.trail.record config e.node e.record
        if t.stopped then some (.halt { st with stack := rest, trail := t })
        else (expandInWords? words s config e rest t st.beyond).map .more

theorem pushesInWords?_eq {words d : Nat} (hd : d + 1 < words) (t : Trail) (id : NodeId)
    (as : List Adjacent) : pushesInWords? words t id d as = some (pushes t id d as) := by
  induction as with
  | nil => rfl
  | cons a as ih =>
      rw [pushesInWords?, next?, if_pos hd, ih]
      cases hset : settled t a.neighbor (d + 1) with
      | false => simp [pushes, hset]
      | true => simp [pushes, hset]

/-- **No sum that a turn makes exceeds the depth limit.** -/
theorem turnInWords?_eq {words : Nat} (hwords : config.maxDepth < words) (s : Store)
    (st : State) : turnInWords? words s config st = some (turn s config st) := by
  have hexpand : ∀ (e : Entry) (rest : List Entry) (t : Trail),
      expandInWords? words s config e rest t st.beyond =
        some (expand s config e rest t st.beyond) := by
    intro e rest t
    rw [expandInWords?]
    by_cases hdepth : config.maxDepth ≤ e.record.distance
    · rw [if_pos hdepth]
    · rw [if_neg hdepth, pushesInWords?_eq (by omega), expand, if_neg hdepth]
      rfl
  rw [turnInWords?, turn]
  cases st.stack with
  | nil => rfl
  | cons e rest =>
      simp only [hexpand, Option.map_some]
      split
      · rfl
      · split <;> rfl

/-! ## The bounds together -/

/-- What bounds the work that a walk does in some of its turns. -/
structure Frugal (s : Store) (config : Config) (ids : List NodeId) (run : List State) :
    Prop where
  /-- No node is expanded more often than there are distances within the limit. -/
  repeats : ∀ v, (expansions config run).countP (fun e => e.node = v) ≤ config.maxDepth + 1
  /-- What was recorded for a node that is expanded is larger than what is recorded then. -/
  lowers : ∀ st ∈ run, ∀ e, expanded? config st = some e →
    (∀ d, st.trail.distance? e.node = some d → e.record.distance < d) ∧
      ∃ st', turn s config st = .more st' ∧
        st'.trail.distance? e.node = some e.record.distance
  /-- So each expansion of a node is nearer than those before. -/
  nearer : (expansions config run).Pairwise fun e e' =>
    e.node = e'.node → e'.record.distance < e.record.distance
  /-- What is taken off the stack was a seed or was pushed by an expansion, at most once for
      each edge. -/
  pops : (popped run).length ≤ (seeds s ids).length +
    (s.ids.map fun v =>
      (expansions config run).countP (fun e => e.node = v) * degree s config v).sum
  /-- All distances on the stack are within the limit. -/
  within : ∀ st ∈ run, ∀ e ∈ st.stack, e.record.distance ≤ config.maxDepth

theorem frugal_history (hs : s.Sound) (config : Config) (ids : List NodeId) (n : Nat) :
    Frugal s config ids (history (turn s config) n (start s ids)) where
  repeats := countP_expansions_le hs config ids n
  lowers := fun _ _ _ he => ⟨fun _ hd => lt_of_expanded he hd, distance?_of_expanded s he⟩
  nearer := pairwise_expansions s config n (start s ids)
  pops := length_popped_le_sum hs config ids n
  within := fun _ hst e he => ((grounded_history hs hst).entry e he).2

end DepthFirst

open DepthFirst in
/-- **A depth-first walk comes to an end, and what it costs is bounded.**  Whatever the cycles
    of the graph, the seeds, the filters and the limits, it halts; all along no node is
    expanded more often than there are distances, each expansion of a node lowers what is
    recorded for it, the entries taken off the stack are paid for by the seeds and by the
    edges at the nodes that were expanded, and every word that holds the depth limit holds
    all the distances. -/
theorem depthFirst_halts_frugally (hs : s.Reachable) (config : Config) (ids : List NodeId) :
    stateWithin (workload s config ids + 1) s ids config =
        some (depthFirstState s ids config) ∧
      (∀ n, Frugal s config ids (history (turn s config) n (start s ids))) ∧
      ∀ words, config.maxDepth < words →
        ∀ st, turnInWords? words s config st = some (turn s config st) :=
  ⟨stateWithin_workload hs.sound config ids, frugal_history hs.sound config ids,
    fun _ hwords => turnInWords?_eq hwords s⟩

open DepthFirst in
/-- The node `d` is expanded twice, and the second time it is nearer. -/
theorem depthFirst_halts_on_detour :
    let config : Config := { maxDepth := 3 }
    let run := history (turn detour config) 40 (start detour [⟨"a"⟩])
    stateWithin (workload detour config [⟨"a"⟩] + 1) detour [⟨"a"⟩] config =
        some (depthFirstState detour [⟨"a"⟩] config) ∧
      Frugal detour config [⟨"a"⟩] run ∧
      turnInWords? 4 detour config (start detour [⟨"a"⟩]) =
        some (turn detour config (start detour [⟨"a"⟩])) ∧
      (expansions config run).map (fun e => (e.node.text, e.record.distance)) =
        [("a", 0), ("b", 1), ("c", 2), ("d", 3), ("d", 1), ("e", 2), ("f", 3)] ∧
      (popped run).length = 8 := by
  intro config run
  obtain ⟨hhalts, hfrugal, hwords⟩ :=
    depthFirst_halts_frugally reachable_detour config [⟨"a"⟩]
  exact ⟨hhalts, hfrugal 40, hwords 4 (by decide) _, by unfold run config; cbv,
    by unfold run config; cbv⟩

end CodeGraph.Walk

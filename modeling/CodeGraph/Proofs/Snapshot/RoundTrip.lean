import CodeGraph.Proofs.Files.Tree
import CodeGraph.Proofs.Snapshot.Document
import CodeGraph.Snapshot.Storage
/-! # A saved graph is loaded as it was

    What `save` writes, `load` reads: the same graph, down to every index.

    * A graph that was saved lies at its path as the text of its document
      (`read_of_save`).
    * That text describes the graph, so loading succeeds and gives the graph
      again (`load_of_save`). -/

namespace CodeGraph.Snapshot

open FileTree

variable {g : FrozenGraph} {createdAt : Moment} {path : String} {t t' : FileTree} {info : Info}

/-- Two steps on a tree, one after the other. -/
theorem run_bind {α β : Type} {x : StateM FileTree α} {f : α → StateM FileTree β}
    {r : β × FileTree} (h : (x >>= f).run t = r) :
    ∃ a u, x.run t = (a, u) ∧ (f a).run u = r :=
  ⟨_, _, rfl, h⟩

/-- A program goes on from where its first step ends. -/
theorem run_bind_eq {α β : Type} {x : StateM FileTree α} {f : α → StateM FileTree β} {a : α}
    {u : FileTree} (h : x.run t = (a, u)) : (x >>= f).run t = (f a).run u := by
  rw [StateT.run_bind, h]
  rfl

/-- A change that succeeds leads to the changed tree. -/
theorem change_eq_ok {f : FileTree → Except String FileTree} (h : f t = .ok t') :
    (FileTree.change f).run t = (.ok (), t') := by
  dsimp only [FileTree.change, StateT.run]
  rw [h]

/-- A change that fails leaves the tree. -/
theorem change_eq_error {f : FileTree → Except String FileTree} {reason : String}
    (h : f t = .error reason) : (FileTree.change f).run t = (.error reason, t) := by
  dsimp only [FileTree.change, StateT.run]
  rw [h]

/-- A change that succeeds is the change of the tree. -/
theorem change_ok {f : FileTree → Except String FileTree} {a : Unit}
    (h : (FileTree.change f).run t = (.ok a, t')) : f t = .ok t' := by
  cases hf : f t with
  | ok u =>
      rw [change_eq_ok hf] at h
      cases h
      rfl
  | error reason =>
      rw [change_eq_error hf] at h
      cases h

theorem write_ok {contents : ByteArray} {a : Unit}
    (h : (FileTree.files.write path contents).run t = (.ok a, t')) :
    t.write path contents = .ok t' := change_ok h

theorem move_ok {target : String} {a : Unit}
    (h : (FileTree.files.move path target).run t = (.ok a, t')) :
    t.move path target = .ok t' := change_ok h

/-- Saving leaves the document at the path, and tells its checksum. -/
theorem read_of_save (h : (save FileTree.files g createdAt path).run t = (.ok info, t')) :
    t'.read path = .ok (Document.ofGraph g createdAt).render.toUTF8 ∧
      info.checksum = checksum g.store.nodeList g.store.edges.toList := by
  obtain ⟨prepared, t₁, -, h⟩ := run_bind h
  cases prepared with
  | error e => cases h
  | ok _ =>
      obtain ⟨written, t₂, hwrite, h⟩ := run_bind h
      cases written with
      | error reason => cases h
      | ok _ =>
          obtain ⟨moved, t₃, hmove, h⟩ := run_bind h
          cases moved with
          | error reason => cases h
          | ok _ =>
              cases h
              have hwritten := read_of_write (write_ok hwrite)
              have hmoved := read_of_move (move_ok hmove) hwritten
              refine ⟨hmoved, ?_⟩
              dsimp only [Document.ofGraph]

/-- A text that was encoded is read from its file. -/
theorem readText_of_read {s : String} (h : t.read path = .ok s.toUTF8) :
    (FileTree.files.readText path).run t = (.ok s, t) := by
  have htext : String.fromUTF8? s.toUTF8 = some s := dif_pos s.isValidUTF8
  have hread : (FileTree.files.read path).run t = (.ok s.toUTF8, t) := congrArg (·, t) h
  rw [Files.readText, run_bind_eq hread]
  dsimp only
  rw [htext]
  rfl

/-- **What was saved is loaded:** the same graph identifier, and a store that is the
    same in every component, so that saving it again gives the same checksum.  The
    records are assumed to read back when their numbers are finite. -/
theorem load_of_save (hs : g.store.Reachable)
    (hfinite : ∀ n ∈ g.store.nodeList, n.IsFinite)
    (hnodes : ∀ n ∈ g.store.nodeList, n.IsFinite → n.ReadsBack)
    (hedges : ∀ e ∈ g.store.edges, e.ReadsBack)
    (hsave : (save FileTree.files g createdAt path).run t = (.ok info, t')) :
    ∃ g', (load FileTree.files path).run t' = (.ok g', t') ∧ g'.id = g.id ∧
      g'.store = g.store ∧
      ∀ (createdAt' : Moment) (path' : String) (u u' : FileTree) (info' : Info),
        (save FileTree.files g' createdAt' path').run u = (.ok info', u') →
          info'.checksum = info.checksum := by
  obtain ⟨hread, hchecksum⟩ := read_of_save hsave
  have htext := readText_of_read hread
  have hgraph := read_render createdAt path hs (fun n hn => hnodes n hn (hfinite n hn)) hedges
  refine ⟨g, ?_, rfl, rfl, ?_⟩
  · rw [load, StateT.run_bind, htext]
    show (Snapshot.read path (Document.ofGraph g createdAt).render, t') = _
    rw [hgraph]
  · intro createdAt' path' u u' info' hagain
    rw [(read_of_save hagain).2, hchecksum]

/-! ## A small graph -/

/-- The edge of the sample. -/
def sampleEdge : Edge where
  source := ⟨"file:a.py"⟩
  target := ⟨"function:a.py:f"⟩
  relationship := .defines
  attributes := .ofFields [("line", .ofNat 3)]

/-- Attributes with a natural number and with one of double precision. -/
def sampleAttributes : Attributes :=
  .ofFields [("lineNumber", .ofNat 12), ("weight", .number (.double 0.1))]

/-- A file and a function that it defines, with numbers to print and to read, named later.
    Its embedding has length zero: rounding to single precision is not computed in a
    proof, so what becomes of an entry is left to the assumption on records. -/
def sample? : Except GraphError Store := do
  let s ← ({} : Store).addNode ⟨"file:a.py"⟩ .file (.ofFields [("path", .string "a.py")])
  let s ← s.addNode ⟨"function:a.py:f"⟩ .function sampleAttributes
  let s ← s.enrich ⟨"function:a.py:f"⟩ "name" (.string "f")
  let s ← s.attachEmbedding ⟨"function:a.py:f"⟩ #[]
  s.addEdge sampleEdge

def sample : Store := sample?.toOption.getD {}

theorem sample?_eq_ok : sample? = .ok sample := by
  have hok : sample?.toOption.isSome = true := by decide +kernel
  rw [sample]
  cases hsample : sample? with
  | ok s => rfl
  | error e =>
      rw [hsample] at hok
      cases hok

theorem reachable_sample : sample.Reachable := by
  obtain ⟨s₁, hfile, h⟩ := bind_ok sample?_eq_ok
  obtain ⟨s₂, hfunction, h⟩ := bind_ok h
  obtain ⟨s₃, hname, h⟩ := bind_ok h
  obtain ⟨s₄, hembedding, hedge⟩ := bind_ok h
  exact ((((Store.Reachable.empty.addNode hfile).addNode hfunction).enrich hname).attachEmbedding
    hembedding).addEdge hedge

/-- The sample under some identifier. -/
def sampleGraph : FrozenGraph := ⟨⟨0x0123456789abcdef⟩, sample⟩

/-- Saving succeeds if the document can be written beside its place and moved there. -/
theorem exists_save_eq_ok {u v : FileTree}
    (hprepare : (prepare FileTree.files path).run t = (.ok (), u))
    (hwrite : u.write (temporaryPath path) (Document.ofGraph g createdAt).render.toUTF8 = .ok v)
    (hmove : v.move (temporaryPath path) path = .ok t') :
    ∃ info, (save FileTree.files g createdAt path).run t = (.ok info, t') := by
  have hwritten : (FileTree.files.write (temporaryPath path)
      (Document.ofGraph g createdAt).render.toUTF8).run u = (.ok (), v) := change_eq_ok hwrite
  have hmoved : (FileTree.files.move (temporaryPath path) path).run v = (.ok (), t') :=
    change_eq_ok hmove
  refine ⟨⟨path, g.id, (Document.ofGraph g createdAt).checksum,
    (Document.ofGraph g createdAt).nodes.length,
    (Document.ofGraph g createdAt).edges.length⟩, ?_⟩
  exact (run_bind_eq hprepare).trans ((run_bind_eq hwritten).trans (run_bind_eq hmoved))

/-- A file can be written beside a place in the root, and moved there. -/
theorem exists_move_of_write (contents : ByteArray) : ∃ t t',
    ({} : FileTree).write "graph.json.tmp" contents = .ok t ∧
      t.move "graph.json.tmp" "graph.json" = .ok t' := ⟨_, _, rfl, rfl⟩

/-- Every graph can be saved in the root of an empty tree. -/
theorem exists_save (g : FrozenGraph) (createdAt : Moment) : ∃ info t',
    (save FileTree.files g createdAt "graph.json").run {} = (.ok info, t') := by
  have hprepare : (prepare FileTree.files "graph.json").run {} = (.ok (), {}) := by rfl
  obtain ⟨t, t', hwrite, hmove⟩ := exists_move_of_write
    (Document.ofGraph g createdAt).render.toUTF8
  obtain ⟨info, hsave⟩ := exists_save_eq_ok hprepare hwrite hmove
  exact ⟨info, t', hsave⟩

/-- The sample is saved, and loaded as it was. -/
theorem load_sampleGraph : ∃ info t' g',
    (save FileTree.files sampleGraph Moment.epoch "graph.json").run {} = (.ok info, t') ∧
      (load FileTree.files "graph.json").run t' = (.ok g', t') ∧ g'.id = sampleGraph.id ∧
      g'.store = sample := by
  obtain ⟨info, t', hsave⟩ := exists_save sampleGraph Moment.epoch
  have hfinite : ∀ n ∈ sample.nodeList, n.IsFinite := by decide +kernel
  have hnodes : ∀ n ∈ sample.nodeList, n.ReadsBack := by decide +kernel
  have hedges : ∀ e ∈ sample.edges, e.ReadsBack := by decide +kernel
  obtain ⟨g', hload, hid, hstore, -⟩ := load_of_save (g := sampleGraph) reachable_sample
    hfinite (fun n hn _ => hnodes n hn) hedges hsave
  exact ⟨info, t', g', hsave, hload, hid, hstore⟩

end CodeGraph.Snapshot

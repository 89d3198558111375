import CodeGraph.Proofs.Json.Reprint
import CodeGraph.Proofs.Snapshot.Rebuild
import CodeGraph.Proofs.Uuid
/-! # Documents are read as they were written

    The text of a document reads back as the document, if each of its nodes and
    edges does.

    * `ReadsBack` is said of a record alone: its text, read as deep as it
      stands in a document, gives the record again.  It is decidable.
    * All the rest comes back for every document: the identifier, the moment,
      the checksum and the two lists.
    * The checksum is computed from the same nodes and edges, and the store is
      rebuilt (`read_render`). -/

namespace CodeGraph

open Json Reader Text

/-! ## Records -/

/-- The record that a whole text is, read as deep as it stands in a document: below
    the document and one of its lists. -/
def readRecord? (names : List String) (s : List Char) : Option Json :=
  match shaped (maxDepth - 2) (.ofNames names) s with
  | some r => if r.rest.isEmpty then some r.value else none
  | none => none

/-- A node that its text gives again. -/
def Node.ReadsBack (n : Node) : Prop :=
  (readRecord? Node.fieldNames (print n.toJson)).bind Node.ofJson? = some n

/-- An edge that its text gives again. -/
def Edge.ReadsBack (e : Edge) : Prop :=
  (readRecord? Edge.fieldNames (print e.toJson)).bind Edge.ofJson? = some e

instance (n : Node) : Decidable n.ReadsBack := inferInstanceAs (Decidable (_ = _))

instance (e : Edge) : Decidable e.ReadsBack := inferInstanceAs (Decidable (_ = _))

/-- A node whose embedding, if it has one, holds finite numbers only. -/
def Node.IsFinite (n : Node) : Prop :=
  ∀ v ∈ n.embedding, ∀ x ∈ v, x.isFinite = true

instance (n : Node) : Decidable n.IsFinite :=
  inferInstanceAs (Decidable (∀ v ∈ n.embedding, ∀ x ∈ v, x.isFinite = true))

theorem readRecord?_print (names : List String) (v : Json) :
    readRecord? names (print v) = settleAs (maxDepth - 2) (.ofNames names) v := by
  have hshaped := taken_shaped_print (maxDepth - 2) (.ofNames names) v ends_nil
  rw [List.append_nil] at hshaped
  rw [readRecord?]
  cases hsettled : settleAs (maxDepth - 2) (.ofNames names) v with
  | none =>
      rw [hsettled] at hshaped
      rw [taken_eq_none.mp hshaped]
  | some w =>
      rw [hsettled] at hshaped
      obtain ⟨hshorter, hread⟩ := taken_eq_some.mp hshaped
      rw [hread]
      rfl

/-- Records that come back one by one come back as a list. -/
theorem exists_mapM {α : Type} {names : List String} {toJson : α → Json}
    {ofJson? : Json → Option α} {xs : List α}
    (h : ∀ x ∈ xs, (readRecord? names (print (toJson x))).bind ofJson? = some x) :
    ∃ ws, (xs.map toJson).mapM (settleAs (maxDepth - 2) (.ofNames names)) = some ws ∧
      ws.mapM ofJson? = some xs := by
  induction xs with
  | nil => exact ⟨[], rfl, rfl⟩
  | cons x xs ih =>
      obtain ⟨ws, hws, hxs⟩ := ih fun y hy => h y (List.mem_cons_of_mem x hy)
      obtain ⟨w, hw, hx⟩ := Option.bind_eq_some_iff.mp (h x List.mem_cons_self)
      rw [readRecord?_print] at hw
      refine ⟨w :: ws, ?_, ?_⟩
      · rw [List.map_cons, List.mapM_cons, hw, hws]
        rfl
      · rw [List.mapM_cons, hx, hxs]
        rfl

namespace Snapshot

/-! ## Documents -/

/-- The number of the format comes back. -/
theorem settle_formatVersion :
    settle 126 (ofUInt32 formatVersion) = some (ofUInt32 formatVersion) := by
  decide +kernel

variable {d : Document}

/-- Of the format alone, all other fields come back as `null`. -/
theorem settleAs_version (d : Document) : settleAs maxDepth versionShape d.toJson =
    some (.object [("format_version", ofUInt32 formatVersion), ("graph_id", .null),
      ("created_at", .null), ("checksum", .null), ("nodes", .null), ("edges", .null)]) := by
  rw [show maxDepth = 126 + 1 from rfl, Document.toJson, versionShape, Shape.ofNames, settleAs]
  simp [body, settleField, List.lookup_cons, settleAs_whole, settle_formatVersion]

/-- A document comes back with its records as they come back. -/
theorem settleAs_document (hnodes : ∀ n ∈ d.nodes, n.ReadsBack)
    (hedges : ∀ e ∈ d.edges, e.ReadsBack) :
    ∃ ws us, ws.mapM Node.ofJson? = some d.nodes ∧ us.mapM Edge.ofJson? = some d.edges ∧
      settleAs maxDepth documentShape d.toJson = some (.object
        [("format_version", ofUInt32 formatVersion), ("graph_id", .string d.graphId.toText),
         ("created_at", .string d.createdAt.text), ("checksum", .string d.checksum),
         ("nodes", .array ws), ("edges", .array us)]) := by
  obtain ⟨ws, hws, hnodes⟩ := exists_mapM hnodes
  obtain ⟨us, hus, hedges⟩ := exists_mapM hedges
  refine ⟨ws, us, hnodes, hedges, ?_⟩
  have hnodeList : settleAs 126 (.items (.ofNames Node.fieldNames))
      (.array (d.nodes.map Node.toJson)) = some (.array ws) := by
    rw [settleAs]
    exact congrArg (Option.map Json.array) hws
  have hedgeList : settleAs 126 (.items (.ofNames Edge.fieldNames))
      (.array (d.edges.map Edge.toJson)) = some (.array us) := by
    rw [settleAs]
    exact congrArg (Option.map Json.array) hus
  rw [show maxDepth = 126 + 1 from rfl, Document.toJson, documentShape, settleAs]
  simp [body, settleField, List.lookup_cons, settleAs_whole, settle_string, settle_formatVersion,
    hnodeList, hedgeList]

/-- The format is told from the text of a document. -/
theorem readVersion?_render (d : Document) :
    (parseAs? versionShape d.render.toList).bind readVersion? = some formatVersion := by
  have hversion : asUInt32? (ofUInt32 formatVersion) = some formatVersion := by decide
  rw [Document.render, Json.render, String.toList_ofList, parseAs?_print, settleAs_version]
  simp [readVersion?, record?, uniqueField?, required, hversion]

/-- **A document whose records read back reads back.** -/
theorem parse_render (hnodes : ∀ n ∈ d.nodes, n.ReadsBack)
    (hedges : ∀ e ∈ d.edges, e.ReadsBack) : Document.parse d.render = .ok d := by
  obtain ⟨ws, us, hws, hus, hsettled⟩ := settleAs_document hnodes hedges
  have hdocument : (parseAs? documentShape d.render.toList).bind Document.ofJson? = some d := by
    rw [Document.render, Json.render, String.toList_ofList, parseAs?_print, hsettled]
    simp [Document.ofJson?, record?, uniqueField?, required, asString?, list?, asArray?,
      Uuid.ofText?_toText, Moment.ofText?_text, hws, hus]
  rw [Document.parse, readVersion?_render, hdocument]
  rfl

/-- **The document of a graph describes the graph,** if the records in it read
    back. -/
theorem read_render {g : FrozenGraph} (createdAt : Moment) (path : String)
    (hs : g.store.Reachable) (hnodes : ∀ n ∈ g.store.nodeList, n.ReadsBack)
    (hedges : ∀ e ∈ g.store.edges, e.ReadsBack) :
    read path (Document.ofGraph g createdAt).render = .ok g := by
  have hparse : Document.parse (Document.ofGraph g createdAt).render =
      .ok (Document.ofGraph g createdAt) :=
    parse_render hnodes fun e he => hedges e (Array.mem_toList_iff.mp he)
  have hrestore : restore (Document.ofGraph g createdAt).nodes
      (Document.ofGraph g createdAt).edges = .ok g.store := restore_nodeList hs
  have hsealed : ¬ checksum (Document.ofGraph g createdAt).nodes
      (Document.ofGraph g createdAt).edges ≠ (Document.ofGraph g createdAt).checksum :=
    fun hne => hne rfl
  rw [read, hparse]
  show (Document.ofGraph g createdAt).graph path = _
  rw [Document.graph, if_neg hsealed, hrestore]
  rfl

end Snapshot

end CodeGraph

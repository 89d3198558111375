import CodeGraph.Proofs.Graph.Record
import CodeGraph.Proofs.Snapshot.Admission
import CodeGraph.Proofs.Snapshot.RoundTrip
/-! # What a saved document gives back

    Loading what was saved reads the records that were printed, and a record may come
    back as another one, or not at all.

    * `back?` is what a record comes back as.  The text parts of it are the same, so
      the identifiers, the ends of the edges and the lengths of the embeddings are
      (`back?_eq`).
    * A document comes back with the records as they come back, and not at all if one
      of them does not (`parse_render_eq`).
    * A number that is not finite is written `null`, and no embedding comes back with
      that in it (`back?_of_not_isFinite`). -/

namespace CodeGraph

open Json Reader Text

/-! ## Records -/

/-- What the text of a node gives. -/
def Node.back? (n : Node) : Option Node :=
  (readRecord? Node.fieldNames (print n.toJson)).bind Node.ofJson?

/-- What the text of an edge gives. -/
def Edge.back? (e : Edge) : Option Edge :=
  (readRecord? Edge.fieldNames (print e.toJson)).bind Edge.ofJson?

/-- What the text of attributes gives. -/
def Attributes.back? (a : Attributes) : Option Attributes :=
  (settle (maxDepth - 3) a.toJson).bind Attributes.ofJson?

/-- What the text of a number of single precision gives. -/
def Embedding.entryBack? (x : Float32) : Option Float32 :=
  (settleNumber (.single x)).bind Embedding.readSingle?

/-- What the text of an embedding gives. -/
def Embedding.back? (v : Embedding) : Option Embedding :=
  (v.toList.mapM Embedding.entryBack?).map List.toArray

/-- Two readings of the items of a list, one after the other. -/
theorem mapM_bind {α β γ : Type} (f : α → Option β) (g : β → Option γ) (l : List α) :
    (l.mapM fun a => (f a).bind g) = (l.mapM f).bind fun bs => bs.mapM g := by
  induction l with
  | nil => rfl
  | cons a l ih =>
      rw [List.mapM_cons, List.mapM_cons, ih]
      cases f a with
      | none => rfl
      | some b =>
          cases l.mapM f with
          | none => cases hb : g b <;> simp [hb]
          | some bs => simp [List.mapM_cons]

theorem named?_name (kind : NodeKind) : NodeKind.named? kind.name = some kind := by
  cases kind <;> decide

theorem Relationship.named?_name (r : Relationship) : Relationship.named? r.name = some r := by
  cases r <;> decide

/-- An infinite or undefined number comes back as nothing. -/
theorem settleNumber_single_of_not_isFinite {x : Float32} (h : x.isFinite = false) :
    settleNumber (.single x) = some .null := by
  rw [settleNumber, Number.print, Decimal.singleText?, h]
  rfl

/-- An embedding comes back entry by entry. -/
theorem Embedding.settle_toJson (v : Embedding) :
    ((settle (maxDepth - 3) (Embedding.toJson v)).bind Embedding.ofJson?) = Embedding.back? v := by
  have hentries : (v.toList.map fun x => Json.number (.single x)).mapM (settle 123) =
      v.toList.mapM fun x => settleNumber (.single x) := List.mapM_map
  rw [show maxDepth - 3 = 123 + 1 from rfl, Embedding.toJson, settle, hentries, Embedding.back?]
  show _ = (v.toList.mapM fun x => (settleNumber (.single x)).bind Embedding.readSingle?).map _
  rw [mapM_bind]
  cases v.toList.mapM fun x => settleNumber (.single x) <;> rfl

theorem lookup_whole {names : List String} {key : String} (h : key ∈ names) :
    (names.map (·, Shape.whole)).lookup key = some .whole := by
  induction names with
  | nil => cases h
  | cons name names ih =>
      rw [List.map_cons, List.lookup_cons]
      by_cases hkey : key = name
      · rw [beq_iff_eq.mpr hkey]
      · rw [beq_false_of_ne hkey]
        exact ih ((List.mem_cons.mp h).resolve_left hkey)

/-- A record whose fields are all looked at comes back field by field. -/
theorem settleAs_ofNames {names : List String} {fields : List (String × Json)}
    (h : ∀ f ∈ fields, f.1 ∈ names) (depth : Nat) :
    settleAs (depth + 1) (.ofNames names) (.object fields) =
      (fields.mapM fun f => (settle depth f.2).map (f.1, ·)).map .object := by
  have hfield : ∀ f ∈ fields, settleField (settleAs depth) (names.map (·, .whole)) f =
      settle depth f.2 := by
    intro f hf
    rw [settleField, lookup_whole (h f hf)]
    exact settleAs_whole depth f.2
  have hfields : (fields.mapM fun f =>
      (settleField (settleAs depth) (names.map (·, .whole)) f).map (f.1, ·)) =
        fields.mapM fun f => (settle depth f.2).map (f.1, ·) := by
    clear h
    induction fields with
    | nil => rfl
    | cons f fields ih =>
        rw [List.mapM_cons, List.mapM_cons, hfield f List.mem_cons_self,
          ih fun g hg => hfield g (List.mem_cons_of_mem f hg)]
  rw [Shape.ofNames, settleAs, hfields]

/-- What a field that may be left out comes back as. -/
def settle? (depth : Nat) : Option Json → Option (Option Json)
  | none => some none
  | some v => (settle depth v).map some

namespace Node

/-- The fields of a node. -/
def fields (id : NodeId) (kind : NodeKind) (attributes : Json) (embedding : Option Json) :
    List (String × Json) :=
  [("id", .string id.text), ("kind", .string kind.name), ("attributes", attributes)]
    ++ (embedding.map ("embedding", ·)).toList

theorem toJson_eq (n : Node) : n.toJson =
    .object (fields n.id n.kind n.attributes.toJson (n.embedding.map Embedding.toJson)) := by
  rw [toJson, fields]
  cases n.embedding <;> rfl

theorem mem_fieldNames (id : NodeId) (kind : NodeKind) (attributes : Json)
    (embedding : Option Json) : ∀ f ∈ fields id kind attributes embedding, f.1 ∈ fieldNames := by
  cases embedding <;> simp [fields, fieldNames]

theorem settle_fields (depth : Nat) (id : NodeId) (kind : NodeKind) (attributes : Json)
    (embedding : Option Json) :
    ((fields id kind attributes embedding).mapM fun f => (settle depth f.2).map (f.1, ·)) =
      (settle depth attributes).bind fun a => (settle? depth embedding).map (fields id kind a) := by
  cases ha : settle depth attributes with
  | none => simp [fields, settle_string, ha]
  | some a =>
      cases embedding with
      | none => simp [fields, settle_string, ha, settle?]
      | some v => cases hv : settle depth v <;> simp [fields, settle_string, ha, hv, settle?]

/-- The fields of a node, put together. -/
theorem ofJson?_fields (id : NodeId) (kind : NodeKind) (attributes : Json)
    (embedding : Option Json) :
    ofJson? (.object (fields id kind attributes embedding)) =
      (Attributes.ofJson? attributes).bind fun a =>
        (Json.optional Embedding.ofJson? embedding).map fun v => ⟨id, kind, a, v⟩ := by
  cases embedding <;>
    simp [fields, ofJson?, fieldNames, record?, uniqueField?, required, orElse, NodeId.ofJson?,
      asString?, NodeKind.ofJson?, tagName?, named?_name, List.filter, Option.map_eq_bind]

end Node

/-- What an embedding that there may be comes back as. -/
theorem optional_settle? (v? : Option Embedding) :
    (settle? (maxDepth - 3) (v?.map Embedding.toJson)).bind (Json.optional Embedding.ofJson?) =
      match v? with
      | none => some none
      | some v => (Embedding.back? v).map some := by
  cases v? with
  | none => rfl
  | some v =>
      dsimp only
      rw [← Embedding.settle_toJson, Option.map_some, settle?]
      cases hv : settle (maxDepth - 3) (Embedding.toJson v) with
      | none => rfl
      | some w =>
          -- what an array comes back as is an array again
          rw [show maxDepth - 3 = 123 + 1 from rfl, Embedding.toJson, settle] at hv
          obtain ⟨ws, -, rfl⟩ := Option.map_eq_some_iff.mp hv
          rfl

/-- **What a node comes back as.** -/
theorem Node.back?_eq (n : Node) : n.back? =
    (Attributes.back? n.attributes).bind fun a =>
      (match n.embedding with
        | none => some none
        | some v => (Embedding.back? v).map some).map fun v => ⟨n.id, n.kind, a, v⟩ := by
  rw [Node.back?, readRecord?_print, toJson_eq, show maxDepth - 2 = 124 + 1 from rfl,
    settleAs_ofNames (mem_fieldNames _ _ _ _), settle_fields, Attributes.back?,
    ← optional_settle?, show maxDepth - 3 = 124 from rfl]
  cases settle 124 n.attributes.toJson with
  | none => rfl
  | some a =>
      cases settle? 124 (n.embedding.map Embedding.toJson) with
      | none => simp
      | some w? =>
        rw [Option.bind_some, Option.map_some, Option.map_some, Option.bind_some, ofJson?_fields]
        rfl

namespace Edge

/-- The fields of an edge. -/
def fields (source target : NodeId) (r : Relationship) (attributes : Option Json) :
    List (String × Json) :=
  [("source", .string source.text), ("target", .string target.text),
    ("relationship", .string r.name)] ++ (attributes.map ("attributes", ·)).toList

/-- The attributes of an edge, which are not written if there are none. -/
def written? (e : Edge) : Option Json :=
  if e.attributes.isEmpty then none else some e.attributes.toJson

theorem toJson_eq (e : Edge) :
    e.toJson = .object (fields e.source e.target e.relationship e.written?) := by
  rw [toJson, fields, written?]
  split <;> rfl

theorem mem_fieldNames (source target : NodeId) (r : Relationship) (attributes : Option Json) :
    ∀ f ∈ fields source target r attributes, f.1 ∈ fieldNames := by
  cases attributes <;> simp [fields, fieldNames]

theorem settle_fields (depth : Nat) (source target : NodeId) (r : Relationship)
    (attributes : Option Json) :
    ((fields source target r attributes).mapM fun f => (settle depth f.2).map (f.1, ·)) =
      (settle? depth attributes).map (fields source target r) := by
  cases attributes with
  | none => simp [fields, settle_string, settle?]
  | some a => cases ha : settle depth a <;> simp [fields, settle_string, ha, settle?]

/-- The fields of an edge, put together. -/
theorem ofJson?_fields (source target : NodeId) (r : Relationship) (attributes : Option Json) :
    ofJson? (.object (fields source target r attributes)) =
      (orElse ∅ Attributes.ofJson? attributes).map fun a => ⟨source, target, r, a⟩ := by
  cases attributes <;>
    simp [fields, ofJson?, fieldNames, record?, uniqueField?, required, NodeId.ofJson?,
      asString?, Relationship.ofJson?, tagName?, Relationship.named?_name, List.filter,
      Option.map_eq_bind]

/-- **What an edge comes back as.** -/
theorem back?_eq (e : Edge) : e.back? =
    ((settle? (maxDepth - 3) e.written?).bind (orElse ∅ Attributes.ofJson?)).map fun a =>
      ⟨e.source, e.target, e.relationship, a⟩ := by
  rw [back?, readRecord?_print, toJson_eq, show maxDepth - 2 = 124 + 1 from rfl,
    settleAs_ofNames (mem_fieldNames _ _ _ _), settle_fields, show maxDepth - 3 = 124 from rfl]
  cases settle? 124 e.written? with
  | none => rfl
  | some w? => rw [Option.map_some, Option.map_some, Option.bind_some, ofJson?_fields]; rfl

end Edge

/-! ## Lists of records -/

/-- What each value of a list keeps is kept by the list. -/
theorem map_eq_of_mapM {α β γ : Type} {f : α → Option β} {p : α → γ} {q : β → γ}
    (hpq : ∀ x y, f x = some y → q y = p x) {xs : List α} {ys : List β}
    (h : xs.mapM f = some ys) : ys.map q = xs.map p := by
  refine (List.forall₂_eq_eq_eq (α := γ) ▸ ?_ : xs.map p = ys.map q).symm
  rw [List.forall₂_map_left_iff, List.forall₂_map_right_iff]
  exact (forall₂_of_mapM h).imp fun x y hy => (hpq x y hy).symm

/-- A list with one value that is refused is refused. -/
theorem mapM_eq_none {α β : Type} {f : α → Option β} {xs : List α} {x : α} (hx : x ∈ xs)
    (h : f x = none) : xs.mapM f = none := by
  induction hx with
  | head xs =>
      rw [List.mapM_cons, h]
      rfl
  | tail y _ ih =>
      rw [List.mapM_cons, ih]
      cases f y <;> rfl

/-- Records that come back as they are, by way of what is written. -/
theorem mapM_back? {α : Type} {names : List String} {toJson : α → Json}
    {ofJson? : Json → Option α} (xs : List α) :
    (xs.mapM fun x => (readRecord? names (print (toJson x))).bind ofJson?) =
      ((xs.map toJson).mapM (settleAs (maxDepth - 2) (.ofNames names))).bind
        fun ws => ws.mapM ofJson? := by
  rw [mapM_bind, List.mapM_map]
  simp only [readRecord?_print, Function.comp_def]

/-! ## What stays the same -/

/-- An embedding comes back with its length. -/
theorem Embedding.size_of_back? {v w : Embedding} (h : Embedding.back? v = some w) :
    w.size = v.size := by
  obtain ⟨xs, hxs, rfl⟩ := Option.map_eq_some_iff.mp h
  rw [List.size_toArray, ← (forall₂_of_mapM hxs).length_eq, Array.length_toList]

/-- **A vector with an infinite or undefined entry does not come back.** -/
theorem Embedding.back?_of_not_isFinite {v : Embedding} {x : Float32} (hx : x ∈ v)
    (h : x.isFinite = false) : Embedding.back? v = none := by
  have hentry : Embedding.entryBack? x = none := by
    rw [Embedding.entryBack?, settleNumber_single_of_not_isFinite h]
    rfl
  rw [Embedding.back?, mapM_eq_none (Array.mem_toList_iff.mpr hx) hentry]
  rfl

namespace Node

/-- A node comes back under its identifier, with an embedding only if it had one, and with
    one of the same length. -/
theorem of_back? {n m : Node} (h : n.back? = some m) : m.id = n.id ∧
    ∀ v, m.embedding = some v → ∃ w, n.embedding = some w ∧ v.size = w.size := by
  rw [back?_eq] at h
  obtain ⟨a, -, h⟩ := Option.bind_eq_some_iff.mp h
  obtain ⟨v?, hv?, rfl⟩ := Option.map_eq_some_iff.mp h
  refine ⟨rfl, ?_⟩
  rintro v rfl
  cases hn : n.embedding with
  | none =>
      rw [hn] at hv?
      cases hv?
  | some w =>
      rw [hn] at hv?
      obtain ⟨u, hu, heq⟩ := Option.map_eq_some_iff.mp hv?
      cases heq
      exact ⟨w, rfl, Embedding.size_of_back? hu⟩

/-- **A node with a number that is not finite does not come back.** -/
theorem back?_of_not_isFinite {n : Node} (h : ¬ n.IsFinite) : n.back? = none := by
  rw [IsFinite] at h
  push Not at h
  obtain ⟨v, hv, x, hx, hfinite⟩ := h
  rw [back?_eq, Option.mem_def.mp hv]
  dsimp only
  rw [Embedding.back?_of_not_isFinite hx (Bool.eq_false_iff.mpr hfinite)]
  cases Attributes.back? n.attributes <;> rfl

end Node

/-- An edge comes back between the same ends. -/
theorem Edge.of_back? {e f : Edge} (h : e.back? = some f) :
    f.source = e.source ∧ f.target = e.target := by
  rw [back?_eq] at h
  obtain ⟨a, -, rfl⟩ := Option.map_eq_some_iff.mp h
  exact ⟨rfl, rfl⟩

/-! ## Documents -/

namespace Snapshot

/-- The fields of a document with other values for its lists. -/
def Document.fields (d : Document) (nodes edges : Json) : List (String × Json) :=
  [("format_version", ofUInt32 formatVersion), ("graph_id", .string d.graphId.toText),
    ("created_at", .string d.createdAt.text), ("checksum", .string d.checksum),
    ("nodes", nodes), ("edges", edges)]

/-- A document comes back if its nodes and its edges do. -/
theorem settleAs_fields (d : Document) (nodes edges : Json) :
    settleAs maxDepth documentShape (.object (d.fields nodes edges)) =
      (settleAs 126 (.items (.ofNames Node.fieldNames)) nodes).bind fun ns =>
        (settleAs 126 (.items (.ofNames Edge.fieldNames)) edges).map fun es =>
          .object (d.fields ns es) := by
  rw [show maxDepth = 126 + 1 from rfl, documentShape, settleAs]
  cases hns : settleAs 126 (.items (.ofNames Node.fieldNames)) nodes with
  | none =>
      simp [Document.fields, settleField, List.lookup_cons, settleAs_whole, settle_string,
        settle_formatVersion, hns]
  | some ns =>
      cases hes : settleAs 126 (.items (.ofNames Edge.fieldNames)) edges <;>
        simp [Document.fields, settleField, List.lookup_cons, settleAs_whole, settle_string,
          settle_formatVersion, hns, hes]

theorem ofJson?_fields (d : Document) (nodes edges : Json) :
    Document.ofJson? (.object (d.fields nodes edges)) =
      (list? Node.ofJson? nodes).bind fun ns => (list? Edge.ofJson? edges).map fun es =>
        { d with nodes := ns, edges := es } := by
  simp [Document.fields, Document.ofJson?, record?, uniqueField?, required, asString?,
    Uuid.ofText?_toText, Moment.ofText?_text, List.filter, Option.map_eq_bind]

/-- A list of records comes back record by record. -/
theorem list?_settleAs {α : Type} (names : List String) (toJson : α → Json)
    (ofJson? : Json → Option α) (xs : List α) :
    ((settleAs 126 (.items (.ofNames names)) (.array (xs.map toJson))).bind (list? ofJson?)) =
      xs.mapM fun x => (readRecord? names (print (toJson x))).bind ofJson? := by
  rw [mapM_back?, settleAs, show maxDepth - 2 = 125 from rfl]
  cases (xs.map toJson).mapM (settleAs 125 (.ofNames names)) <;> rfl

/-- **What a document comes back as:** the same with the records as they come back. -/
theorem parse_render_eq (d : Document) : Document.parse d.render =
    ((d.nodes.mapM Node.back?).bind fun ns => (d.edges.mapM Edge.back?).map fun es =>
      { d with nodes := ns, edges := es }).elim (.error .json) .ok := by
  have hjson : d.toJson = .object
      (d.fields (.array (d.nodes.map Node.toJson)) (.array (d.edges.map Edge.toJson))) := rfl
  have hnodes : _ = d.nodes.mapM Node.back? :=
    list?_settleAs Node.fieldNames Node.toJson Node.ofJson? d.nodes
  have hedges : _ = d.edges.mapM Edge.back? :=
    list?_settleAs Edge.fieldNames Edge.toJson Edge.ofJson? d.edges
  have hdocument : (parseAs? documentShape d.render.toList).bind Document.ofJson? =
      (d.nodes.mapM Node.back?).bind fun ns => (d.edges.mapM Edge.back?).map fun es =>
        { d with nodes := ns, edges := es } := by
    rw [← hnodes, ← hedges, Document.render, Json.render, String.toList_ofList, parseAs?_print,
      hjson, settleAs_fields]
    cases settleAs 126 (.items (.ofNames Node.fieldNames)) (.array (d.nodes.map Node.toJson)) with
    | none => rfl
    | some ns =>
        cases settleAs 126 (.items (.ofNames Edge.fieldNames))
            (.array (d.edges.map Edge.toJson)) with
        | none => simp
        | some es =>
            rw [Option.bind_some, Option.map_some, Option.bind_some, ofJson?_fields]
            rfl
  rw [Document.parse, readVersion?_render, hdocument]
  cases (d.nodes.mapM Node.back?).bind fun ns => (d.edges.mapM Edge.back?).map fun es =>
    { d with nodes := ns, edges := es } <;> rfl

/-! ## Loading -/

open FileTree

variable {g : FrozenGraph} {createdAt : Moment} {path : String} {t t' : FileTree} {info : Info}
  {nodes ns : List Node} {edges es : List Edge}

/-- What makes a graph makes one again with the records as they come back. -/
theorem Admissible.back (h : Admissible nodes edges) (hns : nodes.mapM Node.back? = some ns)
    (hes : edges.mapM Edge.back? = some es) : Admissible ns es := by
  have hids : ns.map (·.id) = nodes.map (·.id) :=
    map_eq_of_mapM (fun _ _ hback => (Node.of_back? hback).1) hns
  obtain ⟨d, hsize⟩ := h.oneLength
  refine ⟨hids ▸ h.distinct, fun f hf => ?_, d, fun m hm v hv => ?_⟩
  · obtain ⟨e, he, hback⟩ := exists_of_mem_mapM hes hf
    obtain ⟨hsource, htarget⟩ := Edge.of_back? hback
    rw [hids, hsource, htarget]
    exact h.ends e he
  · obtain ⟨n, hn, hback⟩ := exists_of_mem_mapM hns hm
    obtain ⟨w, hw, heq⟩ := (Node.of_back? hback).2 v hv
    rw [heq]
    exact hsize n hn w hw

/-- The nodes and edges of a reachable store make a graph. -/
theorem admissible_of_reachable {s : Store} (hs : s.Reachable) :
    Admissible s.nodeList s.edges.toList := (restore_ok (restore_nodeList hs)).1

/-- Loading a saved graph is reading the text of its document. -/
theorem load_eq_of_save (hsave : (save FileTree.files g createdAt path).run t = (.ok info, t')) :
    (load FileTree.files path).run t' =
      (Snapshot.read path (Document.ofGraph g createdAt).render, t') := by
  have htext := readText_of_read (read_of_save hsave).1
  rw [load, StateT.run_bind, htext]
  rfl

/-- A graph one of whose records does not come back is not loaded. -/
theorem load_of_back?_eq_none {n : Node} (hn : n ∈ g.store.nodeList) (hback : n.back? = none)
    (hsave : (save FileTree.files g createdAt path).run t = (.ok info, t')) :
    (load FileTree.files path).run t' = (.error .json, t') := by
  have hparse : Document.parse (Document.ofGraph g createdAt).render = .error .json := by
    rw [parse_render_eq]
    show Option.elim ((g.store.nodeList.mapM Node.back?).bind _) _ _ = _
    rw [mapM_eq_none hn hback]
    rfl
  rw [load_eq_of_save hsave, Snapshot.read, hparse]
  rfl

/-- What is read of the text of a document is the document with the records as they come
    back. -/
theorem of_parse_render {d d' : Document} (h : Document.parse d.render = .ok d') :
    ∃ ns es, d.nodes.mapM Node.back? = some ns ∧ d.edges.mapM Edge.back? = some es ∧
      d' = { d with nodes := ns, edges := es } := by
  rw [parse_render_eq] at h
  cases hns : d.nodes.mapM Node.back? with
  | none =>
      rw [hns] at h
      cases h
  | some ns =>
      cases hes : d.edges.mapM Edge.back? with
      | none =>
          rw [hns, hes] at h
          cases h
      | some es =>
          rw [hns, hes] at h
          cases h
          exact ⟨ns, es, rfl, rfl, rfl⟩

/-- The text of a document is accepted if its records come back, and if what comes back
    has the checksum of the document and makes a graph. -/
theorem exists_read_render_iff (path : String) (d : Document) :
    (∃ g', Snapshot.read path d.render = .ok g') ↔
    ∃ ns es, d.nodes.mapM Node.back? = some ns ∧ d.edges.mapM Edge.back? = some es ∧
      checksum ns es = d.checksum ∧ Admissible ns es := by
  constructor
  · rintro ⟨g', hread⟩
    obtain ⟨d', hparse, hsealed, hrestore, -⟩ := read_eq_ok_iff.mp hread
    obtain ⟨ns, es, hns, hes, rfl⟩ := of_parse_render hparse
    exact ⟨ns, es, hns, hes, hsealed, (restore_ok hrestore).1⟩
  · rintro ⟨ns, es, hns, hes, hsealed, hadmissible⟩
    obtain ⟨s, hrestore, -⟩ := restore_of_admissible hadmissible
    refine ⟨⟨d.graphId, s⟩, read_eq_ok_iff.mpr
      ⟨{ d with nodes := ns, edges := es }, ?_, hsealed, hrestore, rfl⟩⟩
    rw [parse_render_eq, hns, hes]
    rfl

/-- **A saved graph is loaded exactly if all its records come back and what comes back has
    the checksum that was saved;** and no graph is loaded that has an embedding with a
    number that is not finite. -/
theorem load_of_save_iff (hs : g.store.Reachable)
    (hsave : (save FileTree.files g createdAt path).run t = (.ok info, t')) :
    ((∃ g', (load FileTree.files path).run t' = (.ok g', t')) ↔
      ∃ ns es, g.store.nodeList.mapM Node.back? = some ns ∧
        g.store.edges.toList.mapM Edge.back? = some es ∧ checksum ns es = info.checksum) ∧
    ∀ n ∈ g.store.nodeList, ¬ n.IsFinite →
      (load FileTree.files path).run t' = (.error .json, t') := by
  refine ⟨?_, fun n hn hfinite =>
    load_of_back?_eq_none hn (Node.back?_of_not_isFinite hfinite) hsave⟩
  have hread := exists_read_render_iff path (Document.ofGraph g createdAt)
  rw [load_eq_of_save hsave, (read_of_save hsave).2]
  constructor
  · rintro ⟨g', hload⟩
    obtain ⟨ns, es, hns, hes, hsealed, -⟩ := hread.mp ⟨g', (Prod.mk.inj hload).1⟩
    exact ⟨ns, es, hns, hes, hsealed⟩
  · rintro ⟨ns, es, hns, hes, hsealed⟩
    have hadmissible := (admissible_of_reachable hs).back hns hes
    obtain ⟨g', hg'⟩ := hread.mpr ⟨ns, es, hns, hes, hsealed, hadmissible⟩
    refine ⟨g', ?_⟩
    rw [hg']

/-- The sample comes back, and so it is loaded. -/
theorem loads_sampleGraph : ∃ info t',
    (save FileTree.files sampleGraph Moment.epoch "graph.json").run {} = (.ok info, t') ∧
      ∃ g', (load FileTree.files "graph.json").run t' = (.ok g', t') := by
  obtain ⟨info, t', hsave⟩ := exists_save sampleGraph Moment.epoch
  have hnodes : sample.nodeList.mapM Node.back? = some sample.nodeList := by decide +kernel
  have hedges : sample.edges.toList.mapM Edge.back? = some sample.edges.toList := by
    decide +kernel
  refine ⟨info, t', hsave, (load_of_save_iff (g := sampleGraph) reachable_sample hsave).1.mpr ?_⟩
  exact ⟨_, _, hnodes, hedges, (read_of_save hsave).2.symm⟩

/-- One function, with a vector of two numbers that are not finite. -/
def infinite? : Except GraphError Store := do
  let s ← ({} : Store).addNode ⟨"a"⟩ .function ∅
  s.attachEmbedding ⟨"a"⟩ #[Float32.ofBits 0x7f800000, Float32.ofBits 0xff800000]

def infinite : Store := infinite?.toOption.getD {}

theorem infinite?_eq_ok : infinite? = .ok infinite := by
  have hok : infinite?.toOption.isSome = true := by decide +kernel
  rw [infinite]
  cases hinfinite : infinite? with
  | ok s => rfl
  | error e =>
      rw [hinfinite] at hok
      cases hok

/-- A store that changes lead to is saved, and cannot be loaded. -/
theorem infinite_is_saved_not_loaded : infinite.Reachable ∧ ∃ info t',
    (save FileTree.files ⟨⟨7⟩, infinite⟩ Moment.epoch "graph.json").run {} = (.ok info, t') ∧
      (load FileTree.files "graph.json").run t' = (.error .json, t') := by
  obtain ⟨s, hnode, hembedding⟩ := bind_ok infinite?_eq_ok
  refine ⟨(Store.Reachable.empty.addNode hnode).attachEmbedding hembedding, ?_⟩
  obtain ⟨info, t', hsave⟩ := exists_save ⟨⟨7⟩, infinite⟩ Moment.epoch
  have hback : ∃ n ∈ infinite.nodeList, n.back? = none := by decide +kernel
  obtain ⟨n, hn, hback⟩ := hback
  exact ⟨info, t', hsave, load_of_back?_eq_none (g := ⟨⟨7⟩, infinite⟩) hn hback hsave⟩

end Snapshot

end CodeGraph

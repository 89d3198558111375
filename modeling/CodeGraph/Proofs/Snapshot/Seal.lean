import CodeGraph.Proofs.Snapshot.Alike
import CodeGraph.Proofs.Text.Utf8
/-! # Seals — a checksum stands for the nodes and edges

    The checksum of a document is the digest of its nodes and edges as they would be
    written again, whatever else the text says and however it is laid out.

    * The digest is taken of a text, and its hexadecimal digits tell all of it, so two
      documents with one checksum are written alike unless the digests collide
      (`print_eq_of_checksum_eq`).
    * What is written alike is alike, and so a text with the checksum of a saved graph is
      accepted with the store of that graph only (`LoadsAs.store_eq`).
    * What was saved is loaded as it was or not at all (`store_eq_of_load_of_save`).
    * Whatever text is accepted, the store holds its nodes and edges and no others
      (`LoadsAs.holds`). -/

namespace CodeGraph

namespace Sha256

/-- Two messages with one digest. -/
def Collide (a b : List UInt8) : Prop := a ≠ b ∧ digest a = digest b

theorem hexDigit_inj {m n : Nat} (hm : m < 16) (hn : n < 16)
    (h : Text.hexDigit m = Text.hexDigit n) : m = n := by
  have hvalue := congrArg Text.hexValue? h
  have hleft : Text.hexValue? (Text.hexDigit m) = some m := Text.hexValue?_hexDigit ⟨m, hm⟩
  have hright : Text.hexValue? (Text.hexDigit n) = some n := Text.hexValue?_hexDigit ⟨n, hn⟩
  rw [hleft, hright] at hvalue
  exact Option.some.inj hvalue

theorem hex_inj {a b : List UInt8} (h : hex a = hex b) : a = b := by
  rw [hex, hex, String.ofList_inj] at h
  induction a generalizing b with
  | nil =>
      cases b with
      | nil => rfl
      | cons y b => cases h
  | cons x a ih =>
      cases b with
      | nil => cases h
      | cons y b =>
          rw [List.flatMap_cons, List.flatMap_cons] at h
          obtain ⟨hhigh, h⟩ := List.cons.inj h
          obtain ⟨hlow, h⟩ := List.cons.inj h
          have hx := x.toNat_lt
          have hy := y.toNat_lt
          have hhigh := hexDigit_inj (by omega) (by omega) hhigh
          have hlow := hexDigit_inj (by omega) (by omega) hlow
          have hxy : x = y := UInt8.toNat_inj.mp (by omega)
          rw [hxy, ih h]

end Sha256

namespace Snapshot

open FileTree

/-- The bytes that a checksum is the digest of. -/
def bodyBytes (nodes : List Node) (edges : List Edge) : List UInt8 :=
  (Json.object (body nodes edges)).render.toUTF8.toList

/-- Nodes and edges with one checksum are written alike, unless the digests collide. -/
theorem print_eq_of_checksum_eq {nodes ns : List Node} {edges es : List Edge}
    (h : checksum nodes edges = checksum ns es)
    (hsha : ¬ Sha256.Collide (bodyBytes nodes edges) (bodyBytes ns es)) :
    Json.print (.object (body nodes edges)) = Json.print (.object (body ns es)) := by
  have hbytes : bodyBytes nodes edges = bodyBytes ns es := by
    by_contra hne
    exact hsha ⟨hne, Sha256.hex_inj h⟩
  have htext := String.toByteArray_inj.mp (toList_inj hbytes)
  exact String.ofList_inj.mp htext

/-! ## Texts that are accepted -/

/-- A text that is loaded as a graph from some file. -/
def LoadsAs (text : String) (g : FrozenGraph) : Prop :=
  ∃ (path : String) (t t' : FileTree), t.read path = .ok text.toUTF8 ∧
    (load FileTree.files path).run t = (.ok g, t')

variable {g g' : FrozenGraph} {createdAt : Moment} {path text : String} {t t' : FileTree}
  {info : Info}

/-- An accepted text is a document that is sealed by its checksum and makes the graph. -/
theorem LoadsAs.exists_document (h : LoadsAs text g) : ∃ d, Document.parse text = .ok d ∧
    checksum d.nodes d.edges = d.checksum ∧ restore d.nodes d.edges = .ok g.store := by
  obtain ⟨path, t, t', htext, hload⟩ := h
  rw [load, StateT.run_bind, readText_of_read htext] at hload
  obtain ⟨d, hparse, hsealed, hrestore, -⟩ := read_eq_ok_iff.mp (Prod.mk.inj hload).1
  exact ⟨d, hparse, hsealed, hrestore⟩

/-- What an accepted text is: its nodes have identifiers of their own, its edges have their
    ends, its embeddings have one length, and the graph has these nodes and edges. -/
theorem LoadsAs.holds (h : LoadsAs text g) : ∃ d, Document.parse text = .ok d ∧
    Admissible d.nodes d.edges ∧ Holds d.nodes d.edges g.store ∧ g.store.Reachable ∧
      Admissible g.store.nodeList g.store.edges.toList := by
  obtain ⟨d, hparse, -, hrestore⟩ := h.exists_document
  obtain ⟨hadmissible, hreach, hholds⟩ := restore_ok hrestore
  exact ⟨d, hparse, hadmissible, hholds, hreach, admissible_of_reachable hreach⟩

/-- What has to be known of the printer: bodies with one text have records that are alike.
    Of plain attributes it is known (`forall₂_of_print_body`). -/
def ToldByText (nodes ns : List Node) (edges es : List Edge) : Prop :=
  IsPlain ns es ∨ (Json.print (.object (body nodes edges)) = Json.print (.object (body ns es)) →
    List.Forall₂ Node.Alike nodes ns ∧ edges = es)

/-- **A checksum tells the store:** whatever a text with the checksum of a saved graph says
    otherwise, it is not accepted but with the store of that graph. -/
theorem LoadsAs.store_eq {d : Document} (h : LoadsAs text g') (hs : g.store.Reachable)
    (hfinite : ∀ n ∈ g.store.nodeList, n.IsFinite)
    (hsave : (save FileTree.files g createdAt path).run t = (.ok info, t'))
    (hparse : Document.parse text = .ok d) (hchecksum : d.checksum = info.checksum)
    (hsha : ¬ Sha256.Collide (bodyBytes d.nodes d.edges)
      (bodyBytes g.store.nodeList g.store.edges.toList))
    (htold : ToldByText d.nodes g.store.nodeList d.edges g.store.edges.toList) :
    g'.store = g.store := by
  obtain ⟨d', hparse', hsealed, hrestore⟩ := h.exists_document
  obtain rfl : d' = d := Except.ok.inj (hparse'.symm.trans hparse)
  rw [hchecksum, (read_of_save hsave).2] at hsealed
  have hprint := print_eq_of_checksum_eq hsealed hsha
  have halike : List.Forall₂ Node.Alike d'.nodes g.store.nodeList ∧
      d'.edges = g.store.edges.toList := by
    rcases htold with hplain | htold
    · exact forall₂_of_print_body (isPlain_of_parse hparse) hplain hprint
    · exact htold hprint
  rw [eq_of_forall₂_alike halike.1 hfinite, halike.2, restore_nodeList hs] at hrestore
  exact (Except.ok.inj hrestore).symm

/-- **A saved graph is loaded with its store or not at all.** -/
theorem store_eq_of_load_of_save (hs : g.store.Reachable)
    (hplain : IsPlain g.store.nodeList g.store.edges.toList)
    (hsave : (save FileTree.files g createdAt path).run t = (.ok info, t'))
    (hload : (load FileTree.files path).run t' = (.ok g', t'))
    (hsha : ∀ ns es, g.store.nodeList.mapM Node.back? = some ns →
      g.store.edges.toList.mapM Edge.back? = some es →
        ¬ Sha256.Collide (bodyBytes ns es)
          (bodyBytes g.store.nodeList g.store.edges.toList)) : g'.store = g.store := by
  have hfinite : ∀ n ∈ g.store.nodeList, n.IsFinite := by
    intro n hn
    by_contra hnot
    rw [load_of_back?_eq_none hn (Node.back?_of_not_isFinite hnot) hsave] at hload
    cases hload
  have hloads : LoadsAs (Document.ofGraph g createdAt).render g' :=
    ⟨path, t', t', (read_of_save hsave).1, hload⟩
  obtain ⟨d, hparse, -⟩ := hloads.exists_document
  obtain ⟨ns, es, hns, hes, rfl⟩ := of_parse_render hparse
  exact hloads.store_eq hs hfinite hsave hparse (read_of_save hsave).2.symm
    (hsha ns es hns hes) (Or.inl hplain)

/-- **A checksum stands for the store:** a text with the checksum of a saved graph is not
    accepted but as that graph, and an accepted graph is well formed whatever the text. -/
theorem loadsAs_sealed (hs : g.store.Reachable) (hfinite : ∀ n ∈ g.store.nodeList, n.IsFinite)
    (hsave : (save FileTree.files g createdAt path).run t = (.ok info, t')) :
    (∀ text g', LoadsAs text g' →
      (∀ d, Document.parse text = .ok d → d.checksum = info.checksum ∧
        ¬ Sha256.Collide (bodyBytes d.nodes d.edges)
          (bodyBytes g.store.nodeList g.store.edges.toList) ∧
        ToldByText d.nodes g.store.nodeList d.edges g.store.edges.toList) →
      g'.store = g.store) ∧
    ∀ text g', LoadsAs text g' → ∃ d, Document.parse text = .ok d ∧
      Admissible d.nodes d.edges ∧ Holds d.nodes d.edges g'.store ∧ g'.store.Reachable ∧
        Admissible g'.store.nodeList g'.store.edges.toList := by
  refine ⟨fun text g' hloads hfield => ?_, fun text g' hloads => hloads.holds⟩
  obtain ⟨d, hparse, -⟩ := hloads.exists_document
  obtain ⟨hchecksum, hsha, htold⟩ := hfield d hparse
  exact hloads.store_eq hs hfinite hsave hparse hchecksum hsha htold

/-- The sample under another identifier has the checksum of the sample, and is accepted
    with its store. -/
theorem loadsAs_sealed_sample : ∃ info t' g',
    (save FileTree.files sampleGraph Moment.epoch "graph.json").run {} = (.ok info, t') ∧
      LoadsAs (Document.ofGraph ⟨⟨7⟩, sample⟩ Moment.epoch).render g' ∧
      g'.id ≠ sampleGraph.id ∧ g'.store = sample := by
  obtain ⟨info, t', hsave⟩ := exists_save sampleGraph Moment.epoch
  obtain ⟨info₇, t₇, hsave₇⟩ := exists_save ⟨⟨7⟩, sample⟩ Moment.epoch
  have hnodes : ∀ n ∈ sample.nodeList, n.ReadsBack := by decide +kernel
  have hedges : ∀ e ∈ sample.edges, e.ReadsBack := by decide +kernel
  have hfinite : ∀ n ∈ sample.nodeList, n.IsFinite := by decide +kernel
  have hload : (load FileTree.files "graph.json").run t₇ = (.ok ⟨⟨7⟩, sample⟩, t₇) := by
    rw [load_eq_of_save hsave₇, read_render Moment.epoch _ reachable_sample hnodes hedges]
  have hloads : LoadsAs (Document.ofGraph ⟨⟨7⟩, sample⟩ Moment.epoch).render ⟨⟨7⟩, sample⟩ :=
    ⟨_, t₇, t₇, (read_of_save hsave₇).1, hload⟩
  refine ⟨info, t', ⟨⟨7⟩, sample⟩, hsave, hloads, by decide, ?_⟩
  refine (loadsAs_sealed (g := sampleGraph) reachable_sample hfinite hsave).1 _ _ hloads ?_
  have hread := parse_render (d := Document.ofGraph ⟨⟨7⟩, sample⟩ Moment.epoch) hnodes
    fun e he => hedges e (Array.mem_toList_iff.mp he)
  have hplain := isPlain_of_parse hread
  intro d hparse
  rw [hread] at hparse
  cases hparse
  exact ⟨(read_of_save hsave).2.symm, fun h => h.1 rfl, Or.inl hplain⟩

end Snapshot

end CodeGraph

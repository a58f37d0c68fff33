import TopologyFabric.Serialization.Accepted
import TopologyFabric.Serialization.RoundTrip

/-!
# Compact and Pretty Texts

The two texts of a snapshot are the same value with different whitespace, so the parser makes the
same value of both, and what comes behind the parser does not look at the text again.

## Main results

- `parse_modes`: the parser makes no difference between the two texts of a value
- `deserialize_modes`: both texts of a snapshot are accepted or neither is, with the same result
-/

namespace TopologyFabric

open Library Json

/-! ## Values -/

/-- The two texts of a value whose strings are not too long are both accepted, with the same value,
or both rejected. -/
theorem Json.parse_modes {opt : ParseOptions} {v : Value}
    (hfit : v.Fits opt.maxDepth (fun s => s.length ≤ opt.maxStringBytes) 0) :
    ∃ r r', parse opt (dump .pretty v) = .ok r ∧ parse opt (dump .compact v) = .ok r' ∧
      r.ok = r'.ok ∧ (r.ok = true → r.value = r'.value) := by
  obtain ⟨r, hr, hok, hvalue⟩ := parse_written_iff hfit .pretty
  obtain ⟨r', hr', hok', hvalue'⟩ := parse_written_iff hfit .compact
  have hsame : r.ok = r'.ok := Bool.eq_iff_iff.mpr (hok.trans hok'.symm)
  refine ⟨r, r', hr, hr', hsame, fun h => ?_⟩
  rw [hvalue h, hvalue' (hsame ▸ h)]

/-! ## Texts with one value -/

section Texts

variable {bounds : Bounds} {text text' : Bytes} {root : Value} {nodes edges : List Value}

/-- Short texts that are parsed as the same value are the same document. -/
theorem AcceptedText.congr {r r' : ParseResult} (hr : parse {} text = .ok r)
    (hr' : parse {} text' = .ok r') (hok : r.ok = r'.ok) (hvalue : r.ok = true → r.value = r'.value)
    (hshort : text'.length ≤ bounds.maxSnapshotBytes)
    (h : AcceptedText bounds text root nodes edges) :
    AcceptedText bounds text' root nodes edges := by
  obtain ⟨⟨p, hp, hpok, hroot⟩, -, hdocument⟩ := h
  obtain rfl := Outcome.ok.inj (hr.symm.trans hp)
  exact ⟨⟨r', hr', hok ▸ hpok, (hvalue hpok).symm.trans hroot⟩, hshort, hdocument⟩

theorem ReadAs.unique {α : Type} {read : Value → Run α} {entries : List Value} {l l' : List α}
    (h : ReadAs read entries l) (h' : ReadAs read entries l') : l = l' :=
  List.right_unique_forall₂' (fun _ _ _ ha hb => Outcome.ok.inj (ha.symm.trans hb)) h h'

/-- Two snapshots that are read from one document agree in all but the iteration order. -/
theorem deserialize_same {order order' : IterationOrder} {snap snap' : TopologySnapshot}
    (h : deserializeSnapshotJson order text bounds = .ok snap)
    (h' : deserializeSnapshotJson order' text' bounds = .ok snap')
    (hdocument : ∀ root nodes edges, AcceptedText bounds text root nodes edges →
      AcceptedText bounds text' root nodes edges) :
    snap.metadata = snap'.metadata ∧ (∀ id, snap.findNode id = snap'.findNode id) ∧
      snap.edges = snap'.edges := by
  obtain ⟨root, nodes, edges, ns, es, haccepted, hread, htake⟩ := deserialize_eq_ok h
  obtain ⟨root', nodes', edges', ns', es', haccepted', hread', htake'⟩ := deserialize_eq_ok h'
  -- both texts are the same document, so both builders are offered the same
  obtain ⟨rfl, rfl, rfl⟩ := (hdocument _ _ _ haccepted).unique haccepted'
  obtain rfl : ns = ns' := ReadAs.unique hread.readNodes hread'.readNodes
  obtain rfl : es = es' := ReadAs.unique hread.readEdges hread'.readEdges
  obtain ⟨hnodes, hedges, hmetadata, -⟩ := SnapshotBuilder.take_eq_ok htake
  obtain ⟨hnodes', hedges', hmetadata', -⟩ := SnapshotBuilder.take_eq_ok htake'
  refine ⟨hmetadata.trans hmetadata'.symm, fun id => ?_, hedges.trans hedges'.symm⟩
  show snap.nodes.find? id = snap'.nodes.find? id
  rw [hnodes, hnodes', HashMap.find?_reorder, HashMap.find?_reorder]

end Texts

/-! ## Snapshots -/

/-- **Compact and pretty output are interchangeable.** When both texts of a snapshot are within the
bound on texts, both are accepted or neither is. The snapshots that are read have the same metadata,
the same nodes, and the same edges in the same order. -/
theorem deserialize_modes {bounds : Bounds} {snap : TopologySnapshot} (hstrings : StringsFit snap)
    (hpretty : (serializeSnapshotJson snap true).length ≤ bounds.maxSnapshotBytes)
    (hcompact : (serializeSnapshotJson snap false).length ≤ bounds.maxSnapshotBytes)
    (order order' : IterationOrder) :
    ((∃ s, deserializeSnapshotJson order (serializeSnapshotJson snap true) bounds = .ok s) ↔
      ∃ s, deserializeSnapshotJson order' (serializeSnapshotJson snap false) bounds = .ok s) ∧
    ∀ s s', deserializeSnapshotJson order (serializeSnapshotJson snap true) bounds = .ok s →
      deserializeSnapshotJson order' (serializeSnapshotJson snap false) bounds = .ok s' →
      s.metadata = s'.metadata ∧ (∀ id, s.findNode id = s'.findNode id) ∧ s.edges = s'.edges := by
  have hfit : (snapshotToJson snap).Fits ({} : ParseOptions).maxDepth
      (fun s => s.length ≤ ({} : ParseOptions).maxStringBytes) 0 :=
    snapshotToJson_fits_of_stringsFit hstrings
  -- the parser makes the same value of both texts
  obtain ⟨r, r', hr, hr', hok, hvalue⟩ := parse_modes hfit
  have hto : ∀ root nodes edges,
      AcceptedText bounds (serializeSnapshotJson snap true) root nodes edges →
      AcceptedText bounds (serializeSnapshotJson snap false) root nodes edges :=
    fun root nodes edges h => h.congr hr hr' hok hvalue hcompact
  have hfrom : ∀ root nodes edges,
      AcceptedText bounds (serializeSnapshotJson snap false) root nodes edges →
      AcceptedText bounds (serializeSnapshotJson snap true) root nodes edges :=
    fun root nodes edges h =>
      h.congr hr' hr hok.symm (fun hparsed => (hvalue (hok ▸ hparsed)).symm) hpretty
  constructor
  · rw [deserialize_returns_iff, deserialize_returns_iff]
    constructor
    · rintro ⟨root, nodes, edges, h⟩
      exact ⟨root, nodes, edges, hto _ _ _ h⟩
    · rintro ⟨root, nodes, edges, h⟩
      exact ⟨root, nodes, edges, hfrom _ _ _ h⟩
  · exact fun s s' hs hs' => deserialize_same hs hs' hto

/-- Bounds that admit both texts of a snapshot. -/
def admittingBounds (snap : TopologySnapshot) : Bounds :=
  { maxSnapshotBytes :=
      (serializeSnapshotJson snap true).length + (serializeSnapshotJson snap false).length }

theorem pretty_le_admittingBounds (snap : TopologySnapshot) :
    (serializeSnapshotJson snap true).length ≤ (admittingBounds snap).maxSnapshotBytes :=
  Nat.le_add_right _ _

theorem compact_le_admittingBounds (snap : TopologySnapshot) :
    (serializeSnapshotJson snap false).length ≤ (admittingBounds snap).maxSnapshotBytes :=
  Nat.le_add_left _ _

/-- The text of the machine and its accelerator in both modes. -/
theorem deserialize_modes_linked :
    ((∃ s, deserializeSnapshotJson .insertion (serializeSnapshotJson linkedSnapshot true)
        (admittingBounds linkedSnapshot) = .ok s) ↔
      ∃ s, deserializeSnapshotJson .insertion (serializeSnapshotJson linkedSnapshot false)
        (admittingBounds linkedSnapshot) = .ok s) ∧
    ∀ s s', deserializeSnapshotJson .insertion (serializeSnapshotJson linkedSnapshot true)
        (admittingBounds linkedSnapshot) = .ok s →
      deserializeSnapshotJson .insertion (serializeSnapshotJson linkedSnapshot false)
        (admittingBounds linkedSnapshot) = .ok s' →
      s.metadata = s'.metadata ∧ (∀ id, s.findNode id = s'.findNode id) ∧ s.edges = s'.edges :=
  deserialize_modes readable_linked.1 (pretty_le_admittingBounds _) (compact_le_admittingBounds _)
    _ _

end TopologyFabric

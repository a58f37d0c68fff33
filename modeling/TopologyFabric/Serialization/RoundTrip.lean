import TopologyFabric.Core.Validation
import TopologyFabric.Serialization.Records

/-!
# Reading a Snapshot Back

A serialized snapshot that fits the bounds is read back iff its strings are ASCII, because the
writer leaves the other bytes in place and the parser rejects them. What is read back has the same
nodes and edges, up to their properties and the facts of the links, and the same metadata, so
validation has the same verdict on it.

## Main results

- `snapshotFromJson_written`: reading the written document
- `deserialize_serialize_iff`: which serialized snapshots are read back
- `deserialize_serialize_same`: what is read back
-/

namespace TopologyFabric

open Library Json

/-! ## Metadata -/

/-- What a document keeps of the metadata. -/
structure MetadataRecord where
  snapshotId : Bytes
  createdMs : Int64
  machineIdentity : Bytes
  providerVersions : Bytes
  warnings : List Bytes
  partialDiscovery : Bool
  synthetic : Bool
  deriving DecidableEq

def SnapshotMetadata.record (m : SnapshotMetadata) : MetadataRecord :=
  ⟨m.snapshotId, m.createdMs, m.machineIdentity, m.providerVersions, m.warnings,
    m.partialDiscovery, m.synthetic⟩

theorem readStrings_written {o : Value} {k : Bytes} {l : List Bytes}
    (h : o.find k = some (Value.array (l.map .string)).reread) : readStrings o k = l := by
  rw [readStrings, h, Value.reread, Value.rereadElements_eq_map, List.map_map]
  simp only [List.filterMap_map]
  show l.filterMap some = l
  exact List.filterMap_some

theorem findArray_written {o : Value} {k : Bytes} {a : List Value}
    (h : o.find k = some (Value.array a).reread) : findArray o k = some (a.map Value.reread) := by
  rw [findArray, h, Value.reread, Value.rereadElements_eq_map]

theorem metadataFromJson_written (snap : TopologySnapshot) :
    (metadataFromJson (snapshotToJson snap).reread).record = snap.metadata.record := by
  have hfind := find_record (snapshotToJson snap) rfl
    (by simp only [List.map_cons, List.map_nil]; decide +kernel)
  generalize (snapshotToJson snap).reread = o at hfind ⊢
  rw [SnapshotMetadata.record, SnapshotMetadata.record, MetadataRecord.mk.injEq]
  refine ⟨?_, ?_, ?_, ?_, ?_, ?_, ?_⟩
  · exact readString_written (hfind _ _ (by simp only [List.mem_cons, true_or, or_true])) _
  · exact readInteger_written (hfind _ _ (by simp only [List.mem_cons, true_or, or_true])) _
  · exact readString_written (hfind _ _ (by simp only [List.mem_cons, true_or, or_true])) _
  · exact readString_written (hfind _ _ (by simp only [List.mem_cons, true_or, or_true])) _
  · exact readStrings_written (hfind _ _ (by simp only [List.mem_cons, true_or, or_true]))
  · exact readBool_written (hfind _ _ (by simp only [List.mem_cons, true_or, or_true])) _
  · exact readBool_written (hfind _ _ (by simp only [List.mem_cons, true_or, or_true])) _

/-! ## Entries -/

/-- Reading entries that can all be read: they are added one after the other, unless they are too
many. -/
theorem readEntries_written {α β γ : Type} {read : Value → Run α} {g : γ → Value} {f : γ → α}
    (hread : ∀ x, read (g x) = .ok (f x)) (bound : ℕ) (tooMany : Bytes) (add : β → α → β)
    (l : List γ) {count : ℕ} (hcount : count ≤ bound) (b : β) :
    readEntries bound tooMany read add count (l.map g) b =
      if count + l.length ≤ bound then .ok ((l.map f).foldl add b)
      else throwTopologyError .oversized tooMany := by
  induction l generalizing count b with
  | nil => simp [readEntries, hcount]
  | cons x l ih =>
    rw [List.map_cons, readEntries, List.length_cons]
    by_cases hfull : bound < count + 1
    · rw [if_pos hfull, if_neg (by omega)]
    · rw [if_neg hfull, hread x, Outcome.ok_bind, ih (by omega),
        show count + 1 + l.length = count + (l.length + 1) by omega]
      rfl

/-- What is read back from the document of a snapshot. -/
structure SameRecords (snap snap' : TopologySnapshot) : Prop where
  nodeIds : ∀ id, id ∈ snap'.nodes.keys ↔ id ∈ snap.nodes.keys
  nodes : ∀ id, (snap'.findNode id).map TopologyNode.record =
    (snap.findNode id).map TopologyNode.record
  edges : (snap'.edges.map TopologyEdge.record).Perm (snap.edges.map TopologyEdge.record)
  metadata : snap'.metadata.record = snap.metadata.record

/-- Validity depends on the records only. -/
theorem SameRecords.graphValid_iff {snap snap' : TopologySnapshot} (h : SameRecords snap snap') :
    GraphValid snap'.nodes snap'.edges ↔ GraphValid snap.nodes snap.edges := by
  -- validation reads the canonical keys of the nodes and the keys of the edges
  have hkeys : ∀ id, (snap'.nodes.find? id).map (fun n => n.native.canonicalKey) =
      (snap.nodes.find? id).map fun n => n.native.canonicalKey := by
    intro id
    have hrecords := congrArg (Option.map fun r => r.native.canonicalKey) (h.nodes id)
    rw [Option.map_map, Option.map_map] at hrecords
    exact hrecords
  have hedges : ∀ source target type,
      (∃ e ∈ snap'.edges, e.source = source ∧ e.target = target ∧ e.type = type) ↔
        ∃ e ∈ snap.edges, e.source = source ∧ e.target = target ∧ e.type = type := by
    intro source target type
    have hrecord : ∀ edges : List TopologyEdge,
        (∃ e ∈ edges, e.source = source ∧ e.target = target ∧ e.type = type) ↔
          ∃ r ∈ edges.map TopologyEdge.record,
            r.source = source ∧ r.target = target ∧ r.type = type := by
      intro edges
      simp only [List.mem_map, exists_exists_and_eq_and]
      rfl
    rw [hrecord, hrecord]
    simp only [h.edges.mem_iff]
  constructor
  · exact GraphValid.congr (fun id => (hkeys id).symm) fun source target type =>
      (hedges source target type).symm
  · exact GraphValid.congr hkeys hedges

/-- The nodes and edges of the snapshot are within the bounds. -/
def WithinBounds (bounds : Bounds) (snap : TopologySnapshot) : Prop :=
  snap.nodes.size ≤ bounds.maxNodes ∧ snap.edges.length ≤ bounds.maxEdges

instance (bounds : Bounds) (snap : TopologySnapshot) : Decidable (WithinBounds bounds snap) :=
  inferInstanceAs (Decidable (_ ∧ _))

/-- A node map with the entries of another one, reread one by one, has the same records. -/
private theorem records_of_entries {nodes nodes' : NodeMap}
    {readNode : TopologyNodeId → TopologyNode → TopologyNode}
    (hrecord : ∀ id n, (readNode id n).record = n.record)
    (hentries : nodes'.entries.Perm (nodes.entries.map fun e => (e.1, readNode e.1 e.2)))
    (id : TopologyNodeId) :
    (nodes'.find? id).map TopologyNode.record = (nodes.find? id).map TopologyNode.record := by
  apply Option.ext
  intro r
  simp only [Option.map_eq_some_iff, HashMap.find?_eq_some, hentries.mem_iff, List.mem_map,
    Prod.mk.injEq]
  constructor
  · rintro ⟨n', ⟨⟨id', n⟩, hn, rfl, rfl⟩, rfl⟩
    exact ⟨n, hn, (hrecord _ _).symm⟩
  · rintro ⟨n, hn, rfl⟩
    exact ⟨_, ⟨(id, n), hn, rfl, rfl⟩, hrecord _ _⟩

/-- A builder that is filled with the reread nodes and edges gives back the records. -/
private theorem take_reread (order : IterationOrder) {snap : TopologySnapshot} {bounds : Bounds}
    (hbounds : WithinBounds bounds snap) {readNode : TopologyNodeId → TopologyNode → TopologyNode}
    {readEdge : TopologyEdge → TopologyEdge} (hid : ∀ id n, (readNode id n).id = id)
    (hnode : ∀ id n, (readNode id n).record = n.record) (hedge : ∀ e, (readEdge e).record = e.record)
    {metadata : SnapshotMetadata} (hmetadata : metadata.record = snap.metadata.record) :
    ∃ snap', ((((sortedEdges snap).map readEdge).foldl (fun b e => (SnapshotBuilder.addEdge b e).2)
        (((sortedNodes snap).map fun e => readNode e.1 e.2).foldl
          (fun b n => (SnapshotBuilder.addNode b n).2)
          (SnapshotBuilder.new bounds))).setMetadata metadata).take order = .ok snap' ∧
      SameRecords snap snap' := by
  have hnodesPerm : (sortedNodes snap).Perm snap.nodes.entries := List.perm_insertionSort _ _
  have hedgesPerm : (sortedEdges snap).Perm snap.edges := List.perm_insertionSort _ _
  have hids : ((sortedNodes snap).map fun e => readNode e.1 e.2).map TopologyNode.id =
      (sortedNodes snap).map Prod.fst := by
    rw [List.map_map]
    exact List.map_congr_left fun e _ => hid e.1 e.2
  -- the builder drops nothing: the ids are distinct and there is room for all
  have hnodup : (((sortedNodes snap).map fun e => readNode e.1 e.2).map TopologyNode.id).Nodup := by
    rw [hids]
    exact (hnodesPerm.map Prod.fst).nodup_iff.mpr snap.nodes.nodup
  have hnodesRoom : ((sortedNodes snap).map fun e => readNode e.1 e.2).length ≤
      bounds.maxNodes := by
    rw [List.length_map, hnodesPerm.length_eq]
    exact hbounds.1
  have hedgesRoom : ((sortedEdges snap).map readEdge).length ≤ bounds.maxEdges := by
    rw [List.length_map, hedgesPerm.length_eq]
    exact hbounds.2
  obtain ⟨snap', hsnap', hentries, hedges', hmetadata'⟩ :=
    SnapshotBuilder.take_filled hnodup hnodesRoom hedgesRoom metadata order
  have hnodes : snap'.nodes.entries.Perm
      (snap.nodes.entries.map fun e => (e.1, readNode e.1 e.2)) := by
    refine hentries.trans ?_
    rw [List.map_map]
    refine .trans (.of_eq (List.map_congr_left fun e _ => ?_)) (hnodesPerm.map _)
    rw [Function.comp, hid e.1 e.2]
  refine ⟨snap', hsnap', ?_, records_of_entries hnode hnodes, ?_, hmetadata' ▸ hmetadata⟩
  · intro id
    have hkeys := hnodes.map Prod.fst
    rw [List.map_map] at hkeys
    exact hkeys.mem_iff
  · rw [hedges', List.map_map]
    refine .trans (.of_eq (List.map_congr_left fun e _ => ?_)) (hedgesPerm.map _)
    exact hedge e

/-- Reading the document of a snapshot: it is read back if it is within the bounds, else it is
rejected. -/
theorem snapshotFromJson_written (order : IterationOrder) (snap : TopologySnapshot)
    (bounds : Bounds) :
    (WithinBounds bounds snap → ∃ snap',
      snapshotFromJson order (snapshotToJson snap).reread bounds = .ok snap' ∧
        SameRecords snap snap') ∧
    (¬ WithinBounds bounds snap →
      Rejects (snapshotFromJson order (snapshotToJson snap).reread bounds)) := by
  choose readNode hreadNode hid hnodeRecord using nodeFromJson_written
  choose readEdge hreadEdge hedgeRecord using edgeFromJson_written
  have hmetadata := metadataFromJson_written snap
  have hfind := find_record (snapshotToJson snap) rfl
    (by simp only [List.map_cons, List.map_nil]; decide +kernel)
  have hobject : (snapshotToJson snap).reread.isObject = true := rfl
  generalize (snapshotToJson snap).reread = o at hfind hmetadata hobject ⊢
  have hformat : readString o (str "format") [] = str "topology_fabric_snapshot" :=
    readString_written (hfind _ _ (by simp only [List.mem_cons, true_or, or_true])) _
  have hnodes := findArray_written (hfind (str "nodes")
    (.array ((sortedNodes snap).map fun e => nodeToJson e.1 e.2))
    (by simp only [List.mem_cons, true_or, or_true]))
  have hedges := findArray_written (hfind (str "edges") (.array ((sortedEdges snap).map edgeToJson))
    (by simp only [List.mem_cons, true_or, or_true]))
  rw [List.map_map] at hnodes hedges
  have hreadNodes := readEntries_written
    (fun e : TopologyNodeId × TopologyNode => hreadNode e.1 e.2) bounds.maxNodes
    (str "node count exceeds bound") (fun b n => (SnapshotBuilder.addNode b n).2)
    (sortedNodes snap) (Nat.zero_le _) (SnapshotBuilder.new bounds)
  have hreadEdges := fun b => readEntries_written hreadEdge bounds.maxEdges
    (str "edge count exceeds bound") (fun b e => (SnapshotBuilder.addEdge b e).2) (sortedEdges snap)
    (Nat.zero_le _) b
  have hsizes : (sortedNodes snap).length = snap.nodes.size :=
    (List.perm_insertionSort _ _).length_eq
  have hlengths : (sortedEdges snap).length = snap.edges.length :=
    (List.perm_insertionSort _ _).length_eq
  simp only [Nat.zero_add, hsizes, hlengths] at hreadNodes hreadEdges
  -- both loops either add all entries or reject the document
  rw [snapshotFromJson_eq hobject hformat hnodes hedges, Function.comp_def, Function.comp_def,
    hreadNodes]
  simp only [hreadEdges]
  constructor
  · intro hbounds
    rw [if_pos hbounds.1, Outcome.ok_bind, if_pos hbounds.2, Outcome.ok_bind]
    exact take_reread order hbounds hid hnodeRecord hedgeRecord hmetadata
  · intro hbounds
    by_cases hsize : snap.nodes.size ≤ bounds.maxNodes
    · have hlength : ¬ snap.edges.length ≤ bounds.maxEdges := fun h => hbounds ⟨hsize, h⟩
      rw [if_pos hsize, Outcome.ok_bind, if_neg hlength]
      exact ⟨_, Or.inr rfl⟩
    · rw [if_neg hsize]
      exact ⟨_, Or.inr rfl⟩

/-! ## Texts -/

/-- The text of a snapshot can be read back: all its strings are ASCII, and it is within the bounds
and the limits of the parser. The nesting of a document never reaches the limit. -/
structure Readable (bounds : Bounds) (snap : TopologySnapshot) (pretty : Bool) : Prop where
  ascii : ∀ s ∈ snap.strings, IsAscii s
  values : (snapshotToJson snap).count ≤ ({} : ParseOptions).maxNodes
  text : (serializeSnapshotJson snap pretty).length ≤ bounds.maxSnapshotBytes
  counts : WithinBounds bounds snap

/-- Every string of the snapshot is within the limit of the parser. -/
def StringsFit (snap : TopologySnapshot) : Prop :=
  ∀ s ∈ snap.strings, s.length ≤ ({} : ParseOptions).maxStringBytes

instance (snap : TopologySnapshot) : Decidable (StringsFit snap) :=
  List.decidableBAll _ _

/-- Then its document keeps to the limits of the parser. -/
theorem snapshotToJson_fits_of_stringsFit {snap : TopologySnapshot} (h : StringsFit snap) :
    (snapshotToJson snap).Fits ({} : ParseOptions).maxDepth
      (fun s => s.length ≤ ({} : ParseOptions).maxStringBytes) 0 := by
  have hlong : AdmitsShort fun s => s.length ≤ ({} : ParseOptions).maxStringBytes :=
    fun s _ hs => hs.trans (by decide)
  exact (snapshotToJson_fits hlong snap (by decide)).mpr h

/-- Reading the text of a snapshot: it is read back if it is readable, else it is rejected. -/
theorem deserializeSnapshotJson_written (order : IterationOrder) {snap : TopologySnapshot}
    (hstrings : StringsFit snap) (bounds : Bounds) (pretty : Bool) :
    (Readable bounds snap pretty → ∃ snap',
      deserializeSnapshotJson order (serializeSnapshotJson snap pretty) bounds = .ok snap' ∧
        SameRecords snap snap') ∧
    (¬ Readable bounds snap pretty →
      Rejects (deserializeSnapshotJson order (serializeSnapshotJson snap pretty) bounds)) := by
  have hwritable : AdmitsShort (Writable {}) := fun s hs hlen => ⟨hs, hlen.trans (by decide)⟩
  obtain ⟨r, hr, hok, hvalue⟩ := @parse_written_iff {} _
    (snapshotToJson_fits_of_stringsFit hstrings) (if pretty then .pretty else .compact)
  rw [snapshotToJson_fits hwritable snap (by decide)] at hok
  obtain ⟨hread, hrejects⟩ := snapshotFromJson_written order snap bounds
  change parse {} (serializeSnapshotJson snap pretty) = .ok r at hr
  unfold deserializeSnapshotJson
  rw [hr, Outcome.ok_bind]
  constructor
  · intro h
    have hparsed : r.ok = true := hok.mpr ⟨fun s hs => ⟨h.ascii s hs, hstrings s hs⟩, h.values⟩
    rw [if_neg (by rw [hparsed]; exact Bool.noConfusion), if_neg (not_lt.mpr h.text),
      hvalue hparsed]
    exact hread h.counts
  · intro h
    by_cases hparsed : r.ok = true
    swap
    · rw [if_pos (Bool.eq_false_iff.mpr hparsed)]
      exact ⟨_, Or.inl rfl⟩
    rw [if_neg (by rw [hparsed]; exact Bool.noConfusion)]
    by_cases htext : bounds.maxSnapshotBytes < (serializeSnapshotJson snap pretty).length
    · rw [if_pos htext]
      exact ⟨_, Or.inr rfl⟩
    · -- the text is parsed and is short enough, so it is the counts that exceed the bounds
      rw [if_neg htext]
      obtain ⟨hascii, hvalues⟩ := hok.mp hparsed
      rw [hvalue hparsed]
      exact hrejects fun hcounts =>
        h ⟨fun s hs => (hascii s hs).1, hvalues, not_lt.mp htext, hcounts⟩

/-- **Which serialized snapshots are read back.** Within the bounds and the limits of the parser it
is exactly those whose strings are ASCII: the writer leaves the other bytes as they are, and the
parser refuses them. -/
theorem deserialize_serialize_iff (order : IterationOrder) {bounds : Bounds}
    {snap : TopologySnapshot} {pretty : Bool} (hstrings : StringsFit snap)
    (hvalues : (snapshotToJson snap).count ≤ ({} : ParseOptions).maxNodes)
    (htext : (serializeSnapshotJson snap pretty).length ≤ bounds.maxSnapshotBytes)
    (hcounts : WithinBounds bounds snap) :
    (∃ snap', deserializeSnapshotJson order (serializeSnapshotJson snap pretty) bounds =
      .ok snap') ↔ ∀ s ∈ snap.strings, IsAscii s := by
  obtain ⟨hread, hrejects⟩ := deserializeSnapshotJson_written order hstrings bounds pretty
  constructor
  · rintro ⟨snap', hsnap'⟩
    -- the parser rejects a byte that is not ASCII
    by_contra hascii
    obtain ⟨msg, h | h⟩ := hrejects fun h => hascii h.ascii
    · rw [hsnap'] at h
      cases h
    · rw [hsnap'] at h
      cases h
  · intro hascii
    obtain ⟨snap', hsnap', -⟩ := hread ⟨hascii, hvalues, htext, hcounts⟩
    exact ⟨snap', hsnap'⟩

/-- A builder with one accelerator of the given name. -/
def namedAccelerator (name : Bytes) : SnapshotBuilder :=
  ((SnapshotBuilder.new {}).addNode { id := ⟨0, 1⟩, type := .accelerator, name := name }).2

/-- The snapshot that is taken from it. -/
def acceleratorSnapshot (name : Bytes) : TopologySnapshot where
  nodes := ⟨[(⟨0, 1⟩, { id := ⟨0, 1⟩, type := .accelerator, name := name })], by simp⟩
  keyed := by simp
  edges := []
  adjacencyMap := _
  adjacencyBuilt := rfl
  metadata := {}
  validation := {}
  bounds := {}

theorem take_namedAccelerator (name : Bytes) :
    (namedAccelerator name).take .insertion = .ok (acceleratorSnapshot name) := rfl

/-- An ASCII name can be read back. -/
theorem readable_named : StringsFit (acceleratorSnapshot (str "gpu")) ∧
    Readable {} (acceleratorSnapshot (str "gpu")) true :=
  ⟨by decide +kernel, by decide +kernel, by decide +kernel, by decide +kernel, by decide +kernel⟩

/-- It is read back. -/
theorem deserialize_serialize_named :
    ∃ snap', deserializeSnapshotJson .insertion
      (serializeSnapshotJson (acceleratorSnapshot (str "gpu")) true) {} = .ok snap' :=
  (deserialize_serialize_iff .insertion readable_named.1 readable_named.2.values
    readable_named.2.text readable_named.2.counts).mpr readable_named.2.ascii

/-- The name `é` is written as its two bytes, which the parser refuses. -/
theorem deserialize_serialize_fails : ∃ snap,
    (namedAccelerator [0xC3, 0xA9]).take .insertion = .ok snap ∧ StringsFit snap ∧
      (snapshotToJson snap).count ≤ ({} : ParseOptions).maxNodes ∧ WithinBounds {} snap ∧
      ∀ pretty, (serializeSnapshotJson snap pretty).length ≤ ({} : Bounds).maxSnapshotBytes ∧
        ∀ order snap', deserializeSnapshotJson order (serializeSnapshotJson snap pretty) {} ≠
          .ok snap' := by
  have hstrings : StringsFit (acceleratorSnapshot [0xC3, 0xA9]) := by decide +kernel
  refine ⟨acceleratorSnapshot [0xC3, 0xA9], take_namedAccelerator _, hstrings, by decide +kernel,
    by decide +kernel, fun pretty => ⟨?_, fun order snap' hsnap' => ?_⟩⟩
  · revert pretty
    decide +kernel
  · -- the name is valid UTF-8, but the parser wants ASCII
    have hascii : ¬ Readable {} (acceleratorSnapshot [0xC3, 0xA9]) pretty := by
      intro h
      have hname := h.ascii [0xC3, 0xA9] (by decide +kernel)
      revert hname
      decide
    obtain ⟨msg, h | h⟩ := (deserializeSnapshotJson_written order hstrings {} pretty).2 hascii
    · rw [hsnap'] at h
      cases h
    · rw [hsnap'] at h
      cases h

/-- **What is read back.** When the text of a snapshot is accepted, the snapshot that is read has
the same nodes, edges and metadata, and validation has the same verdict on it. -/
theorem deserialize_serialize_same {order : IterationOrder} {bounds : Bounds}
    {snap snap' : TopologySnapshot} {pretty : Bool} (hstrings : StringsFit snap)
    (h : deserializeSnapshotJson order (serializeSnapshotJson snap pretty) bounds = .ok snap') :
    SameRecords snap snap' ∧ ∀ o o' : IterationOrder,
      (validate o' snap'.nodes snap'.edges).ok = (validate o snap.nodes snap.edges).ok := by
  have hsame : SameRecords snap snap' := by
    obtain ⟨hread, hrejects⟩ := deserializeSnapshotJson_written order hstrings bounds pretty
    -- a document that is not readable would have been rejected
    by_cases hreadable : Readable bounds snap pretty
    · obtain ⟨snap'', hsnap'', hsame⟩ := hread hreadable
      rw [h] at hsnap''
      obtain rfl := Outcome.ok.inj hsnap''
      exact hsame
    · obtain ⟨msg, hthrows | hthrows⟩ := hrejects hreadable
      · rw [h] at hthrows
        cases hthrows
      · rw [h] at hthrows
        cases hthrows
  refine ⟨hsame, fun o o' => Bool.eq_iff_iff.mpr ?_⟩
  rw [validate_accepts_iff, validate_accepts_iff]
  exact hsame.graphValid_iff

/-- A machine and one of its accelerators, with the link between them. -/
def linkedSnapshot : TopologySnapshot where
  nodes := ⟨[(⟨0, 1⟩, { id := ⟨0, 1⟩, type := .machine, name := str "host" }),
    (⟨0, 2⟩, {
      id := ⟨0, 2⟩, type := .accelerator, name := str "gpu"
      properties := OrderedMap.empty.insert (str "slot") (.int 7) })], by decide⟩
  keyed := by simp
  edges := [{ source := ⟨0, 1⟩, target := ⟨0, 2⟩ }, {
    source := ⟨0, 2⟩, target := ⟨0, 1⟩, type := .connectedTo, direction := .undirected
    latencyNs := some (.fin 250), width := some 16 }]
  adjacencyMap := _
  adjacencyBuilt := rfl
  metadata := {}
  validation := {}
  bounds := {}

theorem readable_linked : StringsFit linkedSnapshot ∧ Readable {} linkedSnapshot true :=
  ⟨by decide +kernel, by decide +kernel, by decide +kernel, by decide +kernel, by decide +kernel⟩

/-- Both nodes and both edges are read back. -/
theorem deserialize_serialize_same_linked : ∃ snap',
    deserializeSnapshotJson .insertion (serializeSnapshotJson linkedSnapshot true) {} =
        .ok snap' ∧
      SameRecords linkedSnapshot snap' ∧ ∀ o o' : IterationOrder,
        (validate o' snap'.nodes snap'.edges).ok =
          (validate o linkedSnapshot.nodes linkedSnapshot.edges).ok := by
  obtain ⟨hstrings, hreadable⟩ := readable_linked
  obtain ⟨snap', hsnap', -⟩ :=
    (deserializeSnapshotJson_written .insertion hstrings {} true).1 hreadable
  exact ⟨snap', hsnap', deserialize_serialize_same hstrings hsnap'⟩

end TopologyFabric

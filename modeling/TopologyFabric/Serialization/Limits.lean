import TopologyFabric.Serialization.Accepted
import TopologyFabric.Serialization.Strings

/-!
# The Limits of Documents That Are Read

Reading a document enforces the size of the text and the numbers of nodes and edges. The limit on
strings and the limits on property values are checked nowhere, so the snapshot keeps to them iff the
document does, at the fields that are read.

## Main results

- `readProperties_within_iff`: the properties of a record keep to the limits iff the object does
- `deserialize_enforces_iff`: when a snapshot that is read keeps to all limits
-/

namespace TopologyFabric

open Library Json

/-! ## Limits on a snapshot -/

/-- `PropertyValue::kMaxStringBytes`. -/
def kMaxStringBytes : ℕ := 2 ^ 20

/-- `PropertyValue::kMaxVectorItems`. -/
def kMaxVectorItems : ℕ := 2 ^ 16

/-- The number of items of an array. -/
def PropertyValue.items : PropertyValue → ℕ
  | .stringArray v => v.length
  | .intArray v => v.length
  | _ => 0

/-- The value is within the limits of property values, its strings also within another one. -/
structure PropertyValue.Within (limit : ℕ) (p : PropertyValue) : Prop where
  strings : ∀ s ∈ p.strings, s.length ≤ limit ∧ s.length ≤ kMaxStringBytes
  items : p.items ≤ kMaxVectorItems

/-- The names and values of the properties are within their limits. -/
def PropertyMap.Within (limit : ℕ) (m : PropertyMap) : Prop :=
  ∀ k p, m.find? k = some p → k.length ≤ limit ∧ p.Within limit

def SnapshotMetadata.strings (m : SnapshotMetadata) : List Bytes :=
  [m.snapshotId, m.machineIdentity, m.schemaVersion, m.providerVersions] ++ m.warnings

/-- The strings of a node but for its properties. -/
def TopologyNode.names (n : TopologyNode) : List Bytes :=
  [n.category, n.name, n.displayName] ++ n.native.strings ++ n.provenance.strings

/-- The snapshot that is read from a text keeps to the bounds and to the limits of property
values. -/
structure KeepsBounds (bounds : Bounds) (jsonText : Bytes) (snap : TopologySnapshot) : Prop where
  text : jsonText.length ≤ bounds.maxSnapshotBytes
  nodeCount : snap.nodes.size ≤ bounds.maxNodes
  edgeCount : snap.edges.length ≤ bounds.maxEdges
  metadata : ∀ s ∈ snap.metadata.strings, s.length ≤ bounds.maxStringBytes
  nodes : ∀ n, snap.findNode n.id = some n → (∀ s ∈ n.names, s.length ≤ bounds.maxStringBytes) ∧
    n.properties.Within bounds.maxStringBytes
  edges : ∀ e ∈ snap.edges, (∀ s ∈ e.provenance.strings, s.length ≤ bounds.maxStringBytes) ∧
    e.properties.Within bounds.maxStringBytes

/-- Reading the text gives a snapshot that keeps to the bounds, or it throws. -/
def EnforcesBounds (order : IterationOrder) (jsonText : Bytes) (bounds : Bounds) : Prop :=
  (∃ snap, deserializeSnapshotJson order jsonText bounds = .ok snap ∧
    KeepsBounds bounds jsonText snap) ∨
  ∃ e, deserializeSnapshotJson order jsonText bounds = .throws e

/-! ## Limits on a document -/

/-- String fields, each with the default that stands for it when it is missing. -/
def textsAt (o : Value) (fields : List (Bytes × Bytes)) : List Bytes :=
  fields.map fun f => readString o f.1 f.2

def nativeTexts (o : Value) : List Bytes :=
  textsAt o
    [(str "cuda_uuid", []), (str "name", []), (str "network_interface_name", []),
      (str "network_hardware_id", []), (str "storage_id", []), (str "storage_device_path", []),
      (str "machine_name", []), (str "os_version", [])]

def provenanceTexts (o : Value) : List Bytes :=
  textsAt o
    [(str "provider", []), (str "api", []), (str "detail", []),
      (str "schema_version", str "1.0"), (str "provider_version", [])]

def nodeTexts (nv : Value) : List Bytes :=
  textsAt nv [(str "category", []), (str "name", []), (str "display_name", [])] ++
    nativeTexts (fieldOf nv (str "native")) ++ provenanceTexts (fieldOf nv (str "provenance"))

def metadataTexts (root : Value) : List Bytes :=
  textsAt root
    [(str "snapshot_id", []), (str "machine_identity", []),
      (str "schema", kSnapshotSchemaVersion), (str "provider_versions", [])] ++
    readStrings root (str "warnings")

/-- The string that an element is. -/
def Json.Value.text? : Value → Option Bytes
  | .string s => some s
  | _ => none

/-- The strings that a property keeps: only an array that starts with a string keeps strings. -/
def propertyTexts : Value → List Bytes
  | .string s => [s]
  | .array a => if a.head?.any Value.isString then a.filterMap Value.text? else []
  | _ => []

/-- The number of elements of an array. -/
def Json.Value.items : Value → ℕ
  | .array a => a.length
  | _ => 0

/-- The properties of an entry are within the limits. -/
def PropertiesWithin (limit : ℕ) (entry : Value) : Prop :=
  ∀ k v, (fieldOf entry (str "properties")).find k = some v → k.length ≤ limit ∧
    (∀ s ∈ propertyTexts v, s.length ≤ limit ∧ s.length ≤ kMaxStringBytes) ∧
      v.items ≤ kMaxVectorItems

/-- The strings and arrays of a document are within the limits, where they are kept. -/
structure DocumentWithin (bounds : Bounds) (root : Value) (nodes edges : List Value) : Prop where
  metadata : ∀ s ∈ metadataTexts root, s.length ≤ bounds.maxStringBytes
  nodes : ∀ nv, KeptEntry nodes nv → (∀ s ∈ nodeTexts nv, s.length ≤ bounds.maxStringBytes) ∧
    PropertiesWithin bounds.maxStringBytes nv
  edges : ∀ ev ∈ edges,
    (∀ s ∈ provenanceTexts (fieldOf ev (str "provenance")), s.length ≤ bounds.maxStringBytes) ∧
      PropertiesWithin bounds.maxStringBytes ev

/-! ## The strings that are read -/

/-- In a value that is no object, every string field has its default. -/
private theorem readString_of_not_object {o : Value} (h : o.isObject = false) (k default : Bytes) :
    readString o k default = default := by
  cases o with
  | object es => cases h
  | _ => rfl

theorem nativeFromJson_strings (o : Value) : (nativeFromJson o).strings = nativeTexts o := by
  by_cases h : o.isObject = false
  · rw [nativeFromJson, if_pos h]
    simp only [nativeTexts, textsAt, List.map_cons, List.map_nil, readString_of_not_object h]
    rfl
  · rw [nativeFromJson, if_neg h]
    rfl

theorem provenanceFromJson_strings (o : Value) :
    (provenanceFromJson o).strings = provenanceTexts o := by
  by_cases h : o.isObject = false
  · rw [provenanceFromJson, if_pos h]
    simp only [provenanceTexts, textsAt, List.map_cons, List.map_nil, readString_of_not_object h]
    rfl
  · rw [provenanceFromJson, if_neg h]
    rfl

theorem names_of_read {nv : Value} {n : TopologyNode} (h : nodeFromJson nv = .ok n) :
    n.names = nodeTexts nv := by
  obtain ⟨-, -, hnative, hprovenance, hcategory, hname, hdisplay⟩ := nodeFromJson_eq_ok h
  rw [TopologyNode.names, hnative, hprovenance, hcategory, hname, hdisplay,
    nativeFromJson_strings, provenanceFromJson_strings]
  rfl

theorem provenance_of_read {ev : Value} {e : TopologyEdge} (h : edgeFromJson ev = .ok e) :
    e.provenance.strings = provenanceTexts (fieldOf ev (str "provenance")) := by
  rw [(edgeFromJson_eq_ok h).2.1, provenanceFromJson_strings]

/-! ## The properties that are read -/

private theorem filterMap_text_of_mapM {a : List Value} {sv : List Bytes}
    (h : a.mapM Value.asString = .ok sv) : a.filterMap Value.text? = sv ∧ a.length = sv.length := by
  induction a generalizing sv with
  | nil =>
    obtain rfl := Outcome.ok.inj h
    exact ⟨rfl, rfl⟩
  | cons v a ih =>
    rw [List.mapM_cons] at h
    obtain ⟨s, hs, h⟩ := Outcome.bind_eq_ok.mp h
    obtain ⟨sv', hsv', h⟩ := Outcome.bind_eq_ok.mp h
    obtain rfl := Outcome.ok.inj h
    obtain ⟨hfilter, hlength⟩ := ih hsv'
    cases v with
    | string s' =>
      obtain rfl := Outcome.ok.inj hs
      have htext : (Value.string s').text? = some s' := rfl
      rw [List.filterMap_cons_some htext, hfilter, List.length_cons, List.length_cons, hlength]
      exact ⟨rfl, rfl⟩
    | _ => cases hs

/-- A property has the strings and the items of the value it is read from. -/
theorem propertyFromJson_texts {v : Value} {p : PropertyValue} (h : propertyFromJson v = .ok p) :
    p.strings = propertyTexts v ∧ p.items = v.items := by
  cases v with
  | array a =>
    rw [propertyFromJson] at h
    -- the first element decides whether the array is one of strings
    by_cases hfirst : a.head?.any Value.isString = true
    · rw [if_pos hfirst] at h
      obtain ⟨sv, hsv, h⟩ := Outcome.bind_eq_ok.mp h
      obtain rfl := Outcome.ok.inj h
      obtain ⟨hfilter, hlength⟩ := filterMap_text_of_mapM hsv
      rw [propertyTexts, if_pos hfirst, hfilter, Value.items, hlength]
      exact ⟨rfl, rfl⟩
    · rw [if_neg hfirst] at h
      obtain rfl := Outcome.ok.inj h
      rw [propertyTexts, if_neg hfirst, Value.items, PropertyValue.items, List.length_map]
      exact ⟨rfl, rfl⟩
  | _ =>
    obtain rfl := Outcome.ok.inj h
    exact ⟨rfl, rfl⟩

/-- Every property of an entry that is read can itself be read. -/
theorem property_readable {entry : Value} {m : PropertyMap} (h : readProperties entry = .ok m)
    {k : Bytes} {v : Value} (hv : (fieldOf entry (str "properties")).find k = some v) :
    ∃ p, propertyFromJson v = .ok p := by
  rcases propertyFromJson_cases v with ⟨hp, -⟩ | ⟨-, hmixed⟩
  · exact hp
  rcases readProperties_cases entry with ⟨-, hnot⟩ | ⟨hthrows, -⟩
  · refine absurd ?_ hnot
    cases hfind : entry.find (str "properties") with
    | none =>
      rw [fieldOf, hfind] at hv
      cases hv
    | some w =>
      rw [fieldOf, hfind, Option.getD_some] at hv
      cases w with
      | object es => exact ⟨es, hfind, (k, v), mem_of_findEntry hv, hmixed⟩
      | _ => cases hv
  · rw [h] at hthrows
    cases hthrows

/-- The properties of a record keep to the limits iff the object they are read from does. -/
theorem readProperties_within_iff {limit : ℕ} {entry : Value} {m : PropertyMap}
    (h : readProperties entry = .ok m) : m.Within limit ↔ PropertiesWithin limit entry := by
  constructor
  · intro hm k v hv
    obtain ⟨p, hp⟩ := property_readable h hv
    obtain ⟨hkey, hvalue⟩ := hm k p ((readProperties_find h k p).mpr ⟨v, hv, hp⟩)
    obtain ⟨hstrings, hitems⟩ := propertyFromJson_texts hp
    rw [← hstrings, ← hitems]
    exact ⟨hkey, hvalue.strings, hvalue.items⟩
  · intro hwithin k p hp
    obtain ⟨v, hv, hread⟩ := (readProperties_find h k p).mp hp
    obtain ⟨hkey, hstrings, hitems⟩ := hwithin k v hv
    obtain ⟨hstrings', hitems'⟩ := propertyFromJson_texts hread
    rw [← hstrings'] at hstrings
    rw [← hitems'] at hitems
    exact ⟨hkey, hstrings, hitems⟩

/-! ## Whole texts -/

/-- The snapshot that is read keeps to the limits iff the document does. -/
theorem keepsBounds_iff {order : IterationOrder} {bounds : Bounds} {jsonText : Bytes}
    {snap : TopologySnapshot} (h : deserializeSnapshotJson order jsonText bounds = .ok snap)
    {root : Value} {nodes edges : List Value}
    (haccepted : AcceptedText bounds jsonText root nodes edges) :
    KeepsBounds bounds jsonText snap ↔ DocumentWithin bounds root nodes edges := by
  obtain ⟨root', nodes', edges', haccepted', hread⟩ := deserialize_contents h
  obtain ⟨rfl, rfl, rfl⟩ := haccepted.unique haccepted'
  have hmetadata : snap.metadata.strings = metadataTexts root := by
    rw [hread.metadata]
    rfl
  -- every kept entry is read as a node, and every node is read from a kept entry
  have hnode : ∀ nv n, nodeFromJson nv = .ok n →
      (((∀ s ∈ n.names, s.length ≤ bounds.maxStringBytes) ∧
        n.properties.Within bounds.maxStringBytes) ↔
      (∀ s ∈ nodeTexts nv, s.length ≤ bounds.maxStringBytes) ∧
        PropertiesWithin bounds.maxStringBytes nv) := by
    intro nv n hn
    rw [names_of_read hn, readProperties_within_iff (nodeFromJson_eq_ok hn).2.1]
  have hedge : ∀ ev e, edgeFromJson ev = .ok e →
      (((∀ s ∈ e.provenance.strings, s.length ≤ bounds.maxStringBytes) ∧
        e.properties.Within bounds.maxStringBytes) ↔
      (∀ s ∈ provenanceTexts (fieldOf ev (str "provenance")), s.length ≤ bounds.maxStringBytes) ∧
        PropertiesWithin bounds.maxStringBytes ev) := by
    intro ev e he
    rw [provenance_of_read he, readProperties_within_iff (edgeFromJson_eq_ok he).1]
  obtain ⟨hnodeCount, hedgeCount⟩ := deserialize_counts h
  constructor
  · intro hkeeps
    refine ⟨hmetadata ▸ hkeeps.metadata, ?_, ?_⟩
    · intro nv hnv
      obtain ⟨n, hn⟩ := haccepted.document.node_read hnv.mem
      exact (hnode nv n hn).mp (hkeeps.nodes n ((hread.node n).mpr ⟨nv, hnv, hn⟩))
    · intro ev hev
      obtain ⟨e, he⟩ := haccepted.document.edge_read hev
      exact (hedge ev e he).mp (hkeeps.edges e ((hread.mem_edges e).mpr ⟨ev, hev, he⟩))
  · intro hwithin
    refine ⟨haccepted.short, hnodeCount, hedgeCount, hmetadata ▸ hwithin.metadata, ?_, ?_⟩
    · intro n hn
      obtain ⟨nv, hnv, hread'⟩ := (hread.node n).mp hn
      exact (hnode nv n hread').mpr (hwithin.nodes nv hnv)
    · intro e he
      obtain ⟨ev, hev, hread'⟩ := (hread.mem_edges e).mp he
      exact (hedge ev e hread').mpr (hwithin.edges ev hev)

/-- **When reading enforces the bounds**: exactly when the text is not accepted or its document
keeps to the limits on strings and property values itself. -/
theorem deserialize_enforces_iff (order : IterationOrder) (jsonText : Bytes) (bounds : Bounds) :
    EnforcesBounds order jsonText bounds ↔
      ∀ root nodes edges, AcceptedText bounds jsonText root nodes edges →
        DocumentWithin bounds root nodes edges := by
  constructor
  · rintro (⟨snap, hsnap, hkeeps⟩ | ⟨e, hthrows⟩) root nodes edges haccepted
    · exact (keepsBounds_iff hsnap haccepted).mp hkeeps
    · obtain ⟨snap, hsnap⟩ := (deserialize_returns_iff order jsonText bounds).mpr
        ⟨root, nodes, edges, haccepted⟩
      rw [hsnap] at hthrows
      cases hthrows
  · intro hwithin
    -- reading returns a snapshot of an accepted document, or throws
    rcases deserialize_ends order jsonText bounds with ⟨snap, hsnap⟩ | hthrows
    · obtain ⟨root, nodes, edges, haccepted, -⟩ := deserialize_contents hsnap
      exact Or.inl ⟨snap, hsnap,
        (keepsBounds_iff hsnap haccepted).mpr (hwithin root nodes edges haccepted)⟩
    · exact Or.inr hthrows

/-- A document with one node whose name has eleven bytes. -/
def longNameDocument : Bytes :=
  str "\x7b\"format\":\"topology_fabric_snapshot\",\"nodes\":[\x7b\"id\":" ++
    str "\"00000000000000000000000000000001\",\"name\":\"accelerator\"\x7d]," ++
    str "\"edges\":[]\x7d"

/-- With room for strings of eight bytes it is accepted as it is. -/
theorem deserialize_enforces_fails :
    ¬ EnforcesBounds .insertion longNameDocument { maxStringBytes := 8 } := by
  have hlong : (match deserializeSnapshotJson .insertion longNameDocument
      { maxStringBytes := 8 } with
      | .ok snap => snap.nodes.entries.any fun e => decide (8 < e.2.name.length)
      | _ => false) = true := by decide +kernel
  rintro (⟨snap, hsnap, hkeeps⟩ | ⟨e, hthrows⟩)
  · rw [hsnap] at hlong
    obtain ⟨⟨id, n⟩, hn, hname⟩ := List.any_eq_true.mp hlong
    have hid : n.id = id := snap.keyed _ hn
    obtain ⟨hnames, -⟩ := hkeeps.nodes n (HashMap.find?_eq_some.mpr (hid ▸ hn))
    have hshort : n.name.length ≤ 8 := hnames n.name (by simp [TopologyNode.names])
    exact absurd (of_decide_eq_true hname) (not_lt.mpr hshort)
  · rw [hthrows] at hlong
    cases hlong

end TopologyFabric

import TopologyFabric.Json.RoundTrip
import TopologyFabric.Serialization.Snapshot

/-!
# The Strings of a Snapshot

Every string that a snapshot carries is written into its document, and everything else that is
written there is a short ASCII string of the program. So a limit that such strings keep to holds of
the document iff it holds of the strings of the snapshot.

## Main results

- `objectOf_fits`: a limit on an object is one on its fields
- `snapshotToJson_fits`: a limit on the document is one on the strings of the snapshot
-/

namespace TopologyFabric

open Library Json

/-! ## Objects with distinct keys -/

section Fields

variable {maxDepth d : ℕ} {P : Bytes → Prop} {fields : List (Bytes × Value)}

/-- The entries of an object are its fields. -/
theorem objectOf_perm (hkeys : (fields.map Prod.fst).Nodup) :
    (fields.foldl (fun o f => insertEntry f.1 f.2 o) []).Perm fields :=
  foldl_insertEntry_perm (l := []) hkeys

/-- The keys of a record are distinct short ASCII strings. -/
def RecordKeys (keys : List Bytes) : Prop :=
  keys.Nodup ∧ ∀ k ∈ keys, IsAscii k ∧ k.length ≤ 64

instance (keys : List Bytes) : Decidable (RecordKeys keys) :=
  inferInstanceAs (Decidable (keys.Nodup ∧ ∀ k ∈ keys, IsAscii k ∧ k.length ≤ 64))

theorem RecordKeys.sublist {keys keys' : List Bytes} (h : RecordKeys keys)
    (hsub : keys'.Sublist keys) : RecordKeys keys' :=
  ⟨h.1.sublist hsub, fun k hk => h.2 k (hsub.subset hk)⟩

/-- A limit on strings that every short ASCII string keeps to. -/
def AdmitsShort (P : Bytes → Prop) : Prop := ∀ s, IsAscii s → s.length ≤ 64 → P s

/-- A limit on an object is one on its fields. -/
theorem objectOf_fits (hkeys : (fields.map Prod.fst).Nodup) :
    (objectOf fields).Fits maxDepth P d ↔
      d ≤ maxDepth ∧ ∀ f ∈ fields, P f.1 ∧ f.2.Fits maxDepth P (d + 1) := by
  have hsorted := sortedKeys_foldl_insertEntry (sortedKeys_nil (K := Bytes) (V := Value)) fields
  rw [objectOf, Value.Fits, Value.fitMembers_iff]
  simp only [(objectOf_perm hkeys).mem_iff]
  exact ⟨fun h => ⟨h.1, h.2.2⟩, fun h => ⟨h.1, hsorted, h.2⟩⟩

/-- A limit on a record is one on the values of its fields. -/
theorem record_fits (hP : AdmitsShort P) (hkeys : RecordKeys (fields.map Prod.fst))
    (hd : d ≤ maxDepth) : (objectOf fields).Fits maxDepth P d ↔
      ∀ v ∈ fields.map Prod.snd, v.Fits maxDepth P (d + 1) := by
  rw [objectOf_fits hkeys.1, List.forall_mem_map]
  constructor
  · exact fun h f hf => (h.2 f hf).2
  · intro h
    refine ⟨hd, fun f hf => ⟨?_, h f hf⟩⟩
    obtain ⟨hascii, hlen⟩ := hkeys.2 f.1 (List.mem_map_of_mem hf)
    exact hP f.1 hascii hlen

theorem fits_put {α : Type} {toUint : α → UInt64} {v : Option α} :
    (put toUint v).Fits maxDepth P d ↔ d ≤ maxDepth := by
  cases v <;> rfl

end Fields

/-! ## The strings of the records -/

def NativeIdentity.strings (n : NativeIdentity) : List Bytes :=
  [n.cudaUuid, n.name, n.networkInterfaceName, n.networkHardwareId, n.storageId,
    n.storageDevicePath, n.machineName, n.osVersion]

def Provenance.strings (p : Provenance) : List Bytes :=
  [p.provider, p.api, p.detail, p.schemaVersion, p.providerVersion]

def PropertyValue.strings : PropertyValue → List Bytes
  | .string s => [s]
  | .stringArray v => v
  | _ => []

/-- The names and the strings of the properties. -/
def propertyStrings (m : PropertyMap) : List Bytes :=
  m.entries.flatMap fun e => e.1 :: e.2.strings

def TopologyNode.strings (n : TopologyNode) : List Bytes :=
  [n.category, n.name, n.displayName] ++ n.native.strings ++ n.provenance.strings ++
    propertyStrings n.properties

def TopologyEdge.strings (e : TopologyEdge) : List Bytes :=
  e.provenance.strings ++ propertyStrings e.properties

/-- Every string that a snapshot carries. -/
def TopologySnapshot.strings (snap : TopologySnapshot) : List Bytes :=
  [snap.metadata.snapshotId, snap.metadata.machineIdentity, snap.metadata.providerVersions] ++
    snap.nodes.entries.flatMap (fun e => e.2.strings) ++ snap.edges.flatMap TopologyEdge.strings ++
    snap.metadata.warnings ++ (snap.validation.errors ++ snap.validation.warnings)

section Strings

variable {maxDepth d : ℕ} {P : Bytes → Prop}

theorem strings_fit {l : List Bytes} (hd : d + 1 ≤ maxDepth) :
    (Value.array (l.map .string)).Fits maxDepth P d ↔ ∀ s ∈ l, P s := by
  rw [Value.Fits, Value.fitElements_iff, List.forall_mem_map]
  constructor
  · exact fun h s hs => (h.2 s hs).2
  · exact fun h => ⟨by omega, fun s hs => ⟨hd, h s hs⟩⟩

theorem propertyToJson_fits (v : PropertyValue) (hd : d + 1 ≤ maxDepth) :
    (propertyToJson v).Fits maxDepth P d ↔ ∀ s ∈ v.strings, P s := by
  have hleaf : d ≤ maxDepth ↔ ∀ s ∈ ([] : List Bytes), P s :=
    iff_of_true (by omega) fun s hs => absurd hs List.not_mem_nil
  cases v with
  | string s =>
    rw [PropertyValue.strings, List.forall_mem_singleton]
    exact and_iff_right (by omega)
  | stringArray v => exact strings_fit hd
  | intArray v =>
    rw [propertyToJson, Value.Fits, Value.fitElements_iff, List.forall_mem_map]
    exact iff_of_true ⟨by omega, fun _ _ => hd⟩ fun s hs => absurd hs List.not_mem_nil
  | _ => exact hleaf

theorem propertyKeys_nodup (m : PropertyMap) :
    ((m.entries.map fun e => (e.1, propertyToJson e.2)).map Prod.fst).Nodup := by
  rw [List.map_map]
  exact List.Pairwise.map _ (fun a b h => h.ne) m.sorted

theorem propertiesToJson_fits (m : PropertyMap) (hd : d + 2 ≤ maxDepth) :
    (propertiesToJson m).Fits maxDepth P d ↔ ∀ s ∈ propertyStrings m, P s := by
  rw [propertiesToJson, objectOf_fits (propertyKeys_nodup m), propertyStrings, List.forall_mem_map]
  simp only [List.mem_flatMap, forall_exists_index, and_imp]
  constructor
  · rintro ⟨-, h⟩ s e he hs
    obtain ⟨hkey, hvalue⟩ := h e he
    rcases List.mem_cons.mp hs with rfl | hs
    · exact hkey
    · exact (propertyToJson_fits e.2 (by omega)).mp hvalue s hs
  · intro h
    refine ⟨by omega, fun e he => ⟨h e.1 e he (List.mem_cons_self ..), ?_⟩⟩
    exact (propertyToJson_fits e.2 (by omega)).mpr fun s hs =>
      h s e he (List.mem_cons_of_mem _ hs)

theorem nativeToJson_fits (hP : AdmitsShort P) (n : NativeIdentity) (hd : d + 1 ≤ maxDepth) :
    (nativeToJson n).Fits maxDepth P d ↔ ∀ s ∈ n.strings, P s := by
  rw [nativeToJson, record_fits hP (by simp only [List.map_cons, List.map_nil]; decide +kernel)
    (by omega)]
  simp only [List.map_cons, List.map_nil, List.forall_mem_cons, fits_put, Value.Fits, hd, true_and,
    NativeIdentity.strings, List.not_mem_nil, false_implies, implies_true]

/-- The names of the enumerations are short ASCII strings. -/
theorem admits_names (hP : AdmitsShort P) : (∀ t : NodeType, P t.toString) ∧
    (∀ t : EdgeType, P t.toString) ∧ (∀ t : EdgeDirection, P t.toString) ∧
    (∀ k : ProvenanceKind, P k.toString) ∧ ∀ c : Confidence, P c.toString := by
  refine ⟨fun t => ?_, fun t => ?_, fun t => ?_, fun k => ?_, fun c => ?_⟩
  · cases t <;> exact hP _ (by decide) (by decide)
  · cases t <;> exact hP _ (by decide) (by decide)
  · cases t <;> exact hP _ (by decide) (by decide)
  · cases k <;> exact hP _ (by decide) (by decide)
  · cases c <;> exact hP _ (by decide) (by decide)

theorem admits_toHex (hP : AdmitsShort P) (id : TopologyNodeId) : P id.toHex := by
  apply hP
  · exact id.isAscii_toHex
  · rw [TopologyNodeId.length_toHex]
    decide

theorem provenanceToJson_fits (hP : AdmitsShort P) (p : Provenance) (hd : d + 1 ≤ maxDepth) :
    (provenanceToJson p).Fits maxDepth P d ↔ ∀ s ∈ p.strings, P s := by
  obtain ⟨-, -, -, hkind, hconfidence⟩ := admits_names hP
  rw [provenanceToJson,
    record_fits hP (by simp only [List.map_cons, List.map_nil]; decide +kernel) (by omega)]
  simp only [List.map_cons, List.map_nil, List.forall_mem_cons, Value.Fits, hd, true_and,
    Provenance.strings, List.not_mem_nil, false_implies, implies_true, hkind p.kind,
    hconfidence p.confidence]

theorem nodeToJson_fits (hP : AdmitsShort P) (id : TopologyNodeId) (n : TopologyNode)
    (hd : d + 3 ≤ maxDepth) : (nodeToJson id n).Fits maxDepth P d ↔ ∀ s ∈ n.strings, P s := by
  obtain ⟨htype, -, -, -, hconfidence⟩ := admits_names hP
  have hd' : d + 1 ≤ maxDepth := by omega
  have hnative := @nativeToJson_fits maxDepth (d + 1) P hP n.native (by omega)
  have hprovenance := @provenanceToJson_fits maxDepth (d + 1) P hP n.provenance (by omega)
  have hproperties := @propertiesToJson_fits maxDepth (d + 1) P n.properties (by omega)
  rw [nodeToJson,
    record_fits hP (by simp only [List.map_cons, List.map_nil]; decide +kernel) (by omega)]
  simp only [List.map_cons, List.map_nil, List.forall_mem_cons, hnative, hprovenance, hproperties,
    Value.Fits, hd', true_and, admits_toHex hP id, htype n.type, hconfidence n.confidence,
    List.not_mem_nil, false_implies, implies_true, and_true, TopologyNode.strings,
    List.forall_mem_append, and_assoc]

/-- The key of a field that is only written when it is known. -/
private theorem putKnown_keys {α : Type} (k : Bytes) (toJson : α → Value) (v : Option α) :
    ((putKnown k toJson v).map Prod.fst).Sublist [k] := by
  cases v with
  | none => exact List.nil_sublist _
  | some v => exact List.Sublist.refl _

/-- A field without strings that is only written when it is known. -/
private theorem putKnown_fits {α : Type} {k : Bytes} {toJson : α → Value} {v : Option α}
    (h : ∀ v, (toJson v).Fits maxDepth P d) :
    ∀ w ∈ (putKnown k toJson v).map Prod.snd, w.Fits maxDepth P d := by
  cases v with
  | none => exact fun w hw => absurd hw List.not_mem_nil
  | some v =>
    intro w hw
    rw [List.mem_singleton.mp hw]
    exact h v

/-- The fields of an edge. -/
def edgeFields (e : TopologyEdge) : List (Bytes × Value) :=
  [(str "source", .string e.source.toHex),
    (str "target", .string e.target.toHex),
    (str "type", .string e.type.toString),
    (str "direction", .string e.direction.toString),
    (str "confidence", .string e.confidence.toString),
    (str "provenance", provenanceToJson e.provenance)] ++
  putKnown (str "width") int32ToUint e.width ++
  putKnown (str "pcie_generation") int32ToUint e.pcieGeneration ++
  putKnown (str "bandwidth_bps") .double e.bandwidthBytesPerSec ++
  putKnown (str "latency_ns") .double e.latencyNs ++
  [(str "hop_count", .int e.hopCount.toInt64)] ++
  putKnown (str "locality_score") .double e.localityScore ++
  [(str "accessible", .bool e.accessible)] ++
  putKnown (str "peer_capability") .uint e.peerCapability ++
  [(str "policy_version", .uint e.policyVersion.toUInt64),
    (str "properties", propertiesToJson e.properties)]

theorem edgeToJson_eq (e : TopologyEdge) : edgeToJson e = objectOf (edgeFields e) := rfl

/-- The keys of an edge are distinct, whichever facts of its link are known. -/
theorem edgeFields_keys (e : TopologyEdge) : RecordKeys ((edgeFields e).map Prod.fst) := by
  have hall : RecordKeys ([str "source", str "target", str "type", str "direction",
      str "confidence", str "provenance"] ++ [str "width"] ++ [str "pcie_generation"] ++
      [str "bandwidth_bps"] ++ [str "latency_ns"] ++ [str "hop_count"] ++ [str "locality_score"] ++
      [str "accessible"] ++ [str "peer_capability"] ++ [str "policy_version", str "properties"]) := by
    decide +kernel
  apply hall.sublist
  simp only [edgeFields, List.map_append]
  have hrefl : ∀ l : List Bytes, l.Sublist l := List.Sublist.refl
  have hknown := fun {α : Type} => @putKnown_keys α
  exact ((((((((((hrefl _).append (hknown _ _ _)).append (hknown _ _ _)).append
    (hknown _ _ _)).append (hknown _ _ _)).append (hrefl _)).append (hknown _ _ _)).append
    (hrefl _)).append (hknown _ _ _)).append (hrefl _))

theorem edgeToJson_fits (hP : AdmitsShort P) (e : TopologyEdge) (hd : d + 3 ≤ maxDepth) :
    (edgeToJson e).Fits maxDepth P d ↔ ∀ s ∈ e.strings, P s := by
  obtain ⟨-, htype, hdirection, -, hconfidence⟩ := admits_names hP
  have hd' : d + 1 ≤ maxDepth := by omega
  have hprovenance := @provenanceToJson_fits maxDepth (d + 1) P hP e.provenance (by omega)
  have hproperties := @propertiesToJson_fits maxDepth (d + 1) P e.properties (by omega)
  -- the facts of the link are numbers
  have hint : ∀ {k : Bytes} {v : Option Int32},
      ∀ w ∈ (putKnown k int32ToUint v).map Prod.snd, w.Fits maxDepth P (d + 1) :=
    putKnown_fits fun _ => hd'
  have hdouble : ∀ {k : Bytes} {v : Option Double},
      ∀ w ∈ (putKnown k .double v).map Prod.snd, w.Fits maxDepth P (d + 1) :=
    putKnown_fits fun _ => hd'
  have huint : ∀ {k : Bytes} {v : Option UInt64},
      ∀ w ∈ (putKnown k .uint v).map Prod.snd, w.Fits maxDepth P (d + 1) :=
    putKnown_fits fun _ => hd'
  rw [edgeToJson_eq, record_fits hP (edgeFields_keys e) (by omega), edgeFields]
  simp only [List.map_append, List.forall_mem_append, List.map_cons, List.map_nil,
    List.forall_mem_cons, iff_true_intro hint, iff_true_intro hdouble, iff_true_intro huint,
    hprovenance, hproperties, Value.Fits, hd', true_and, and_true, admits_toHex hP, htype e.type,
    hdirection e.direction, hconfidence e.confidence, List.not_mem_nil, false_implies,
    implies_true, TopologyEdge.strings]

/-- A limit on the document is one on the strings of the snapshot. -/
theorem snapshotToJson_fits (hP : AdmitsShort P) (snap : TopologySnapshot) (hmax : 5 ≤ maxDepth) :
    (snapshotToJson snap).Fits maxDepth P 0 ↔ ∀ s ∈ snap.strings, P s := by
  have hd : 0 + 1 ≤ maxDepth := by omega
  -- the parts of the document one by one: each fits iff its own strings do
  have hvalidation : (validationToJson snap.validation).Fits maxDepth P (0 + 1) ↔
      ∀ s ∈ snap.validation.errors ++ snap.validation.warnings, P s := by
    have hleaf : 0 + 1 + 1 ≤ maxDepth := by omega
    have hstrings : ∀ l : List Bytes, (Value.array (l.map .string)).Fits maxDepth P (0 + 1 + 1) ↔
        ∀ s ∈ l, P s := fun l => strings_fit (by omega)
    rw [validationToJson,
      record_fits hP (by simp only [List.map_cons, List.map_nil]; decide +kernel) (by omega)]
    simp only [List.map_cons, List.map_nil, List.forall_mem_cons, hstrings]
    simp only [Value.Fits, hleaf, true_and, List.not_mem_nil, false_implies, implies_true, and_true,
      List.forall_mem_append]
  have hnodes : (Value.array ((sortedNodes snap).map fun e => nodeToJson e.1 e.2)).Fits maxDepth P
      (0 + 1) ↔ ∀ s ∈ snap.nodes.entries.flatMap (fun e => e.2.strings), P s := by
    -- the order in which the nodes are written does not matter
    have hperm : (sortedNodes snap).Perm snap.nodes.entries := List.perm_insertionSort _ _
    have hnode : ∀ e : TopologyNodeId × TopologyNode,
        (nodeToJson e.1 e.2).Fits maxDepth P (0 + 1 + 1) ↔ ∀ s ∈ e.2.strings, P s :=
      fun e => nodeToJson_fits hP e.1 e.2 (by omega)
    rw [Value.Fits, Value.fitElements_iff, and_iff_right hd, List.forall_mem_map,
      List.forall_mem_flatMap]
    simp only [hnode, hperm.mem_iff]
  have hedges : (Value.array ((sortedEdges snap).map edgeToJson)).Fits maxDepth P (0 + 1) ↔
      ∀ s ∈ snap.edges.flatMap TopologyEdge.strings, P s := by
    have hperm : (sortedEdges snap).Perm snap.edges := List.perm_insertionSort _ _
    have hedge : ∀ e, (edgeToJson e).Fits maxDepth P (0 + 1 + 1) ↔ ∀ s ∈ e.strings, P s :=
      fun e => edgeToJson_fits hP e (by omega)
    rw [Value.Fits, Value.fitElements_iff, and_iff_right hd, List.forall_mem_map,
      List.forall_mem_flatMap]
    simp only [hedge, hperm.mem_iff]
  have hwarnings : (Value.array (snap.metadata.warnings.map .string)).Fits maxDepth P (0 + 1) ↔
      ∀ s ∈ snap.metadata.warnings, P s := strings_fit (by omega)
  -- the two texts that the serializer puts in itself
  have hschema : P kSnapshotSchemaVersion := hP _ (by decide) (by decide)
  have hformat : P (str "topology_fabric_snapshot") := hP _ (by decide) (by decide)
  rw [snapshotToJson,
    record_fits hP (by simp only [List.map_cons, List.map_nil]; decide +kernel) (by omega)]
  simp only [List.map_cons, List.map_nil, List.forall_mem_cons, hvalidation, hnodes, hedges,
    hwarnings]
  simp only [Value.Fits, hd, true_and, hschema, hformat, List.not_mem_nil, false_implies,
    implies_true, and_true, TopologySnapshot.strings, List.forall_mem_append, List.forall_mem_cons,
    and_assoc]

end Strings

end TopologyFabric

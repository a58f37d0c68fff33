import TopologyFabric.Diff.Laws
import TopologyFabric.Serialization.Queries

/-!
# Comparing What Is Read Back

A snapshot that is written and read back compares with every other snapshot like the original, as
far as the comparison looks at what the document keeps: the same nodes and edges are reported as
added and removed, and the same common nodes as moved or as reported by another provider.

## Main results

- `SameRecords.events_perm`: the comparison depends on the records
- `reread_compares`: what is read back in comparisons
-/

namespace TopologyFabric

open Library Json

/-- What a map with other values makes of its entries, key by key. -/
theorem flatMap_entries_perm {K V β : Type} [DecidableEq K] {m m' : HashMap K V}
    {f f' : K × V → List β} (hkeys : ∀ k, k ∈ m'.keys ↔ k ∈ m.keys)
    (h : ∀ k v v', m.find? k = some v → m'.find? k = some v' → f' (k, v') = f (k, v)) :
    (m'.entries.flatMap f').Perm (m.entries.flatMap f) := by
  have hfirst : m.entries.flatMap f =
      m.keys.flatMap fun k => (m.find? k).elim [] fun v => f (k, v) := by
    rw [HashMap.keys, List.flatMap_map]
    apply List.flatMap_congr
    rintro ⟨k, v⟩ he
    rw [HashMap.find?_eq_some.mpr he, Option.elim_some]
  have hsecond : m'.entries.flatMap f' =
      m'.keys.flatMap fun k => (m.find? k).elim [] fun v => f (k, v) := by
    rw [HashMap.keys, List.flatMap_map]
    apply List.flatMap_congr
    rintro ⟨k, v'⟩ he
    obtain ⟨v, hv⟩ := HashMap.mem_keys_iff.mp ((hkeys k).mp (HashMap.mem_keys_of_mem he))
    rw [hv, Option.elim_some]
    exact h k v v' hv (HashMap.find?_eq_some.mpr he)
  rw [hfirst, hsecond]
  exact ((List.perm_ext_iff_of_nodup m'.nodup m.nodup).mpr hkeys).flatMap_right _

/-- An event about what a document keeps of nodes and edges. -/
def DiffEvent.isKept (e : DiffEvent) : Bool :=
  decide (e.kind ≠ .propertyChanged ∧ e.kind ≠ .capabilityChanged)

/-- A loop that reports no event of the kept kinds. -/
theorem filterMap_kept_eq_nil {α : Type} {l : List α} {f : α → Option DiffEvent}
    (h : ∀ a e, f a = some e → ¬ e.isKept) : (l.filterMap f).filter DiffEvent.isKept = [] := by
  rw [List.filter_eq_nil_iff]
  intro e he
  obtain ⟨a, -, ha⟩ := List.mem_filterMap.mp he
  exact h a e ha

/-! ## Nodes -/

section Nodes

variable {A A' B B' : NodeMap}

/-- The two maps have nodes with the same records. -/
structure SameNodes (A A' : NodeMap) : Prop where
  keys : ∀ id, id ∈ A'.keys ↔ id ∈ A.keys
  records : ∀ id n n', A.find? id = some n → A'.find? id = some n' → n'.record = n.record

theorem SameNodes.contains_eq (h : SameNodes A A') (id : TopologyNodeId) :
    A'.contains id = A.contains id := by
  rw [Bool.eq_iff_iff, HashMap.contains_iff, HashMap.contains_iff]
  exact h.keys id

theorem nodeAddedEvents_perm_of_records (ha : SameNodes A A') (hb : SameNodes B B') :
    (nodeAddedEvents A' B').Perm (nodeAddedEvents A B) := by
  unfold nodeAddedEvents
  rw [List.filterMap_eq_flatMap_toList, List.filterMap_eq_flatMap_toList]
  apply flatMap_entries_perm hb.keys
  intro id n n' hn hn'
  have htype : n'.type = n.type := congrArg NodeRecord.type (hb.records id n n' hn hn')
  simp only [ha.contains_eq, htype]

theorem nodeRemovedEvents_perm_of_records (ha : SameNodes A A') (hb : SameNodes B B') :
    (nodeRemovedEvents A' B').Perm (nodeRemovedEvents A B) := by
  unfold nodeRemovedEvents
  rw [List.filterMap_eq_flatMap_toList, List.filterMap_eq_flatMap_toList]
  apply flatMap_entries_perm ha.keys
  intro id n n' hn hn'
  have htype : n'.type = n.type := congrArg NodeRecord.type (ha.records id n n' hn hn')
  simp only [hb.contains_eq, htype]

/-- Of a common node the locality and the provider are kept. -/
theorem nodeChangedEvents_kept (id : TopologyNodeId) {na nb : TopologyNode}
    (hna : A.find? id = some na) :
    (nodeChangedEvents A (id, nb)).filter DiffEvent.isKept =
      (if localityChanged na nb then
        [{ kind := .localityChanged, node := id, before := na.native.canonicalKey,
           after := nb.native.canonicalKey }]
      else []) ++
      if na.provenance.provider ≠ nb.provenance.provider then
        [{ kind := .providerChanged, node := id, before := na.provenance.provider,
           after := nb.provenance.provider }]
      else [] := by
  simp only [nodeChangedEvents, hna, List.filter_append]
  -- the changed properties are what is not kept
  rw [filterMap_kept_eq_nil, List.append_nil]
  · split_ifs <;> rfl
  · intro p e h
    split_ifs at h
    obtain rfl := Option.some.inj h
    simp [DiffEvent.isKept]

theorem changedEvents_perm_of_records (ha : SameNodes A A') (hb : SameNodes B B') :
    ((B'.entries.flatMap (nodeChangedEvents A')).filter DiffEvent.isKept).Perm
      ((B.entries.flatMap (nodeChangedEvents A)).filter DiffEvent.isKept) := by
  rw [List.filter_flatMap, List.filter_flatMap]
  apply flatMap_entries_perm hb.keys
  intro id nb nb' hnb hnb'
  have hb' := hb.records id nb nb' hnb hnb'
  have hnative : nb'.native = nb.native := congrArg NodeRecord.native hb'
  have hprovenance : nb'.provenance = nb.provenance := congrArg NodeRecord.provenance hb'
  cases hna : A.find? id with
  | none =>
    have hna' : A'.find? id = none := by
      rw [HashMap.find?_eq_none, ha.keys, ← HashMap.find?_eq_none, hna]
    simp [nodeChangedEvents, hna, hna']
  | some na =>
    obtain ⟨na', hna'⟩ := HashMap.mem_keys_iff.mp
      ((ha.keys id).mpr (HashMap.mem_keys_iff.mpr ⟨na, hna⟩))
    have ha' := ha.records id na na' hna hna'
    have hnativeA : na'.native = na.native := congrArg NodeRecord.native ha'
    have hprovenanceA : na'.provenance = na.provenance := congrArg NodeRecord.provenance ha'
    have hlocality : localityChanged na' nb' = localityChanged na nb := by
      rw [localityChanged, hnative, hnativeA, ← localityChanged]
    rw [nodeChangedEvents_kept id hna, nodeChangedEvents_kept id hna', hlocality, hnative,
      hprovenance, hnativeA, hprovenanceA]

end Nodes

/-! ## Edges -/

section Edges

variable {EA EA' EB EB' : List TopologyEdge}

/-- An edge with this record. -/
def EdgeRecord.toEdge (r : EdgeRecord) : TopologyEdge where
  source := r.source
  target := r.target
  type := r.type
  direction := r.direction

theorem edgesMissingFrom_records (kind : DiffEventKind) (EA EB : List TopologyEdge) :
    edgesMissingFrom kind EA EB = (EB.map TopologyEdge.record).filterMap fun r =>
      if r.toEdge.key ∈ (EA.map TopologyEdge.record).map fun r => r.toEdge.key then none
      else some (edgeEvent kind r.type.toString r.toEdge) := by
  rw [List.filterMap_map, List.map_map]
  rfl

/-- Which edges are missing depends on their records. -/
theorem edgesMissingFrom_perm_of_records (kind : DiffEventKind)
    (ha : (EA'.map TopologyEdge.record).Perm (EA.map TopologyEdge.record))
    (hb : (EB'.map TopologyEdge.record).Perm (EB.map TopologyEdge.record)) :
    (edgesMissingFrom kind EA' EB').Perm (edgesMissingFrom kind EA EB) := by
  rw [edgesMissingFrom_records, edgesMissingFrom_records]
  simp only [(ha.map fun r => r.toEdge.key).mem_iff]
  exact hb.filterMap _

theorem linkChangedEvents_kept : (linkChangedEvents EA EB).filter DiffEvent.isKept = [] := by
  apply filterMap_kept_eq_nil
  intro edge e h
  split_ifs at h
  obtain rfl := Option.some.inj h
  simp [DiffEvent.isKept, edgeEvent]

end Edges

/-! ## Snapshots -/

section Snapshots

variable {a a' b b' c : TopologySnapshot}

theorem SameRecords.refl (a : TopologySnapshot) : SameRecords a a where
  nodeIds _ := Iff.rfl
  nodes _ := rfl
  edges := .refl _
  metadata := rfl

theorem SameRecords.sameNodes (h : SameRecords a a') : SameNodes a.nodes a'.nodes where
  keys := h.nodeIds
  records id n n' hn hn' := by
    have hrecord := h.nodes id
    rw [TopologySnapshot.findNode, TopologySnapshot.findNode, hn, hn'] at hrecord
    exact Option.some.inj hrecord

/-- **Comparisons depend on the records**, as far as the records tell. -/
theorem SameRecords.events_perm (ha : SameRecords a a') (hb : SameRecords b b') :
    ((compareSnapshots a' b').events.filter DiffEvent.isKept).Perm
      ((compareSnapshots a b).events.filter DiffEvent.isKept) := by
  have hsorted : ∀ x y : TopologySnapshot,
      ((compareSnapshots x y).events.filter DiffEvent.isKept).Perm
        ((diffEvents x.nodes y.nodes x.edges y.edges).filter DiffEvent.isKept) :=
    fun _ _ => (List.perm_insertionSort _ _).filter _
  apply ((hsorted a' b').trans _).trans (hsorted a b).symm
  simp only [diffEvents, List.filter_append, linkChangedEvents_kept, List.append_nil]
  -- the loops of `compare_snapshots`, one after the other
  have hadded := nodeAddedEvents_perm_of_records ha.sameNodes hb.sameNodes
  have hremoved := nodeRemovedEvents_perm_of_records ha.sameNodes hb.sameNodes
  have hchanged := changedEvents_perm_of_records ha.sameNodes hb.sameNodes
  have hnewEdges := edgesMissingFrom_perm_of_records .edgeAdded ha.edges hb.edges
  have holdEdges := edgesMissingFrom_perm_of_records .edgeRemoved hb.edges ha.edges
  exact ((((hadded.filter _).append (hremoved.filter _)).append hchanged).append
    (hnewEdges.filter _)).append (holdEdges.filter _)

/-- A snapshot has not moved from itself. -/
theorem kept_events_self (a : TopologySnapshot) :
    (compareSnapshots a a).events.filter DiffEvent.isKept = [] := by
  have hchanged : (a.nodes.entries.flatMap (nodeChangedEvents a.nodes)).filter
      DiffEvent.isKept = [] := by
    rw [List.filter_flatMap, List.flatMap_eq_nil_iff]
    rintro ⟨id, n⟩ hn
    rw [nodeChangedEvents_kept id (HashMap.find?_eq_some.mpr hn)]
    simp [localityChanged]
  have hadded : nodeAddedEvents a.nodes a.nodes = [] := nodeAddedEvents_eq_nil.mpr fun _ h => h
  have hremoved : nodeRemovedEvents a.nodes a.nodes = [] :=
    nodeRemovedEvents_eq_nil.mpr fun _ h => h
  have hedges : ∀ kind, edgesMissingFrom kind a.edges a.edges = [] := fun _ =>
    edgesMissingFrom_eq_nil.mpr fun _ h => h
  have hperm : ((compareSnapshots a a).events.filter DiffEvent.isKept).Perm
      ((diffEvents a.nodes a.nodes a.edges a.edges).filter DiffEvent.isKept) :=
    (List.perm_insertionSort _ _).filter _
  apply List.perm_nil.mp (hperm.trans _)
  simp only [diffEvents, List.filter_append, hadded, hremoved, hchanged, hedges,
    linkChangedEvents_kept, List.filter_nil, List.append_nil]
  exact .refl _

end Snapshots

/-- **What is read back in comparisons.** Whenever the text of a snapshot is accepted, the snapshot
that is read has the same additions and removals, moves and changes of provider as the original, from
and to every other snapshot, and none from the original. -/
theorem reread_compares {order : IterationOrder} {bounds : Bounds} {snap snap' : TopologySnapshot}
    {pretty : Bool} (hstrings : StringsFit snap)
    (h : deserializeSnapshotJson order (serializeSnapshotJson snap pretty) bounds = .ok snap') :
    (∀ other, ((compareSnapshots other snap').events.filter DiffEvent.isKept).Perm
        ((compareSnapshots other snap).events.filter DiffEvent.isKept) ∧
      ((compareSnapshots snap' other).events.filter DiffEvent.isKept).Perm
        ((compareSnapshots snap other).events.filter DiffEvent.isKept)) ∧
      ∀ e ∈ (compareSnapshots snap snap').events,
        e.kind = .propertyChanged ∨ e.kind = .capabilityChanged := by
  have hsame := sameRecords_of_deserialize hstrings h
  refine ⟨fun other => ⟨(SameRecords.refl other).events_perm hsame,
    hsame.events_perm (.refl other)⟩, fun e he => ?_⟩
  have hself := (SameRecords.refl snap).events_perm hsame
  rw [kept_events_self, List.perm_nil, List.filter_eq_nil_iff] at hself
  have hkept := hself e he
  by_contra hkind
  exact hkept (decide_eq_true (not_or.mp hkind))

theorem reread_compares_pair : ∃ snap',
    deserializeSnapshotJson .insertion (serializeSnapshotJson pairSnapshot true) {} = .ok snap' ∧
      (∀ other, ((compareSnapshots other snap').events.filter DiffEvent.isKept).Perm
          ((compareSnapshots other pairSnapshot).events.filter DiffEvent.isKept) ∧
        ((compareSnapshots snap' other).events.filter DiffEvent.isKept).Perm
          ((compareSnapshots pairSnapshot other).events.filter DiffEvent.isKept)) ∧
      ∀ e ∈ (compareSnapshots pairSnapshot snap').events,
        e.kind = .propertyChanged ∨ e.kind = .capabilityChanged := by
  have hstrings : StringsFit pairSnapshot := by decide +kernel
  have hreadable : Readable {} pairSnapshot true :=
    ⟨by decide +kernel, by decide +kernel, by decide +kernel, by decide +kernel⟩
  obtain ⟨snap', hsnap', -⟩ :=
    (deserializeSnapshotJson_written .insertion hstrings {} true).1 hreadable
  exact ⟨snap', hsnap', reread_compares hstrings hsnap'⟩

end TopologyFabric

import TopologyFabric.Serialization.Accepted

/-!
# Importing Snapshots

The two ways to import a snapshot as a synthetic one. The runtime rebuilds an unmarked snapshot with
a new builder, which keeps its nodes, its edges and the rest of its metadata but not what the first
builder has recorded. The function beside the serializer marks nothing: its branch for an unmarked
snapshot is empty.

## Main results

- `importSynthetic_keeps`: what the rebuilt snapshot holds
- `import_marks_iff`: when both imports mark a snapshot and keep everything else
-/

namespace TopologyFabric

open Library Json

/-- `import_synthetic_json`; nothing is done for a snapshot that is not marked. -/
def importSyntheticJson (order : IterationOrder) (jsonText : Bytes) (bounds : Bounds) :
    Run TopologySnapshot := do
  let snap ← deserializeSnapshotJson order jsonText bounds
  .ok snap

/-- The snapshot with the flag, rebuilt by a new builder. -/
def rebuildSynthetic (order : IterationOrder) (snap : TopologySnapshot) (bounds : Bounds) :
    Run TopologySnapshot :=
  let b := (SnapshotBuilder.new bounds).setMetadata { snap.metadata with synthetic := true }
  let b := snap.nodes.entries.foldl (fun b entry => (b.addNode entry.2).2) b
  (snap.edges.foldl (fun b e => (b.addEdge e).2) b).take order

/-- `TopologyRuntime::import_synthetic`, without the counters of the telemetry. -/
def importSynthetic (order : IterationOrder) (json : Bytes) (bounds : Bounds) :
    Run TopologySnapshot := do
  let snap ← deserializeSnapshotJson order json bounds
  if snap.metadata.synthetic = false then rebuildSynthetic order snap bounds
  else .ok snap

/-! ## The rebuilt snapshot -/

/-- The calls of the builder that rebuilds a snapshot. -/
def rebuildCalls (snap : TopologySnapshot) : List BuilderCall :=
  .setMetadata { snap.metadata with synthetic := true } ::
    ((snap.nodes.entries.map Prod.snd).map .addNode ++ snap.edges.map .addEdge)

theorem rebuildSynthetic_eq (order : IterationOrder) (snap : TopologySnapshot) (bounds : Bounds) :
    rebuildSynthetic order snap bounds =
      (SnapshotBuilder.run bounds (rebuildCalls snap)).take order := by
  rw [SnapshotBuilder.run, rebuildCalls, List.foldl_cons, List.foldl_append, List.foldl_map,
    List.foldl_map, List.foldl_map]
  rfl

theorem offered_rebuildCalls (snap : TopologySnapshot) :
    offeredNodes (rebuildCalls snap) = snap.nodes.entries.map Prod.snd ∧
      offeredEdges (rebuildCalls snap) = snap.edges := by
  obtain ⟨hnodes, hnoEdges⟩ := offered_addNode (snap.nodes.entries.map Prod.snd)
  obtain ⟨hnoNodes, hedges⟩ := offered_addEdge snap.edges
  obtain ⟨happend, happendEdges⟩ := offered_append
    ((snap.nodes.entries.map Prod.snd).map .addNode) (snap.edges.map .addEdge)
  constructor
  · rw [offeredNodes, rebuildCalls, List.filterMap_cons_none rfl]
    exact happend.trans (by rw [hnodes, hnoNodes, List.append_nil])
  · rw [offeredEdges, rebuildCalls, List.filterMap_cons_none rfl]
    exact happendEdges.trans (by rw [hnoEdges, hedges, List.nil_append])

/-- Nodes with different ids are all kept when there is room for them. -/
theorem firstOffered_of_nodup {bounds : Bounds} {nodes : List TopologyNode}
    (hids : (nodes.map TopologyNode.id).Nodup) (hroom : nodes.length ≤ bounds.maxNodes)
    (id : TopologyNodeId) (n : TopologyNode) :
    FirstOffered bounds nodes id n ↔ n ∈ nodes ∧ n.id = id := by
  constructor
  · rintro ⟨pre, post, rfl, hid, -, -⟩
    exact ⟨List.mem_append_right _ (List.mem_cons_self ..), hid⟩
  · rintro ⟨hn, rfl⟩
    obtain ⟨pre, post, rfl⟩ := List.append_of_mem hn
    refine ⟨pre, post, rfl, rfl, ?_, ?_⟩
    · rw [List.map_append, List.map_cons, List.nodup_append] at hids
      exact fun hpre => hids.2.2 _ hpre _ (List.mem_cons_self ..) rfl
    · have hdistinct := distinctIds_le_length pre
      rw [List.length_append, List.length_cons] at hroom
      omega

private theorem foldl_addNode_metadata (l : List TopologyNode) (b : SnapshotBuilder) :
    (l.foldl (fun b n => (SnapshotBuilder.addNode b n).2) b).metadata = b.metadata := by
  induction l generalizing b with
  | nil => rfl
  | cons n l ih =>
    rw [List.foldl_cons, ih, SnapshotBuilder.addNode]
    split_ifs <;> rfl

private theorem foldl_addEdge_metadata (l : List TopologyEdge) (b : SnapshotBuilder) :
    (l.foldl (fun b e => (SnapshotBuilder.addEdge b e).2) b).metadata = b.metadata := by
  induction l generalizing b with
  | nil => rfl
  | cons e l ih =>
    rw [List.foldl_cons, ih, SnapshotBuilder.addEdge]
    split_ifs <;> rfl

/-- New nodes that there is room for leave no warning. -/
private theorem foldl_addNode_validation (l : List TopologyNode) (b : SnapshotBuilder)
    (hopen : b.taken = false) (hnew : (b.nodes.keys ++ l.map TopologyNode.id).Nodup)
    (hroom : b.nodes.size + l.length ≤ b.bounds.maxNodes) :
    (l.foldl (fun b n => (SnapshotBuilder.addNode b n).2) b).validation = b.validation := by
  induction l generalizing b with
  | nil => rfl
  | cons n l ih =>
    rw [List.length_cons] at hroom
    obtain ⟨hid, hrest⟩ := SnapshotBuilder.fresh_cons hnew
    obtain ⟨hnodes, hbounds, hvalidation⟩ := SnapshotBuilder.addNode_new hopen hid (by omega)
    have hsize := HashMap.size_emplace_le b.nodes n.id n
    rw [← hnodes] at hrest hsize
    have hstill := (SnapshotBuilder.addNode_taken b n).trans hopen
    rw [List.foldl_cons, ih _ hstill hrest (by rw [hbounds]; omega), hvalidation]

/-- Edges that there is room for leave no warning. -/
private theorem foldl_addEdge_validation (l : List TopologyEdge) (b : SnapshotBuilder)
    (hopen : b.taken = false) (hroom : b.edges.length + l.length ≤ b.bounds.maxEdges) :
    (l.foldl (fun b e => (SnapshotBuilder.addEdge b e).2) b).validation = b.validation := by
  induction l generalizing b with
  | nil => rfl
  | cons e l ih =>
    rw [List.length_cons] at hroom
    have hadd : (b.addEdge e).2.edges = b.edges ++ [e] ∧
        (b.addEdge e).2.bounds = b.bounds ∧ (b.addEdge e).2.validation = b.validation := by
      have hfull : ¬ b.bounds.maxEdges ≤ b.edges.length := by omega
      simp [SnapshotBuilder.addEdge, hopen, hfull]
    rw [List.foldl_cons, ih (b.addEdge e).2 ((SnapshotBuilder.addEdge_taken b e).trans hopen),
      hadd.2.2]
    rw [hadd.1, hadd.2.1, List.length_append, List.length_singleton]
    omega

/-- **What the rebuilt snapshot holds**: the nodes, the edges and the metadata but for the flag, and
of the validation only what a new validation finds. -/
theorem importSynthetic_keeps {order : IterationOrder} {json : Bytes} {bounds : Bounds}
    {snap : TopologySnapshot} (h : deserializeSnapshotJson order json bounds = .ok snap)
    (hunmarked : snap.metadata.synthetic = false) :
    ∃ snap', importSynthetic order json bounds = .ok snap' ∧
      (∀ id, snap'.findNode id = snap.findNode id) ∧ snap'.edges = snap.edges ∧
      snap'.metadata = { snap.metadata with synthetic := true } ∧
      snap'.validation = validate order snap'.nodes snap'.edges := by
  obtain ⟨hnodeCount, hedgeCount⟩ := deserialize_counts h
  have hnodup : ((snap.nodes.entries.map Prod.snd).map TopologyNode.id).Nodup := by
    rw [ids_of_keyed snap.keyed]
    exact snap.nodes.nodup
  have hroom : (snap.nodes.entries.map Prod.snd).length ≤ bounds.maxNodes := by
    rw [List.length_map]
    exact hnodeCount
  obtain ⟨hoffered, hofferedEdges⟩ := offered_rebuildCalls snap
  obtain ⟨snap', hsnap'⟩ := SnapshotBuilder.take_returns
    (@run_filling bounds (rebuildCalls snap)).isOpen order
  obtain ⟨hnodes, hedges, hmetadata, hvalidation⟩ := SnapshotBuilder.take_eq_ok hsnap'
  -- the builder is the one with the metadata, filled with the nodes and then with the edges
  let start := (SnapshotBuilder.new bounds).setMetadata { snap.metadata with synthetic := true }
  let filled := (snap.nodes.entries.map Prod.snd).foldl
    (fun b n => (SnapshotBuilder.addNode b n).2) start
  have hrun : SnapshotBuilder.run bounds (rebuildCalls snap) =
      snap.edges.foldl (fun b e => (SnapshotBuilder.addEdge b e).2) filled := by
    rw [SnapshotBuilder.run, rebuildCalls, List.foldl_cons, List.foldl_append, List.foldl_map,
      List.foldl_map]
    rfl
  have hfilled : filled.validation = {} ∧ filled.edges = [] ∧ filled.bounds = bounds ∧
      filled.taken = false := by
    obtain ⟨hnoEdges, hbounds⟩ := SnapshotBuilder.foldl_addNode_rest id
      (snap.nodes.entries.map Prod.snd) start
    refine ⟨?_, hnoEdges, hbounds, SnapshotBuilder.foldl_addNode_taken id _ start⟩
    exact foldl_addNode_validation _ start rfl hnodup (le_trans (by simp [start,
      SnapshotBuilder.setMetadata, SnapshotBuilder.new, HashMap.empty, HashMap.size]) hroom)
  have hnothing : (SnapshotBuilder.run bounds (rebuildCalls snap)).validation = {} := by
    obtain ⟨hvalid, hnoEdges, hbounds, hopen⟩ := hfilled
    rw [hrun, foldl_addEdge_validation _ _ hopen, hvalid]
    rw [hnoEdges, hbounds, List.length_nil, Nat.zero_add]
    exact hedgeCount
  refine ⟨snap', ?_, ?_, ?_, ?_, ?_⟩
  · rw [importSynthetic, h, Outcome.ok_bind, if_pos hunmarked, rebuildSynthetic_eq, hsnap']
  · intro id
    apply Option.ext
    intro n
    rw [TopologySnapshot.findNode, TopologySnapshot.findNode, hnodes, HashMap.find?_reorder,
      run_nodes, hoffered, firstOffered_of_nodup hnodup hroom, HashMap.find?_eq_some]
    constructor
    · rintro ⟨hn, rfl⟩
      obtain ⟨⟨id, m⟩, he, rfl⟩ := List.mem_map.mp hn
      have hid : m.id = id := snap.keyed _ he
      exact hid ▸ he
    · intro he
      exact ⟨List.mem_map.mpr ⟨_, he, rfl⟩, snap.keyed _ he⟩
  · rw [hedges, run_edges, hofferedEdges, List.take_of_length_le hedgeCount]
  · rw [hmetadata, hrun, foldl_addEdge_metadata, foldl_addNode_metadata]
    rfl
  · rw [hvalidation, SnapshotBuilder.mergedValidation, hnothing, hnodes, hedges]
    rfl

/-! ## Both imports -/

/-- The second snapshot is the first one with the flag. -/
structure MarksOnly (snap snap' : TopologySnapshot) : Prop where
  nodes : ∀ id, snap'.findNode id = snap.findNode id
  edges : snap'.edges = snap.edges
  metadata : snap'.metadata = { snap.metadata with synthetic := true }
  errors : snap'.validation.errors.Perm snap.validation.errors
  warnings : snap'.validation.warnings.Perm snap.validation.warnings

/-- Both imports mark what can be read and keep the rest of it, and both throw on every other
text. -/
structure ImportsMark (order : IterationOrder) (text : Bytes) (bounds : Bounds) : Prop where
  accepted : ∀ snap, deserializeSnapshotJson order text bounds = .ok snap →
    (∃ snap', importSynthetic order text bounds = .ok snap' ∧ MarksOnly snap snap') ∧
      ∃ snap', importSyntheticJson order text bounds = .ok snap' ∧ MarksOnly snap snap'
  rejected : (∀ snap, deserializeSnapshotJson order text bounds ≠ .ok snap) →
    (∃ e, importSynthetic order text bounds = .throws e) ∧
      ∃ e, importSyntheticJson order text bounds = .throws e

/-- **When importing only marks**: exactly when the text is not accepted or its document has the
flag already. -/
theorem import_marks_iff (order : IterationOrder) (text : Bytes) (bounds : Bounds) :
    ImportsMark order text bounds ↔
      ∀ root nodes edges, AcceptedText bounds text root nodes edges →
        readBool root (str "synthetic") false = true := by
  constructor
  · intro himports root nodes edges haccepted
    obtain ⟨snap, hsnap⟩ := (deserialize_returns_iff order text bounds).mpr
      ⟨root, nodes, edges, haccepted⟩
    obtain ⟨root', nodes', edges', haccepted', hread⟩ := deserialize_contents hsnap
    obtain ⟨rfl, rfl, rfl⟩ := haccepted.unique haccepted'
    obtain ⟨-, snap', hsnap', hmarks⟩ := himports.accepted snap hsnap
    rw [importSyntheticJson, hsnap, Outcome.ok_bind] at hsnap'
    obtain rfl := Outcome.ok.inj hsnap'
    -- the import beside the serializer returns what was read, so that has the flag
    have hflag : snap.metadata.synthetic = true := by rw [hmarks.metadata]
    rwa [hread.metadata] at hflag
  · intro hflag
    constructor
    · intro snap hsnap
      obtain ⟨root, nodes, edges, haccepted, hread⟩ := deserialize_contents hsnap
      have hmarked : snap.metadata.synthetic = true := by
        rw [hread.metadata]
        exact hflag root nodes edges haccepted
      have hself : MarksOnly snap snap :=
        ⟨fun _ => rfl, rfl, by rw [← hmarked], List.Perm.refl _, List.Perm.refl _⟩
      refine ⟨⟨snap, ?_, hself⟩, snap, ?_, hself⟩
      · rw [importSynthetic, hsnap, Outcome.ok_bind, if_neg (by rw [hmarked]; exact Bool.noConfusion)]
      · rw [importSyntheticJson, hsnap, Outcome.ok_bind]
    · intro hnone
      obtain ⟨e, hthrows⟩ := (deserialize_ends order text bounds).resolve_left
        fun ⟨snap, hsnap⟩ => hnone snap hsnap
      exact ⟨⟨e, by rw [importSynthetic, hthrows, Outcome.throws_bind]⟩,
        e, by rw [importSyntheticJson, hthrows, Outcome.throws_bind]⟩

/-- The least document. -/
def emptyDocument : Bytes :=
  str "\x7b\"format\":\"topology_fabric_snapshot\",\"nodes\":[],\"edges\":[]\x7d"

/-- It has no flag, and `import_synthetic_json` does not give it one. -/
theorem import_marks_fails : ¬ ImportsMark .insertion emptyDocument {} := by
  -- an empty document is not marked as synthetic
  have hunmarked : (match deserializeSnapshotJson .insertion emptyDocument {} with
      | .ok snap => decide (snap.metadata.synthetic = false)
      | _ => false) = true := by decide +kernel
  intro himports
  cases hsnap : deserializeSnapshotJson .insertion emptyDocument {} with
  | ok snap =>
    rw [hsnap] at hunmarked
    obtain ⟨-, snap', hsnap', hmarks⟩ := himports.accepted snap hsnap
    rw [importSyntheticJson, hsnap, Outcome.ok_bind] at hsnap'
    obtain rfl := Outcome.ok.inj hsnap'
    have hflag : snap.metadata.synthetic = true := by rw [hmarks.metadata]
    rw [of_decide_eq_true hunmarked] at hflag
    cases hflag
  | throws e =>
    rw [hsnap] at hunmarked
    cases hunmarked
  | stuck =>
    rw [hsnap] at hunmarked
    cases hunmarked

end TopologyFabric

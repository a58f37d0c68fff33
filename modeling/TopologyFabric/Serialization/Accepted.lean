import TopologyFabric.Core.Builder
import TopologyFabric.Serialization.Rejection

/-!
# Accepted Documents

Which texts are read as a snapshot, and what the snapshot then holds. A document has an array of
nodes and one of edges, whose entries are offered to a builder one after the other; of several nodes
with one id the first is kept.

## Main results

- `deserialize_returns_iff`: which texts are accepted
- `deserialize_eq_ok`: the run of builder calls behind a snapshot that is read
- `DocumentOf.nodes`, `DocumentOf.edges`: the nodes and edges of the snapshot
-/

namespace TopologyFabric

open Library Json

/-! ## Texts that are accepted -/

/-- A parsed text that is read as a snapshot, with the elements of its two arrays. -/
structure AcceptedDocument (bounds : Bounds) (root : Value) (nodes edges : List Value) : Prop where
  object : root.isObject = true
  format : readString root (str "format") [] = str "topology_fabric_snapshot"
  findNodes : findArray root (str "nodes") = some nodes
  findEdges : findArray root (str "edges") = some edges
  readNodes : EntriesReadable IsNodeEntry bounds.maxNodes nodes
  readEdges : EntriesReadable IsEdgeEntry bounds.maxEdges edges

/-- A text that is read as a snapshot, with the document that it is parsed as. -/
structure AcceptedText (bounds : Bounds) (jsonText : Bytes) (root : Value)
    (nodes edges : List Value) : Prop where
  parsed : ∃ r, parse {} jsonText = .ok r ∧ r.ok = true ∧ r.value = root
  short : jsonText.length ≤ bounds.maxSnapshotBytes
  document : AcceptedDocument bounds root nodes edges

/-- The calls of the builder: the nodes are offered, then the edges, and the metadata is set. -/
def documentCalls (nodes : List TopologyNode) (edges : List TopologyEdge)
    (metadata : SnapshotMetadata) : List BuilderCall :=
  nodes.map .addNode ++ edges.map .addEdge ++ [.setMetadata metadata]

/-- The records that the elements of an array are read as. -/
abbrev ReadAs {α : Type} (read : Value → Run α) (entries : List Value) (records : List α) : Prop :=
  List.Forall₂ (fun v a => read v = .ok a) entries records

/-- The entries that are offered to the builder. -/
structure DocumentOf (nodes edges : List Value) (ns : List TopologyNode) (es : List TopologyEdge) :
    Prop where
  readNodes : ReadAs nodeFromJson nodes ns
  readEdges : ReadAs edgeFromJson edges es

theorem offered_documentCalls (nodes : List TopologyNode) (edges : List TopologyEdge)
    (metadata : SnapshotMetadata) :
    offeredNodes (documentCalls nodes edges metadata) = nodes ∧
      offeredEdges (documentCalls nodes edges metadata) = edges := by
  obtain ⟨hnodes, hnoEdges⟩ := offered_addNode nodes
  obtain ⟨hnoNodes, hedges⟩ := offered_addEdge edges
  simp only [documentCalls, offered_append, hnodes, hnoEdges, hnoNodes, hedges, List.append_nil,
    List.nil_append]
  exact ⟨List.append_nil _, List.append_nil _⟩

theorem run_documentCalls (bounds : Bounds) (nodes : List TopologyNode)
    (edges : List TopologyEdge) (metadata : SnapshotMetadata) :
    SnapshotBuilder.run bounds (documentCalls nodes edges metadata) =
      (edges.foldl (fun b e => (SnapshotBuilder.addEdge b e).2)
        (nodes.foldl (fun b n => (SnapshotBuilder.addNode b n).2)
          (SnapshotBuilder.new bounds))).setMetadata metadata := by
  rw [SnapshotBuilder.run, documentCalls, List.foldl_append, List.foldl_append, List.foldl_map,
    List.foldl_map]
  rfl

section Document

variable {order : IterationOrder} {bounds : Bounds} {root : Value} {nodes edges : List Value}

/-- Readable entries are read. -/
private theorem readEntries_returns_iff {α β : Type} {isEntry : Value → Prop}
    {read : Value → Run α} {bound : ℕ} (hread : EntryCases isEntry read) (tooMany : Bytes)
    (add : β → α → β) (entries : List Value) (b : β) :
    (∃ b', readEntries bound tooMany read add 0 entries b = .ok b') ↔
      EntriesReadable isEntry bound entries := by
  rcases readEntries_cases hread tooMany add entries 0 b (Nat.zero_le bound) with
    ⟨hok, hreadable⟩ | ⟨⟨msg, hrejects⟩, -, hunreadable⟩ | ⟨hthrows, hescape⟩
  · exact iff_of_true hok hreadable
  · refine iff_of_false ?_ hunreadable
    rintro ⟨b', hb'⟩
    rw [hb'] at hrejects
    rcases hrejects with h | h <;> cases h
  · refine iff_of_false ?_ fun h => EntriesReadable.not_escape h hescape
    rintro ⟨b', hb'⟩
    rw [hb'] at hthrows
    cases hthrows

/-- The document of a snapshot that is read, and the calls that built the snapshot. -/
theorem snapshotFromJson_eq_ok {snap : TopologySnapshot}
    (h : snapshotFromJson order root bounds = .ok snap) :
    ∃ nodes edges ns es, AcceptedDocument bounds root nodes edges ∧ DocumentOf nodes edges ns es ∧
      (SnapshotBuilder.run bounds (documentCalls ns es (metadataFromJson root))).take order =
        .ok snap := by
  unfold snapshotFromJson at h
  -- every check that fails throws
  by_cases hobject : root.isObject = false
  · rw [if_pos hobject] at h
    cases h
  rw [if_neg hobject] at h
  by_cases hformat : readString root (str "format") [] = str "topology_fabric_snapshot"
  swap
  · rw [if_pos hformat] at h
    cases h
  rw [if_neg (not_not.mpr hformat)] at h
  cases hfindNodes : findArray root (str "nodes") with
  | none =>
    rw [hfindNodes] at h
    cases h
  | some nodes =>
    rw [hfindNodes] at h
    obtain ⟨b, hb, h⟩ := Outcome.bind_eq_ok.mp h
    cases hfindEdges : findArray root (str "edges") with
    | none =>
      rw [hfindEdges] at h
      cases h
    | some edges =>
      rw [hfindEdges] at h
      obtain ⟨b', hb', h⟩ := Outcome.bind_eq_ok.mp h
      obtain ⟨ns, hns, rfl⟩ := readEntries_eq_ok hb
      obtain ⟨es, hes, rfl⟩ := readEntries_eq_ok hb'
      refine ⟨nodes, edges, ns, es, ⟨Bool.not_eq_false _ ▸ hobject, hformat, hfindNodes,
        hfindEdges, ?_, ?_⟩, ⟨hns, hes⟩, ?_⟩
      · exact (readEntries_returns_iff nodeFromJson_cases _ _ _ _).mp ⟨_, hb⟩
      · exact (readEntries_returns_iff edgeFromJson_cases _ _ _ _).mp ⟨_, hb'⟩
      · rw [run_documentCalls]
        exact h

/-- An accepted document is read. -/
theorem snapshotFromJson_returns (h : AcceptedDocument bounds root nodes edges)
    (order : IterationOrder) : ∃ snap, snapshotFromJson order root bounds = .ok snap := by
  obtain ⟨b, hb⟩ := (readEntries_returns_iff nodeFromJson_cases (str "node count exceeds bound")
    (fun b n => (SnapshotBuilder.addNode b n).2) nodes (SnapshotBuilder.new bounds)).mpr h.readNodes
  obtain ⟨b', hb'⟩ := (readEntries_returns_iff edgeFromJson_cases (str "edge count exceeds bound")
    (fun b e => (SnapshotBuilder.addEdge b e).2) edges b).mpr h.readEdges
  have hopen : (b'.setMetadata (metadataFromJson root)).taken = false := by
    obtain ⟨ns, -, rfl⟩ := readEntries_eq_ok hb
    obtain ⟨es, -, rfl⟩ := readEntries_eq_ok hb'
    exact (SnapshotBuilder.foldl_addEdge_taken es _).trans
      (SnapshotBuilder.foldl_addNode_taken id ns _)
  obtain ⟨snap, hsnap⟩ := SnapshotBuilder.take_returns hopen order
  refine ⟨snap, ?_⟩
  rw [snapshotFromJson_eq h.object h.format h.findNodes h.findEdges, hb, Outcome.ok_bind, hb',
    Outcome.ok_bind, hsnap]

end Document

section Text

variable {order : IterationOrder} {bounds : Bounds} {jsonText : Bytes}

/-- The document of a text that is read, and the calls that built the snapshot. -/
theorem deserialize_eq_ok {snap : TopologySnapshot}
    (h : deserializeSnapshotJson order jsonText bounds = .ok snap) :
    ∃ root nodes edges ns es, AcceptedText bounds jsonText root nodes edges ∧
      DocumentOf nodes edges ns es ∧
      (SnapshotBuilder.run bounds (documentCalls ns es (metadataFromJson root))).take order =
        .ok snap := by
  obtain ⟨r, hr, h⟩ := Outcome.bind_eq_ok.mp h
  by_cases hok : r.ok = false
  · rw [if_pos hok] at h
    cases h
  rw [if_neg hok] at h
  by_cases hshort : bounds.maxSnapshotBytes < jsonText.length
  · rw [if_pos hshort] at h
    cases h
  rw [if_neg hshort] at h
  obtain ⟨nodes, edges, ns, es, hdocument, hread, htake⟩ := snapshotFromJson_eq_ok h
  exact ⟨r.value, nodes, edges, ns, es,
    ⟨⟨r, hr, Bool.not_eq_false _ ▸ hok, rfl⟩, not_lt.mp hshort, hdocument⟩, hread, htake⟩

/-- **Which texts are accepted.** -/
theorem deserialize_returns_iff (order : IterationOrder) (jsonText : Bytes) (bounds : Bounds) :
    (∃ snap, deserializeSnapshotJson order jsonText bounds = .ok snap) ↔
      ∃ root nodes edges, AcceptedText bounds jsonText root nodes edges := by
  constructor
  · rintro ⟨snap, hsnap⟩
    obtain ⟨root, nodes, edges, -, -, haccepted, -, -⟩ := deserialize_eq_ok hsnap
    exact ⟨root, nodes, edges, haccepted⟩
  · rintro ⟨root, nodes, edges, ⟨⟨r, hr, hok, rfl⟩, hshort, hdocument⟩⟩
    obtain ⟨snap, hsnap⟩ := snapshotFromJson_returns hdocument order
    refine ⟨snap, ?_⟩
    unfold deserializeSnapshotJson
    rw [hr, Outcome.ok_bind, if_neg (by rw [hok]; exact Bool.noConfusion),
      if_neg (not_lt.mpr hshort)]
    exact hsnap

/-- A text has at most one document. -/
theorem AcceptedText.unique {root root' : Value} {nodes nodes' edges edges' : List Value}
    (h : AcceptedText bounds jsonText root nodes edges)
    (h' : AcceptedText bounds jsonText root' nodes' edges') :
    root = root' ∧ nodes = nodes' ∧ edges = edges' := by
  obtain ⟨r, hr, -, rfl⟩ := h.parsed
  obtain ⟨r', hr', -, rfl⟩ := h'.parsed
  rw [hr] at hr'
  obtain rfl := Outcome.ok.inj hr'
  refine ⟨rfl, ?_, ?_⟩
  · exact Option.some.inj (h.document.findNodes.symm.trans h'.document.findNodes)
  · exact Option.some.inj (h.document.findEdges.symm.trans h'.document.findEdges)

/-- Reading a text ends: with a snapshot or with an exception. -/
theorem deserialize_ends (order : IterationOrder) (jsonText : Bytes) (bounds : Bounds) :
    (∃ snap, deserializeSnapshotJson order jsonText bounds = .ok snap) ∨
      ∃ e, deserializeSnapshotJson order jsonText bounds = .throws e := by
  obtain ⟨r, hr⟩ := parse_returns {} jsonText
  rw [deserializeSnapshotJson, hr, Outcome.ok_bind]
  split
  · exact Or.inr ⟨_, rfl⟩
  · split
    · exact Or.inr ⟨_, rfl⟩
    · rcases snapshotFromJson_cases order r.value bounds with ⟨hok | ⟨msg, h⟩, -⟩ | ⟨hthrows, -⟩
      · exact Or.inl hok
      · rcases h with h | h
        · exact Or.inr ⟨_, h⟩
        · exact Or.inr ⟨_, h⟩
      · exact Or.inr ⟨_, hthrows⟩

end Text

/-! ## What the snapshot holds -/

/-- The value under a key; null if there is none. -/
def fieldOf (o : Value) (k : Bytes) : Value := (o.find k).getD .null

/-- The properties that are read: each key has the value that the object has under it. -/
theorem readProperties_find {o : Value} {m : PropertyMap} (h : readProperties o = .ok m)
    (k : Bytes) (p : PropertyValue) :
    m.find? k = some p ↔
      ∃ v, (fieldOf o (str "properties")).find k = some v ∧ propertyFromJson v = .ok p := by
  have hfold : ∀ (es : List (Bytes × Value)) (m₀ m : PropertyMap),
      es.foldlM (fun m e => do
        let p ← propertyFromJson e.2
        Outcome.ok (m.emplace e.1 p)) m₀ = (.ok m : Run PropertyMap) →
      (m.find? k = some p ↔ m₀.find? k = some p ∨
        m₀.find? k = none ∧ ∃ v, findEntry k es = some v ∧ propertyFromJson v = .ok p) := by
    intro es
    induction es with
    | nil =>
      intro m₀ m h
      obtain rfl := Outcome.ok.inj h
      refine ⟨Or.inl, fun hor => hor.resolve_right ?_⟩
      rintro ⟨-, v, hv, -⟩
      cases hv
    | cons e es ih =>
      intro m₀ m h
      rw [List.foldlM_cons] at h
      obtain ⟨m₁, hstep, hrest⟩ := Outcome.bind_eq_ok.mp h
      obtain ⟨q, hq, hemplace⟩ := Outcome.bind_eq_ok.mp hstep
      obtain rfl := Outcome.ok.inj hemplace
      rw [ih _ m hrest, OrderedMap.find?_emplace, findEntry_cons]
      by_cases hk : k = e.1
      · -- the first entry with the key is kept
        subst hk
        rw [if_pos rfl, if_pos rfl]
        cases m₀.find? e.1 with
        | none => simp [hq]
        | some p₀ => simp
      · rw [if_neg hk, if_neg (Ne.symm hk)]
  unfold readProperties at h
  split at h
  · rename_i es hfind
    have hempty : (OrderedMap.empty : PropertyMap).find? k = none := rfl
    rw [hfold es _ m h, fieldOf, hfind, hempty]
    simp [Value.find]
  · rename_i hfind
    obtain rfl := Outcome.ok.inj h
    refine iff_of_false (fun h => by cases h) ?_
    rintro ⟨v, hv, -⟩
    cases hproperties : o.find (str "properties") with
    | none =>
      rw [fieldOf, hproperties] at hv
      cases hv
    | some w =>
      rw [fieldOf, hproperties, Option.getD_some] at hv
      cases w with
      | object es => exact hfind es hproperties
      | _ => cases hv

/-- A missing record is read as null is. -/
private theorem readRecord_eq {α : Type} {fromJson : Value → α} {default : α}
    (hnull : fromJson .null = default) (o : Value) (k : Bytes) :
    readRecord o k fromJson default = fromJson (fieldOf o k) := by
  rw [readRecord, fieldOf]
  cases o.find k with
  | none => exact hnull.symm
  | some v => rfl

/-- The node that a readable entry is read as. -/
theorem nodeFromJson_eq_ok {nv : Value} {n : TopologyNode} (h : nodeFromJson nv = .ok n) :
    readId nv (str "id") = some n.id ∧ readProperties nv = .ok n.properties ∧
      n.native = nativeFromJson (fieldOf nv (str "native")) ∧
      n.provenance = provenanceFromJson (fieldOf nv (str "provenance")) ∧
      n.category = readString nv (str "category") [] ∧
      n.name = readString nv (str "name") [] ∧
      n.displayName = readString nv (str "display_name") [] := by
  unfold nodeFromJson at h
  split at h
  · cases h
  · split at h
    · cases h
    · rename_i id hid
      obtain ⟨m, hm, h⟩ := Outcome.bind_eq_ok.mp h
      obtain rfl := Outcome.ok.inj h
      exact ⟨hid, hm, readRecord_eq rfl _ _, readRecord_eq rfl _ _, rfl, rfl, rfl⟩

/-- The edge that a readable entry is read as. -/
theorem edgeFromJson_eq_ok {ev : Value} {e : TopologyEdge} (h : edgeFromJson ev = .ok e) :
    readProperties ev = .ok e.properties ∧
      e.provenance = provenanceFromJson (fieldOf ev (str "provenance")) ∧
      e.width = (findNumber ev (str "width")).map (fun v => v.integer.toInt32) ∧
      e.pcieGeneration =
        (findNumber ev (str "pcie_generation")).map (fun v => v.integer.toInt32) ∧
      e.hopCount = (readInteger ev (str "hop_count") 0).toInt32 ∧
      e.policyVersion = (readInteger ev (str "policy_version") 0).toUInt64.toUInt32 := by
  unfold edgeFromJson at h
  split at h
  · cases h
  · split at h
    · obtain ⟨m, hm, h⟩ := Outcome.bind_eq_ok.mp h
      obtain rfl := Outcome.ok.inj h
      exact ⟨hm, readRecord_eq rfl _ _, rfl, rfl, rfl, rfl⟩
    · cases h

/-- The entry is the first of the array with its id. -/
def KeptEntry (entries : List Value) (v : Value) : Prop :=
  ∃ pre post, entries = pre ++ v :: post ∧
    ∀ w ∈ pre, readId w (str "id") ≠ readId v (str "id")

/-- A snapshot and the document that it is read from. -/
structure ReadFrom (snap : TopologySnapshot) (root : Value) (nodes edges : List Value) : Prop where
  node : ∀ n, snap.findNode n.id = some n ↔ ∃ v, KeptEntry nodes v ∧ nodeFromJson v = .ok n
  edges : ReadAs edgeFromJson edges snap.edges
  metadata : snap.metadata = metadataFromJson root

/-- A list that is related to one with a middle element splits in the same way. -/
private theorem forall₂_split {α β : Type} {R : α → β → Prop} {l : List α} {pre post : List β}
    {b : β} (h : List.Forall₂ R l (pre ++ b :: post)) :
    ∃ pre' a post', l = pre' ++ a :: post' ∧ List.Forall₂ R pre' pre ∧ R a b := by
  have hpre := List.forall₂_take_append l pre (b :: post) h
  cases hpost : l.drop pre.length with
  | nil =>
    have hdrop := List.forall₂_drop_append l pre (b :: post) h
    rw [hpost] at hdrop
    cases hdrop
  | cons a post' =>
    have hdrop := List.forall₂_drop_append l pre (b :: post) h
    rw [hpost] at hdrop
    cases hdrop with
    | cons hab _ =>
      refine ⟨l.take pre.length, a, post', ?_, hpre, hab⟩
      rw [← hpost, List.take_append_drop]

/-- The ids of nodes are those of the entries. -/
private theorem mem_ids_iff {entries : List Value} {ns : List TopologyNode}
    (h : ReadAs nodeFromJson entries ns) (id : TopologyNodeId) :
    id ∈ ns.map TopologyNode.id ↔ ∃ w ∈ entries, readId w (str "id") = some id := by
  induction h with
  | nil => simp
  | cons hread _ ih =>
    simp only [List.map_cons, List.mem_cons, ih, exists_eq_or_imp, (nodeFromJson_eq_ok hread).1,
      Option.some.injEq]
    rw [eq_comm]

theorem ReadFrom.mem_edges {snap : TopologySnapshot} {root : Value} {nodes edges : List Value}
    (h : ReadFrom snap root nodes edges) (e : TopologyEdge) :
    e ∈ snap.edges ↔ ∃ v ∈ edges, edgeFromJson v = .ok e := by
  constructor
  · intro he
    obtain ⟨pre, post, heq⟩ := List.append_of_mem he
    obtain ⟨vs, v, ws, rfl, -, hv⟩ := forall₂_split (heq ▸ h.edges)
    exact ⟨v, List.mem_append_right _ (List.mem_cons_self ..), hv⟩
  · rintro ⟨v, hv, hve⟩
    obtain ⟨vs, ws, rfl⟩ := List.append_of_mem hv
    obtain ⟨pre, e', post, heq, -, he'⟩ := forall₂_split h.edges.flip
    obtain rfl : e' = e := Outcome.ok.inj (he'.symm.trans hve)
    rw [heq]
    exact List.mem_append_right _ (List.mem_cons_self ..)

/-- The nodes that are offered first are the kept entries. -/
private theorem firstOffered_iff {bounds : Bounds} {nodes : List Value} {ns : List TopologyNode}
    (h : ReadAs nodeFromJson nodes ns) (hroom : ns.length ≤ bounds.maxNodes) (n : TopologyNode) :
    FirstOffered bounds ns n.id n ↔ ∃ v, KeptEntry nodes v ∧ nodeFromJson v = .ok n := by
  constructor
  · rintro ⟨pre, post, rfl, -, hnew, -⟩
    obtain ⟨vs, v, ws, rfl, hpre, hv⟩ := forall₂_split h
    refine ⟨v, ⟨vs, ws, rfl, fun w hw heq => hnew ?_⟩, hv⟩
    exact (mem_ids_iff hpre n.id).mpr ⟨w, hw, heq.trans (nodeFromJson_eq_ok hv).1⟩
  · rintro ⟨v, ⟨vs, ws, rfl, hnew⟩, hv⟩
    obtain ⟨pre, m, post, rfl, hpre, hm⟩ := forall₂_split h.flip
    obtain rfl : m = n := Outcome.ok.inj (hm.symm.trans hv)
    refine ⟨pre, post, rfl, rfl, ?_, ?_⟩
    · rw [mem_ids_iff hpre.flip]
      rintro ⟨w, hw, hid⟩
      exact hnew w hw (hid.trans (nodeFromJson_eq_ok hv).1.symm)
    · -- fewer nodes come before than there is room for
      have hdistinct := distinctIds_le_length pre
      rw [List.length_append, List.length_cons] at hroom
      omega

/-- The snapshot has no more nodes and edges than the bounds admit. -/
theorem deserialize_counts {order : IterationOrder} {bounds : Bounds} {jsonText : Bytes}
    {snap : TopologySnapshot} (h : deserializeSnapshotJson order jsonText bounds = .ok snap) :
    snap.nodes.size ≤ bounds.maxNodes ∧ snap.edges.length ≤ bounds.maxEdges := by
  obtain ⟨root, nodes, edges, ns, es, -, -, htake⟩ := deserialize_eq_ok h
  obtain ⟨hsnapNodes, hsnapEdges, -, -⟩ := SnapshotBuilder.take_eq_ok htake
  have hfilling := @run_filling bounds (documentCalls ns es (metadataFromJson root))
  constructor
  · have hsize : snap.nodes.size =
        (SnapshotBuilder.run bounds (documentCalls ns es (metadataFromJson root))).nodes.size := by
      rw [hsnapNodes]
      exact (order.perm _ _).length_eq
    rw [hsize, hfilling.size]
    exact min_le_left _ _
  · rw [hsnapEdges, run_edges, List.length_take]
    exact min_le_left _ _

/-- Every entry of an accepted document is read. -/
theorem AcceptedDocument.node_read {bounds : Bounds} {root : Value} {nodes edges : List Value}
    (h : AcceptedDocument bounds root nodes edges) {nv : Value} (hnv : nv ∈ nodes) :
    ∃ n, nodeFromJson nv = .ok n := by
  obtain ⟨hentry, hnot⟩ := h.readNodes.2 nv hnv
  rcases nodeFromJson_cases nv with ⟨hn, -, -⟩ | ⟨-, hnone⟩ | ⟨-, -, hmixed⟩
  · exact hn
  · exact absurd hentry hnone
  · exact absurd hmixed hnot

theorem AcceptedDocument.edge_read {bounds : Bounds} {root : Value} {nodes edges : List Value}
    (h : AcceptedDocument bounds root nodes edges) {ev : Value} (hev : ev ∈ edges) :
    ∃ e, edgeFromJson ev = .ok e := by
  obtain ⟨hentry, hnot⟩ := h.readEdges.2 ev hev
  rcases edgeFromJson_cases ev with ⟨he, -, -⟩ | ⟨-, hnone⟩ | ⟨-, -, hmixed⟩
  · exact he
  · exact absurd hentry hnone
  · exact absurd hmixed hnot

theorem KeptEntry.mem {entries : List Value} {v : Value} (h : KeptEntry entries v) :
    v ∈ entries := by
  obtain ⟨pre, post, rfl, -⟩ := h
  exact List.mem_append_right _ (List.mem_cons_self ..)

/-- **What the snapshot holds.** A text that is read is accepted, and the snapshot has the nodes of
the kept entries, the edges of all entries, and the metadata of the document. -/
theorem deserialize_contents {order : IterationOrder} {bounds : Bounds} {jsonText : Bytes}
    {snap : TopologySnapshot} (h : deserializeSnapshotJson order jsonText bounds = .ok snap) :
    ∃ root nodes edges, AcceptedText bounds jsonText root nodes edges ∧
      ReadFrom snap root nodes edges := by
  obtain ⟨root, nodes, edges, ns, es, haccepted, hread, htake⟩ := deserialize_eq_ok h
  obtain ⟨hsnapNodes, hsnapEdges, hsnapMetadata, -⟩ := SnapshotBuilder.take_eq_ok htake
  obtain ⟨hnodesRoom, -⟩ := haccepted.document.readNodes
  obtain ⟨hedgesRoom, -⟩ := haccepted.document.readEdges
  rw [hread.readNodes.length_eq] at hnodesRoom
  rw [hread.readEdges.length_eq] at hedgesRoom
  -- of the nodes with one identifier the first is read, and all of the edges
  refine ⟨root, nodes, edges, haccepted, ?_, ?_, ?_⟩
  · intro n
    rw [TopologySnapshot.findNode, hsnapNodes, HashMap.find?_reorder, run_nodes,
      (offered_documentCalls _ _ _).1]
    exact firstOffered_iff hread.readNodes hnodesRoom n
  · rw [hsnapEdges, run_edges, (offered_documentCalls _ _ _).2, List.take_of_length_le hedgesRoom]
    exact hread.readEdges
  · rw [hsnapMetadata, run_documentCalls]
    rfl

end TopologyFabric

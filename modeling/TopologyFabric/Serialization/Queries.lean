import TopologyFabric.Query.Descendants
import TopologyFabric.Query.Symmetry
import TopologyFabric.Serialization.RoundTrip

/-!
# Queries on a Snapshot That Was Read Back

A document keeps the records of the nodes and edges but not the order of the edges, which the writer
sorts. Queries that depend on the set of edges answer as before. The classes of a pair go up the
*first* parents, so they answer as before where no node has two different CONTAINS parents.

## Main results

- `SameRecords.localityBetween_eq`, `SameRecords.classifyPath_eq`: the classes, for every budget
- `reread_answers`: the queries on a snapshot and on the snapshot that is read back
-/

namespace TopologyFabric

open Library

/-- No node has two different parents by CONTAINS edges. -/
def UniqueParents (snap : TopologySnapshot) : Prop :=
  ∀ v, ∀ p ∈ parents snap v .contains, ∀ q ∈ parents snap v .contains, p = q

namespace SameRecords

variable {snap snap' : TopologySnapshot} {a b : TopologyNodeId}

/-! ## Edges -/

/-- An edge with a given record is in both snapshots or in none. -/
theorem exists_edge (h : SameRecords snap snap') {e : TopologyEdge} (he : e ∈ snap.edges) :
    ∃ e' ∈ snap'.edges, e'.record = e.record := by
  have hmem : e.record ∈ snap'.edges.map TopologyEdge.record :=
    h.edges.mem_iff.mpr (List.mem_map_of_mem he)
  obtain ⟨e', he', hrecord⟩ := List.mem_map.mp hmem
  exact ⟨e', he', hrecord⟩

theorem symm (h : SameRecords snap snap') : SameRecords snap' snap where
  nodeIds := fun id => (h.nodeIds id).symm
  nodes := fun id => (h.nodes id).symm
  edges := h.edges.symm
  metadata := h.metadata.symm

/-- A snapshot has the nodes that were written. -/
theorem present_iff (h : SameRecords snap snap') (id : TopologyNodeId) :
    snap'.Present id ↔ snap.Present id := by
  have hisSome := congrArg Option.isSome (h.nodes id)
  rw [Option.isSome_map, Option.isSome_map] at hisSome
  rw [TopologySnapshot.Present, TopologySnapshot.Present, hisSome]

theorem noDanglingEdges (h : SameRecords snap snap') (hd : snap.NoDanglingEdges) :
    snap'.NoDanglingEdges := by
  intro e' he'
  obtain ⟨e, he, hrecord⟩ := h.symm.exists_edge he'
  have hsource : e.source = e'.source := congrArg EdgeRecord.source hrecord
  have htarget : e.target = e'.target := congrArg EdgeRecord.target hrecord
  obtain ⟨hs, ht⟩ := hd e he
  rw [hsource] at hs
  rw [htarget] at ht
  exact ⟨(h.present_iff _).mpr hs, (h.present_iff _).mpr ht⟩

/-- The parents of a node, from the records of the edges. -/
private theorem parents_eq (snap : TopologySnapshot) (id : TopologyNodeId) (type : EdgeType) :
    parents snap id type = ((snap.edges.map TopologyEdge.record).filter fun r =>
      decide (type = r.type) && decide (r.target = id)).map EdgeRecord.source := by
  rw [List.filter_map, List.map_map]
  rfl

theorem parents_perm (h : SameRecords snap snap') (id : TopologyNodeId) (type : EdgeType) :
    (parents snap' id type).Perm (parents snap id type) := by
  rw [parents_eq, parents_eq]
  exact (h.edges.filter _).map _

/-- A rearrangement of a list without different elements is the list. -/
private theorem perm_eq_of_constant {α : Type} {l l' : List α} (hperm : l'.Perm l)
    (h : ∀ x ∈ l, ∀ y ∈ l, x = y) : l' = l := by
  cases l with
  | nil => exact hperm.eq_nil
  | cons x l =>
    have hl : ∀ y ∈ x :: l, y = x := fun y hy => h y hy x (List.mem_cons_self ..)
    have hl' : ∀ y ∈ l', y = x := fun y hy => hl y (hperm.mem_iff.mp hy)
    rw [List.eq_replicate_of_mem hl, List.eq_replicate_of_mem hl', hperm.length_eq]

theorem parents_eq_of_unique (h : SameRecords snap snap') (hunique : UniqueParents snap)
    (id : TopologyNodeId) : parents snap' id .contains = parents snap id .contains :=
  perm_eq_of_constant (h.parents_perm id .contains) (hunique id)

/-! ## Routes -/

/-- A route has a counterpart with as many hops in the other snapshot. -/
theorem exists_route (h : SameRecords snap snap') {inCollocation : Bool} {hops : List EdgeHop}
    (hroute : IsRoute snap inCollocation a hops b) :
    ∃ hops', IsRoute snap' inCollocation a hops' b ∧ hops'.length = hops.length := by
  induction hroute with
  | nil a => exact ⟨[], .nil a, rfl⟩
  | @cons a b c i e hops he husable hjoins _ ih =>
    obtain ⟨hops', hroute', hlength⟩ := ih
    obtain ⟨e', he', hrecord⟩ := h.exists_edge (List.mem_of_getElem? he)
    obtain ⟨j, hj⟩ := List.mem_iff_getElem?.mp he'
    have htype : e'.type = e.type := congrArg EdgeRecord.type hrecord
    have hsource : e'.source = e.source := congrArg EdgeRecord.source hrecord
    have htarget : e'.target = e.target := congrArg EdgeRecord.target hrecord
    have husable' : e'.Usable inCollocation := by
      rw [TopologyEdge.Usable, htype]
      exact husable
    have hjoins' : e'.Joins a b := by
      rw [TopologyEdge.Joins, hsource, htarget]
      exact hjoins
    exact ⟨⟨a, b, j⟩ :: hops', .cons hj husable' hjoins' hroute', by simp [hlength]⟩

/-- Answers about the hops in the two snapshots agree. -/
theorem hopAnswer_eq (h : SameRecords snap snap') {inCollocation : Bool} {p p' : TopologyPath}
    (hp : HopAnswer snap inCollocation a b p) (hp' : HopAnswer snap' inCollocation a b p') :
    p'.found = p.found ∧ p'.hopCount = p.hopCount := by
  rcases hp with ⟨hfound, hcount, hnone⟩ | ⟨hfound, hops, hroute, hcount, hleast⟩
  · rcases hp' with ⟨hfound', hcount', -⟩ | ⟨-, hops', hroute', -, -⟩
    · exact ⟨hfound'.trans hfound.symm, hcount'.trans hcount.symm⟩
    · obtain ⟨hops, hroute, -⟩ := h.symm.exists_route hroute'
      exact absurd hroute (hnone hops)
  · rcases hp' with ⟨-, -, hnone'⟩ | ⟨hfound', hops', hroute', hcount', hleast'⟩
    · obtain ⟨hops', hroute', -⟩ := h.exists_route hroute
      exact absurd hroute' (hnone' hops')
    · -- each of the two shortest routes has a counterpart, which is not shorter
      obtain ⟨there, hthere, hlen⟩ := h.exists_route hroute
      obtain ⟨back, hback, hlen'⟩ := h.symm.exists_route hroute'
      have hle := hleast' there hthere
      have hge := hleast back hback
      have hlength : hops'.length = hops.length := by omega
      exact ⟨hfound'.trans hfound.symm, by rw [hcount', hcount, hlength]⟩

/-! ## Kinship -/

theorem upStep_iff (h : SameRecords snap snap') {type : EdgeType} :
    UpStep snap' type a b ↔ UpStep snap type a b := by
  rw [← mem_parents_iff_upStep, ← mem_parents_iff_upStep]
  exact (h.parents_perm a type).mem_iff

theorem downStep_iff (h : SameRecords snap snap') {type : EdgeType} :
    DownStep snap' type a b ↔ DownStep snap type a b := by
  rw [← mem_children, ← mem_children, mem_children_iff_mem_parents, mem_children_iff_mem_parents]
  exact (h.parents_perm b type).mem_iff

/-- The ancestors are the same, perhaps found in another order. -/
theorem ancestors_perm (h : SameRecords snap snap') (id : TopologyNodeId) (type : EdgeType) :
    ∃ above above', Returns (fun fuel => ancestors fuel snap id type) above ∧
      Returns (fun fuel => ancestors fuel snap' id type) above' ∧ above'.Perm above := by
  obtain ⟨above, hreturns, hnodup, hmem⟩ := ancestors_returns snap id type
  obtain ⟨above', hreturns', hnodup', hmem'⟩ := ancestors_returns snap' id type
  refine ⟨above, above', hreturns, hreturns', (List.perm_ext_iff_of_nodup hnodup' hnodup).mpr ?_⟩
  intro v
  have hstep : UpStep snap' type = UpStep snap type := by
    funext x y
    exact propext h.upStep_iff
  rw [hmem', hmem, leads_parents_iff, leads_parents_iff, hstep]

theorem descendants_perm (h : SameRecords snap snap') (id : TopologyNodeId) (type : EdgeType) :
    ∃ below below', Returns (fun fuel => descendants fuel snap id type) below ∧
      Returns (fun fuel => descendants fuel snap' id type) below' ∧ below'.Perm below := by
  obtain ⟨below, hreturns, hnodup, hmem⟩ := descendants_returns snap id type
  obtain ⟨below', hreturns', hnodup', hmem'⟩ := descendants_returns snap' id type
  refine ⟨below, below', hreturns, hreturns', (List.perm_ext_iff_of_nodup hnodup' hnodup).mpr ?_⟩
  intro v
  have hstep : DownStep snap' type = DownStep snap type := by
    funext x y
    exact propext h.downStep_iff
  rw [hmem', hmem, leads_children_iff, leads_children_iff, hstep]

theorem siblings_perm (h : SameRecords snap snap') (id : TopologyNodeId) (type : EdgeType) :
    (siblings snap' id type).Perm (siblings snap id type) := by
  apply (List.perm_ext_iff_of_nodup nodup_siblings nodup_siblings).mpr
  intro v
  simp only [mem_siblings, h.upStep_iff, h.downStep_iff]

/-! ## Classes -/

/-- Looking a node up and using what its record says. -/
theorem node_bind {β : Type} (h : SameRecords snap snap') (id : TopologyNodeId)
    {g g' : TopologyNode → Run β} (hg : ∀ n n', n'.record = n.record → g' n' = g n) :
    (snap'.node id >>= g') = snap.node id >>= g := by
  by_cases hid : snap.Present id
  · obtain ⟨n, hfind, hnode⟩ := hid.exists_node
    obtain ⟨n', hfind', hnode'⟩ := ((h.present_iff id).mpr hid).exists_node
    have hrecord := h.nodes id
    rw [hfind, hfind', Option.map_some, Option.map_some, Option.some_inj] at hrecord
    rw [hnode, hnode', Outcome.ok_bind, Outcome.ok_bind, hg n n' hrecord]
  · have hid' : ¬ snap'.Present id := fun hp => hid ((h.present_iff id).mp hp)
    rw [TopologySnapshot.node_of_not_present hid, TopologySnapshot.node_of_not_present hid']
    rfl

theorem ancestorStep_eq (h : SameRecords snap snap') (hunique : UniqueParents snap)
    (type : NodeType) (s : TopologyNodeId × List TopologyNodeId) :
    ancestorStep snap' type s = ancestorStep snap type s := by
  obtain ⟨cur, seen⟩ := s
  have hnone : (snap'.findNode cur).isNone = (snap.findNode cur).isNone := by
    have hmap := congrArg Option.isNone (h.nodes cur)
    rwa [Option.isNone_map, Option.isNone_map] at hmap
  simp only [ancestorStep, hnone, h.parents_eq_of_unique hunique]
  split
  · rfl
  · apply h.node_bind cur
    intro n n' hrecord
    have htype : n'.type = n.type := congrArg NodeRecord.type hrecord
    rw [htype]

theorem rootAncestor_eq (h : SameRecords snap snap') (hunique : UniqueParents snap) (fuel : ℕ)
    (id : TopologyNodeId) (type : NodeType) :
    rootAncestor fuel snap' id type = rootAncestor fuel snap id type := by
  have hstep : ancestorStep snap' type = ancestorStep snap type :=
    funext (h.ancestorStep_eq hunique type)
  rw [rootAncestor, rootAncestor, hstep]

/-- The locality of a pair, as long as no node has two parents. -/
theorem localityBetween_eq (h : SameRecords snap snap') (hunique : UniqueParents snap) (fuel : ℕ)
    (a b : TopologyNodeId) : localityBetween fuel snap' a b = localityBetween fuel snap a b := by
  simp only [localityBetween, h.rootAncestor_eq hunique]
  split
  · rfl
  · apply h.node_bind a
    intro na na' ha
    apply h.node_bind b
    intro nb nb' hb
    have htype : na'.type = na.type ∧ nb'.type = nb.type :=
      ⟨congrArg NodeRecord.type ha, congrArg NodeRecord.type hb⟩
    have hnative : na'.native = na.native ∧ nb'.native = nb.native :=
      ⟨congrArg NodeRecord.native ha, congrArg NodeRecord.native hb⟩
    rw [htype.1, htype.2, hnative.1, hnative.2]

theorem commonBridge_eq (h : SameRecords snap snap') (pa pb : List TopologyNodeId) :
    commonBridge snap' pa pb = commonBridge snap pa pb := by
  have hbridge : ∀ x, (snap'.node x >>= fun n => (pure (decide (n.type = .pciBridge)) : Run Bool)) =
      snap.node x >>= fun n => pure (decide (n.type = .pciBridge)) := by
    intro x
    apply h.node_bind x
    intro n n' hrecord
    have htype : n'.type = n.type := congrArg NodeRecord.type hrecord
    rw [htype]
  simp only [commonBridge, hbridge]

/-- The class of a pair, as long as no node has two parents. -/
theorem classifyPath_eq (h : SameRecords snap snap') (hunique : UniqueParents snap) (fuel : ℕ)
    (a b : TopologyNodeId) : classifyPath fuel snap' a b = classifyPath fuel snap a b := by
  simp only [classifyPath, h.commonBridge_eq, h.parents_eq_of_unique hunique,
    h.rootAncestor_eq hunique]
  split
  · rfl
  · apply h.node_bind a
    intro na na' ha
    apply h.node_bind b
    intro nb nb' hb
    have htype : na'.type = na.type ∧ nb'.type = nb.type :=
      ⟨congrArg NodeRecord.type ha, congrArg NodeRecord.type hb⟩
    have hnative : na'.native = na.native ∧ nb'.native = nb.native :=
      ⟨congrArg NodeRecord.native ha, congrArg NodeRecord.native hb⟩
    have hnuma : classifyByNuma fuel snap' na' nb' a b = classifyByNuma fuel snap na nb a b := by
      rw [classifyByNuma, classifyByNuma, hnative.1, hnative.2, h.rootAncestor_eq hunique,
        h.rootAncestor_eq hunique]
    rw [hnuma, isPciEndpoint, isPciEndpoint, isPciEndpoint, isPciEndpoint, htype.1, htype.2]

end SameRecords

/-! ## Main result -/

/-- What the queries say about a snapshot and about what is read back from its text. -/
structure RereadAnswers (fl : Rounding) (snap snap' : TopologySnapshot) : Prop where
  hops : ∀ a b, snap.Present a → snap.Present b → ∀ inCollocation, ∃ p p',
    Returns (fun fuel => shortestPath fl fuel snap a b inCollocation) p ∧
      Returns (fun fuel => shortestPath fl fuel snap' a b inCollocation) p' ∧
      p'.found = p.found ∧ p'.hopCount = p.hopCount
  above : ∀ id type, ∃ l l', Returns (fun fuel => ancestors fuel snap id type) l ∧
    Returns (fun fuel => ancestors fuel snap' id type) l' ∧ l'.Perm l
  below : ∀ id type, ∃ l l', Returns (fun fuel => descendants fuel snap id type) l ∧
    Returns (fun fuel => descendants fuel snap' id type) l' ∧ l'.Perm l
  beside : ∀ id type, (siblings snap' id type).Perm (siblings snap id type)
  classes : UniqueParents snap → ∀ fuel a b,
    localityBetween fuel snap' a b = localityBetween fuel snap a b ∧
      classifyPath fuel snap' a b = classifyPath fuel snap a b

theorem SameRecords.rereadAnswers {snap snap' : TopologySnapshot} (h : SameRecords snap snap')
    (fl : Rounding) (hd : snap.NoDanglingEdges) : RereadAnswers fl snap snap' where
  hops := by
    intro a b ha hb inCollocation
    obtain ⟨p, hp, hanswer⟩ := shortestPath_hops fl hd ha hb inCollocation
    obtain ⟨p', hp', hanswer'⟩ := shortestPath_hops fl (h.noDanglingEdges hd)
      ((h.present_iff a).mpr ha) ((h.present_iff b).mpr hb) inCollocation
    exact ⟨p, p', hp, hp', h.hopAnswer_eq hanswer hanswer'⟩
  above := h.ancestors_perm
  below := h.descendants_perm
  beside := h.siblings_perm
  classes := fun hunique fuel a b =>
    ⟨h.localityBetween_eq hunique fuel a b, h.classifyPath_eq hunique fuel a b⟩

/-- A text that is accepted comes from a readable snapshot, and keeps its records. -/
theorem sameRecords_of_deserialize {order : IterationOrder} {bounds : Bounds}
    {snap snap' : TopologySnapshot} {pretty : Bool} (hstrings : StringsFit snap)
    (h : deserializeSnapshotJson order (serializeSnapshotJson snap pretty) bounds = .ok snap') :
    SameRecords snap snap' := by
  obtain ⟨hread, hrejects⟩ := deserializeSnapshotJson_written order hstrings bounds pretty
  by_cases hreadable : Readable bounds snap pretty
  · obtain ⟨snap'', hsnap'', hsame⟩ := hread hreadable
    rw [h] at hsnap''
    obtain rfl := Outcome.ok.inj hsnap''
    exact hsame
  · obtain ⟨msg, hthrows | hthrows⟩ := hrejects hreadable
    · rw [h] at hthrows
      cases hthrows
    · rw [h] at hthrows
      cases hthrows

/-- **What is read back answers like what was written.** Paths have the same hops, and kinship is
the same; where no node has two different CONTAINS parents, so are locality and path class, for
every two ids and also where the query throws. -/
theorem reread_answers (fl : Rounding) {order : IterationOrder} {bounds : Bounds}
    {snap snap' : TopologySnapshot} {pretty : Bool} (hstrings : StringsFit snap)
    (hd : snap.NoDanglingEdges)
    (h : deserializeSnapshotJson order (serializeSnapshotJson snap pretty) bounds = .ok snap') :
    RereadAnswers fl snap snap' :=
  (sameRecords_of_deserialize hstrings h).rereadAnswers fl hd

/-- The pair of joined nodes, written and read back. -/
theorem reread_answers_pair : ∃ snap',
    deserializeSnapshotJson .insertion (serializeSnapshotJson pairSnapshot true) {} = .ok snap' ∧
      RereadAnswers binary64 pairSnapshot snap' := by
  have hstrings : StringsFit pairSnapshot := by decide +kernel
  have hreadable : Readable {} pairSnapshot true :=
    ⟨by decide +kernel, by decide +kernel, by decide +kernel, by decide +kernel⟩
  obtain ⟨snap', hsnap', -⟩ :=
    (deserializeSnapshotJson_written .insertion hstrings {} true).1 hreadable
  exact ⟨snap', hsnap', reread_answers binary64 hstrings (by decide) hsnap'⟩

end TopologyFabric

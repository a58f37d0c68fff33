import TopologyFabric.Diff.Laws

/-!
# Mirror Images

The comparison of two snapshots the other way round. What one comparison adds the other removes, and
the facts of a common node are reported with the two sides swapped. Property changes are no mirror
images, since properties are looked up from the later snapshot only; but the links that differ are
the same from both sides when every edge has a key of its own.

## Main results

- `diffEvents_mirror`: the events of the two comparisons
- `compareSnapshots_mirror`: mirrored events and the same materiality
-/

namespace TopologyFabric

open Library

/-- What an event of this kind is from the other side. -/
def DiffEventKind.mirror : DiffEventKind → DiffEventKind
  | .nodeAdded => .nodeRemoved
  | .nodeRemoved => .nodeAdded
  | .edgeAdded => .edgeRemoved
  | .edgeRemoved => .edgeAdded
  | kind => kind

/-- The event from the other side. -/
def DiffEvent.mirror (e : DiffEvent) : DiffEvent :=
  { e with kind := e.kind.mirror, before := e.after, after := e.before }

/-- Every event but a property change. -/
def DiffEvent.isStructural (e : DiffEvent) : Bool := decide (e.kind ≠ .propertyChanged)

@[simp] theorem DiffEvent.isStructural_mirror (e : DiffEvent) :
    e.mirror.isStructural = e.isStructural := by
  unfold DiffEvent.isStructural DiffEvent.mirror
  cases e.kind <;> rfl

/-! ## Nodes and edges of one side -/

section Events

variable {A B : NodeMap} {EA EB : List TopologyEdge}

theorem nodeAddedEvents_mirror :
    (nodeAddedEvents A B).map DiffEvent.mirror = nodeRemovedEvents B A := by
  unfold nodeAddedEvents nodeRemovedEvents
  rw [List.map_filterMap]
  congr 1
  funext e
  dsimp only
  split_ifs <;> rfl

theorem nodeRemovedEvents_mirror :
    (nodeRemovedEvents A B).map DiffEvent.mirror = nodeAddedEvents B A := by
  unfold nodeAddedEvents nodeRemovedEvents
  rw [List.map_filterMap]
  congr 1
  funext e
  dsimp only
  split_ifs <;> rfl

theorem edgesMissingFrom_mirror {kind : DiffEventKind} :
    (edgesMissingFrom kind EA EB).map DiffEvent.mirror = edgesMissingFrom kind.mirror EA EB := by
  unfold edgesMissingFrom
  rw [List.map_filterMap]
  congr 1
  funext e
  split_ifs <;> rfl

theorem linkChangedEvents_structural :
    (linkChangedEvents EA EB).filter DiffEvent.isStructural = [] := by
  rw [List.filter_eq_nil_iff]
  intro e he
  obtain ⟨edge, -, h⟩ := List.mem_filterMap.mp he
  split_ifs at h
  obtain rfl := Option.some.inj h
  simp [DiffEvent.isStructural, edgeEvent]

/-! ## Common nodes -/

theorem localityChanged_comm (na nb : TopologyNode) :
    localityChanged na nb = localityChanged nb na := by
  simp only [localityChanged, ne_comm]

private theorem propertyEvents_structural (id : TopologyNodeId) (na nb : TopologyNode) :
    (nb.properties.entries.filterMap fun (k, vb) =>
      if (na.properties.find? k).any fun va => va.equal vb then none
      else some ({ kind := .propertyChanged, node := id, key := k, onEdge := false } :
        DiffEvent)).filter DiffEvent.isStructural = [] := by
  rw [List.filter_eq_nil_iff]
  intro e he
  obtain ⟨p, -, h⟩ := List.mem_filterMap.mp he
  dsimp only at h
  split_ifs at h
  obtain rfl := Option.some.inj h
  simp [DiffEvent.isStructural]

/-- The facts of a common node, reported from both sides. -/
theorem nodeChangedEvents_mirror {id : TopologyNodeId} {na nb : TopologyNode}
    (hna : A.find? id = some na) (hnb : B.find? id = some nb) :
    ((nodeChangedEvents A (id, nb)).filter DiffEvent.isStructural).map DiffEvent.mirror =
      (nodeChangedEvents B (id, na)).filter DiffEvent.isStructural := by
  simp only [nodeChangedEvents, hna, hnb, List.filter_append, propertyEvents_structural,
    List.append_nil, List.map_append, localityChanged_comm nb na, ne_comm (a := nb.capabilities),
    ne_comm (a := nb.provenance.provider)]
  congr 2 <;> split_ifs <;> rfl

/-- The loop over the later nodes reports on the nodes that both snapshots have. -/
private theorem changedEvents_eq_common :
    (B.entries.flatMap (nodeChangedEvents A)).filter DiffEvent.isStructural =
      (B.common A).flatMap fun x =>
        (nodeChangedEvents A (x.1, x.2.1)).filter DiffEvent.isStructural := by
  rw [List.filter_flatMap, HashMap.flatMap_common]
  apply List.flatMap_congr
  rintro ⟨id, nb⟩ -
  cases hna : A.find? id with
  | none => simp [nodeChangedEvents, hna]
  | some na => rfl

theorem changedEvents_mirror :
    (((B.entries.flatMap (nodeChangedEvents A)).filter DiffEvent.isStructural).map
        DiffEvent.mirror).Perm
      ((A.entries.flatMap (nodeChangedEvents B)).filter DiffEvent.isStructural) := by
  -- both loops run over the common nodes, each in the order of its own later snapshot
  rw [changedEvents_eq_common, changedEvents_eq_common, List.map_flatMap]
  apply List.Perm.trans _ (HashMap.common_swap.flatMap_right _)
  rw [List.flatMap_map]
  apply List.Perm.of_eq
  apply List.flatMap_congr
  intro x hx
  obtain ⟨hnb, hna⟩ := HashMap.mem_common.mp hx
  exact nodeChangedEvents_mirror hna hnb

/-! ## All events -/

private theorem append_swap {l m c c' x y : List DiffEvent} (h : c.Perm c') :
    (l ++ m ++ c ++ x ++ y).Perm (m ++ l ++ c' ++ y ++ x) := by
  rw [List.append_assoc _ x y, List.append_assoc _ y x]
  exact (List.perm_append_comm.append h).append List.perm_append_comm

/-- The structural events of the two comparisons mirror each other. -/
theorem diffEvents_mirror :
    ((diffEvents B A EB EA).filter DiffEvent.isStructural).Perm
      (((diffEvents A B EA EB).filter DiffEvent.isStructural).map DiffEvent.mirror) := by
  have hcomm : (fun e => DiffEvent.isStructural e.mirror) = DiffEvent.isStructural :=
    funext DiffEvent.isStructural_mirror
  have hmirror : ∀ {l l' : List DiffEvent}, l.map DiffEvent.mirror = l' →
      (l.filter DiffEvent.isStructural).map DiffEvent.mirror =
        l'.filter DiffEvent.isStructural := by
    rintro l _ rfl
    rw [List.filter_map, Function.comp_def, hcomm]
  simp only [diffEvents, List.filter_append, List.map_append, linkChangedEvents_structural,
    hmirror nodeAddedEvents_mirror, hmirror nodeRemovedEvents_mirror,
    hmirror edgesMissingFrom_mirror, List.append_nil]
  exact append_swap changedEvents_mirror.symm

end Events

/-! ## Materiality -/

theorem SameFacts.symm {na nb : TopologyNode} (h : SameFacts na nb) : SameFacts nb na :=
  ⟨h.capabilities.symm, h.numaNode.symm, h.cpuPackage.symm, h.coreId.symm, h.provider.symm⟩

/-- The search for the matching edge in one direction only misses nothing. -/
theorem Immaterial.symm {a b : TopologySnapshot} (ha : (a.edges.map TopologyEdge.key).Nodup)
    (h : Immaterial a b) : Immaterial b a where
  nodeIds := fun id => (h.nodeIds id).symm
  facts := fun id nb na hnb hna => (h.facts id na nb hna hnb).symm
  edgeKeys := fun k => (h.edgeKeys k).symm
  links := by
    intro e he eb heb
    have hkey : eb.key = e.key := by simpa using List.find?_some heb
    apply linkChanged_symm
    -- with distinct keys the edge that was looked up finds its way back
    apply h.links eb (List.mem_of_find?_eq_some heb)
    exact (find?_key_eq_some ha).mpr ⟨he, hkey.symm⟩

/-- **Diffs are mirror images.** When no two edges of a snapshot share a key, the comparison the
other way round has the mirrored events, but for property changes, and the same materiality. -/
theorem compareSnapshots_mirror {a b : TopologySnapshot}
    (ha : (a.edges.map TopologyEdge.key).Nodup) (hb : (b.edges.map TopologyEdge.key).Nodup) :
    ((compareSnapshots b a).events.filter DiffEvent.isStructural).Perm
        (((compareSnapshots a b).events.filter DiffEvent.isStructural).map DiffEvent.mirror) ∧
      (compareSnapshots b a).materialChange = (compareSnapshots a b).materialChange := by
  constructor
  · -- the sorting permutes the events of each side
    have hsorted : ∀ a b : TopologySnapshot, (compareSnapshots a b).events.Perm
        (diffEvents a.nodes b.nodes a.edges b.edges) := fun _ _ => List.perm_insertionSort _ _
    apply ((hsorted b a).filter _).trans
    apply diffEvents_mirror.trans
    exact (((hsorted a b).filter _).map _).symm
  · have hiff : (compareSnapshots b a).materialChange = false ↔
        (compareSnapshots a b).materialChange = false := by
      rw [materialChange_eq_false_iff, materialChange_eq_false_iff]
      exact ⟨Immaterial.symm hb, Immaterial.symm ha⟩
    cases h : (compareSnapshots a b).materialChange with
    | false => exact hiff.mpr h
    | true =>
      rw [← Bool.not_eq_false, hiff, h]
      exact Bool.noConfusion

/-- Two nodes with an undirected link. -/
def linkSnapshot (source target : TopologyNodeId) (width : Int32) : TopologySnapshot where
  nodes := ⟨[(⟨0, 1⟩, { id := ⟨0, 1⟩ }), (⟨0, 2⟩, { id := ⟨0, 2⟩ })], by decide⟩
  keyed := by simp
  edges := [{ source := source, target := target, direction := .undirected, width := some width }]
  adjacencyMap := _
  adjacencyBuilt := rfl
  metadata := {}
  validation := {}
  bounds := {}

/-- The same link with another width, a third node that the second one contains, and a capability of
the first. -/
def grownSnapshot : TopologySnapshot where
  nodes := ⟨[(⟨0, 1⟩, { id := ⟨0, 1⟩, capabilities := 4 }), (⟨0, 2⟩, { id := ⟨0, 2⟩ }),
    (⟨0, 3⟩, { id := ⟨0, 3⟩ })], by decide⟩
  keyed := by simp
  edges := [
    { source := ⟨0, 2⟩, target := ⟨0, 1⟩, direction := .undirected, width := some 16 },
    { source := ⟨0, 2⟩, target := ⟨0, 3⟩ }]
  adjacencyMap := _
  adjacencyBuilt := rfl
  metadata := {}
  validation := {}
  bounds := {}

/-- A node and its edge are added or removed, and a capability and the width of a link that is
stored in the two directions change. -/
theorem compareSnapshots_mirror_grown :
    ((compareSnapshots grownSnapshot
        (linkSnapshot ⟨0, 1⟩ ⟨0, 2⟩ 8)).events.filter DiffEvent.isStructural).Perm
      (((compareSnapshots (linkSnapshot ⟨0, 1⟩ ⟨0, 2⟩ 8)
        grownSnapshot).events.filter DiffEvent.isStructural).map DiffEvent.mirror) ∧
      (compareSnapshots grownSnapshot (linkSnapshot ⟨0, 1⟩ ⟨0, 2⟩ 8)).materialChange =
        (compareSnapshots (linkSnapshot ⟨0, 1⟩ ⟨0, 2⟩ 8) grownSnapshot).materialChange :=
  compareSnapshots_mirror (List.nodup_singleton _) (by decide)

end TopologyFabric

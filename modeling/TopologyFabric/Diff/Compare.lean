import TopologyFabric.Core.Snapshot

/-!
# Comparing Snapshots

The structured difference of two snapshots: nodes added and removed, facts of common nodes that
changed, edges added and removed, link facts of common edges that changed. A difference is material
when one of its events is.

## Main results

- `compareSnapshots_materialChange`: the sorting of the events does not matter for materiality
- `materialChange_congr`: materiality depends on the nodes and edges only, not on metadata and not
  on the order in which the nodes are listed
-/

namespace TopologyFabric

open Library

/-- One difference between two snapshots. -/
structure DiffEvent where
  kind : DiffEventKind := .propertyChanged
  node : TopologyNodeId := kNullNodeId
  node2 : TopologyNodeId := kNullNodeId
  key : Bytes := []
  before : Bytes := []
  after : Bytes := []
  onEdge : Bool := false
  deriving DecidableEq

structure TopologyDiff where
  generationBefore : ℕ := 0
  generationAfter : ℕ := 0
  materialChange : Bool := false
  events : List DiffEvent := []
  deriving DecidableEq

/-- Property changes are material on edges only. -/
def isMaterialEvent (e : DiffEvent) : Bool :=
  match e.kind with
  | .propertyChanged => e.onEdge
  | _ => true

/-! ## Comparing values -/

/-- `!=` of optional values. -/
def optionalNe {α : Type} (ne : α → α → Bool) : Option α → Option α → Bool
  | none, none => false
  | some a, some b => ne a b
  | _, _ => true

/-- `==` of property values: NaN differs from itself. -/
def PropertyValue.equal : PropertyValue → PropertyValue → Bool
  | .double x, .double y => !x.ne y
  | x, y => decide (x = y)

/-! ## Events -/

def nodeAddedEvents (before after : NodeMap) : List DiffEvent :=
  after.entries.filterMap fun (id, n) =>
    if before.contains id then none
    else some { kind := .nodeAdded, node := id, after := n.type.toString }

def nodeRemovedEvents (before after : NodeMap) : List DiffEvent :=
  before.entries.filterMap fun (id, n) =>
    if after.contains id then none
    else some { kind := .nodeRemoved, node := id, before := n.type.toString }

def localityChanged (na nb : TopologyNode) : Bool :=
  decide (na.native.numaNode ≠ nb.native.numaNode) ||
    decide (na.native.cpuPackage ≠ nb.native.cpuPackage) ||
    decide (na.native.coreId ≠ nb.native.coreId)

/-- The changes of a node that both snapshots have. -/
def nodeChangedEvents (before : NodeMap) (entry : TopologyNodeId × TopologyNode) :
    List DiffEvent :=
  let (id, nb) := entry
  match before.find? id with
  | none => []
  | some na =>
    (if na.capabilities ≠ nb.capabilities then
      [{ kind := .capabilityChanged, node := id, before := natToString na.capabilities.toNat,
         after := natToString nb.capabilities.toNat }]
    else []) ++
    (if localityChanged na nb then
      [{ kind := .localityChanged, node := id, before := na.native.canonicalKey,
         after := nb.native.canonicalKey }]
    else []) ++
    (if na.provenance.provider ≠ nb.provenance.provider then
      [{ kind := .providerChanged, node := id, before := na.provenance.provider,
         after := nb.provenance.provider }]
    else []) ++
    nb.properties.entries.filterMap fun (k, vb) =>
      if (na.properties.find? k).any fun va => va.equal vb then none
      else some { kind := .propertyChanged, node := id, key := k, onEdge := false }

/-- An edge event names the edge by its ends as they are written, not by its key. -/
def edgeEvent (kind : DiffEventKind) (key : Bytes) (e : TopologyEdge) : DiffEvent :=
  { kind := kind, node := e.source, node2 := e.target, key := key, onEdge := true }

/-- The edges of the second list whose key the first does not have. -/
def edgesMissingFrom (kind : DiffEventKind) (other edges : List TopologyEdge) : List DiffEvent :=
  edges.filterMap fun e =>
    if e.key ∈ other.map TopologyEdge.key then none else some (edgeEvent kind e.type.toString e)

def linkChanged (ea e : TopologyEdge) : Bool :=
  optionalNe Double.ne ea.bandwidthBytesPerSec e.bandwidthBytesPerSec ||
    optionalNe Double.ne ea.latencyNs e.latencyNs || decide (ea.width ≠ e.width) ||
    decide (ea.pcieGeneration ≠ e.pcieGeneration) || decide (ea.accessible ≠ e.accessible)

/-- Every edge is compared with the first one that has its key. -/
def linkChangedEvents (before after : List TopologyEdge) : List DiffEvent :=
  after.filterMap fun e =>
    if (before.find? fun ae => ae.key = e.key).any fun ea => linkChanged ea e then
      some (edgeEvent .propertyChanged (str "edge.link") e)
    else none

/-- The events in the order in which they are found. -/
def diffEvents (beforeNodes afterNodes : NodeMap) (beforeEdges afterEdges : List TopologyEdge) :
    List DiffEvent :=
  nodeAddedEvents beforeNodes afterNodes ++ nodeRemovedEvents beforeNodes afterNodes ++
    afterNodes.entries.flatMap (nodeChangedEvents beforeNodes) ++
    edgesMissingFrom .edgeAdded beforeEdges afterEdges ++
    edgesMissingFrom .edgeRemoved afterEdges beforeEdges ++
    linkChangedEvents beforeEdges afterEdges

/-- The comparison that sorts the events. -/
def eventBefore (a b : DiffEvent) : Bool :=
  if a.kind ≠ b.kind then a.kind.toNat < b.kind.toNat
  else if a.node ≠ b.node then a.node < b.node
  else if a.node2 ≠ b.node2 then a.node2 < b.node2
  else if a.key ≠ b.key then a.key < b.key
  else a.before < b.before

def compareSnapshots (before after : TopologySnapshot) : TopologyDiff :=
  let events := (diffEvents before.nodes after.nodes before.edges after.edges).insertionSort
    fun a b => eventBefore b a = false
  { generationBefore := before.metadata.generation
    generationAfter := after.metadata.generation
    materialChange := events.any isMaterialEvent
    events := events }

/-! ## What materiality depends on -/

/-- The sorting of the events does not matter. -/
theorem compareSnapshots_materialChange (before after : TopologySnapshot) :
    (compareSnapshots before after).materialChange =
      (diffEvents before.nodes after.nodes before.edges after.edges).any isMaterialEvent :=
  (List.perm_insertionSort _ _).any_eq

/-- Among edges with keys of their own, the first with a key is the one with it. -/
theorem find?_key_eq_some {edges : List TopologyEdge} (h : (edges.map TopologyEdge.key).Nodup)
    {k : EdgeKey} {e : TopologyEdge} :
    (edges.find? fun ae => ae.key = k) = some e ↔ e ∈ edges ∧ e.key = k := by
  constructor
  · intro he
    exact ⟨List.mem_of_find?_eq_some he, by simpa using List.find?_some he⟩
  · rintro ⟨he, rfl⟩
    obtain ⟨e', he'⟩ : ∃ e', (edges.find? fun ae => ae.key = e.key) = some e' := by
      apply Option.isSome_iff_exists.mp
      rw [List.find?_isSome]
      exact ⟨e, he, by simp⟩
    have hkey : e'.key = e.key := by simpa using List.find?_some he'
    rw [he', List.inj_on_of_nodup_map h (List.mem_of_find?_eq_some he') he hkey]

section Rearranged

variable {A A' B B' : NodeMap} {EA EA' EB EB' : List TopologyEdge}

theorem nodeAddedEvents_perm (hA : A.entries.Perm A'.entries)
    (hB : B.entries.Perm B'.entries) :
    (nodeAddedEvents A B).Perm (nodeAddedEvents A' B') := by
  simp only [nodeAddedEvents, HashMap.contains_perm hA]
  exact hB.filterMap _

theorem nodeRemovedEvents_perm (hA : A.entries.Perm A'.entries)
    (hB : B.entries.Perm B'.entries) :
    (nodeRemovedEvents A B).Perm (nodeRemovedEvents A' B') := by
  simp only [nodeRemovedEvents, HashMap.contains_perm hB]
  exact hA.filterMap _

theorem changedEvents_perm (hA : A.entries.Perm A'.entries)
    (hB : B.entries.Perm B'.entries) :
    (B.entries.flatMap (nodeChangedEvents A)).Perm (B'.entries.flatMap (nodeChangedEvents A')) := by
  have hevents : nodeChangedEvents A = nodeChangedEvents A' := by
    funext e
    simp only [nodeChangedEvents, HashMap.find?_perm hA]
  rw [hevents]
  exact hB.flatMap_right _

theorem edgesMissingFrom_perm (hEA : EA.Perm EA') (hEB : EB.Perm EB')
    (kind : DiffEventKind) : (edgesMissingFrom kind EA EB).Perm (edgesMissingFrom kind EA' EB') := by
  simp only [edgesMissingFrom, (hEA.map TopologyEdge.key).mem_iff]
  exact hEB.filterMap _

theorem linkChangedEvents_perm (hEB : EB.Perm EB')
    (hfirst : ∀ k, (EA.find? fun ae => ae.key = k) = EA'.find? fun ae => ae.key = k) :
    (linkChangedEvents EA EB).Perm (linkChangedEvents EA' EB') := by
  simp only [linkChangedEvents, hfirst]
  exact hEB.filterMap _

/-- The order of the nodes does not matter for what is found, and that of the edges does not as long
as the first edge with a key stays the first. -/
theorem diffEvents_perm (hA : A.entries.Perm A'.entries) (hB : B.entries.Perm B'.entries)
    (hEA : EA.Perm EA') (hEB : EB.Perm EB')
    (hfirst : ∀ k, (EA.find? fun ae => ae.key = k) = EA'.find? fun ae => ae.key = k) :
    (diffEvents A B EA EB).Perm (diffEvents A' B' EA' EB') := by
  have hnodes := ((nodeAddedEvents_perm hA hB).append (nodeRemovedEvents_perm hA hB)).append
    (changedEvents_perm hA hB)
  exact ((hnodes.append (edgesMissingFrom_perm hEA hEB _)).append
    (edgesMissingFrom_perm hEB hEA _)).append (linkChangedEvents_perm hEB hfirst)

end Rearranged

/-- Snapshots with the same nodes and edges differ materially from the same snapshots. -/
theorem materialChange_congr {before after after' : TopologySnapshot}
    (hnodes : after.nodes.entries.Perm after'.nodes.entries) (hedges : after.edges = after'.edges) :
    (compareSnapshots before after).materialChange =
      (compareSnapshots before after').materialChange := by
  rw [compareSnapshots_materialChange, compareSnapshots_materialChange, hedges]
  exact (diffEvents_perm (.refl _) hnodes (.refl _) (.refl _) fun _ => rfl).any_eq

end TopologyFabric

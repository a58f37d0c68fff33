import TopologyFabric.Core.Graph
import TopologyFabric.Core.Result
import TopologyFabric.Library.HashMap

/-!
# Snapshots

The immutable topology snapshot, the builder that makes it, and the validation of the graph
invariants. A snapshot carries the facts that `SnapshotBuilder::take` establishes: the node map is
keyed by node id, and the adjacency lists are those of the edge list.

The node map of a snapshot is listed in its iteration order. The maps that `validate` builds for
itself are iterated in the order that an `IterationOrder` gives.

## Main results

- `mem_buildAdjacency`: which entries an adjacency list has
- `SnapshotBuilder.take_eq_ok`: what a snapshot taken from a builder consists of
-/

namespace TopologyFabric

open Library

/-- The outcome of checking the graph invariants. -/
structure ValidationResult where
  ok : Bool := true
  errors : List Bytes := []
  warnings : List Bytes := []
  deriving DecidableEq

namespace ValidationResult

def addError (v : ValidationResult) (e : Bytes) : ValidationResult :=
  { v with ok := false, errors := v.errors ++ [e] }

def addWarning (v : ValidationResult) (w : Bytes) : ValidationResult :=
  { v with warnings := v.warnings ++ [w] }

@[simp] theorem addError_ok (v : ValidationResult) (e : Bytes) : (v.addError e).ok = false := rfl

@[simp] theorem addWarning_ok (v : ValidationResult) (w : Bytes) :
    (v.addWarning w).ok = v.ok := rfl

end ValidationResult

/-- Snapshot-level metadata. The generation counts up from 1 with the discoveries of a runtime and
is kept as a natural number. -/
structure SnapshotMetadata where
  snapshotId : Bytes := []
  generation : ℕ := 0
  createdMs : Int64 := 0
  machineIdentity : Bytes := []
  schemaVersion : Bytes := str "1.0"
  providerVersions : Bytes := []
  partialDiscovery : Bool := false
  synthetic : Bool := false
  warnings : List Bytes := []
  deriving DecidableEq

/-- An adjacency record. -/
structure EdgeRef where
  neighbor : TopologyNodeId
  edgeIndex : ℕ
  deriving DecidableEq, Repr

/-- Resource bounds. -/
structure Bounds where
  maxNodes : ℕ := 1000000
  maxEdges : ℕ := 4000000
  maxStringBytes : ℕ := 2 ^ 22
  maxSnapshotBytes : ℕ := 512 * 2 ^ 20
  maxPathLength : ℕ := 16384
  deriving DecidableEq

/-- The node map of a builder or a snapshot. -/
abbrev NodeMap := HashMap TopologyNodeId TopologyNode

/-! ## Adjacency -/

/-- `adjacency_[id].push_back(ref)`. -/
def pushRef (adj : TopologyNodeId → List EdgeRef) (id : TopologyNodeId) (ref : EdgeRef) :
    TopologyNodeId → List EdgeRef :=
  Function.update adj id (adj id ++ [ref])

/-- Every edge is entered at both of its ends, in edge order. -/
def buildAdjacency (edges : List TopologyEdge) : TopologyNodeId → List EdgeRef :=
  edges.zipIdx.foldl
    (fun adj p => pushRef (pushRef adj p.1.source ⟨p.1.target, p.2⟩) p.1.target ⟨p.1.source, p.2⟩)
    fun _ => []

/-! ## The snapshot -/

/-- An immutable snapshot. -/
structure TopologySnapshot where
  nodes : NodeMap
  keyed : ∀ e ∈ nodes.entries, e.2.id = e.1
  edges : List TopologyEdge
  adjacencyMap : TopologyNodeId → List EdgeRef
  adjacencyBuilt : adjacencyMap = buildAdjacency edges
  metadata : SnapshotMetadata
  validation : ValidationResult
  bounds : Bounds

/-- Keyed by their ids, the nodes have the keys as their ids. -/
theorem ids_of_keyed {nodes : NodeMap} (h : ∀ e ∈ nodes.entries, e.2.id = e.1) :
    (nodes.entries.map Prod.snd).map TopologyNode.id = nodes.keys := by
  rw [List.map_map]
  exact List.map_congr_left h

namespace TopologySnapshot

/-- Throws for an unknown id. -/
def node (snap : TopologySnapshot) (id : TopologyNodeId) : Run TopologyNode :=
  match snap.nodes.find? id with
  | some n => .ok n
  | none => throwTopologyError .notFound (str "unknown node id " ++ id.toHex)

def findNode (snap : TopologySnapshot) (id : TopologyNodeId) : Option TopologyNode :=
  snap.nodes.find? id

/-- Throws for an index out of range. -/
def edge (snap : TopologySnapshot) (i : ℕ) : Run TopologyEdge :=
  match snap.edges[i]? with
  | some e => .ok e
  | none => throwTopologyError .notFound (str "edge index out of range")

def adjacency (snap : TopologySnapshot) (id : TopologyNodeId) : List EdgeRef :=
  snap.adjacencyMap id

/-- The node is in the snapshot. -/
def Present (snap : TopologySnapshot) (id : TopologyNodeId) : Prop :=
  (snap.findNode id).isSome = true

instance (snap : TopologySnapshot) (id : TopologyNodeId) : Decidable (snap.Present id) :=
  inferInstanceAs (Decidable (_ = true))

/-- Both ends of every edge are in the snapshot. -/
def NoDanglingEdges (snap : TopologySnapshot) : Prop :=
  ∀ e ∈ snap.edges, snap.Present e.source ∧ snap.Present e.target

instance (snap : TopologySnapshot) : Decidable snap.NoDanglingEdges :=
  inferInstanceAs (Decidable (∀ e ∈ snap.edges, snap.Present e.source ∧ snap.Present e.target))

end TopologySnapshot

/-! ## Validation -/

/-- 1. Dangling edges. -/
def checkDangling (nodes : NodeMap) (edges : List TopologyEdge) (v : ValidationResult) :
    ValidationResult :=
  edges.foldl (fun v e =>
    let v := if nodes.contains e.source then v
      else v.addError (str "edge references unknown source node " ++ e.source.toHex)
    if nodes.contains e.target then v
    else v.addError (str "edge references unknown target node " ++ e.target.toHex)) v

/-- The first node seen with each native key. -/
abbrev SeenKeys := HashMap Bytes TopologyNodeId

/-- One node of the identity check: an unknown type without category is a warning, a native key
seen at another node is an error. -/
def checkNodeIdentity (s : SeenKeys × ValidationResult) (entry : TopologyNodeId × TopologyNode) :
    SeenKeys × ValidationResult :=
  let (seen, v) := s
  let (id, n) := entry
  let v := if n.type = .unknown ∧ n.category = [] then
      v.addWarning (str "node " ++ id.toHex ++
        str " has unknown type and no extension category")
    else v
  let key := n.native.canonicalKey
  if key = [] then (seen, v)
  else
    match seen.find? key with
    | some other =>
      if other ≠ id then
        (seen, v.addError (str "duplicate native identity '" ++ key ++ str "' for nodes " ++
          other.toHex ++ str " and " ++ id.toHex))
      else (seen, v)
    | none => (seen.emplace key id, v)

/-- 2. Duplicate native identity. -/
def checkIdentity (nodes : NodeMap) (v : ValidationResult) : SeenKeys × ValidationResult :=
  nodes.entries.foldl checkNodeIdentity (HashMap.empty, v)

/-- 2. Self-containment. -/
def checkSelfContainment (edges : List TopologyEdge) (v : ValidationResult) : ValidationResult :=
  edges.foldl (fun v e =>
    if e.type = .contains ∧ e.source = e.target then
      v.addError (str "self-containment edge on node " ++ e.source.toHex)
    else v) v

/-- `child_of`: the children of every node that has CONTAINS edges, in edge order. -/
def childOf (edges : List TopologyEdge) : HashMap TopologyNodeId (List TopologyNodeId) :=
  edges.foldl (fun m e =>
    if e.type = .contains then m.upsert e.source [] (· ++ [e.target]) else m) HashMap.empty

/-- `indeg`: every node with children gets an entry, then every child is counted. -/
def countIndeg (children : HashMap TopologyNodeId (List TopologyNodeId)) :
    HashMap TopologyNodeId ℤ :=
  let indeg := children.entries.foldl (fun m e => m.upsert e.1 0 (· + 0)) HashMap.empty
  children.entries.foldl (fun m e => e.2.foldl (fun m kid => m.upsert kid 0 (· + 1)) m) indeg

/-- The state of the topological sort; the back of the stack comes first. -/
structure SortState where
  stack : List TopologyNodeId
  indeg : HashMap TopologyNodeId ℤ
  visited : ℕ

/-- `if (--indeg[kid] == 0) stack.push_back(kid)`. -/
def lowerIndeg (s : SortState) (kid : TopologyNodeId) : SortState :=
  let indeg := s.indeg.upsert kid 0 (· - 1)
  { s with
    indeg := indeg
    stack := if (indeg.find? kid).getD 0 = 0 then kid :: s.stack else s.stack }

/-- One round of the sort. -/
def sortStep (children : HashMap TopologyNodeId (List TopologyNodeId)) (s : SortState) :
    SortState ⊕ ℕ :=
  match s.stack with
  | [] => .inr s.visited
  | cur :: rest =>
    .inl (((children.find? cur).getD []).foldl lowerIndeg
      { s with stack := rest, visited := s.visited + 1 })

/-- The sort before its first round: the nodes without incoming edge are on the stack. -/
def sortInit (order : IterationOrder) (edges : List TopologyEdge) : SortState :=
  let indeg := (countIndeg ((childOf edges).reorder order)).reorder order
  { stack := ((indeg.entries.filter fun e => decide (e.2 = 0)).map Prod.fst).reverse
    indeg := indeg
    visited := 0 }

/-- The number of nodes that the sort visits, under a step budget. -/
def sortVisited (order : IterationOrder) (edges : List TopologyEdge) (fuel : ℕ) : Run ℕ :=
  loop (fun s => .ok (sortStep (childOf edges) s)) fuel (sortInit order edges)

/-- The lambda `has_cycle`. Every round pops a node that has not been popped before, so the number
of nodes is a sufficient budget (`sortVisited_returns`). -/
def hasCycle (order : IterationOrder) (edges : List TopologyEdge) : Bool :=
  let n := (sortInit order edges).indeg.size
  decide (sortVisited order edges (n + 1) ≠ .ok n)

/-- 3. Containment cycles. -/
def checkCycle (order : IterationOrder) (edges : List TopologyEdge) (v : ValidationResult) :
    ValidationResult :=
  if hasCycle order edges then
    v.addError (str "containment cycle detected among CONTAINS edges")
  else v

/-- 4. A directed PEER_TO edge should have a counterpart. -/
def checkPeers (edges : List TopologyEdge) (v : ValidationResult) : ValidationResult :=
  let peerPresent := (edges.filter fun e => decide (e.type = .peerTo)).map TopologyEdge.key
  edges.foldl (fun v e =>
    if e.type = .peerTo ∧ e.direction = .directed ∧
        ⟨e.target, e.source, .peerTo⟩ ∉ peerPresent then
      v.addWarning (str "PEER_TO edge " ++ e.source.toHex ++ str "->" ++ e.target.toHex ++
        str " is directed without a symmetric counterpart")
    else v) v

/-- 5. An accelerator with PCI identity should be among the seen keys. -/
def checkAccelerators (nodes : NodeMap) (seen : SeenKeys) (v : ValidationResult) :
    ValidationResult :=
  nodes.entries.foldl (fun v entry =>
    if entry.2.type = .accelerator ∧ entry.2.native.hasPci = true ∧
        seen.contains entry.2.native.canonicalKey = false then
      v.addWarning (str "accelerator " ++ entry.1.toHex ++
        str " claims PCI identity but no matching node exists")
    else v) v

/-- `SnapshotBuilder::validate`. -/
def validate (order : IterationOrder) (nodes : NodeMap) (edges : List TopologyEdge) :
    ValidationResult :=
  let v := checkDangling nodes edges {}
  let (seen, v) := checkIdentity nodes v
  let v := checkSelfContainment edges v
  let v := checkCycle order edges v
  let v := checkPeers edges v
  checkAccelerators nodes seen v

/-! ## The builder -/

/-- A snapshot under construction. -/
structure SnapshotBuilder where
  bounds : Bounds
  nodes : NodeMap
  keyed : ∀ e ∈ nodes.entries, e.2.id = e.1
  edges : List TopologyEdge
  metadata : SnapshotMetadata
  validation : ValidationResult
  taken : Bool

namespace SnapshotBuilder

/-- A new builder. -/
def new (bounds : Bounds) : SnapshotBuilder where
  bounds := bounds
  nodes := HashMap.empty
  keyed := by simp [HashMap.empty]
  edges := []
  metadata := {}
  validation := {}
  taken := false

/-- Whether the node was added, and the builder afterwards. -/
def addNode (b : SnapshotBuilder) (n : TopologyNode) : Bool × SnapshotBuilder :=
  if b.taken then (false, b)
  else if b.bounds.maxNodes ≤ b.nodes.size then
    let warning := str "max_nodes exceeded; node dropped"
    (false, { b with validation := b.validation.addWarning warning })
  else if b.nodes.contains n.id then
    let warning := str "duplicate node id " ++ n.id.toHex ++ str "; keeping first"
    (false, { b with validation := b.validation.addWarning warning })
  else
    (true, { b with
      nodes := b.nodes.emplace n.id n
      keyed := by
        intro e he
        rcases HashMap.mem_entries_emplace.mp he with he | ⟨_, rfl⟩
        · exact b.keyed e he
        · rfl })

/-- Whether the edge was added, and the builder afterwards. -/
def addEdge (b : SnapshotBuilder) (e : TopologyEdge) : Bool × SnapshotBuilder :=
  if b.taken then (false, b)
  else if b.bounds.maxEdges ≤ b.edges.length then
    let warning := str "max_edges exceeded; edge dropped"
    (false, { b with validation := b.validation.addWarning warning })
  else (true, { b with edges := b.edges ++ [e] })

def setMetadata (b : SnapshotBuilder) (metadata : SnapshotMetadata) : SnapshotBuilder :=
  { b with metadata := metadata }

def setValidation (b : SnapshotBuilder) (val : ValidationResult) : SnapshotBuilder :=
  { b with validation := val }

/-- The validation result of the snapshot: what `validate` finds, then what was recorded. -/
def mergedValidation (order : IterationOrder) (b : SnapshotBuilder) : ValidationResult :=
  let v := validate order (b.nodes.reorder order) b.edges
  let v := b.validation.errors.foldl ValidationResult.addError v
  b.validation.warnings.foldl ValidationResult.addWarning v

/-- Build the snapshot. The node map is iterated in the given order from now on. -/
def take (order : IterationOrder) (b : SnapshotBuilder) : Run TopologySnapshot :=
  if b.taken then
    throwTopologyError .internal (str "SnapshotBuilder::take() called twice")
  else
    .ok
      { nodes := b.nodes.reorder order
        keyed := fun e he => b.keyed e (HashMap.mem_reorder.mp he)
        edges := b.edges
        adjacencyMap := buildAdjacency b.edges
        adjacencyBuilt := rfl
        metadata := b.metadata
        validation := b.mergedValidation order
        bounds := b.bounds }

theorem take_eq_ok {order : IterationOrder} {b : SnapshotBuilder} {snap : TopologySnapshot}
    (h : b.take order = .ok snap) :
    snap.nodes = b.nodes.reorder order ∧ snap.edges = b.edges ∧ snap.metadata = b.metadata ∧
      snap.validation = b.mergedValidation order := by
  unfold take at h
  split at h
  · simp [throwTopologyError] at h
  · obtain rfl := Outcome.ok.inj h
    exact ⟨rfl, rfl, rfl, rfl⟩

/-- A builder that has not been taken from gives a snapshot. -/
theorem take_returns {b : SnapshotBuilder} (h : b.taken = false) (order : IterationOrder) :
    ∃ snap, b.take order = .ok snap := by
  unfold take
  rw [h]
  exact ⟨_, rfl⟩

@[simp] theorem addNode_taken (b : SnapshotBuilder) (n : TopologyNode) :
    (b.addNode n).2.taken = b.taken := by
  unfold addNode
  split_ifs <;> rfl

@[simp] theorem addEdge_taken (b : SnapshotBuilder) (e : TopologyEdge) :
    (b.addEdge e).2.taken = b.taken := by
  unfold addEdge
  split_ifs <;> rfl

theorem foldl_addNode_taken {α : Type} (f : α → TopologyNode) (l : List α) (b : SnapshotBuilder) :
    (l.foldl (fun b a => (b.addNode (f a)).2) b).taken = b.taken := by
  induction l generalizing b with
  | nil => rfl
  | cons a l ih => rw [List.foldl_cons, ih, addNode_taken]

theorem foldl_addEdge_taken (l : List TopologyEdge) (b : SnapshotBuilder) :
    (l.foldl (fun b e => (b.addEdge e).2) b).taken = b.taken := by
  induction l generalizing b with
  | nil => rfl
  | cons e l ih => rw [List.foldl_cons, ih, addEdge_taken]

/-- Adding nodes changes neither the edges nor the bounds. -/
theorem foldl_addNode_rest {α : Type} (f : α → TopologyNode) (l : List α) (b : SnapshotBuilder) :
    (l.foldl (fun b a => (b.addNode (f a)).2) b).edges = b.edges ∧
      (l.foldl (fun b a => (b.addNode (f a)).2) b).bounds = b.bounds := by
  induction l generalizing b with
  | nil => exact ⟨rfl, rfl⟩
  | cons a l ih =>
    obtain ⟨hedges, hbounds⟩ := ih (b.addNode (f a)).2
    rw [List.foldl_cons, hedges, hbounds, addNode]
    split_ifs <;> exact ⟨rfl, rfl⟩

/-- Adding edges does not change the nodes. -/
theorem foldl_addEdge_nodes (l : List TopologyEdge) (b : SnapshotBuilder) :
    (l.foldl (fun b e => (b.addEdge e).2) b).nodes = b.nodes := by
  induction l generalizing b with
  | nil => rfl
  | cons e l ih =>
    rw [List.foldl_cons, ih, addEdge]
    split_ifs <;> rfl

/-- A node with a new identifier goes in as it is, when there is room for it. -/
theorem addNode_new {b : SnapshotBuilder} {n : TopologyNode} (hopen : b.taken = false)
    (hid : n.id ∉ b.nodes.keys) (hroom : b.nodes.size < b.bounds.maxNodes) :
    (b.addNode n).2.nodes = b.nodes.emplace n.id n ∧ (b.addNode n).2.bounds = b.bounds ∧
      (b.addNode n).2.validation = b.validation := by
  have hcontains : b.nodes.contains n.id = false := by
    rw [← Bool.not_eq_true, HashMap.contains_iff]
    exact hid
  simp [addNode, hopen, not_le.mpr hroom, hcontains]

/-- The first of some new nodes is new, and the others are new after it. -/
theorem fresh_cons {m : HashMap TopologyNodeId TopologyNode} {n : TopologyNode}
    {l : List TopologyNode} (h : (m.keys ++ (n :: l).map TopologyNode.id).Nodup) :
    n.id ∉ m.keys ∧ ((m.emplace n.id n).keys ++ l.map TopologyNode.id).Nodup := by
  have hid : n.id ∉ m.keys := fun hmem =>
    (List.nodup_append.mp h).2.2 _ hmem _ (List.mem_cons_self ..) rfl
  refine ⟨hid, ?_⟩
  rw [HashMap.keys_emplace, if_neg hid, List.append_assoc]
  exact h

/-- New nodes are all added when there is room for them. -/
theorem foldl_addNode_entries (l : List TopologyNode) (b : SnapshotBuilder) (h : b.taken = false)
    (hnew : (b.nodes.keys ++ l.map TopologyNode.id).Nodup)
    (hroom : b.nodes.size + l.length ≤ b.bounds.maxNodes) :
    (l.foldl (fun b n => (b.addNode n).2) b).nodes.entries =
      b.nodes.entries ++ l.map fun n => (n.id, n) := by
  induction l generalizing b with
  | nil => simp
  | cons n l ih =>
    rw [List.length_cons] at hroom
    -- the builder takes the node: its identifier is new, and there is room
    obtain ⟨hid, hrest⟩ := fresh_cons hnew
    obtain ⟨hnodes, hbounds, -⟩ := addNode_new h hid (by omega)
    have hentries : (b.nodes.emplace n.id n).entries = b.nodes.entries ++ [(n.id, n)] := by
      rw [HashMap.emplace, dif_neg hid]
    have hsize := HashMap.size_emplace_le b.nodes n.id n
    rw [← hnodes] at hrest hsize hentries
    rw [List.foldl_cons, ih _ ((addNode_taken b n).trans h) hrest (by rw [hbounds]; omega),
      hentries, List.append_assoc]
    rfl

/-- Edges are added as long as there is room. -/
theorem foldl_addEdge_edges (l : List TopologyEdge) (b : SnapshotBuilder) (h : b.taken = false) :
    (l.foldl (fun b e => (b.addEdge e).2) b).edges =
      b.edges ++ l.take (b.bounds.maxEdges - b.edges.length) := by
  induction l generalizing b with
  | nil => simp
  | cons e l ih =>
    rw [List.foldl_cons]
    -- no more room, or room for one more
    by_cases hfull : b.bounds.maxEdges ≤ b.edges.length
    · have hadd : (b.addEdge e).2.edges = b.edges ∧ (b.addEdge e).2.bounds = b.bounds := by
        simp [addEdge, h, hfull]
      have hzero : b.bounds.maxEdges - b.edges.length = 0 := by omega
      rw [ih _ ((addEdge_taken b e).trans h), hadd.1, hadd.2, hzero]
      simp
    · have hadd : (b.addEdge e).2.edges = b.edges ++ [e] ∧ (b.addEdge e).2.bounds = b.bounds := by
        simp [addEdge, h, hfull]
      obtain ⟨n, hn⟩ : ∃ n, b.bounds.maxEdges - b.edges.length = n + 1 :=
        ⟨b.bounds.maxEdges - b.edges.length - 1, by omega⟩
      have hn' : b.bounds.maxEdges - (b.edges ++ [e]).length = n := by
        rw [List.length_append, List.length_singleton]
        omega
      rw [ih _ ((addEdge_taken b e).trans h), hadd.1, hadd.2, hn, hn', List.take_succ_cons,
        List.append_assoc]
      rfl

/-- A new builder that is filled within its bounds gives a snapshot of all that was added. -/
theorem take_filled {bounds : Bounds} {nodes : List TopologyNode} {edges : List TopologyEdge}
    (hids : (nodes.map TopologyNode.id).Nodup) (hnodes : nodes.length ≤ bounds.maxNodes)
    (hedges : edges.length ≤ bounds.maxEdges) (metadata : SnapshotMetadata)
    (order : IterationOrder) :
    ∃ snap, ((edges.foldl (fun b e => (addEdge b e).2)
        (nodes.foldl (fun b n => (addNode b n).2) (new bounds))).setMetadata metadata).take order =
          .ok snap ∧
      snap.nodes.entries.Perm (nodes.map fun n => (n.id, n)) ∧ snap.edges = edges ∧
        snap.metadata = metadata := by
  have htaken := foldl_addNode_taken id nodes (new bounds)
  obtain ⟨hnoEdges, hbounds⟩ := foldl_addNode_rest id nodes (new bounds)
  have hentries := foldl_addNode_entries nodes (new bounds) rfl hids
    (by simpa [new, HashMap.size, HashMap.empty] using hnodes)
  simp only [id] at htaken hnoEdges hbounds
  -- the builder behind its nodes
  generalize nodes.foldl (fun b n => (addNode b n).2) (new bounds) = b at *
  have hadded := foldl_addEdge_edges edges b htaken
  rw [hnoEdges, hbounds] at hadded
  obtain ⟨snap, hsnap⟩ := take_returns (b := (edges.foldl (fun b e => (addEdge b e).2)
    b).setMetadata metadata) ((foldl_addEdge_taken edges b).trans htaken) order
  obtain ⟨hsnapNodes, hsnapEdges, hsnapMetadata, -⟩ := take_eq_ok hsnap
  refine ⟨snap, hsnap, ?_, ?_, hsnapMetadata⟩
  · rw [hsnapNodes]
    refine (order.perm _ _).trans ?_
    rw [setMetadata, foldl_addEdge_nodes edges b, hentries]
    exact List.Perm.refl _
  · rw [hsnapEdges]
    refine hadded.trans ?_
    exact List.take_of_length_le hedges

end SnapshotBuilder

/-! ## What adjacency lists contain -/

private theorem mem_pushRef {adj : TopologyNodeId → List EdgeRef} {id u : TopologyNodeId}
    {ref r : EdgeRef} : r ∈ pushRef adj id ref u ↔ r ∈ adj u ∨ (u = id ∧ r = ref) := by
  unfold pushRef
  by_cases h : u = id
  · subst h
    simp
  · simp [h]

/-- Every edge is pushed once at each of its ends. -/
private theorem mem_foldl_pushRef (l : List (TopologyEdge × ℕ)) (adj : TopologyNodeId → List EdgeRef)
    {u : TopologyNodeId} {r : EdgeRef} :
    r ∈ l.foldl (fun adj p => pushRef (pushRef adj p.1.source ⟨p.1.target, p.2⟩)
      p.1.target ⟨p.1.source, p.2⟩) adj u ↔
    r ∈ adj u ∨ ∃ p ∈ l, p.2 = r.edgeIndex ∧ ((p.1.source = u ∧ p.1.target = r.neighbor) ∨
      (p.1.target = u ∧ p.1.source = r.neighbor)) := by
  induction l generalizing adj with
  | nil => simp
  | cons p l ih =>
    obtain ⟨v, i⟩ := r
    simp only [List.foldl_cons, ih, mem_pushRef, List.mem_cons, exists_eq_or_imp,
      EdgeRef.mk.injEq]
    -- each edge is pushed twice: for its source, and for its target
    constructor
    · rintro (((h | ⟨rfl, rfl, rfl⟩) | ⟨rfl, rfl, rfl⟩) | h)
      · exact Or.inl h
      · exact Or.inr (Or.inl ⟨rfl, Or.inl ⟨rfl, rfl⟩⟩)
      · exact Or.inr (Or.inl ⟨rfl, Or.inr ⟨rfl, rfl⟩⟩)
      · exact Or.inr (Or.inr h)
    · rintro (h | ⟨rfl, ⟨rfl, rfl⟩ | ⟨rfl, rfl⟩⟩ | h)
      · exact Or.inl (Or.inl (Or.inl h))
      · exact Or.inl (Or.inl (Or.inr ⟨rfl, rfl, rfl⟩))
      · exact Or.inl (Or.inr ⟨rfl, rfl, rfl⟩)
      · exact Or.inr h

/-- The entries of an adjacency list are the edges at the node, each one seen from that end. -/
theorem mem_buildAdjacency {edges : List TopologyEdge} {u : TopologyNodeId} {r : EdgeRef} :
    r ∈ buildAdjacency edges u ↔ ∃ e, edges[r.edgeIndex]? = some e ∧
      ((e.source = u ∧ e.target = r.neighbor) ∨ (e.target = u ∧ e.source = r.neighbor)) := by
  rw [buildAdjacency, mem_foldl_pushRef]
  simp only [List.not_mem_nil, false_or]
  constructor
  · rintro ⟨⟨e, i⟩, hmem, rfl, h⟩
    exact ⟨e, List.mem_zipIdx_iff_getElem?.mp hmem, h⟩
  · rintro ⟨e, he, h⟩
    exact ⟨(e, r.edgeIndex), List.mem_zipIdx_iff_getElem?.mpr he, rfl, h⟩

namespace TopologySnapshot

variable {snap : TopologySnapshot} {u : TopologyNodeId} {r : EdgeRef}

theorem mem_adjacency : r ∈ snap.adjacency u ↔ ∃ e, snap.edges[r.edgeIndex]? = some e ∧
    ((e.source = u ∧ e.target = r.neighbor) ∨ (e.target = u ∧ e.source = r.neighbor)) := by
  rw [adjacency, snap.adjacencyBuilt, mem_buildAdjacency]

theorem node_eq_ok {id : TopologyNodeId} {n : TopologyNode} :
    snap.node id = .ok n ↔ snap.findNode id = some n := by
  unfold node findNode
  cases snap.nodes.find? id with
  | none => simp [throwTopologyError]
  | some m => simp

theorem edge_eq_ok {i : ℕ} {e : TopologyEdge} : snap.edge i = .ok e ↔ snap.edges[i]? = some e := by
  unfold edge
  cases snap.edges[i]? with
  | none => simp [throwTopologyError]
  | some e' => simp

theorem Present.exists_node {id : TopologyNodeId} (h : snap.Present id) :
    ∃ n, snap.findNode id = some n ∧ snap.node id = .ok n := by
  obtain ⟨n, hn⟩ := Option.isSome_iff_exists.mp h
  exact ⟨n, hn, node_eq_ok.mpr hn⟩

theorem present_of_findNode {id : TopologyNodeId} {n : TopologyNode}
    (h : snap.findNode id = some n) : snap.Present id := Option.isSome_of_eq_some h

theorem node_of_not_present {id : TopologyNodeId} (h : ¬ snap.Present id) :
    snap.node id = throwTopologyError .notFound (str "unknown node id " ++ id.toHex) := by
  have hnone : snap.nodes.find? id = none := by
    simpa [Present, findNode] using h
  rw [node, hnone]

theorem edge_of_mem_adjacency (h : r ∈ snap.adjacency u) :
    ∃ e, snap.edge r.edgeIndex = .ok e ∧ snap.edges[r.edgeIndex]? = some e := by
  obtain ⟨e, he, _⟩ := mem_adjacency.mp h
  exact ⟨e, edge_eq_ok.mpr he, he⟩

end TopologySnapshot

end TopologyFabric

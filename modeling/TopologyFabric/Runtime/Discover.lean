import TopologyFabric.Diff.Compare
import TopologyFabric.Merge.Merge

/-!
# Discovery

What one call of `TopologyRuntime::discover` computes: the contributions of the providers are
merged, resources without a parent are placed under the machine, and snapshots are built from the
merged graph. How the calls of several threads interleave is in `Runtime.Interleaving`.

## Main results

- `buildSnapshot_graph`: the nodes and edges of a snapshot come from the merged graph alone
- `snapshotId_injective`: the number in a snapshot id can be read off the id
-/

namespace TopologyFabric

open Library

/-! ## Running the providers -/

/-- What a provider run comes to. -/
inductive ProviderResult where
  | returned (c : Contribution)
  | threw (what : Bytes)

/-- A provider that throws contributes a partial result without data. -/
def ProviderResult.contribution : ProviderResult → Contribution
  | .returned c => c
  | .threw what =>
    { success := false, partialRun := true, warnings := [str "provider threw: " ++ what] }

/-! ## The machine -/

/-- The first machine in iteration order. -/
def findMachine (nodes : NodeMap) : Option (TopologyNodeId × TopologyNode) :=
  nodes.entries.find? fun e => e.2.type = .machine

/-- The types of node that are placed under the machine. -/
def isResource (t : NodeType) : Bool :=
  t = .accelerator || t = .storageDevice || t = .networkInterface || t = .pciRoot || t = .pciDevice

/-- `Provenance::inferred`. -/
def Provenance.inferred (provider api : Bytes) (c : Confidence) (detail : Bytes) : Provenance :=
  { kind := .inferred, provider := provider, api := api, confidence := c, detail := detail }

/-- The edge that places a resource under the machine. -/
def machineAttachEdge (machineId id : TopologyNodeId) : TopologyEdge where
  source := machineId
  target := id
  type := .contains
  direction := .directed
  provenance := .inferred (str "merge") (str "machine attach") .medium
    (str "resource placed under machine")
  confidence := .medium

/-- Connect rootless resource nodes into the containment hierarchy of the machine. -/
def attachToMachine (nodes : NodeMap) (edges : List TopologyEdge) : List TopologyEdge :=
  let machineId := ((findMachine nodes).map Prod.fst).getD kNullNodeId
  if machineId = kNullNodeId then edges
  else
    let hasParent := (edges.filter fun e =>
      decide (e.type = .contains ∨ e.type = .attachedTo)).map TopologyEdge.target
    nodes.entries.foldl (fun edges (id, n) =>
      if id ≠ machineId ∧ isResource n.type = true ∧ id ∉ hasParent then
        edges ++ [machineAttachEdge machineId id]
      else edges) edges

/-- The name of the machine. -/
def machineIdentityOf (nodes : NodeMap) : Bytes :=
  let name := ((findMachine nodes).map fun e => e.2.name).getD []
  if name = [] then str "unknown-machine" else name

/-- `provider=version`, separated by semicolons. -/
def providerVersionsOf (contributions : List Contribution) : Bytes :=
  contributions.foldl (fun s c =>
    (if s = [] then s else s ++ str ";") ++ (c.provider ++ str "=" ++ c.version)) []

/-- What the providers found, merged. -/
structure Gathered where
  nodes : NodeMap
  edges : List TopologyEdge
  machineIdentity : Bytes
  providerVersions : Bytes
  anyPartial : Bool

/-- Run the providers and merge what they contribute. -/
def gather (order : IterationOrder) (bounds : Bounds) (results : List ProviderResult) : Gathered :=
  let contributions := results.map ProviderResult.contribution
  let merged := mergeContributions order contributions bounds
  let nodes := merged.nodes.reorder order
  { nodes := nodes
    edges := attachToMachine nodes merged.edges
    machineIdentity := machineIdentityOf nodes
    providerVersions := providerVersionsOf contributions
    anyPartial := contributions.any Contribution.partialRun }

/-! ## Building a snapshot -/

/-- What the environment supplies to a build: the random part of the id, the clock, and the order
in which the node map of the snapshot is going to be iterated. -/
structure BuildInputs where
  uuid : TopologyNodeId
  nowMs : Int64
  order : IterationOrder

/-- The id of the `counter`-th snapshot that is built. -/
def snapshotId (counter : ℕ) (uuid : TopologyNodeId) : Bytes :=
  str "snap-" ++ natToString counter ++ str "-" ++ uuid.toHex

/-- The builder with the merged graph. -/
def graphBuilder (bounds : Bounds) (g : Gathered) : SnapshotBuilder :=
  let b := g.nodes.entries.foldl (fun b e => (b.addNode e.2).2) (SnapshotBuilder.new bounds)
  g.edges.foldl (fun b e => (b.addEdge e).2) b

/-- The lambda `build_snapshot`, after the counter has been incremented. The list of warnings that
goes into the metadata is never filled. -/
def buildSnapshot (bounds : Bounds) (g : Gathered) (counter generation : ℕ) (inp : BuildInputs) :
    Run TopologySnapshot :=
  ((graphBuilder bounds g).setMetadata
    { snapshotId := snapshotId counter inp.uuid
      generation := generation
      createdMs := inp.nowMs
      machineIdentity := g.machineIdentity
      providerVersions := g.providerVersions
      partialDiscovery := g.anyPartial
      synthetic := false
      warnings := [] }).take inp.order

/-! ## What a build gives -/

private theorem graphBuilder_taken (bounds : Bounds) (g : Gathered) :
    (graphBuilder bounds g).taken = false := by
  rw [graphBuilder, SnapshotBuilder.foldl_addEdge_taken,
    SnapshotBuilder.foldl_addNode_taken Prod.snd]
  rfl

/-- A build does not throw by itself. -/
theorem buildSnapshot_returns (bounds : Bounds) (g : Gathered) (counter generation : ℕ)
    (inp : BuildInputs) : ∃ snap, buildSnapshot bounds g counter generation inp = .ok snap := by
  apply SnapshotBuilder.take_returns
  exact graphBuilder_taken bounds g

/-- The nodes and edges of a snapshot come from the merged graph, and its metadata names the
generation and the number it was built with. -/
theorem buildSnapshot_graph {bounds : Bounds} {g : Gathered} {counter generation : ℕ}
    {inp : BuildInputs} {snap : TopologySnapshot}
    (h : buildSnapshot bounds g counter generation inp = .ok snap) :
    snap.nodes.entries.Perm (graphBuilder bounds g).nodes.entries ∧
      snap.edges = (graphBuilder bounds g).edges ∧
      snap.metadata.generation = generation ∧
      snap.metadata.snapshotId = snapshotId counter inp.uuid := by
  obtain ⟨hnodes, hedges, hmeta, _⟩ := SnapshotBuilder.take_eq_ok h
  refine ⟨?_, hedges, by rw [hmeta]; rfl, by rw [hmeta]; rfl⟩
  rw [hnodes]
  exact inp.order.perm _ _

/-! ## Snapshot ids -/

/-- The number of a snapshot is what stands before the second dash of its id. -/
theorem snapshotId_injective {m n : ℕ} {u v : TopologyNodeId}
    (h : snapshotId m u = snapshotId n v) : m = n := by
  have hdash : isDigit (byte '-') = false := by decide
  have htail : ∀ (k : ℕ) (w : TopologyNodeId),
      ((natToString k ++ str "-" ++ w.toHex).takeWhile isDigit) = natToString k := by
    intro k w
    have hall : ∀ c ∈ natToString k, isDigit c = true := fun c => isDigit_of_mem_natToString
    rw [List.append_assoc, List.takeWhile_append_of_pos hall]
    change natToString k ++ List.takeWhile isDigit (byte '-' :: w.toHex) = natToString k
    rw [List.takeWhile_cons_of_neg (by simp [hdash]), List.append_nil]
  simp only [snapshotId, List.append_assoc, List.append_cancel_left_eq] at h
  apply natToString_injective
  rw [← htail m u, ← htail n v]
  simp only [List.append_assoc]
  rw [h]

end TopologyFabric

import TopologyFabric.Json.Parser
import TopologyFabric.Json.Writer
import TopologyFabric.Serialization.Convert

/-!
# Serializing Snapshots

Snapshots are written as JSON text and read back. Nodes are written in the order of their ids and
edges in the order of their endpoints and type.
-/

namespace TopologyFabric

open Library Json

def kSnapshotSchemaVersion : Bytes := str "1.0.0"

/-! ## Writing -/

/-- The nodes in the order of their ids. -/
def sortedNodes (snap : TopologySnapshot) : List (TopologyNodeId × TopologyNode) :=
  snap.nodes.entries.insertionSort fun a b => a.1 ≤ b.1

/-- The comparison that sorts the edges. -/
def edgeBefore (a b : TopologyEdge) : Bool :=
  if a.source ≠ b.source then a.source < b.source
  else if a.target ≠ b.target then a.target < b.target
  else a.type.toNat < b.type.toNat

def sortedEdges (snap : TopologySnapshot) : List TopologyEdge :=
  snap.edges.insertionSort fun a b => edgeBefore b a = false

def validationToJson (v : ValidationResult) : Value :=
  objectOf
    [(str "ok", .bool v.ok),
      (str "errors", .array (v.errors.map .string)),
      (str "warnings", .array (v.warnings.map .string))]

def snapshotToJson (snap : TopologySnapshot) : Value :=
  objectOf
    [(str "schema", .string kSnapshotSchemaVersion),
      (str "snapshot_id", .string snap.metadata.snapshotId),
      (str "generation", .uint (UInt64.ofNat snap.metadata.generation)),
      (str "created_ms", .int snap.metadata.createdMs),
      (str "machine_identity", .string snap.metadata.machineIdentity),
      (str "provider_versions", .string snap.metadata.providerVersions),
      (str "format", .string (str "topology_fabric_snapshot")),
      (str "nodes", .array ((sortedNodes snap).map fun e => nodeToJson e.1 e.2)),
      (str "edges", .array ((sortedEdges snap).map edgeToJson)),
      (str "warnings", .array (snap.metadata.warnings.map .string)),
      (str "partial_discovery", .bool snap.metadata.partialDiscovery),
      (str "synthetic", .bool snap.metadata.synthetic),
      (str "validation", validationToJson snap.validation)]

def serializeSnapshotJson (snap : TopologySnapshot) (pretty : Bool) : Bytes :=
  dump (if pretty then .pretty else .compact) (snapshotToJson snap)

/-! ## Reading -/

/-- The strings of an array; other elements are passed over. -/
def readStrings (o : Value) (k : Bytes) : List Bytes :=
  match o.find k with
  | some (.array a) => a.filterMap fun
    | .string s => some s
    | _ => none
  | _ => []

def metadataFromJson (root : Value) : SnapshotMetadata :=
  { snapshotId := readString root (str "snapshot_id") []
    generation := (readInteger root (str "generation") 0).toUInt64.toNat
    createdMs := readInteger root (str "created_ms") 0
    machineIdentity := readString root (str "machine_identity") []
    schemaVersion := readString root (str "schema") kSnapshotSchemaVersion
    providerVersions := readString root (str "provider_versions") []
    partialDiscovery := readBool root (str "partial_discovery") false
    synthetic := readBool root (str "synthetic") false
    warnings := readStrings root (str "warnings") }

/-- The elements of an array field. -/
def findArray (o : Value) (k : Bytes) : Option (List Value) :=
  match o.find k with
  | some (.array a) => some a
  | _ => none

/-- The loop over the elements of an array: each one is counted, read, and added. -/
def readEntries {α β : Type} (bound : ℕ) (tooMany : Bytes) (read : Value → Run α)
    (add : β → α → β) : ℕ → List Value → β → Run β
  | _, [], b => .ok b
  | count, v :: rest, b =>
    if bound < count + 1 then throwTopologyError .oversized tooMany
    else do
      let a ← read v
      readEntries bound tooMany read add (count + 1) rest (add b a)

/-- The part of `deserialize_snapshot_json` behind the parser. -/
def snapshotFromJson (order : IterationOrder) (root : Value) (bounds : Bounds) :
    Run TopologySnapshot :=
  if root.isObject = false then
    throwTopologyError .malformedData (str "snapshot root must be an object")
  else if readString root (str "format") [] ≠ str "topology_fabric_snapshot" then
    throwTopologyError .malformedData (str "not a topology_fabric_snapshot document")
  else
    match findArray root (str "nodes") with
    | none => throwTopologyError .malformedData (str "snapshot missing nodes array")
    | some nodes => do
      let b ← readEntries bounds.maxNodes (str "node count exceeds bound") nodeFromJson
        (fun b n => (b.addNode n).2) 0 nodes (SnapshotBuilder.new bounds)
      match findArray root (str "edges") with
      | none => throwTopologyError .malformedData (str "snapshot missing edges array")
      | some edges => do
        let b ← readEntries bounds.maxEdges (str "edge count exceeds bound") edgeFromJson
          (fun b e => (b.addEdge e).2) 0 edges b
        (b.setMetadata (metadataFromJson root)).take order

/-- A document in the right format with both arrays: the nodes are read, and then the edges. -/
theorem snapshotFromJson_eq {order : IterationOrder} {bounds : Bounds} {root : Value}
    {nodes edges : List Value} (hobject : root.isObject = true)
    (hformat : readString root (str "format") [] = str "topology_fabric_snapshot")
    (hnodes : findArray root (str "nodes") = some nodes)
    (hedges : findArray root (str "edges") = some edges) :
    snapshotFromJson order root bounds =
      readEntries bounds.maxNodes (str "node count exceeds bound") nodeFromJson
          (fun b n => (SnapshotBuilder.addNode b n).2) 0 nodes (SnapshotBuilder.new bounds) >>=
        fun b => readEntries bounds.maxEdges (str "edge count exceeds bound") edgeFromJson
          (fun b e => (SnapshotBuilder.addEdge b e).2) 0 edges b >>=
        fun b => (b.setMetadata (metadataFromJson root)).take order := by
  rw [snapshotFromJson, if_neg (by rw [hobject]; exact Bool.noConfusion),
    if_neg (not_not.mpr hformat), hnodes, hedges]

def deserializeSnapshotJson (order : IterationOrder) (jsonText : Bytes) (bounds : Bounds) :
    Run TopologySnapshot := do
  let r ← parse {} jsonText
  if r.ok = false then
    throwTopologyError .malformedData (str "malformed JSON: " ++ r.message)
  else if bounds.maxSnapshotBytes < jsonText.length then
    throwTopologyError .oversized (str "serialized snapshot exceeds bound")
  else snapshotFromJson order r.value bounds

end TopologyFabric

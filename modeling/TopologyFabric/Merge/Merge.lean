import TopologyFabric.Core.Snapshot

/-!
# Merging Provider Contributions

Providers contribute nodes and edges independently; the merge groups the nodes by native identity,
makes one node of every group, and resolves the edges through the refs of the nodes. Maps that the
merge iterates are iterated in the order that an `IterationOrder` gives.
-/

namespace TopologyFabric

open Library

/-! ## Contributions -/

/-- A node that a provider contributes. -/
structure ContributedNode where
  ref : Bytes := []
  type : NodeType := .unknown
  category : Bytes := []
  name : Bytes := []
  native : NativeIdentity := {}
  capabilities : UInt64 := 0
  properties : PropertyMap := OrderedMap.empty
  provenance : Provenance := {}
  synthetic : Bool := false
  deriving DecidableEq

/-- The properties of a node that a provider emplaces one after the other. -/
def propertyMap (properties : List (Bytes × PropertyValue)) : PropertyMap :=
  properties.foldl (fun m e => m.emplace e.1 e.2) OrderedMap.empty

/-- An edge between contributed nodes, addressed by their refs. -/
structure ContributedEdge where
  fromRef : Bytes := []
  toRef : Bytes := []
  type : EdgeType := .connectedTo
  direction : EdgeDirection := .directed
  provenance : Provenance := {}
  confidence : Confidence := .unknown
  width : Option Int32 := none
  pcieGeneration : Option Int32 := none
  bandwidthBytesPerSec : Option Double := none
  latencyNs : Option Double := none
  hopCount : Int32 := 0
  peerCapability : Option UInt64 := none
  properties : PropertyMap := OrderedMap.empty
  deriving DecidableEq

/-- The result of a single provider run. -/
structure Contribution where
  provider : Bytes := []
  version : Bytes := []
  nodes : List ContributedNode := []
  edges : List ContributedEdge := []
  warnings : List Bytes := []
  partialRun : Bool := false
  success : Bool := false
  deriving DecidableEq

/-- The merged graph. -/
structure MergedGraph where
  nodes : NodeMap
  edges : List TopologyEdge
  warnings : List Bytes
  conflicts : List Bytes
  mergedCount : ℕ

/-! ## Ranks -/

def typeRank : NodeType → ℕ
  | .acceleratorMemoryDomain => 9
  | .accelerator => 8
  | .networkInterface => 7
  | .storageDevice => 6
  | .sharedMemoryDomain => 6
  | .pciDevice => 5
  | .pciBridge => 4
  | .pciRoot => 3
  | .cpuPackage => 2
  | .cpuCore => 2
  | .cpuThread => 2
  | .numaNode => 1
  | .hostMemoryDomain => 1
  | .machine => 1
  | .unknown => 0
  | .extension => 0

def betterType (a b : NodeType) : Bool := typeRank b < typeRank a

namespace ConfidenceRanking

def rank : Confidence → ℕ
  | .authoritative => 5
  | .high => 4
  | .medium => 3
  | .low => 2
  | .unknown => 1

def maximum (a b : Confidence) : Confidence := if rank b ≤ rank a then a else b

end ConfidenceRanking

/-! ## Groups -/

/-- The merge key of a node. -/
def groupKey (n : ContributedNode) : Bytes :=
  let k := n.native.canonicalKey
  if k = [] then str "type:" ++ n.type.toString ++ str ":" ++ n.name else k

/-- A contributed node with its position. -/
structure Member where
  node : ContributedNode
  ci : ℕ
  idx : ℕ

/-- The members of every group, in the order in which they were read. -/
abbrev Groups := HashMap Bytes (List Member)

/-- Read the nodes of one contribution, until there are more groups than nodes allowed. -/
def ingestNodes (bounds : Bounds) (ci : ℕ) :
    ℕ → List ContributedNode → Groups × List Bytes → Groups × List Bytes
  | _, [], s => s
  | idx, cn :: rest, (groups, warnings) =>
    let groups := groups.upsert (groupKey cn) [] (· ++ [⟨cn, ci, idx⟩])
    if bounds.maxNodes < groups.size then
      (groups, warnings ++
        [str "max_nodes bound exceeded while merging; stopping node ingestion"])
    else ingestNodes bounds ci (idx + 1) rest (groups, warnings)

/-- 1. Group contributed nodes by canonical merge key. -/
def ingest (bounds : Bounds) (contributions : List Contribution) : Groups × List Bytes :=
  contributions.zipIdx.foldl (fun s c => ingestNodes bounds c.2 0 c.1.nodes s)
    (HashMap.empty, [])

/-- Which group declared a ref. -/
structure RefEntry where
  ci : ℕ
  ref : Bytes
  key : Bytes

def refMap (order : IterationOrder) (groups : Groups) : List RefEntry :=
  (groups.reorder order).entries.flatMap fun g => g.2.map fun m => ⟨m.ci, m.node.ref, g.1⟩

/-! ## One group -/

/-- Whether one member goes before another: by confidence, then by position. -/
def memberBefore (a b : Member) : Bool :=
  let ca := ConfidenceRanking.rank a.node.provenance.confidence
  let cb := ConfidenceRanking.rank b.node.provenance.confidence
  if ca ≠ cb then cb < ca
  else if a.ci ≠ b.ci then a.ci < b.ci
  else a.idx < b.idx

/-- The members best-first. -/
def sortMembers (members : List Member) : List Member :=
  members.insertionSort fun a b => memberBefore b a = false

/-- A field that is kept unless it is missing. -/
def firstSome {α : Type} (out n : Option α) : Option α := if out.isNone then n else out

/-- A string that is kept unless it is empty. -/
def firstNonempty (out n : Bytes) : Bytes := if out = [] then n else out

/-- The native fields of the members, the first one that is set winning. -/
def mergeNative (members : List Member) : NativeIdentity :=
  members.foldl (fun out m =>
    let n := m.node.native
    { pciDomain := firstSome out.pciDomain n.pciDomain
      pciBus := firstSome out.pciBus n.pciBus
      pciDevice := firstSome out.pciDevice n.pciDevice
      pciFunction := firstSome out.pciFunction n.pciFunction
      vendorId := firstSome out.vendorId n.vendorId
      deviceId := firstSome out.deviceId n.deviceId
      subsystemId := firstSome out.subsystemId n.subsystemId
      subsystemVendorId := firstSome out.subsystemVendorId n.subsystemVendorId
      numaNode := firstSome out.numaNode n.numaNode
      cpuPackage := firstSome out.cpuPackage n.cpuPackage
      coreId := firstSome out.coreId n.coreId
      processorGroup := firstSome out.processorGroup n.processorGroup
      logicalProcessorIndex := firstSome out.logicalProcessorIndex n.logicalProcessorIndex
      cudaOrdinal := firstSome out.cudaOrdinal n.cudaOrdinal
      cudaUuid := firstNonempty out.cudaUuid n.cudaUuid
      name := firstNonempty out.name n.name
      networkInterfaceName := firstNonempty out.networkInterfaceName n.networkInterfaceName
      networkHardwareId := firstNonempty out.networkHardwareId n.networkHardwareId
      storageId := firstNonempty out.storageId n.storageId
      storageDevicePath := firstNonempty out.storageDevicePath n.storageDevicePath
      machineName := firstNonempty out.machineName n.machineName
      osVersion := firstNonempty out.osVersion n.osVersion }) {}

/-- The best type among the members. -/
def resolvedType (members : List Member) : NodeType :=
  members.foldl (fun best m => if betterType m.node.type best then m.node.type else best)
    ((members.head?.map fun m => m.node.type).getD .unknown)

/-- The name of the first member with the resolved type, else the longest name. -/
def mergedName (members : List Member) (best : NodeType) : Bytes :=
  let bestName := ((members.find? fun m => m.node.type = best).map fun m => m.node.name).getD []
  if bestName = [] then
    members.foldl (fun name m =>
      if name.length < m.node.name.length then m.node.name else name) bestName
  else bestName

/-- Keep the first value per property key and record a conflict for every later one. -/
def mergeProperties (key : Bytes) (members : List Member) : PropertyMap × List Bytes :=
  members.foldl (fun s m =>
    m.node.properties.entries.foldl (fun s e =>
      match s.1.find? e.1 with
      | none => (s.1.emplace e.1 e.2, s.2)
      | some _ => (s.1, s.2 ++ [str "property '" ++ e.1 ++ str "' conflict on group '" ++ key ++
          str "'; keeping higher-confidence value"])) s) (OrderedMap.empty, [])

/-- The id of the node of a group. -/
def groupId (key : Bytes) : TopologyNodeId := deriveNodeId (str "touchstone") (str "node") key

/-- The node of a group with its members best-first, and the conflicts that it records. -/
def mergeGroup (key : Bytes) (members : List Member) : TopologyNode × List Bytes :=
  let best := resolvedType members
  let name := mergedName members best
  let (properties, conflicts) := mergeProperties key members
  let providers := members.map fun m => m.node.provenance.provider ++ str ":" ++ m.node.ref
  let properties := properties.emplace (str "tf.merged_providers") (.stringArray providers)
  let properties := properties.emplace (str "tf.merged_members")
    (.int (Int64.ofNat members.length))
  ({ id := groupId key
     type := best
     category := str "merged"
     name := name
     displayName := if name = [] then (groupId key).toHex else name
     native := mergeNative members
     capabilities := members.foldl (fun caps m => caps ||| m.node.capabilities) 0
     properties := properties
     provenance := (members.head?.map fun m => m.node.provenance).getD {}
     confidence := members.foldl
       (fun conf m => ConfidenceRanking.maximum conf m.node.provenance.confidence) .unknown
     synthetic := members.any fun m => m.node.synthetic },
    conflicts)

/-! ## All groups -/

/-- What the loop over the groups has made so far. -/
structure GroupState where
  nodes : NodeMap := HashMap.empty
  groupNodeId : HashMap Bytes TopologyNodeId := HashMap.empty
  warnings : List Bytes
  conflicts : List Bytes := []

/-- 2. Make the node of one group, unless there are as many nodes as allowed. -/
def mergeStep (bounds : Bounds) (s : GroupState) (group : Bytes × List Member) : GroupState :=
  let (key, members) := group
  if bounds.maxNodes ≤ s.nodes.size then
    { s with warnings := s.warnings ++ [str "max_nodes exceeded; dropping group '" ++ key ++
        str "'"] }
  else
    let (node, conflicts) := mergeGroup key (sortMembers members)
    { s with
      nodes := s.nodes.emplace node.id node
      groupNodeId := s.groupNodeId.emplace key node.id
      conflicts := s.conflicts ++ conflicts }

theorem mergeStep_of_lt {bounds : Bounds} {s : GroupState} (hroom : s.nodes.size < bounds.maxNodes)
    (group : Bytes × List Member) : mergeStep bounds s group =
      { s with
        nodes := s.nodes.emplace (groupId group.1) (mergeGroup group.1 (sortMembers group.2)).1
        groupNodeId := s.groupNodeId.emplace group.1 (groupId group.1)
        conflicts := s.conflicts ++ (mergeGroup group.1 (sortMembers group.2)).2 } := by
  rw [mergeStep, if_neg (not_le.mpr hroom)]
  rfl

theorem mergeStep_of_le {bounds : Bounds} {s : GroupState} (hfull : bounds.maxNodes ≤ s.nodes.size)
    (group : Bytes × List Member) : mergeStep bounds s group =
      { s with
        warnings := s.warnings ++ [str "max_nodes exceeded; dropping group '" ++ group.1 ++
          str "'"] } := by
  rw [mergeStep, if_pos hfull]

/-- The groups sorted by key. -/
def orderedGroups (order : IterationOrder) (groups : Groups) : List (Bytes × List Member) :=
  (groups.reorder order).entries.insertionSort fun a b => a.1 ≤ b.1

def mergeGroups (order : IterationOrder) (bounds : Bounds) (groups : Groups)
    (warnings : List Bytes) : GroupState :=
  (orderedGroups order groups).foldl (mergeStep bounds) { warnings := warnings }

/-! ## Edges -/

/-- `refToId`: the group keys, then the refs; looking a group up that has no node gives the
default id. -/
def refToId (order : IterationOrder) (groups : Groups)
    (groupNodeId : HashMap Bytes TopologyNodeId) : HashMap Bytes TopologyNodeId :=
  let m := (groupNodeId.reorder order).entries.foldl (fun m e => m.emplace e.1 e.2) HashMap.empty
  (refMap order groups).foldl
    (fun m e => m.emplace e.ref ((groupNodeId.find? e.key).getD kNullNodeId)) m

/-- The merged edge for a contributed one. -/
def makeEdge (ce : ContributedEdge) (source target : TopologyNodeId) : TopologyEdge where
  source := source
  target := target
  type := ce.type
  direction := ce.direction
  provenance := ce.provenance
  confidence := ce.confidence
  width := ce.width
  pcieGeneration := ce.pcieGeneration
  bandwidthBytesPerSec := ce.bandwidthBytesPerSec
  latencyNs := ce.latencyNs
  hopCount := ce.hopCount
  peerCapability := ce.peerCapability
  properties := ce.properties

/-- Resolve the edges of one contribution, until there are as many edges as allowed. -/
def resolveEdges (bounds : Bounds) (ids : HashMap Bytes TopologyNodeId) :
    List ContributedEdge → List TopologyEdge × List Bytes → List TopologyEdge × List Bytes
  | [], s => s
  | ce :: rest, (edges, warnings) =>
    match ids.find? ce.fromRef, ids.find? ce.toRef with
    | some source, some target =>
      if bounds.maxEdges ≤ edges.length then
        (edges, warnings ++ [str "max_edges exceeded; dropping remaining edges"])
      else resolveEdges bounds ids rest (edges ++ [makeEdge ce source target], warnings)
    | _, _ =>
      resolveEdges bounds ids rest (edges, warnings ++
        [str "dangling edge dropped: '" ++ ce.fromRef ++ str "' -> '" ++ ce.toRef ++
          str "' (unresolvable endpoint)"])

/-- Keep the first edge with each key. -/
def dedupEdges (edges : List TopologyEdge) : List TopologyEdge :=
  (edges.foldl (fun s e =>
    if e.key ∈ s.1 then s else (e.key :: s.1, s.2 ++ [e])) (([] : List EdgeKey), [])).2

def mergeContributions (order : IterationOrder) (contributions : List Contribution)
    (bounds : Bounds) : MergedGraph :=
  let (groups, warnings) := ingest bounds contributions
  let s := mergeGroups order bounds groups warnings
  let ids := refToId order groups s.groupNodeId
  let (edges, warnings) := contributions.foldl (fun acc c => resolveEdges bounds ids c.edges acc)
    ([], s.warnings)
  { nodes := s.nodes
    edges := dedupEdges edges
    warnings := warnings
    conflicts := s.conflicts
    mergedCount := (contributions.map fun c => c.nodes.length).sum }

end TopologyFabric

import TopologyFabric.Core.Double
import TopologyFabric.Core.NodeId
import TopologyFabric.Core.Types
import TopologyFabric.Library.OrderedMap

/-!
# Nodes and Edges

The records of the topology graph: property values, provenance, native hardware identity,
nodes and edges.
-/

namespace TopologyFabric

open Library

/-- A property value. -/
inductive PropertyValue where
  | null
  | bool (b : Bool)
  | int (v : Int64)
  | uint (v : UInt64)
  | double (v : Double)
  | string (s : Bytes)
  | stringArray (v : List Bytes)
  | intArray (v : List Int64)
  deriving DecidableEq

instance : Inhabited PropertyValue := ⟨.null⟩

/-- An ordered map from strings to property values. -/
abbrev PropertyMap := OrderedMap Bytes PropertyValue

/-- How, where and with what certainty a fact was established. -/
structure Provenance where
  kind : ProvenanceKind := .unknown
  confidence : Confidence := .unknown
  provider : Bytes := []
  api : Bytes := []
  detail : Bytes := []
  timestampMs : Int64 := 0
  schemaVersion : Bytes := str "1.0"
  providerVersion : Bytes := []
  deriving DecidableEq

/-! ## Native identity -/

/-- Native hardware identity as reported by the platform; `none` means not reported. -/
structure NativeIdentity where
  pciDomain : Option UInt16 := none
  pciBus : Option UInt16 := none
  pciDevice : Option UInt16 := none
  pciFunction : Option UInt16 := none
  vendorId : Option UInt16 := none
  deviceId : Option UInt16 := none
  subsystemId : Option UInt16 := none
  subsystemVendorId : Option UInt16 := none
  numaNode : Option UInt32 := none
  cpuPackage : Option UInt32 := none
  coreId : Option UInt32 := none
  processorGroup : Option UInt32 := none
  logicalProcessorIndex : Option UInt32 := none
  cudaOrdinal : Option UInt32 := none
  cudaUuid : Bytes := []
  name : Bytes := []
  networkInterfaceName : Bytes := []
  networkHardwareId : Bytes := []
  storageId : Bytes := []
  storageDevicePath : Bytes := []
  machineName : Bytes := []
  osVersion : Bytes := []
  deriving DecidableEq

namespace NativeIdentity

def hasPci (n : NativeIdentity) : Bool :=
  n.pciBus.isSome && n.pciDevice.isSome && n.pciFunction.isSome

/-- The bus/device/function text, only when all of its parts are known. -/
def pciBdfString (n : NativeIdentity) : Bytes :=
  match n.pciBus, n.pciDevice, n.pciFunction with
  | some bus, some dev, some fn =>
    hexPadded 4 (n.pciDomain.getD 0).toNat ++ str ":" ++ hexPadded 2 bus.toNat ++ str ":" ++
      hexPadded 2 dev.toNat ++ str "." ++ hexPadded 1 fn.toNat
  | _, _, _ => str "unknown"

/-- The key for matching identities: the most stable native identity that is known. -/
def canonicalKey (n : NativeIdentity) : Bytes :=
  if n.hasPci then str "pci:" ++ n.pciBdfString
  else if n.storageId ≠ [] then str "storage:" ++ n.storageId
  else if n.storageDevicePath ≠ [] then str "storage:" ++ n.storageDevicePath
  else if n.networkHardwareId ≠ [] then str "net:" ++ n.networkHardwareId
  else if n.networkInterfaceName ≠ [] then str "net:" ++ n.networkInterfaceName
  else if n.cudaUuid ≠ [] then str "cuda:" ++ n.cudaUuid
  else
    match n.cudaOrdinal with
    | some ordinal => str "cuda-ord:" ++ natToString ordinal.toNat
    | none => if n.machineName ≠ [] then str "machine:" ++ n.machineName else []

end NativeIdentity

/-! ## Nodes -/

/-- A discovered resource. The capabilities are the raw bitmask. -/
structure TopologyNode where
  id : TopologyNodeId := kNullNodeId
  type : NodeType := .unknown
  category : Bytes := []
  name : Bytes := []
  displayName : Bytes := []
  native : NativeIdentity := {}
  capabilities : UInt64 := 0
  properties : PropertyMap := OrderedMap.empty
  provenance : Provenance := {}
  confidence : Confidence := .unknown
  synthetic : Bool := false
  deriving DecidableEq

/-! ## Edges -/

/-- The identity of an edge for comparing and merging. -/
structure EdgeKey where
  source : TopologyNodeId
  target : TopologyNodeId
  type : EdgeType
  deriving DecidableEq

/-- An explicit relationship between two nodes. -/
structure TopologyEdge where
  source : TopologyNodeId := kNullNodeId
  target : TopologyNodeId := kNullNodeId
  type : EdgeType := .connectedTo
  direction : EdgeDirection := .directed
  provenance : Provenance := {}
  confidence : Confidence := .unknown
  width : Option Int32 := none
  pcieGeneration : Option Int32 := none
  bandwidthBytesPerSec : Option Double := none
  latencyNs : Option Double := none
  hopCount : Int32 := 0
  localityScore : Option Double := none
  accessible : Bool := true
  peerCapability : Option UInt64 := none
  policyVersion : UInt32 := 0
  properties : PropertyMap := OrderedMap.empty
  deriving DecidableEq

/-- An undirected edge has its endpoints in canonical order. -/
def TopologyEdge.key (e : TopologyEdge) : EdgeKey :=
  if e.direction = .undirected ∧ e.target < e.source then ⟨e.target, e.source, e.type⟩
  else ⟨e.source, e.target, e.type⟩

end TopologyFabric

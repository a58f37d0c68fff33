import TopologyFabric.Core.Snapshot
import TopologyFabric.Json.Value

/-!
# Records and JSON Values

The conversions between the records of a snapshot and JSON values, in both directions. Reading is
lenient: a missing field, or one of the wrong kind, keeps its default. Only the entries themselves,
their ids and their endpoints are required.
-/

namespace TopologyFabric

open Library Json

/-- `json::Value::object()` followed by calls of `set`. -/
def objectOf (fields : List (Bytes × Value)) : Value :=
  .object (fields.foldl (fun o f => insertEntry f.1 f.2 o) [])

/-! ## Writing -/

def propertyToJson : PropertyValue → Value
  | .null => .null
  | .bool b => .bool b
  | .int v => .int v
  | .uint v => .uint v
  | .double d => .double d
  | .string s => .string s
  | .stringArray v => .array (v.map .string)
  | .intArray v => .array (v.map .int)

/-- The object with the properties. -/
def propertiesToJson (m : PropertyMap) : Value :=
  objectOf (m.entries.map fun e => (e.1, propertyToJson e.2))

/-- An optional number, or null. -/
def put {α : Type} (toUint : α → UInt64) : Option α → Value
  | some v => .uint (toUint v)
  | none => .null

def nativeToJson (n : NativeIdentity) : Value :=
  objectOf
    [(str "pci_domain", put UInt16.toUInt64 n.pciDomain),
      (str "pci_bus", put UInt16.toUInt64 n.pciBus),
      (str "pci_device", put UInt16.toUInt64 n.pciDevice),
      (str "pci_function", put UInt16.toUInt64 n.pciFunction),
      (str "vendor_id", put UInt16.toUInt64 n.vendorId),
      (str "device_id", put UInt16.toUInt64 n.deviceId),
      (str "subsystem_id", put UInt16.toUInt64 n.subsystemId),
      (str "subsystem_vendor_id", put UInt16.toUInt64 n.subsystemVendorId),
      (str "numa_node", put UInt32.toUInt64 n.numaNode),
      (str "cpu_package", put UInt32.toUInt64 n.cpuPackage),
      (str "core_id", put UInt32.toUInt64 n.coreId),
      (str "processor_group", put UInt32.toUInt64 n.processorGroup),
      (str "logical_processor_index", put UInt32.toUInt64 n.logicalProcessorIndex),
      (str "cuda_ordinal", put UInt32.toUInt64 n.cudaOrdinal),
      (str "cuda_uuid", .string n.cudaUuid),
      (str "name", .string n.name),
      (str "network_interface_name", .string n.networkInterfaceName),
      (str "network_hardware_id", .string n.networkHardwareId),
      (str "storage_id", .string n.storageId),
      (str "storage_device_path", .string n.storageDevicePath),
      (str "machine_name", .string n.machineName),
      (str "os_version", .string n.osVersion)]

def provenanceToJson (p : Provenance) : Value :=
  objectOf
    [(str "kind", .string p.kind.toString),
      (str "confidence", .string p.confidence.toString),
      (str "provider", .string p.provider),
      (str "api", .string p.api),
      (str "detail", .string p.detail),
      (str "timestamp_ms", .int p.timestampMs),
      (str "schema_version", .string p.schemaVersion),
      (str "provider_version", .string p.providerVersion)]

/-- One element of the array of nodes; the id is the key of the node map. -/
def nodeToJson (id : TopologyNodeId) (n : TopologyNode) : Value :=
  objectOf
    [(str "id", .string id.toHex),
      (str "type", .string n.type.toString),
      (str "category", .string n.category),
      (str "name", .string n.name),
      (str "display_name", .string n.displayName),
      (str "native", nativeToJson n.native),
      (str "capabilities", .uint n.capabilities),
      (str "confidence", .string n.confidence.toString),
      (str "provenance", provenanceToJson n.provenance),
      (str "synthetic", .bool n.synthetic),
      (str "properties", propertiesToJson n.properties)]

/-- A field that is only written when it is known. -/
def putKnown {α : Type} (k : Bytes) (toJson : α → Value) : Option α → List (Bytes × Value)
  | some v => [(k, toJson v)]
  | none => []

/-- An `int` as an unsigned number; a negative one wraps around. -/
def int32ToUint (v : Int32) : Value := .uint v.toInt64.toUInt64

/-- One element of the array of edges. -/
def edgeToJson (e : TopologyEdge) : Value :=
  objectOf
    ([(str "source", .string e.source.toHex),
      (str "target", .string e.target.toHex),
      (str "type", .string e.type.toString),
      (str "direction", .string e.direction.toString),
      (str "confidence", .string e.confidence.toString),
      (str "provenance", provenanceToJson e.provenance)] ++
    putKnown (str "width") int32ToUint e.width ++
    putKnown (str "pcie_generation") int32ToUint e.pcieGeneration ++
    putKnown (str "bandwidth_bps") .double e.bandwidthBytesPerSec ++
    putKnown (str "latency_ns") .double e.latencyNs ++
    [(str "hop_count", .int e.hopCount.toInt64)] ++
    putKnown (str "locality_score") .double e.localityScore ++
    [(str "accessible", .bool e.accessible)] ++
    putKnown (str "peer_capability") .uint e.peerCapability ++
    [(str "policy_version", .uint e.policyVersion.toUInt64),
      (str "properties", propertiesToJson e.properties)])

/-! ## Reading -/

/-- A string field, or the default. -/
def readString (o : Value) (k : Bytes) (default : Bytes) : Bytes :=
  match o.find k with
  | some (.string s) => s
  | _ => default

/-- A field that names a member of an enumeration, or the default. -/
def readEnum {α : Type} (o : Value) (k : Bytes) (fromString : Bytes → α) (default : α) : α :=
  match o.find k with
  | some (.string s) => fromString s
  | _ => default

/-- A boolean field, or the default. -/
def readBool (o : Value) (k : Bytes) (default : Bool) : Bool :=
  match o.find k with
  | some (.bool b) => b
  | _ => default

/-- A field that is a number. -/
def findNumber (o : Value) (k : Bytes) : Option Value :=
  match o.find k with
  | some (.int v) => some (.int v)
  | some (.uint v) => some (.uint v)
  | some (.double d) => some (.double d)
  | _ => none

/-- A number field as an `int64_t`, or the default. -/
def readInteger (o : Value) (k : Bytes) (default : Int64) : Int64 :=
  ((findNumber o k).map Value.integer).getD default

/-- `opt_u16` and `opt_u32`: a field that is not null, cut to its width; what is no number counts as
zero. -/
def optUint {α : Type} (o : Value) (k : Bytes) (cut : Int64 → α) : Option α :=
  match o.find k with
  | none => none
  | some .null => none
  | some v => some (cut v.integer)

def optU16 (o : Value) (k : Bytes) : Option UInt16 := optUint o k fun v => v.toUInt64.toUInt16

def optU32 (o : Value) (k : Bytes) : Option UInt32 := optUint o k fun v => v.toUInt64.toUInt32

/-- An array whose first element is a string is read as strings; another array as integers. -/
def propertyFromJson : Value → Run PropertyValue
  | .null => .ok .null
  | .bool b => .ok (.bool b)
  | .int v => .ok (.int v)
  | .uint v => .ok (.uint v)
  | .double d => .ok (.double d)
  | .string s => .ok (.string s)
  | .array a =>
    if a.head?.any Value.isString then do
      let sv ← a.mapM Value.asString
      .ok (.stringArray sv)
    else .ok (.intArray (a.map Value.integer))
  | .object _ => .ok .null

/-- The properties of an entry, if it has an object of them. -/
def readProperties (o : Value) : Run PropertyMap :=
  match o.find (str "properties") with
  | some (.object es) => es.foldlM (fun m e => do
      let p ← propertyFromJson e.2
      .ok (m.emplace e.1 p)) OrderedMap.empty
  | _ => .ok OrderedMap.empty

def nativeFromJson (o : Value) : NativeIdentity :=
  if o.isObject = false then {}
  else
    { pciDomain := optU16 o (str "pci_domain")
      pciBus := optU16 o (str "pci_bus")
      pciDevice := optU16 o (str "pci_device")
      pciFunction := optU16 o (str "pci_function")
      vendorId := optU16 o (str "vendor_id")
      deviceId := optU16 o (str "device_id")
      subsystemId := optU16 o (str "subsystem_id")
      subsystemVendorId := optU16 o (str "subsystem_vendor_id")
      numaNode := optU32 o (str "numa_node")
      cpuPackage := optU32 o (str "cpu_package")
      coreId := optU32 o (str "core_id")
      processorGroup := optU32 o (str "processor_group")
      logicalProcessorIndex := optU32 o (str "logical_processor_index")
      cudaOrdinal := optU32 o (str "cuda_ordinal")
      cudaUuid := readString o (str "cuda_uuid") []
      name := readString o (str "name") []
      networkInterfaceName := readString o (str "network_interface_name") []
      networkHardwareId := readString o (str "network_hardware_id") []
      storageId := readString o (str "storage_id") []
      storageDevicePath := readString o (str "storage_device_path") []
      machineName := readString o (str "machine_name") []
      osVersion := readString o (str "os_version") [] }

def provenanceFromJson (o : Value) : Provenance :=
  if o.isObject = false then {}
  else
    { kind := readEnum o (str "kind") ProvenanceKind.fromString .unknown
      confidence := readEnum o (str "confidence") Confidence.fromString .unknown
      provider := readString o (str "provider") []
      api := readString o (str "api") []
      detail := readString o (str "detail") []
      timestampMs := readInteger o (str "timestamp_ms") 0
      schemaVersion := readString o (str "schema_version") (str "1.0")
      providerVersion := readString o (str "provider_version") [] }

/-- A field that holds a record of its own. -/
def readRecord {α : Type} (o : Value) (k : Bytes) (fromJson : Value → α) (default : α) : α :=
  ((o.find k).map fromJson).getD default

/-- The id in a string field. -/
def readId (o : Value) (k : Bytes) : Option TopologyNodeId :=
  match o.find k with
  | some (.string s) => TopologyNodeId.tryFromHex s
  | _ => none

/-- One element of the array of nodes. -/
def nodeFromJson (nv : Value) : Run TopologyNode :=
  if nv.isObject = false then
    throwTopologyError .malformedData (str "node entry must be object")
  else
    match readId nv (str "id") with
    | none => throwTopologyError .malformedData (str "node missing/invalid id")
    | some id => do
      let properties ← readProperties nv
      .ok
        { id := id
          type := readEnum nv (str "type") NodeType.fromString .unknown
          category := readString nv (str "category") []
          name := readString nv (str "name") []
          displayName := readString nv (str "display_name") []
          native := readRecord nv (str "native") nativeFromJson {}
          capabilities := (readInteger nv (str "capabilities") 0).toUInt64
          properties := properties
          provenance := readRecord nv (str "provenance") provenanceFromJson {}
          confidence := readEnum nv (str "confidence") Confidence.fromString .unknown
          synthetic := readBool nv (str "synthetic") false }

/-- One element of the array of edges. -/
def edgeFromJson (ev : Value) : Run TopologyEdge :=
  if ev.isObject = false then
    throwTopologyError .malformedData (str "edge entry must be object")
  else
    match readId ev (str "source"), readId ev (str "target") with
    | some source, some target => do
      let properties ← readProperties ev
      .ok
        { source := source
          target := target
          type := readEnum ev (str "type") EdgeType.fromString .connectedTo
          direction := readEnum ev (str "direction") EdgeDirection.fromString .directed
          provenance := readRecord ev (str "provenance") provenanceFromJson {}
          confidence := readEnum ev (str "confidence") Confidence.fromString .unknown
          width := (findNumber ev (str "width")).map fun v => v.integer.toInt32
          pcieGeneration := (findNumber ev (str "pcie_generation")).map fun v => v.integer.toInt32
          bandwidthBytesPerSec := (findNumber ev (str "bandwidth_bps")).map Value.number
          latencyNs := (findNumber ev (str "latency_ns")).map Value.number
          hopCount := (readInteger ev (str "hop_count") 0).toInt32
          localityScore := (findNumber ev (str "locality_score")).map Value.number
          accessible := readBool ev (str "accessible") true
          peerCapability := (findNumber ev (str "peer_capability")).map fun v => v.integer.toUInt64
          policyVersion := (readInteger ev (str "policy_version") 0).toUInt64.toUInt32
          properties := properties }
    | _, _ => throwTopologyError .malformedData (str "edge missing/invalid endpoint")

end TopologyFabric

import TopologyFabric.Merge.Tokens
import TopologyFabric.Providers.Cuda

/-!
# The Host Provider

`HostProvider::discover` on Windows reports the machine. Its name is the DNS host name or else the
name of the computer; the other providers know the DNS host name only and refer to the machine by
it.

## Main result

- `groupKey_machineNode`: the key of the machine
-/

namespace TopologyFabric

open Library

namespace Capability

def numaLocal : UInt64 := (1 : UInt64) <<< 9

end Capability

/-- `winutil::last_error`. -/
def lastError (api : Bytes) (code : UInt32) (message : Option Bytes) : Bytes :=
  api ++ str " failed (error " ++ natToString code.toNat ++ str "): " ++
    message.getD (str "<no message>")

/-- `MEMORYSTATUSEX`, as far as it is read. -/
structure MemoryStatus where
  totalPhys : UInt64
  availPhys : UInt64
  memoryLoad : UInt32

/-- What Windows says about the machine; a call that fails is `none`. -/
structure HostApi where
  dnsHostname : Option Bytes
  computerName : Option Bytes
  version : Option (UInt32 × UInt32 × UInt32)
  groupCount : UInt32
  logicalCount : UInt32
  memory : Option MemoryStatus

namespace HostApi

variable (api : HostApi)

/-- The name of the machine, empty when both calls fail. -/
def machine : Bytes := (api.dnsHostname.or api.computerName).getD []

def os : Bytes :=
  match api.version with
  | some (major, minor, build) => str "windows " ++ natToString major.toNat ++ str "." ++
      natToString minor.toNat ++ str "." ++ natToString build.toNat
  | none => str "windows"

def memoryProperties : List (Bytes × PropertyValue) :=
  match api.memory with
  | some mem => [(str "memory.total_bytes", .uint mem.totalPhys),
      (str "memory.available_bytes", .uint mem.availPhys),
      (str "memory.usage_percent", .double (.fin mem.memoryLoad.toNat))]
  | none => []

def hostProvenance : Provenance :=
  .discovered (str "windows.host")
    (str "GetComputerNameEx/RtlGetVersion/GetActiveProcessorCount/GlobalMemoryStatusEx") .high
    (str "10.0")

def machineNode : ContributedNode where
  ref := str "machine:" ++ api.machine
  type := .machine
  name := if api.machine = [] then str "machine" else api.machine
  native := { machineName := api.machine, osVersion := api.os }
  provenance := hostProvenance
  capabilities := Capability.cpuAddressable ||| Capability.numaLocal ||| Capability.sharedMemory
  properties := propertyMap ([(str "os.version", .string api.os),
    (str "machine.name", .string api.machine),
    (str "processor.logical_count", .int (Int64.ofNat api.logicalCount.toNat)),
    (str "processor.group_count", .int (Int64.ofNat api.groupCount.toNat))] ++ api.memoryProperties)

/-- `HostProvider::discover`. -/
def discover : Contribution where
  provider := str "host"
  version := str "1.0.0"
  nodes := [api.machineNode]
  partialRun := false
  success := true

end HostApi

/-! ## The key of the machine -/

/-- The identity of the machine: its name, or for want of one its type. -/
def HostApi.token (host : HostApi) : IdentityToken :=
  if host.machine = [] then .typeAndName .machine (str "machine") else .machine host.machine

theorem groupKey_machineNode (host : HostApi) : groupKey host.machineNode = host.token.text := by
  rw [groupKey_eq_text]
  congr 1
  unfold HostApi.token
  split_ifs with hname
  · simp [identityToken, tokenCandidates, pciToken, HostApi.machineNode, hname, nonempty?]
  · simp [identityToken, tokenCandidates, pciToken, HostApi.machineNode, hname, nonempty?]

theorem kind_machineToken (host : HostApi) :
    host.token.kind = .machine ∨ host.token.kind = .typeAndName := by
  unfold HostApi.token
  split_ifs
  · exact Or.inr rfl
  · exact Or.inl rfl

theorem ref_machineNode (host : HostApi) :
    host.machineNode.ref = str "machine" ++ byte ':' :: host.machine := rfl

end TopologyFabric

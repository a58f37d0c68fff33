import TopologyFabric.Core.Bytes

/-!
# Core Enumerations

The categorical vocabulary of the graph with its conversions to and from strings. An unknown
string maps to the default of its enumeration and is never an error.

## Main results

- `NodeType.fromString_toString` and its siblings: a written name is read back
-/

namespace TopologyFabric

/-- The chain of string comparisons shared by the `*_from_string` functions: the first entry with
the name, else the default. -/
def fromTable {α : Type} (table : List (Bytes × α)) (default : α) (s : Bytes) : α :=
  ((table.find? fun entry => s == entry.1).map Prod.snd).getD default

/-- Node category of a discovered resource. -/
inductive NodeType where
  | machine | cpuPackage | cpuCore | cpuThread | numaNode | hostMemoryDomain
  | accelerator | acceleratorMemoryDomain | pciRoot | pciBridge | pciDevice
  | networkInterface | storageDevice | sharedMemoryDomain | unknown | extension
  deriving DecidableEq, Repr

def NodeType.toString : NodeType → Bytes
  | .machine => str "machine"
  | .cpuPackage => str "cpu_package"
  | .cpuCore => str "cpu_core"
  | .cpuThread => str "cpu_thread"
  | .numaNode => str "numa_node"
  | .hostMemoryDomain => str "host_memory_domain"
  | .accelerator => str "accelerator"
  | .acceleratorMemoryDomain => str "accelerator_memory_domain"
  | .pciRoot => str "pci_root"
  | .pciBridge => str "pci_bridge"
  | .pciDevice => str "pci_device"
  | .networkInterface => str "network_interface"
  | .storageDevice => str "storage_device"
  | .sharedMemoryDomain => str "shared_memory_domain"
  | .unknown => str "unknown"
  | .extension => str "extension"

def NodeType.fromString : Bytes → NodeType :=
  fromTable
    [(str "machine", .machine), (str "cpu_package", .cpuPackage), (str "cpu_core", .cpuCore),
      (str "cpu_thread", .cpuThread), (str "numa_node", .numaNode),
      (str "host_memory_domain", .hostMemoryDomain), (str "accelerator", .accelerator),
      (str "accelerator_memory_domain", .acceleratorMemoryDomain), (str "pci_root", .pciRoot),
      (str "pci_bridge", .pciBridge), (str "pci_device", .pciDevice),
      (str "network_interface", .networkInterface), (str "storage_device", .storageDevice),
      (str "shared_memory_domain", .sharedMemoryDomain), (str "extension", .extension)]
    .unknown

inductive EdgeType where
  | contains | attachedTo | connectedTo | localTo | peerTo | sharesParent | sharesNuma
  | routesThrough | accessibleFrom | affineTo
  deriving DecidableEq, Repr

/-- The underlying number of an edge type. -/
def EdgeType.toNat : EdgeType → ℕ
  | .contains => 0
  | .attachedTo => 1
  | .connectedTo => 2
  | .localTo => 3
  | .peerTo => 4
  | .sharesParent => 5
  | .sharesNuma => 6
  | .routesThrough => 7
  | .accessibleFrom => 8
  | .affineTo => 9

def EdgeType.toString : EdgeType → Bytes
  | .contains => str "contains"
  | .attachedTo => str "attached_to"
  | .connectedTo => str "connected_to"
  | .localTo => str "local_to"
  | .peerTo => str "peer_to"
  | .sharesParent => str "shares_parent"
  | .sharesNuma => str "shares_numa"
  | .routesThrough => str "routes_through"
  | .accessibleFrom => str "accessible_from"
  | .affineTo => str "affine_to"

def EdgeType.fromString : Bytes → EdgeType :=
  fromTable
    [(str "contains", .contains), (str "attached_to", .attachedTo),
      (str "connected_to", .connectedTo), (str "local_to", .localTo), (str "peer_to", .peerTo),
      (str "shares_parent", .sharesParent), (str "shares_numa", .sharesNuma),
      (str "routes_through", .routesThrough), (str "accessible_from", .accessibleFrom),
      (str "affine_to", .affineTo)]
    .connectedTo

inductive EdgeDirection where
  | directed | undirected
  deriving DecidableEq, Repr

def EdgeDirection.toString : EdgeDirection → Bytes
  | .directed => str "directed"
  | .undirected => str "undirected"

def EdgeDirection.fromString : Bytes → EdgeDirection :=
  fromTable [(str "undirected", .undirected)] .directed

/-- How a fact was established. -/
inductive ProvenanceKind where
  | discovered | inferred | measured | userSupplied | unknown
  deriving DecidableEq, Repr

def ProvenanceKind.toString : ProvenanceKind → Bytes
  | .discovered => str "discovered"
  | .inferred => str "inferred"
  | .measured => str "measured"
  | .userSupplied => str "user_supplied"
  | .unknown => str "unknown"

def ProvenanceKind.fromString : Bytes → ProvenanceKind :=
  fromTable
    [(str "discovered", .discovered), (str "inferred", .inferred), (str "measured", .measured),
      (str "user_supplied", .userSupplied)]
    .unknown

/-- Explicit confidence, from best to worst. -/
inductive Confidence where
  | authoritative | high | medium | low | unknown
  deriving DecidableEq, Repr

def Confidence.toString : Confidence → Bytes
  | .authoritative => str "authoritative"
  | .high => str "high"
  | .medium => str "medium"
  | .low => str "low"
  | .unknown => str "unknown"

def Confidence.fromString : Bytes → Confidence :=
  fromTable
    [(str "authoritative", .authoritative), (str "high", .high), (str "medium", .medium),
      (str "low", .low)]
    .unknown

inductive LocalityClass where
  | exact | sameCore | samePackage | sameNuma | sameRootComplex | sameHost | remote | unknown
  deriving DecidableEq, Repr

def LocalityClass.toString : LocalityClass → Bytes
  | .exact => str "exact"
  | .sameCore => str "same_core"
  | .samePackage => str "same_package"
  | .sameNuma => str "same_numa"
  | .sameRootComplex => str "same_root_complex"
  | .sameHost => str "same_host"
  | .remote => str "remote"
  | .unknown => str "unknown"

inductive PathClass where
  | sameObject | sameProcessor | sameNuma | samePciDevice | samePciBridge | sameRootComplex
  | hostToAccelerator | acceleratorToAccelerator | hostToStorage | hostToNetwork | crossNuma
  | remote | external | unknown
  deriving DecidableEq, Repr

def PathClass.toString : PathClass → Bytes
  | .sameObject => str "same_object"
  | .sameProcessor => str "same_processor"
  | .sameNuma => str "same_numa"
  | .samePciDevice => str "same_pci_device"
  | .samePciBridge => str "same_pci_bridge"
  | .sameRootComplex => str "same_root_complex"
  | .hostToAccelerator => str "host_to_accelerator"
  | .acceleratorToAccelerator => str "accelerator_to_accelerator"
  | .hostToStorage => str "host_to_storage"
  | .hostToNetwork => str "host_to_network"
  | .crossNuma => str "cross_numa"
  | .remote => str "remote"
  | .external => str "external"
  | .unknown => str "unknown"

/-- The kinds of differences between snapshots, in the order in which a diff lists them. -/
inductive DiffEventKind where
  | nodeAdded | nodeRemoved | edgeAdded | edgeRemoved | propertyChanged | capabilityChanged
  | localityChanged | providerChanged
  deriving DecidableEq, Repr

def DiffEventKind.toNat : DiffEventKind → ℕ
  | .nodeAdded => 0
  | .nodeRemoved => 1
  | .edgeAdded => 2
  | .edgeRemoved => 3
  | .propertyChanged => 4
  | .capabilityChanged => 5
  | .localityChanged => 6
  | .providerChanged => 7

def DiffEventKind.toString : DiffEventKind → Bytes
  | .nodeAdded => str "node_added"
  | .nodeRemoved => str "node_removed"
  | .edgeAdded => str "edge_added"
  | .edgeRemoved => str "edge_removed"
  | .propertyChanged => str "property_changed"
  | .capabilityChanged => str "capability_changed"
  | .localityChanged => str "locality_changed"
  | .providerChanged => str "provider_changed"

/-! ## Names are read back -/

@[simp] theorem NodeType.fromString_toString (t : NodeType) : fromString t.toString = t := by
  cases t <;> decide

@[simp] theorem EdgeType.fromString_toString (t : EdgeType) : fromString t.toString = t := by
  cases t <;> decide

@[simp] theorem EdgeDirection.fromString_toString (d : EdgeDirection) :
    fromString d.toString = d := by
  cases d <;> decide

@[simp] theorem ProvenanceKind.fromString_toString (k : ProvenanceKind) :
    fromString k.toString = k := by
  cases k <;> decide

@[simp] theorem Confidence.fromString_toString (c : Confidence) : fromString c.toString = c := by
  cases c <;> decide

theorem EdgeType.toNat_injective : Function.Injective EdgeType.toNat := by
  intro a b h
  cases a <;> cases b <;> first | rfl | exact absurd h (by decide)

end TopologyFabric

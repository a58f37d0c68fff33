import TopologyFabric.Providers.Host

/-!
# The Storage Provider

`StorageProvider::discover` on Windows reports the volumes that have a drive letter. It reports no
edges: what disk a volume is on is not asked.
-/

namespace TopologyFabric

open Library

namespace Capability

def storageBacked : UInt64 := (1 : UInt64) <<< 12

end Capability

/-- What Windows says about the drives; a call that fails is `none`. The space of a drive is given as
total and free bytes, its volume as label and serial number. -/
structure StorageApi where
  logicalDrives : UInt32
  diskFreeSpace : UInt8 → Option (UInt64 × UInt64)
  volumeInformation : UInt8 → Option (Bytes × UInt32)
  fileSystem : UInt8 → Bytes

def storageProvenance : Provenance :=
  .discovered (str "windows.storage")
    (str "GetLogicalDrives/GetDiskFreeSpaceEx/GetVolumeInformation") .high (str "10.0")

/-- The letters from `A` to `Z`. -/
def driveLetters : List UInt8 := (List.range 26).map fun i => byte 'A' + UInt8.ofNat i

namespace StorageApi

variable (api : StorageApi)

/-- `volume_name_of`: without a label, the serial number stands in. -/
def volumeNameOf (ch : UInt8) : Bytes :=
  match api.volumeInformation ch with
  | none => []
  | some (label, serial) =>
    if label = [] ∧ serial ≠ 0 then str "vol-" ++ natToString serial.toNat else label

/-- The properties, in the order in which they are emplaced. -/
def volumeProperties (ch : UInt8) (total free : UInt64) : List (Bytes × PropertyValue) :=
  let label := api.volumeNameOf ch
  let fs := api.fileSystem ch
  [(str "storage.letter", .string [ch]), (str "storage.total_bytes", .uint total),
    (str "storage.free_bytes", .uint free)] ++
  (if label = [] then [] else [(str "storage.volume_label", .string label)]) ++
  if fs = [] then [] else [(str "storage.filesystem", .string fs)]

/-- The node of a volume. -/
def volumeNode (ch : UInt8) (total free : UInt64) : ContributedNode :=
  let label := api.volumeNameOf ch
  { ref := str "storage:vol:" ++ [ch]
    type := .storageDevice
    name := if label = [] then str "Drive " ++ [ch] ++ str ":"
      else label ++ str " (" ++ [ch] ++ str ":)"
    native := { storageId := str "vol:" ++ [ch], storageDevicePath := [ch] ++ str ":\\" }
    provenance := storageProvenance
    capabilities := Capability.storageBacked ||| Capability.dmaCapable
    properties := propertyMap (api.volumeProperties ch total free) }

/-- The body of the loop over the letters. -/
def report (ch : UInt8) : Option ContributedNode :=
  if api.logicalDrives &&& (1 <<< (ch - byte 'A').toUInt32) = 0 then none
  else (api.diskFreeSpace ch).map fun space => api.volumeNode ch space.1 space.2

/-- `StorageProvider::discover`. -/
def discover : Contribution where
  provider := str "storage"
  version := str "1.0.0"
  nodes := driveLetters.filterMap api.report
  partialRun := true
  success := true

/-- What is contributed are volumes. -/
theorem exists_volumeNode {n : ContributedNode} (h : n ∈ api.discover.nodes) :
    ∃ ch total free, n = api.volumeNode ch total free := by
  obtain ⟨ch, -, hreport⟩ := List.mem_filterMap.mp h
  unfold report at hreport
  split_ifs at hreport
  obtain ⟨⟨total, free⟩, -, rfl⟩ := Option.map_eq_some_iff.mp hreport
  exact ⟨ch, total, free, rfl⟩

end StorageApi

end TopologyFabric

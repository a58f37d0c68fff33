import TopologyFabric.Library.Records
import TopologyFabric.Library.Search
import TopologyFabric.Providers.Host

/-!
# The PCI Provider

`PciProvider::discover` on Windows. Every present device whose id starts with `PCI\` becomes a node;
its type depends on whether its parent and any of its children are PCI devices as well, and it is
contained by its PCI parent or else by the machine. The address is read from the location text.

## Main results

- `parseLocation_text`: the address in a location text of Windows is read
- `pciScan_spec`: what the maps of the provider hold
- `discover_contributed`, `nodeType_scan`, `edge_scan`: what it contributes
-/

namespace TopologyFabric

open Library

namespace Capability

def pciConnected : UInt64 := (1 : UInt64) <<< 10

end Capability

/-! ## Reading numbers -/

/-- `parse_hex16`. -/
def parseHex16 (s : Bytes) : Option UInt16 :=
  if s = [] then none
  else do
    let v ← s.foldlM (fun (v : UInt32) c => (hexValue? c).map fun d => v * 16 + UInt32.ofNat d) 0
    if 0xFFFF < v then none else some v.toUInt16

/-- The four hex digits after a key in a device id. -/
def hexAfter (key id : Bytes) : Option UInt16 := do
  let pos ← findText key id
  if pos + key.length + 4 ≤ id.length then parseHex16 ((id.drop (pos + key.length)).take 4) else none

/-- What may stand between a key and its number. -/
def isLocationBlank (c : UInt8) : Bool := c = byte ' ' || c = 9 || c = byte ':'

/-- Where the lambda `get_int` finds its key. -/
def locationPos (s key : Bytes) : Option ℕ :=
  if key = str "bus" then rfindText key s else findText key s

/-- The lambda `get_int`. A number that `strtol` cannot represent is above the bound as well. -/
def locationNumber (s key : Bytes) : Option UInt16 := do
  let pos ← locationPos s key
  let digits := ((s.drop (pos + key.length)).dropWhile isLocationBlank).takeWhile isDigit
  if digits = [] then none
  else if 0xFFFF < decimalValue digits then none
  else some (UInt16.ofNat (decimalValue digits))

/-- Bus, device and function. -/
abbrev PciAddress := UInt16 × UInt16 × UInt16

/-- `parse_location`. -/
def parseLocation (s : Bytes) : Option PciAddress := do
  let bus ← locationNumber s (str "bus")
  let device ← locationNumber s (str "device")
  let function ← locationNumber s (str "function")
  return (bus, device, function)

section Location

variable {s key pre rest : Bytes}

theorem isDigit_of_mem_digits {n : ℕ} : ∀ c ∈ natToString n, isDigit c = true :=
  fun _ hc => isDigit_of_mem_natToString hc

/-- A number is read up to the first letter that is no digit. -/
theorem takeWhile_natToString (n : ℕ) (hrest : ∀ c ∈ rest.head?, isDigit c = false) :
    (natToString n ++ rest).takeWhile isDigit = natToString n := by
  rw [List.takeWhile_append_of_pos isDigit_of_mem_digits]
  cases rest with
  | nil => rw [List.takeWhile_nil, List.append_nil]
  | cons c rest =>
    have hc := hrest c rfl
    rw [List.takeWhile_cons_of_neg (by rw [hc]; exact Bool.false_ne_true), List.append_nil]

theorem dropWhile_blank (n : ℕ) :
    (byte ' ' :: (natToString n ++ rest)).dropWhile isLocationBlank = natToString n ++ rest := by
  rw [List.dropWhile_cons_of_pos (by decide)]
  cases hdigits : natToString n with
  | nil => exact absurd hdigits (natToString_ne_nil n)
  | cons c ds =>
    have hdigit : isDigit c = true := isDigit_of_mem_digits c (hdigits ▸ List.mem_cons_self ..)
    have hblank : isLocationBlank c = false := by
      have hno : ∀ b, isDigit b = false → c ≠ b := by
        rintro b hb rfl
        rw [hdigit] at hb
        cases hb
      rw [isLocationBlank, decide_eq_false (hno _ (by decide)), decide_eq_false (hno _ (by decide)),
        decide_eq_false (hno _ (by decide))]
      rfl
    rw [List.cons_append, List.dropWhile_cons_of_neg (by rw [hblank]; exact Bool.false_ne_true)]

/-- The number after the occurrence of the key that is found. -/
theorem locationNumber_eq {n : UInt16} (pre rest : Bytes)
    (hs : s = pre ++ (key ++ byte ' ' :: (natToString n.toNat ++ rest)))
    (hpos : locationPos s key = some pre.length)
    (hrest : ∀ c ∈ rest.head?, isDigit c = false) : locationNumber s key = some n := by
  have hdrop : s.drop (pre.length + key.length) = byte ' ' :: (natToString n.toNat ++ rest) := by
    rw [hs, ← List.append_assoc, ← List.length_append, List.drop_left]
  rw [locationNumber, hpos, Option.bind_eq_bind, Option.bind_some, hdrop, dropWhile_blank,
    takeWhile_natToString _ hrest, if_neg (natToString_ne_nil _),
    decimalValue_natToString, if_neg]
  · rw [UInt16.ofNat_toNat]
  · have hlt := n.toNat_lt
    omega

/-- What Windows writes about the location of a PCI device. -/
def locationText (pre : Bytes) (a : PciAddress) (post : Bytes) : Bytes :=
  pre ++ str "bus " ++ natToString a.1.toNat ++ str ", device " ++ natToString a.2.1.toNat ++
    str ", function " ++ natToString a.2.2.toNat ++ post

/-- A letter that is no digit stands in no number. -/
theorem notMem_natToString {c : UInt8} (hc : isDigit c = false) (n : ℕ) : c ∉ natToString n := by
  intro hmem
  rw [isDigit_of_mem_digits c hmem] at hc
  cases hc

/-- **The address in a location text** is read, whatever stands before and after it, as long as no
letter there can start one of the keys and the last number ends. -/
theorem parseLocation_text {a : PciAddress} {post : Bytes} (hd : byte 'd' ∉ pre)
    (hf : byte 'f' ∉ pre) (hb : byte 'b' ∉ post) (hpost : ∀ c ∈ post.head?, isDigit c = false) :
    parseLocation (locationText pre a post) = some a := by
  obtain ⟨bus, device, function⟩ := a
  have hdigits : ∀ {c : UInt8} {n : ℕ}, isDigit c = false → c ∉ natToString n :=
    fun hc => notMem_natToString hc _
  have hcomma : ∀ (x : Bytes), ∀ c ∈ (byte ',' :: x).head?, isDigit c = false := by
    intro x c hc
    obtain rfl := Option.some.inj hc
    decide
  -- what stands before and after each of the three keys
  let afterFunction := natToString function.toNat ++ post
  let afterDevice := natToString device.toNat ++ (str ", function " ++ afterFunction)
  let afterBus := natToString bus.toNat ++ (str ", device " ++ afterDevice)
  let beforeDevice := pre ++ (str "bus " ++ (natToString bus.toNat ++ str ", "))
  let beforeFunction := beforeDevice ++ (str "device " ++ (natToString device.toNat ++ str ", "))
  have htextBus : locationText pre (bus, device, function) post =
      pre ++ (str "bus" ++ byte ' ' :: afterBus) := by
    simp only [locationText, afterBus, afterDevice, afterFunction, List.append_assoc]
    rfl
  have htextDevice : locationText pre (bus, device, function) post =
      beforeDevice ++ (str "device" ++ byte ' ' :: afterDevice) := by
    simp only [locationText, beforeDevice, afterDevice, afterFunction, List.append_assoc]
    rfl
  have htextFunction : locationText pre (bus, device, function) post =
      beforeFunction ++ (str "function" ++ byte ' ' :: afterFunction) := by
    simp only [locationText, beforeFunction, beforeDevice, afterFunction, List.append_assoc]
    rfl
  have hbus : locationNumber (locationText pre (bus, device, function) post) (str "bus") =
      some bus := by
    refine locationNumber_eq pre (str ", device " ++ afterDevice) htextBus ?_ (hcomma _)
    have hnot : byte 'b' ∉ byte ' ' :: afterBus := by
      simp only [afterBus, afterDevice, afterFunction, List.mem_cons, List.mem_append, not_or]
      exact ⟨by decide, hdigits (by decide), by decide, hdigits (by decide), by decide,
        hdigits (by decide), hb⟩
    rw [locationPos, if_pos rfl, htextBus]
    exact rfindText_append pre (by decide) hnot
  have hdevice : locationNumber (locationText pre (bus, device, function) post) (str "device") =
      some device := by
    refine locationNumber_eq beforeDevice (str ", function " ++ afterFunction) htextDevice ?_
      (hcomma _)
    have hnot : byte 'd' ∉ beforeDevice := by
      simp only [beforeDevice, List.mem_append, not_or]
      exact ⟨hd, by decide, hdigits (by decide), by decide⟩
    rw [locationPos, if_neg (by decide), htextDevice]
    exact findText_append hnot
  have hfunction : locationNumber (locationText pre (bus, device, function) post)
      (str "function") = some function := by
    refine locationNumber_eq beforeFunction post htextFunction ?_ hpost
    have hnot : byte 'f' ∉ beforeFunction := by
      simp only [beforeFunction, beforeDevice, List.mem_append, not_or]
      exact ⟨⟨hf, by decide, hdigits (by decide), by decide⟩, by decide, hdigits (by decide),
        by decide⟩
    rw [locationPos, if_neg (by decide), htextFunction]
    exact findText_append hnot
  rw [parseLocation, hbus, hdevice, hfunction]
  rfl

end Location

/-- A slot has a name of its own before the address. -/
theorem parseLocation_text_slot :
    parseLocation (locationText (str "PCI Slot 4 (PCI ") (4, 0, 0) (str ")")) = some (4, 0, 0) :=
  parseLocation_text (by decide) (by decide) (by decide) (by decide +kernel)

/-! ## The devices -/

/-- A device that can be located: the id of its parent and its location, if they can be had. -/
structure DevNode where
  parent : Option Bytes
  location : Option Bytes

/-- What Windows says: the host name, the ids of the present devices or the last error, with the
call that failed, and the devices by id. -/
structure PciApi where
  dnsHostname : Option Bytes
  deviceIds : Except (Bytes × UInt32 × Option Bytes) (List Bytes)
  devNode : Bytes → Option DevNode

/-- The address of a device. -/
def DevNode.address (dev : DevNode) : Option PciAddress := dev.location.bind parseLocation

/-- The maps of the provider. -/
structure PciScan where
  devinsts : HashMap Bytes DevNode := HashMap.empty
  parentOf : HashMap Bytes Bytes := HashMap.empty
  pciIds : List Bytes := []
  vendor : HashMap Bytes UInt16 := HashMap.empty
  device : HashMap Bytes UInt16 := HashMap.empty
  sub : HashMap Bytes UInt16 := HashMap.empty
  pbus : HashMap Bytes UInt16 := HashMap.empty
  pdev : HashMap Bytes UInt16 := HashMap.empty
  pfunc : HashMap Bytes UInt16 := HashMap.empty

/-- Enter a PCI device that has been located. -/
def PciScan.enter (s : PciScan) (id : Bytes) (dev : DevNode) : PciScan where
  devinsts := s.devinsts.assignSome id (some dev)
  parentOf := s.parentOf.assignSome id dev.parent
  pciIds := s.pciIds ++ [id]
  vendor := s.vendor.assignSome id (hexAfter (str "VEN_") id)
  device := s.device.assignSome id (hexAfter (str "DEV_") id)
  sub := s.sub.assignSome id (hexAfter (str "SUBSYS_") id)
  pbus := s.pbus.assignSome id (dev.address.map fun a => a.1)
  pdev := s.pdev.assignSome id (dev.address.map fun a => a.2.1)
  pfunc := s.pfunc.assignSome id (dev.address.map fun a => a.2.2)

/-- The device is a PCI device. -/
def isPciId (id : Bytes) : Bool := (str "PCI\\").isPrefixOf id

/-- One round of the loop over the ids. -/
def scanPci (devNode : Bytes → Option DevNode) (s : PciScan) (id : Bytes) : PciScan :=
  if id = [] then s
  else if isPciId id = false then s
  else
    match devNode id with
    | none => s
    | some dev => s.enter id dev

namespace PciScan

variable (s : PciScan)

def hasPciParent (id : Bytes) : Bool :=
  match s.parentOf.find? id with
  | some pid => s.devinsts.contains pid
  | none => false

/-- `isParent`: some device has it as its parent, and it is a PCI device. -/
def isParentNode (id : Bytes) : Bool :=
  s.parentOf.entries.any fun e => decide (e.2 = id) && s.devinsts.contains e.2

def nodeType (id : Bytes) : NodeType :=
  if s.isParentNode id && !s.hasPciParent id then .pciRoot
  else if s.isParentNode id then .pciBridge
  else .pciDevice

end PciScan

def pciProvenance : Provenance :=
  .discovered (str "windows.pci") (str "CM_Get_Device_ID_List/CM_Get_Parent") .high (str "10.0")

def pciRef (id : Bytes) : Bytes := str "pci:" ++ id

/-- The node of a device. -/
def PciScan.node (s : PciScan) (id : Bytes) : ContributedNode where
  ref := pciRef id
  type := s.nodeType id
  name := str "PCI " ++ id
  native := { vendorId := s.vendor.find? id
              deviceId := s.device.find? id
              subsystemId := s.sub.find? id
              pciDomain := some 0
              pciBus := s.pbus.find? id
              pciDevice := s.pdev.find? id
              pciFunction := s.pfunc.find? id }
  provenance := pciProvenance
  capabilities := Capability.pciConnected ||| Capability.dmaCapable

/-- The lambda `add_contains`. -/
def pciContains (fromRef toRef : Bytes) : ContributedEdge where
  fromRef := fromRef
  toRef := toRef
  type := .contains
  direction := .directed
  provenance := pciProvenance
  confidence := .high

/-- The edge that leads to a device. -/
def PciScan.edge (s : PciScan) (machineRef id : Bytes) : ContributedEdge :=
  match s.parentOf.find? id with
  | some pid =>
    if s.devinsts.contains pid then pciContains (pciRef pid) (pciRef id)
    else pciContains machineRef (pciRef id)
  | none => pciContains machineRef (pciRef id)

namespace PciApi

variable (api : PciApi)

def machineRef : Bytes := str "machine:" ++ api.dnsHostname.getD []

/-- `PciProvider::discover`. -/
def discover : Contribution :=
  match api.deviceIds with
  | .error (call, code, message) =>
    { provider := str "pci"
      version := str "1.0.0"
      warnings := [lastError call code message]
      partialRun := true }
  | .ok ids =>
    let s := ids.foldl (scanPci api.devNode) {}
    { provider := str "pci"
      version := str "1.0.0"
      nodes := s.pciIds.map s.node
      edges := s.pciIds.map (s.edge api.machineRef)
      partialRun := true
      success := true }

end PciApi

/-! ## What the maps hold -/

section Scan

variable {devNode : Bytes → Option DevNode}

/-- The device is a PCI device that can be located. -/
def ListedPci (devNode : Bytes → Option DevNode) (id : Bytes) : Prop :=
  id ≠ [] ∧ isPciId id = true ∧ (devNode id).isSome = true

instance (devNode : Bytes → Option DevNode) (id : Bytes) : Decidable (ListedPci devNode id) :=
  inferInstanceAs (Decidable (_ ∧ _ ∧ _))

def addressOf (devNode : Bytes → Option DevNode) (id : Bytes) : Option PciAddress :=
  (devNode id).bind DevNode.address

/-- The maps hold what is known of the ids. -/
structure PciScan.Holds (devNode : Bytes → Option DevNode) (s : PciScan) : Prop where
  listed : ∀ id ∈ s.pciIds, ListedPci devNode id
  devinsts : Recorded s.devinsts s.pciIds devNode
  parentOf : Recorded s.parentOf s.pciIds fun id => (devNode id).bind DevNode.parent
  vendor : Recorded s.vendor s.pciIds (hexAfter (str "VEN_"))
  device : Recorded s.device s.pciIds (hexAfter (str "DEV_"))
  sub : Recorded s.sub s.pciIds (hexAfter (str "SUBSYS_"))
  pbus : Recorded s.pbus s.pciIds fun id => (addressOf devNode id).map fun a => a.1
  pdev : Recorded s.pdev s.pciIds fun id => (addressOf devNode id).map fun a => a.2.1
  pfunc : Recorded s.pfunc s.pciIds fun id => (addressOf devNode id).map fun a => a.2.2

theorem scanPci_of_listed {s : PciScan} {id : Bytes} {dev : DevNode} (h : ListedPci devNode id)
    (hdev : devNode id = some dev) : scanPci devNode s id = s.enter id dev := by
  have hpci : ¬ isPciId id = false := by rw [h.2.1]; exact Bool.false_ne_true.symm
  rw [scanPci, if_neg h.1, if_neg hpci, hdev]

theorem scanPci_of_not_listed {s : PciScan} {id : Bytes} (h : ¬ ListedPci devNode id) :
    scanPci devNode s id = s := by
  rw [scanPci]
  split_ifs with hempty hpci
  · rfl
  · rfl
  · cases hdev : devNode id with
    | none => rfl
    | some dev =>
      have hlisted : ListedPci devNode id :=
        ⟨hempty, eq_true_of_ne_false hpci, by rw [hdev]; rfl⟩
      exact absurd hlisted h

/-- One round keeps the maps. -/
theorem PciScan.Holds.enter {s : PciScan} (h : s.Holds devNode) {id : Bytes} {dev : DevNode}
    (hlisted : ListedPci devNode id) (hdev : devNode id = some dev) :
    (s.enter id dev).Holds devNode := by
  have haddress : addressOf devNode id = dev.address := by
    rw [addressOf, hdev, Option.bind_some]
  have hparent := h.parentOf.assign id
  have hbus := h.pbus.assign id
  have hpdev := h.pdev.assign id
  have hfunc := h.pfunc.assign id
  have hinst := h.devinsts.assign id
  simp only [hdev, Option.bind_some] at hparent hinst
  simp only [haddress] at hbus hpdev hfunc
  refine ⟨fun k hk => ?_, hinst, hparent, h.vendor.assign id, h.device.assign id, h.sub.assign id,
    hbus, hpdev, hfunc⟩
  rcases List.mem_append.mp hk with hk | hk
  · exact h.listed k hk
  · rw [List.mem_singleton.mp hk]
    exact hlisted

/-- **What the maps hold** after the loop, and which ids are kept. -/
theorem pciScan_spec (ids : List Bytes) {s : PciScan} (h : s.Holds devNode) :
    (ids.foldl (scanPci devNode) s).Holds devNode ∧ (ids.foldl (scanPci devNode) s).pciIds =
      s.pciIds ++ ids.filter fun id => decide (ListedPci devNode id) := by
  induction ids generalizing s with
  | nil => exact ⟨h, (List.append_nil _).symm⟩
  | cons id rest ih =>
    rw [List.foldl_cons]
    by_cases hlisted : ListedPci devNode id
    · obtain ⟨dev, hdev⟩ := Option.isSome_iff_exists.mp hlisted.2.2
      obtain ⟨hholds, hids⟩ := ih (h.enter hlisted hdev)
      rw [scanPci_of_listed hlisted hdev, List.filter_cons, if_pos (decide_eq_true hlisted)]
      refine ⟨hholds, hids.trans ?_⟩
      show s.pciIds ++ [id] ++ _ = _
      rw [List.append_assoc, List.singleton_append]
    · rw [scanPci_of_not_listed hlisted, List.filter_cons_of_neg (by simpa using hlisted)]
      exact ih h

theorem holds_empty : ({} : PciScan).Holds devNode := by
  refine ⟨fun _ hmem => absurd hmem List.not_mem_nil, ?_, ?_, ?_, ?_, ?_, ?_, ?_, ?_⟩ <;>
    exact recorded_empty _

end Scan

/-! ## The contribution -/

namespace PciApi

variable (api : PciApi)

/-- The PCI devices, in the order in which they are listed. -/
def listed : List Bytes :=
  match api.deviceIds with
  | .error _ => []
  | .ok ids => ids.filter fun id => decide (ListedPci api.devNode id)

/-- The parent of a device, if it is a listed PCI device itself. -/
def pciParent (id : Bytes) : Option Bytes :=
  ((api.devNode id).bind DevNode.parent).filter fun pid => api.listed.contains pid

def address (id : Bytes) : Option PciAddress := addressOf api.devNode id

/-- Some listed device is below it. -/
def IsBridge (id : Bytes) : Prop := ∃ child ∈ api.listed, api.pciParent child = some id

/-- The maps after the loop. -/
def scan : PciScan :=
  match api.deviceIds with
  | .error _ => {}
  | .ok ids => ids.foldl (scanPci api.devNode) {}

def node (id : Bytes) : ContributedNode := api.scan.node id

theorem scan_spec : api.scan.Holds api.devNode ∧ api.scan.pciIds = api.listed := by
  unfold scan listed
  cases api.deviceIds with
  | error _ => exact ⟨holds_empty, rfl⟩
  | ok ids =>
    obtain ⟨hholds, hids⟩ := pciScan_spec ids (@holds_empty api.devNode)
    exact ⟨hholds, hids.trans (List.nil_append _)⟩

variable {api}
variable {id : Bytes}

theorem contains_devinsts (pid : Bytes) :
    api.scan.devinsts.contains pid = api.listed.contains pid := by
  obtain ⟨hholds, hids⟩ := api.scan_spec
  rw [Bool.eq_iff_iff, List.contains_iff_mem, ← hids]
  exact hholds.devinsts.contains_iff fun k hk => (hholds.listed k hk).2.2

theorem find?_parentOf (hid : id ∈ api.listed) :
    api.scan.parentOf.find? id = (api.devNode id).bind DevNode.parent := by
  obtain ⟨hholds, hids⟩ := api.scan_spec
  exact hholds.parentOf.find? (hids ▸ hid)

theorem hasPciParent_scan (hid : id ∈ api.listed) :
    api.scan.hasPciParent id = (api.pciParent id).isSome := by
  rw [PciScan.hasPciParent, find?_parentOf hid, pciParent]
  cases (api.devNode id).bind DevNode.parent with
  | none => rfl
  | some pid =>
    show api.scan.devinsts.contains pid = _
    rw [contains_devinsts, Option.filter]
    cases api.listed.contains pid <;> rfl

theorem pciParent_eq_some {pid : Bytes} : api.pciParent id = some pid ↔
    (api.devNode id).bind DevNode.parent = some pid ∧ pid ∈ api.listed := by
  rw [pciParent, Option.filter_eq_some_iff, List.contains_iff_mem]

theorem isParentNode_scan : api.scan.isParentNode id = true ↔ api.IsBridge id := by
  obtain ⟨hholds, hids⟩ := api.scan_spec
  rw [PciScan.isParentNode, List.any_eq_true]
  constructor
  · rintro ⟨⟨child, pid⟩, hentry, h⟩
    rw [Bool.and_eq_true, decide_eq_true_eq, contains_devinsts, List.contains_iff_mem] at h
    obtain ⟨rfl, hpid⟩ := h
    have hfind := HashMap.find?_eq_some.mpr hentry
    obtain ⟨hchild, hparent⟩ := hholds.parentOf.mem hfind
    exact ⟨child, hids ▸ hchild, pciParent_eq_some.mpr ⟨hparent, hpid⟩⟩
  · rintro ⟨child, hchild, hparent⟩
    obtain ⟨hfind, hid⟩ := pciParent_eq_some.mp hparent
    refine ⟨(child, id), HashMap.find?_eq_some.mp ((find?_parentOf hchild).trans hfind), ?_⟩
    rw [Bool.and_eq_true, decide_eq_true_eq, contains_devinsts, List.contains_iff_mem]
    exact ⟨rfl, hid⟩

theorem node_type_cases (api : PciApi) (id : Bytes) : (api.node id).type = .pciRoot ∨
    (api.node id).type = .pciBridge ∨ (api.node id).type = .pciDevice := by
  show api.scan.nodeType id = _ ∨ api.scan.nodeType id = _ ∨ api.scan.nodeType id = _
  unfold PciScan.nodeType
  split_ifs
  · exact Or.inl rfl
  · exact Or.inr (Or.inl rfl)
  · exact Or.inr (Or.inr rfl)

/-- A device with PCI children is a root or a bridge, any other one a function. -/
theorem nodeType_scan (hid : id ∈ api.listed) :
    (api.IsBridge id → (api.node id).type =
      if (api.pciParent id).isSome then .pciBridge else .pciRoot) ∧
      (¬ api.IsBridge id → (api.node id).type = .pciDevice) := by
  have htype : (api.node id).type = api.scan.nodeType id := rfl
  rw [htype, PciScan.nodeType, hasPciParent_scan hid, ← isParentNode_scan]
  cases api.scan.isParentNode id <;> cases (api.pciParent id).isSome <;> simp

/-- The edge comes from the PCI parent, else from the machine. -/
theorem edge_scan (hid : id ∈ api.listed) (machineRef : Bytes) :
    api.scan.edge machineRef id =
      pciContains ((api.pciParent id).elim machineRef pciRef) (pciRef id) := by
  rw [PciScan.edge, find?_parentOf hid, pciParent]
  cases (api.devNode id).bind DevNode.parent with
  | none => rfl
  | some pid =>
    show (if api.scan.devinsts.contains pid = true then _ else _) = _
    rw [contains_devinsts, Option.filter]
    cases api.listed.contains pid <;> rfl

/-- The address of the node is the one that is read from the location. -/
theorem native_scan (hid : id ∈ api.listed) :
    (api.node id).native.pciBus = (api.address id).map (fun a => a.1) ∧
      (api.node id).native.pciDevice = (api.address id).map (fun a => a.2.1) ∧
      (api.node id).native.pciFunction = (api.address id).map (fun a => a.2.2) := by
  obtain ⟨hholds, hids⟩ := api.scan_spec
  rw [← hids] at hid
  exact ⟨hholds.pbus.find? hid, hholds.pdev.find? hid, hholds.pfunc.find? hid⟩

/-- **What is contributed**: the listed devices, each with one edge. -/
theorem discover_contributed (api : PciApi) : api.discover.nodes = api.listed.map api.node ∧
    api.discover.edges = api.listed.map (api.scan.edge api.machineRef) := by
  obtain ⟨-, hids⟩ := api.scan_spec
  unfold scan listed at hids
  unfold discover listed node scan
  cases hlist : api.deviceIds with
  | error _ => exact ⟨rfl, rfl⟩
  | ok ids =>
    rw [hlist] at hids
    exact ⟨congrArg (List.map _) hids, congrArg (List.map _) hids⟩

end PciApi

end TopologyFabric

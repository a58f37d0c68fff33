import TopologyFabric.Library.Search
import TopologyFabric.Runtime.Discover

/-!
# The CUDA Provider

`CudaProvider::discover` on Windows, for a driver whose functions give the same result for the same
arguments and may fail for some ordinals. Every device that opens becomes a node, and accessible
pairs of devices are joined by edges. The matrix of accessible pairs is indexed by ordinals, while
the refs of the nodes are indexed by the devices that have opened.

## Main results

- `scanDevices_spec`: what the device loop contributes
- `peerEdges_correct_iff`: for which drivers the peer edges join the right nodes
-/

namespace TopologyFabric

open Library

/-! ## The driver -/

abbrev CUdevice := ℤ

/-- The driver API as the provider sees it. A call that fails gives `none`; where the provider does
not look at the result code, the function gives what is in the output variable after the call. A
function that cannot be resolved is `none` where the provider checks for that. -/
structure CudaDriver where
  ok : Bool
  deviceGetCount : Option ℤ
  deviceGet : ℕ → Option CUdevice
  deviceGetName : CUdevice → Bytes
  deviceGetAttribute : Option (ℤ → CUdevice → ℤ)
  deviceTotalMem : Option (CUdevice → UInt64)
  deviceComputeCapability : CUdevice → ℤ × ℤ
  deviceCanAccessPeer : Option (CUdevice → CUdevice → Option ℤ)
  deviceGetUuid : Option (CUdevice → Option (List.Vector UInt8 16))

def kPciBusId : ℤ := 33
def kPciDeviceId : ℤ := 34
def kPciDomainId : ℤ := 50
def kUnifiedAddressing : ℤ := 41
def kManagedMemory : ℤ := 83
def kAsyncEngineCount : ℤ := 40
def kConcurrentKernels : ℤ := 31
def kCanMapHostMemory : ℤ := 19
def kPageableMemoryAccess : ℤ := 88

namespace Capability

def cpuAddressable : UInt64 := (1 : UInt64) <<< 0
def deviceAddressable : UInt64 := (1 : UInt64) <<< 1
def dmaCapable : UInt64 := (1 : UInt64) <<< 2
def peerAccess : UInt64 := (1 : UInt64) <<< 3
def directTransfer : UInt64 := (1 : UInt64) <<< 4
def stagedTransfer : UInt64 := (1 : UInt64) <<< 5
def sharedMemory : UInt64 := (1 : UInt64) <<< 6
def coherent : UInt64 := (1 : UInt64) <<< 8

end Capability

/-- `Provenance::discovered`. -/
def Provenance.discovered (provider api : Bytes) (c : Confidence) (providerVersion : Bytes) :
    Provenance :=
  { kind := .discovered, provider := provider, api := api, confidence := c,
    providerVersion := providerVersion }

namespace CudaDriver

variable (d : CudaDriver)

/-- `get_attr`, on an output variable that starts as zero. -/
def getAttr (dev : CUdevice) (attrib : ℤ) : ℤ :=
  match d.deviceGetAttribute with
  | some get => get attrib dev
  | none => 0

/-- A cell of the peer capability matrix, which starts as false. -/
def peer (i j : ℕ) : Bool :=
  match d.deviceCanAccessPeer, d.deviceGet i, d.deviceGet j with
  | some canAccess, some a, some b => ((canAccess a b).map fun acc => decide (acc ≠ 0)).getD false
  | _, _, _ => false

/-! ## Nodes -/

/-- The UUID in lowercase hex digits. -/
def uuidStr (dev : CUdevice) : Option Bytes :=
  match d.deviceGetUuid with
  | some get => (get dev).map fun uuid => uuid.toList.flatMap fun b => hexPadded 2 b.toNat
  | none => none

def deviceRef (ord : ℕ) (dev : CUdevice) : Bytes :=
  match d.uuidStr dev with
  | some uuid => str "cuda:uuid:" ++ uuid
  | none => str "cuda:ord:" ++ natToString ord

def memBytes (dev : CUdevice) : UInt64 :=
  match d.deviceTotalMem with
  | some get => get dev
  | none => 0

/-- Only a plausible total is claimed. -/
def memSane (memBytes : UInt64) : Bool :=
  decide ((1 : UInt64) <<< 30 < memBytes) && decide (memBytes < (1 : UInt64) <<< 40) &&
    decide (memBytes ≠ 0xFFFFFFFF)

def capabilities (count ord : ℕ) (dev : CUdevice) : UInt64 :=
  let caps := Capability.deviceAddressable ||| Capability.dmaCapable
  let caps := if d.getAttr dev kUnifiedAddressing ≠ 0 then caps ||| Capability.cpuAddressable
    else caps
  let caps := if d.getAttr dev kCanMapHostMemory ≠ 0 then
      caps ||| Capability.stagedTransfer ||| Capability.directTransfer
    else caps
  let caps := if d.getAttr dev kManagedMemory ≠ 0 then
      caps ||| Capability.sharedMemory ||| Capability.coherent
    else caps
  if (List.range count).any fun j => d.peer ord j then caps ||| Capability.peerAccess else caps

/-- The total memory, or what was reported in its place. -/
def memoryProperties (mem : UInt64) : List (Bytes × PropertyValue) :=
  if memSane mem then [(str "cuda.total_memory", .uint mem)]
  else
    [(str "cuda.total_memory_reported", .uint mem), (str "cuda.total_memory_unreliable", .bool true)]

def attributeProperties (dev : CUdevice) : List (Bytes × PropertyValue) :=
  let flag (attrib : ℤ) : PropertyValue := .bool (d.getAttr dev attrib ≠ 0)
  [(str "cuda.unified_addressing", flag kUnifiedAddressing),
    (str "cuda.managed_memory", flag kManagedMemory),
    (str "cuda.async_engine_count", .int (Int64.ofInt (d.getAttr dev kAsyncEngineCount))),
    (str "cuda.concurrent_kernels", flag kConcurrentKernels),
    (str "cuda.can_map_host_memory", flag kCanMapHostMemory),
    (str "cuda.pageable_memory_access", flag kPageableMemoryAccess)]

def deviceProperties (ord : ℕ) (dev : CUdevice) : List (Bytes × PropertyValue) :=
  let capability := d.deviceComputeCapability dev
  let identity : List (Bytes × PropertyValue) :=
    [(str "cuda.ordinal", .int (Int64.ofNat ord)),
      (str "cuda.compute_capability_major", .int (Int64.ofInt capability.1)),
      (str "cuda.compute_capability_minor", .int (Int64.ofInt capability.2))]
  let uuid := (d.uuidStr dev).toList.map fun uuid => (str "cuda.uuid", PropertyValue.string uuid)
  identity ++ memoryProperties (d.memBytes dev) ++ d.attributeProperties dev ++ uuid

def driverProvenance : Provenance :=
  .discovered (str "cuda") (str "cuDeviceGetCount/cuDeviceGetAttribute") .authoritative
    (str "driver")

/-- The accelerator of an ordinal. -/
def deviceNode (count ord : ℕ) (dev : CUdevice) : ContributedNode :=
  let devName := d.deviceGetName dev
  { ref := d.deviceRef ord dev
    type := .accelerator
    name := if devName = [] then str "CUDA device " ++ natToString ord else devName
    native := {
      name := devName
      cudaOrdinal := some (UInt32.ofNat ord)
      cudaUuid := (d.uuidStr dev).getD []
      pciDomain := some (UInt16.ofInt (d.getAttr dev kPciDomainId))
      pciBus := some (UInt16.ofInt (d.getAttr dev kPciBusId))
      pciDevice := some (UInt16.ofInt (d.getAttr dev kPciDeviceId))
      pciFunction := some 0 }
    provenance := driverProvenance
    capabilities := d.capabilities count ord dev
    properties := propertyMap (d.deviceProperties ord dev) }

/-- The memory domain of an accelerator. -/
def memoryNode (ord : ℕ) (dev : CUdevice) : ContributedNode where
  ref := d.deviceRef ord dev ++ str ":mem"
  type := .acceleratorMemoryDomain
  name := d.deviceGetName dev ++ str " VRAM"
  native := { cudaOrdinal := some (UInt32.ofNat ord) }
  provenance := .inferred (str "cuda") (str "cuDeviceGetAttribute") .medium
    (str "accelerator memory domain")
  capabilities := Capability.deviceAddressable
  properties := propertyMap [(str "cuda.total_memory", .uint (d.memBytes dev))]

def memoryEdge (ord : ℕ) (dev : CUdevice) : ContributedEdge where
  fromRef := d.deviceRef ord dev
  toRef := d.deviceRef ord dev ++ str ":mem"
  type := .contains
  direction := .directed
  provenance := driverProvenance
  confidence := .authoritative

/-- What the device loop has contributed. -/
structure DeviceScan where
  nodes : List ContributedNode := []
  edges : List ContributedEdge := []
  devRefs : List Bytes := []

/-- One round of the device loop. An ordinal that does not open is skipped. -/
def scanDevice (count : ℕ) (s : DeviceScan) (ord : ℕ) : DeviceScan :=
  match d.deviceGet ord with
  | none => s
  | some dev =>
    { nodes := s.nodes ++ [d.deviceNode count ord dev, d.memoryNode ord dev]
      edges := s.edges ++ [d.memoryEdge ord dev]
      devRefs := s.devRefs ++ [d.deviceRef ord dev] }

/-! ## Peer edges -/

/-- The pairs of ordinals in the order of the loops. -/
def ordinalPairs (count : ℕ) : List (ℕ × ℕ) :=
  (List.range count).flatMap fun i => (List.range' (i + 1) (count - (i + 1))).map fun j => (i, j)

def peerEdge (fromRef toRef : Bytes) : ContributedEdge where
  fromRef := fromRef
  toRef := toRef
  type := .peerTo
  direction := .undirected
  provenance := .discovered (str "cuda") (str "cuDeviceCanAccessPeer") .authoritative (str "driver")
  confidence := .authoritative
  peerCapability := some 1

/-- The edge of a pair. An index past the end of `devRefs` is undefined behaviour, here `none`. -/
def peerEdgeAt (devRefs : List Bytes) (p : ℕ × ℕ) : Option ContributedEdge := do
  let fromRef ← devRefs[p.1]?
  let toRef ← devRefs[p.2]?
  return peerEdge fromRef toRef

def emitPeer (devRefs : List Bytes) (edges : List ContributedEdge) (p : ℕ × ℕ) :
    Option (List ContributedEdge) :=
  if d.peer p.1 p.2 then do
    let e ← peerEdgeAt devRefs p
    return edges ++ [e]
  else some edges

/-! ## Discovery -/

def noDriver : Contribution where
  provider := str "cuda"
  version := str "1.0.0"
  warnings := [str "CUDA driver API (nvcuda.dll) not available; CUDA discovery skipped"]
  partialRun := true
  success := false

def noDevices : Contribution where
  provider := str "cuda"
  version := str "1.0.0"
  warnings := [str "no CUDA devices reported"]
  partialRun := true
  success := true

/-- `CudaProvider::discover`: whether the provider is marked available, and its contribution. -/
def discover : Option (Bool × Contribution) :=
  if !d.ok then some (false, noDriver)
  else
    match d.deviceGetCount with
    | none => some (true, noDevices)
    | some reported =>
      if reported ≤ 0 then some (true, noDevices)
      else do
        let count := reported.toNat
        let s := (List.range count).foldl (d.scanDevice count) {}
        let edges ← (ordinalPairs count).foldlM (d.emitPeer s.devRefs) s.edges
        return (true, {
          provider := str "cuda"
          version := str "1.0.0"
          nodes := s.nodes
          edges := edges
          partialRun := false
          success := true })

/-! ## The device loop -/

def opens (ord : ℕ) : Bool := (d.deviceGet ord).isSome

/-- The number of ordinals that are looked at. -/
def deviceCount : ℕ := if d.ok then (d.deviceGetCount.getD 0).toNat else 0

/-- The ordinals that open, in order. -/
def opened : List ℕ := (List.range d.deviceCount).filter d.opens

/-- The node that is contributed for an ordinal. -/
def accelerator (ord : ℕ) : Option ContributedNode :=
  (d.deviceGet ord).map (d.deviceNode d.deviceCount ord)

/-- The ref of the node that is contributed for an ordinal. -/
def refOf (ord : ℕ) : Bytes := ((d.accelerator ord).map ContributedNode.ref).getD []

/-- What the device loop contributes for these ordinals. -/
structure Scanned (ords : List ℕ) (s s' : DeviceScan) : Prop where
  accelerators : (s'.nodes.filter fun n => n.type = .accelerator) =
    (s.nodes.filter fun n => n.type = .accelerator) ++ ords.filterMap d.accelerator
  peers : (s'.edges.filter fun e => e.type = .peerTo) = s.edges.filter fun e => e.type = .peerTo
  devRefs : s'.devRefs = s.devRefs ++ (ords.filter d.opens).map d.refOf

theorem scanDevices_spec (ords : List ℕ) (s : DeviceScan) :
    d.Scanned ords s (ords.foldl (d.scanDevice d.deviceCount) s) := by
  induction ords generalizing s with
  | nil => exact ⟨by simp, rfl, by simp⟩
  | cons ord ords ih =>
    have htail := ih (d.scanDevice d.deviceCount s ord)
    rw [List.foldl_cons]
    cases hget : d.deviceGet ord with
    | none =>
      -- nothing is appended, so all later refs move one place forward
      have hskip : d.scanDevice d.deviceCount s ord = s := by simp [scanDevice, hget]
      rw [hskip] at htail ⊢
      exact ⟨by rw [htail.accelerators]; simp [accelerator, hget], htail.peers,
        by rw [htail.devRefs]; simp [opens, hget]⟩
    | some dev =>
      have hscan : d.scanDevice d.deviceCount s ord =
          { nodes := s.nodes ++ [d.deviceNode d.deviceCount ord dev, d.memoryNode ord dev]
            edges := s.edges ++ [d.memoryEdge ord dev]
            devRefs := s.devRefs ++ [d.deviceRef ord dev] } := by
        simp [scanDevice, hget]
      refine ⟨?_, ?_, ?_⟩
      · rw [htail.accelerators, hscan]
        simp [accelerator, hget, deviceNode, memoryNode]
      · rw [htail.peers, hscan]
        simp [memoryEdge]
      · rw [htail.devRefs, hscan]
        simp [opens, hget, refOf, accelerator, deviceNode]

/-! ## The peer loops -/

theorem mem_ordinalPairs {count : ℕ} {p : ℕ × ℕ} :
    p ∈ ordinalPairs count ↔ p.1 < p.2 ∧ p.2 < count := by
  obtain ⟨i, j⟩ := p
  simp only [ordinalPairs, List.mem_flatMap, List.mem_range, List.mem_map, List.mem_range'_1,
    Prod.mk.injEq]
  constructor
  · rintro ⟨i', hi', j', hj', rfl, rfl⟩
    omega
  · rintro ⟨hij, hj⟩
    exact ⟨i, by omega, j, by omega, rfl, rfl⟩

/-- The loops emit an edge for every accessible pair, as long as all indices are in range. -/
theorem emitPeers_eq (devRefs : List Bytes) (pairs : List (ℕ × ℕ)) (edges : List ContributedEdge) :
    pairs.foldlM (d.emitPeer devRefs) edges =
      ((pairs.filter fun p => d.peer p.1 p.2).mapM (peerEdgeAt devRefs)).map (edges ++ ·) := by
  induction pairs generalizing edges with
  | nil => simp
  | cons p pairs ih =>
    rw [List.foldlM_cons]
    -- a pair without access adds nothing, and one whose index is out of range ends the call
    by_cases hpeer : d.peer p.1 p.2 = true
    · rw [List.filter_cons_of_pos (by simpa using hpeer), List.mapM_cons]
      simp only [emitPeer, hpeer, if_true]
      cases peerEdgeAt devRefs p with
      | none => rfl
      | some e =>
        show List.foldlM (d.emitPeer devRefs) (edges ++ [e]) pairs = _
        rw [ih]
        cases (pairs.filter fun p => d.peer p.1 p.2).mapM (peerEdgeAt devRefs) <;> simp
    · rw [List.filter_cons_of_neg (by simpa using hpeer)]
      simp only [emitPeer, hpeer]
      exact ih edges

theorem peerEdgeAt_type {devRefs : List Bytes} {p : ℕ × ℕ} {e : ContributedEdge}
    (h : peerEdgeAt devRefs p = some e) : e.type = .peerTo := by
  unfold peerEdgeAt at h
  cases hfrom : devRefs[p.1]? <;> cases hto : devRefs[p.2]? <;> simp [hfrom, hto] at h
  rw [← h]
  rfl

theorem peerEdgeAt_eq_some {devRefs : List Bytes} {p : ℕ × ℕ} {fromRef toRef : Bytes} :
    peerEdgeAt devRefs p = some (peerEdge fromRef toRef) ↔
      devRefs[p.1]? = some fromRef ∧ devRefs[p.2]? = some toRef := by
  unfold peerEdgeAt
  cases devRefs[p.1]? <;> cases devRefs[p.2]? <;> simp [peerEdge]

/-! ## The whole run -/

private theorem map_bind_pure {α β γ : Type} (x : Option α) (f : α → β) (g : β → γ) :
    (x >>= fun a => pure (f a)).map g = x.map (g ∘ f) := by
  cases x <;> rfl

/-- What the loops contribute; without devices they contribute nothing. -/
theorem discover_eq : d.discover.map (fun r => (r.2.nodes, r.2.edges)) =
    let s := (List.range d.deviceCount).foldl (d.scanDevice d.deviceCount) {}
    ((ordinalPairs d.deviceCount).foldlM (d.emitPeer s.devRefs) s.edges).map fun edges =>
      (s.nodes, edges) := by
  -- without devices nothing is scanned
  have hnone : ∀ n, n = 0 →
      (let s := (List.range n).foldl (d.scanDevice n) {}
       ((ordinalPairs n).foldlM (d.emitPeer s.devRefs) s.edges).map fun edges =>
        (s.nodes, edges)) = some ([], []) := by
    rintro n rfl
    rfl
  cases hok : d.ok with
  | false =>
    rw [hnone d.deviceCount (by simp [deviceCount, hok])]
    simp [discover, hok, noDriver]
  | true =>
    cases hcount : d.deviceGetCount with
    | none =>
      rw [hnone d.deviceCount (by simp [deviceCount, hcount])]
      simp [discover, hok, hcount, noDevices]
    | some reported =>
      by_cases hpos : reported ≤ 0
      · rw [hnone d.deviceCount (by simp [deviceCount, hcount, hpos])]
        simp [discover, hok, hcount, hpos, noDevices]
      · have hdevices : d.deviceCount = reported.toNat := by simp [deviceCount, hok, hcount]
        rw [hdevices]
        simp only [discover, hok, hcount, if_neg hpos, Bool.not_true, Bool.false_eq_true, if_false]
        exact map_bind_pure _ _ _

/-- The accessible pairs, in the order of the loops. -/
def accessiblePairs : List (ℕ × ℕ) := (ordinalPairs d.deviceCount).filter fun p => d.peer p.1 p.2

/-- No index is out of range, and the peer edges join the nodes of the accessible pairs. -/
def PeerEdgesCorrect : Prop :=
  ∃ available c, d.discover = some (available, c) ∧
    (c.edges.filter fun e => e.type = .peerTo) =
      d.accessiblePairs.map fun p => peerEdge (d.refOf p.1) (d.refOf p.2)

/-- The device that opens as number `m`, counted from zero, has the ref of ordinal `m`. -/
def InPlace (m : ℕ) : Prop := ∃ k, d.opened[m]? = some k ∧ d.refOf k = d.refOf m

theorem inPlace_of_opens {m : ℕ} (hm : m < d.deviceCount) (h : ∀ k ≤ m, d.opens k = true) :
    d.InPlace m := by
  refine ⟨m, ?_, rfl⟩
  obtain ⟨n, hn⟩ := Nat.exists_eq_add_of_lt hm
  have hfirst : (List.range (m + 1)).filter d.opens = List.range (m + 1) := by
    rw [List.filter_eq_self]
    exact fun k hk => h k (by simpa [Nat.lt_succ_iff] using hk)
  have hcount : d.deviceCount = (m + 1) + n := by omega
  rw [opened, hcount, List.range_add, List.filter_append, hfirst,
    List.getElem?_append_left (by simp), List.getElem?_range (by omega)]

/-- The loops emit the peer edges of the accessible pairs iff these find their own refs. -/
private theorem correct_iff_lookup : d.PeerEdgesCorrect ↔
    ∀ p ∈ d.accessiblePairs, d.InPlace p.1 ∧ d.InPlace p.2 := by
  let s := (List.range d.deviceCount).foldl (d.scanDevice d.deviceCount) {}
  have hscan : d.Scanned (List.range d.deviceCount) {} s := d.scanDevices_spec _ _
  -- `devRefs` is indexed by the devices that open, the pairs by ordinals
  have hplace : ∀ m, s.devRefs[m]? = some (d.refOf m) ↔ d.InPlace m := by
    intro m
    rw [hscan.devRefs, List.nil_append, List.getElem?_map, Option.map_eq_some_iff]
    rfl
  have hlookup : (∀ p ∈ d.accessiblePairs, d.InPlace p.1 ∧ d.InPlace p.2) ↔
      d.accessiblePairs.mapM (peerEdgeAt s.devRefs) =
        some (d.accessiblePairs.map fun p => peerEdge (d.refOf p.1) (d.refOf p.2)) := by
    rw [mapM_eq_some_map]
    refine forall₂_congr fun p _ => ?_
    rw [peerEdgeAt_eq_some, hplace, hplace]
  have hedges : d.discover.map (fun r => r.2.edges) =
      (d.accessiblePairs.mapM (peerEdgeAt s.devRefs)).map (s.edges ++ ·) := by
    have h := congrArg (Option.map Prod.snd) d.discover_eq
    simp only [Option.map_map, emitPeers_eq] at h
    exact h
  have htypes : ∀ es, d.accessiblePairs.mapM (peerEdgeAt s.devRefs) = some es →
      ((s.edges ++ es).filter fun e => e.type = .peerTo) = es := by
    intro es hes
    have hself : (es.filter fun e => e.type = .peerTo) = es := by
      rw [List.filter_eq_self]
      intro e he
      obtain ⟨p, -, hp⟩ := mem_of_mapM hes e he
      exact decide_eq_true (peerEdgeAt_type hp)
    rw [List.filter_append, hself, hscan.peers]
    rfl
  rw [hlookup]
  constructor
  · rintro ⟨available, c, hret, hpeers⟩
    rw [hret, Option.map_some, eq_comm, Option.map_eq_some_iff] at hedges
    obtain ⟨es, hes, hc⟩ := hedges
    rw [← hc, htypes es hes] at hpeers
    rw [hes, hpeers]
  · intro hes
    rw [hes, Option.map_some, Option.map_eq_some_iff] at hedges
    obtain ⟨⟨available, c⟩, hret, hc⟩ := hedges
    exact ⟨available, c, hret, by rw [hc, htypes _ hes]⟩

/-- **When peer edges join the right nodes.** The accelerators that are contributed are those of the
ordinals that open. All indices are in range and the peer edges join the nodes of exactly the
accessible pairs iff every ordinal of an accessible pair is in place; they do when all ordinals up
to the larger one of every accessible pair open. -/
theorem peerEdges_correct_iff (d : CudaDriver) :
    (∀ available c, d.discover = some (available, c) →
      (c.nodes.filter fun n => n.type = .accelerator) =
        (List.range d.deviceCount).filterMap d.accelerator) ∧
    (d.PeerEdgesCorrect ↔ ∀ i j, i < j → j < d.deviceCount → d.peer i j = true →
      d.InPlace i ∧ d.InPlace j) ∧
    ((∀ i j, i < j → j < d.deviceCount → d.peer i j = true → ∀ k ≤ j, d.opens k = true) →
      d.PeerEdgesCorrect) := by
  -- the loop over the pairs asks about each pair of ordinals once
  have hpairs : (∀ p ∈ d.accessiblePairs, d.InPlace p.1 ∧ d.InPlace p.2) ↔
      ∀ i j, i < j → j < d.deviceCount → d.peer i j = true → d.InPlace i ∧ d.InPlace j := by
    simp only [accessiblePairs, List.mem_filter, mem_ordinalPairs, Prod.forall, and_imp]
  have hiff := d.correct_iff_lookup.trans hpairs
  refine ⟨fun available c hret => ?_, hiff, fun hopens => hiff.mpr fun i j hij hj hpeer => ?_⟩
  · have hnodes := congrArg (Option.map Prod.fst) d.discover_eq
    rw [hret, Option.map_map, Option.map_some] at hnodes
    simp only [Option.map_map] at hnodes
    obtain ⟨edges, -, hc⟩ := Option.map_eq_some_iff.mp hnodes.symm
    have hscan := d.scanDevices_spec (List.range d.deviceCount) {}
    rw [← show _ = c.nodes from hc]
    exact hscan.accelerators
  · have hup := hopens i j hij hj hpeer
    exact ⟨d.inPlace_of_opens (hij.trans hj) fun k hk => hup k (hk.trans hij.le),
      d.inPlace_of_opens hj hup⟩

/-- A driver with `count` devices of which number zero does not open; one and two can access each
other. -/
def firstFails (count : ℤ) : CudaDriver where
  ok := true
  deviceGetCount := some count
  deviceGet := fun ord => if ord = 0 then none else some ord
  deviceGetName := fun _ => str "GPU"
  deviceGetAttribute := none
  deviceTotalMem := none
  deviceComputeCapability := fun _ => (9, 0)
  deviceCanAccessPeer := some fun a b => some (if a + b = 3 then 1 else 0)
  deviceGetUuid := none

/-- With three devices an index is out of range, with four the wrong devices are joined. -/
theorem peerEdges_shifted :
    (firstFails 3).discover = none ∧ ¬ (firstFails 3).PeerEdgesCorrect ∧
      (firstFails 4).accessiblePairs = [(1, 2)] ∧
      (((firstFails 4).discover.map fun r => r.2.edges.filter fun e => e.type = .peerTo) =
        some [peerEdge (str "cuda:ord:2") (str "cuda:ord:3")]) ∧
      ¬ (firstFails 4).PeerEdgesCorrect := by
  have hundefined : (firstFails 3).discover = none := by decide +kernel
  have hpairs : (firstFails 4).accessiblePairs = [(1, 2)] := by decide +kernel
  have hedges : ((firstFails 4).discover.map fun r => r.2.edges.filter fun e => e.type = .peerTo) =
      some [peerEdge (str "cuda:ord:2") (str "cuda:ord:3")] := by decide +kernel
  refine ⟨hundefined, ?_, hpairs, hedges, ?_⟩
  · rintro ⟨available, c, hret, -⟩
    rw [hundefined] at hret
    cases hret
  · rintro ⟨available, c, hret, hpeers⟩
    rw [hret, Option.map_some, hpeers, hpairs] at hedges
    exact absurd (Option.some.inj hedges) (by decide +kernel)

end CudaDriver

end TopologyFabric

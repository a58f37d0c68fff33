import TopologyFabric.Providers.Host

/-!
# The Processor Provider

`CpuNumaProvider::discover` on Windows. It walks the buffer of `GetLogicalProcessorInformationEx`,
collects packages, NUMA nodes and cores with their affinity masks, and reports them with one thread
per bit of a core's masks, all contained in each other and in the machine.

## Main results

- `parseRecords_length`: there are no more resources of a kind than the buffer has bytes
- `cpuScan_spec`: what the loops report, item by item
- `mem_cpuItems`, `cpuItems_nodup`: which items are reported, each once
-/

namespace TopologyFabric

open Library

/-! ## The processor buffer -/

/-- `GROUP_AFFINITY`. -/
structure GroupAffinity where
  group : UInt16
  mask : UInt64
  deriving DecidableEq

/-- What a record describes. -/
inductive ProcessorRelation where
  | processorCore (groupMask : List GroupAffinity)
  | processorPackage (groupMask : List GroupAffinity)
  | numaNode (nodeNumber : UInt32) (groupMasks : List GroupAffinity)
  | other

/-- `SYSTEM_LOGICAL_PROCESSOR_INFORMATION_EX`. -/
structure ProcessorRecord where
  size : ℕ
  relation : ProcessorRelation

/-- A buffer that is filled: the records that start in it, of which only the last one may go beyond
its end. -/
structure ProcessorBuffer where
  bytes : UInt32
  records : List ProcessorRecord
  fits : (records.dropLast.map ProcessorRecord.size).sum ≤ bytes.toNat

structure NumaDomain where
  number : UInt32
  masks : List GroupAffinity
  deriving DecidableEq

/-- What the buffer is parsed into; a NUMA node stands with its number. -/
structure ProcessorInfo where
  packages : List (List GroupAffinity) := []
  numa : List NumaDomain := []
  cores : List (List GroupAffinity) := []

/-- The lambda `parse`. No more than 32 masks of a record are taken. -/
def ProcessorInfo.parse (info : ProcessorInfo) : ProcessorRelation → ProcessorInfo
  | .processorCore masks => { info with cores := info.cores ++ [masks.take 32] }
  | .processorPackage masks => { info with packages := info.packages ++ [masks.take 32] }
  | .numaNode number masks => { info with numa := info.numa ++ [⟨number, masks.take 32⟩] }
  | .other => info

/-- Walk the buffer; a record of size zero is the last one that is read. -/
def parseRecords : List ProcessorRecord → ProcessorInfo → ProcessorInfo
  | [], info => info
  | r :: rest, info =>
    if r.size = 0 then info.parse r.relation else parseRecords rest (info.parse r.relation)

/-! ## Masks -/

/-- The lambda `contains`. -/
def maskContains (affs : List GroupAffinity) (grp : UInt16) (mask : UInt64) : Bool :=
  affs.any fun a => a.group = grp && a.mask &&& mask ≠ 0

/-- `static_cast<KAFFINITY>(1) << bit`. -/
def oneBit (bit : ℕ) : UInt64 := (1 : UInt64) <<< UInt64.ofNat bit

namespace ProcessorInfo

variable (info : ProcessorInfo)

/-- `package_of`. -/
def packageOf (grp : UInt16) (mask : UInt64) : Option ℕ :=
  info.packages.findIdx? fun affs => maskContains affs grp mask

/-- `numa_of`, with the number in place of the index. -/
def numaOf (grp : UInt16) (mask : UInt64) : Option UInt32 :=
  (info.numa.find? fun d => maskContains d.masks grp mask).map NumaDomain.number

/-- The package of the first mask of a core that has one. -/
def corePackage (masks : List GroupAffinity) : Option ℕ :=
  masks.findSome? fun a => info.packageOf a.group a.mask

end ProcessorInfo

/-! ## What is reported -/

def cpuProvenance : Provenance :=
  .discovered (str "windows.cpu_numa") (str "GetLogicalProcessorInformationEx") .authoritative
    (str "10.0")

/-- The lambda `add_contains`. -/
def cpuContains (fromRef toRef : Bytes) : ContributedEdge where
  fromRef := fromRef
  toRef := toRef
  type := .contains
  direction := .directed
  provenance := cpuProvenance
  confidence := .high

/-- The lambda `add_local`. -/
def cpuLocal (fromRef toRef : Bytes) : ContributedEdge where
  fromRef := fromRef
  toRef := toRef
  type := .localTo
  direction := .undirected
  provenance := cpuProvenance
  confidence := .medium

def numaRef (number : UInt32) : Bytes := str "numa:" ++ natToString number.toNat

def memoryRef (number : UInt32) : Bytes := str "memdom:" ++ natToString number.toNat

def packageRef (i : ℕ) : Bytes := str "pkg:" ++ natToString i

def coreRef (ci : ℕ) : Bytes := str "core:" ++ natToString ci

def threadRef (grp : UInt16) (bit : ℕ) : Bytes :=
  str "thread:g" ++ natToString grp.toNat ++ str ":" ++ natToString bit

def numaNode (number : UInt32) : ContributedNode where
  ref := numaRef number
  type := .numaNode
  name := str "NUMA " ++ natToString number.toNat
  native := { numaNode := some number }
  provenance := cpuProvenance
  capabilities := Capability.cpuAddressable ||| Capability.numaLocal

def hostMemoryNode (number : UInt32) : ContributedNode where
  ref := memoryRef number
  type := .hostMemoryDomain
  name := str "Host memory domain (NUMA " ++ natToString number.toNat ++ str ")"
  native := { numaNode := some number }
  provenance := .inferred (str "windows.cpu_numa") (str "NUMA_NODE_RELATIONSHIP") .medium
    (str "host memory domain per NUMA node")
  capabilities := Capability.cpuAddressable ||| Capability.numaLocal ||| Capability.sharedMemory

def packageNode (i : ℕ) : ContributedNode where
  ref := packageRef i
  type := .cpuPackage
  name := str "CPU Package " ++ natToString i
  native := { cpuPackage := some (UInt32.ofNat i) }
  provenance := cpuProvenance
  capabilities := Capability.cpuAddressable ||| Capability.numaLocal

section Nodes

variable (info : ProcessorInfo)

def coreNode (ci : ℕ) (masks : List GroupAffinity) : ContributedNode where
  ref := coreRef ci
  type := .cpuCore
  name := str "Core " ++ natToString ci
  native := { coreId := some (UInt32.ofNat ci)
              cpuPackage := (info.corePackage masks).map UInt32.ofNat }
  provenance := cpuProvenance
  capabilities := Capability.cpuAddressable

/-- The ref of what contains a core; the package is read back from the node. -/
def coreParent (machineRef : Bytes) (masks : List GroupAffinity) : Bytes :=
  match (info.corePackage masks).map UInt32.ofNat with
  | some package => packageRef package.toNat
  | none => machineRef

def threadNode (threadCounter ci : ℕ) (grp : UInt16) (bit : ℕ) : ContributedNode where
  ref := threadRef grp bit
  type := .cpuThread
  name := str "CPU " ++ natToString threadCounter
  native := { logicalProcessorIndex := some (UInt32.ofNat threadCounter)
              processorGroup := some grp.toUInt32
              coreId := some (UInt32.ofNat ci)
              cpuPackage := (info.packageOf grp (oneBit bit)).map UInt32.ofNat
              numaNode := info.numaOf grp (oneBit bit) }
  provenance := cpuProvenance
  capabilities := Capability.cpuAddressable

/-- The edges that are added with a thread. -/
def threadEdges (ci : ℕ) (grp : UInt16) (bit : ℕ) : List ContributedEdge :=
  cpuContains (coreRef ci) (threadRef grp bit) ::
    ((info.numaOf grp (oneBit bit)).toList.map fun number =>
      cpuLocal (threadRef grp bit) (numaRef number))

end Nodes

/-! ## The loops -/

/-- What the loops have contributed. -/
structure CpuScan where
  nodes : List ContributedNode := []
  edges : List ContributedEdge := []
  threadCounter : ℕ := 0

def CpuScan.add (s : CpuScan) (n : ContributedNode) (es : List ContributedEdge) : CpuScan :=
  { s with nodes := s.nodes ++ [n], edges := s.edges ++ es }

section Scan

variable (info : ProcessorInfo) (machineRef : Bytes)

/-- One round of the loop over the NUMA nodes. -/
def scanNuma (s : CpuScan) (d : NumaDomain) : CpuScan :=
  (s.add (numaNode d.number) [cpuContains machineRef (numaRef d.number)]).add
    (hostMemoryNode d.number) [cpuContains (numaRef d.number) (memoryRef d.number)]

/-- One round of the loop over the packages. -/
def scanPackage (s : CpuScan) (i : ℕ) : CpuScan :=
  s.add (packageNode i) [cpuContains machineRef (packageRef i)]

/-- A thread of a core. -/
def scanThread (ci : ℕ) (s : CpuScan) (grp : UInt16) (bit : ℕ) : CpuScan :=
  { s.add (threadNode info s.threadCounter ci grp bit) (threadEdges info ci grp bit) with
    threadCounter := s.threadCounter + 1 }

/-- The loop over the bits of a mask. -/
def scanMask (ci : ℕ) (s : CpuScan) (a : GroupAffinity) : CpuScan :=
  (List.range 64).foldl
    (fun s bit => if a.mask &&& oneBit bit ≠ 0 then scanThread info ci s a.group bit else s) s

/-- One round of the loop over the cores. -/
def scanCore (s : CpuScan) (core : List GroupAffinity × ℕ) : CpuScan :=
  core.1.foldl (scanMask info core.2)
    (s.add (coreNode info core.2 core.1)
      [cpuContains (coreParent info machineRef core.1) (coreRef core.2)])

/-- All loops. -/
def cpuScan : CpuScan :=
  let s := info.numa.foldl (scanNuma machineRef) {}
  let s := (List.range info.packages.length).foldl (scanPackage machineRef) s
  info.cores.zipIdx.foldl (scanCore info machineRef) s

end Scan

/-- What Windows says about the processors: the host name, and the buffer, or the last error when
one of the two calls for it fails. -/
structure ProcessorApi where
  dnsHostname : Option Bytes
  buffer : Except (UInt32 × Option Bytes) ProcessorBuffer

namespace ProcessorApi

/-- The ref of the machine; here the name has no second source. -/
def machineRef (api : ProcessorApi) : Bytes := str "machine:" ++ api.dnsHostname.getD []

/-- `CpuNumaProvider::discover`. -/
def discover (api : ProcessorApi) : Contribution :=
  match api.buffer with
  | .error (code, message) =>
    { provider := str "cpu_numa"
      version := str "1.0.0"
      warnings := [lastError (str "GetLogicalProcessorInformationEx") code message]
      partialRun := true }
  | .ok buffer =>
    let s := cpuScan (parseRecords buffer.records {}) api.machineRef
    { provider := str "cpu_numa"
      version := str "1.0.0"
      nodes := s.nodes
      edges := s.edges
      partialRun := false
      success := true }

end ProcessorApi

/-! ## The size of the buffer -/

/-- What is reported as one node. -/
inductive CpuItem where
  | numa (number : UInt32)
  | memory (number : UInt32)
  | package (i : ℕ)
  | core (ci : ℕ) (masks : List GroupAffinity)
  | thread (counter ci : ℕ) (grp : UInt16) (bit : ℕ)

namespace CpuItem

def node (info : ProcessorInfo) : CpuItem → ContributedNode
  | .numa number => numaNode number
  | .memory number => hostMemoryNode number
  | .package i => packageNode i
  | .core ci masks => coreNode info ci masks
  | .thread counter ci grp bit => threadNode info counter ci grp bit

/-- The ref of what contains the item. -/
def parentRef (info : ProcessorInfo) (machineRef : Bytes) : CpuItem → Bytes
  | .numa _ => machineRef
  | .memory number => numaRef number
  | .package _ => machineRef
  | .core _ masks => coreParent info machineRef masks
  | .thread _ ci _ _ => coreRef ci

/-- The edge to the NUMA node, for threads. -/
def localEdges (info : ProcessorInfo) : CpuItem → List ContributedEdge
  | .thread _ _ grp bit => (info.numaOf grp (oneBit bit)).toList.map fun number =>
      cpuLocal (threadRef grp bit) (numaRef number)
  | _ => []

/-- The edges that are added with the item. -/
def edges (info : ProcessorInfo) (machineRef : Bytes) (item : CpuItem) : List ContributedEdge :=
  cpuContains (item.parentRef info machineRef) (item.node info).ref :: item.localEdges info

end CpuItem

/-- The bits of a core's masks, in the order of the loops. -/
def coreSlots (masks : List GroupAffinity) : List (UInt16 × ℕ) :=
  masks.flatMap fun a =>
    ((List.range 64).filter fun bit => decide (a.mask &&& oneBit bit ≠ 0)).map fun bit =>
      (a.group, bit)

/-- The items of a core, where threads are counted from `counter` on. -/
def coreItems (counter : ℕ) (core : List GroupAffinity × ℕ) : List CpuItem :=
  .core core.2 core.1 ::
    ((coreSlots core.1).zipIdx counter).map fun x => .thread x.2 core.2 x.1.1 x.1.2

/-- The items of several cores. -/
def coresItems : ℕ → List (List GroupAffinity × ℕ) → List CpuItem
  | _, [] => []
  | counter, core :: rest =>
    coreItems counter core ++ coresItems (counter + (coreSlots core.1).length) rest

/-- Everything that is reported, in order. -/
def cpuItems (info : ProcessorInfo) : List CpuItem :=
  (info.numa.flatMap fun d => [.numa d.number, .memory d.number]) ++
    (List.range info.packages.length).map .package ++ coresItems 0 info.cores.zipIdx

/-! ### The loops report the items -/

/-- The scan has reported these items. -/
structure Reports (info : ProcessorInfo) (machineRef : Bytes) (s : CpuScan)
    (items : List CpuItem) : Prop where
  nodes : s.nodes = items.map (CpuItem.node info)
  edges : s.edges = items.flatMap (CpuItem.edges info machineRef)

section Loops

variable {info : ProcessorInfo} {machineRef : Bytes} {s : CpuScan} {items : List CpuItem}

/-- Adding an item with its edges. -/
theorem Reports.add (h : Reports info machineRef s items) (item : CpuItem) :
    Reports info machineRef (s.add (item.node info) (item.edges info machineRef))
      (items ++ [item]) where
  nodes := by rw [CpuScan.add, h.nodes, List.map_append, List.map_singleton]
  edges := by rw [CpuScan.add, h.edges, List.flatMap_append, List.flatMap_singleton]

theorem Reports.numa (h : Reports info machineRef s items) (domains : List NumaDomain) :
    Reports info machineRef (domains.foldl (scanNuma machineRef) s)
      (items ++ domains.flatMap fun d => [.numa d.number, .memory d.number]) := by
  induction domains generalizing s items with
  | nil => rwa [List.foldl_nil, List.flatMap_nil, List.append_nil]
  | cons d rest ih =>
    rw [List.foldl_cons, List.flatMap_cons, ← List.append_assoc]
    apply ih
    have htwo := (h.add (.numa d.number)).add (.memory d.number)
    rwa [List.append_assoc] at htwo

theorem Reports.packages (h : Reports info machineRef s items) (indices : List ℕ) :
    Reports info machineRef (indices.foldl (scanPackage machineRef) s)
      (items ++ indices.map .package) := by
  induction indices generalizing s items with
  | nil => rwa [List.foldl_nil, List.map_nil, List.append_nil]
  | cons i rest ih =>
    rw [List.foldl_cons, List.map_cons, ← List.singleton_append, ← List.append_assoc]
    exact ih (h.add (.package i))

/-- The loops over the masks and bits of a core go through its slots. -/
theorem scanMasks_eq (ci : ℕ) (masks : List GroupAffinity) (s : CpuScan) :
    masks.foldl (scanMask info ci) s =
      (coreSlots masks).foldl (fun s x => scanThread info ci s x.1 x.2) s := by
  rw [coreSlots, List.foldl_flatMap]
  congr 1
  funext s a
  rw [scanMask, List.foldl_map, List.foldl_filter]
  simp only [decide_eq_true_eq]

theorem Reports.threads (h : Reports info machineRef s items) (ci : ℕ)
    (slots : List (UInt16 × ℕ)) :
    Reports info machineRef (slots.foldl (fun s x => scanThread info ci s x.1 x.2) s)
        (items ++ (slots.zipIdx s.threadCounter).map fun x => .thread x.2 ci x.1.1 x.1.2) ∧
      (slots.foldl (fun s x => scanThread info ci s x.1 x.2) s).threadCounter =
        s.threadCounter + slots.length := by
  induction slots generalizing s items with
  | nil =>
    rw [List.foldl_nil, List.zipIdx_nil, List.map_nil, List.append_nil]
    exact ⟨h, rfl⟩
  | cons x rest ih =>
    have hone := h.add (.thread s.threadCounter ci x.1 x.2)
    -- counting does not change what is reported
    have hnext : Reports info machineRef (scanThread info ci s x.1 x.2)
        (items ++ [.thread s.threadCounter ci x.1 x.2]) := ⟨hone.nodes, hone.edges⟩
    obtain ⟨hrest, hcounter⟩ := ih hnext
    rw [List.foldl_cons, List.zipIdx_cons, List.map_cons, ← List.singleton_append,
      ← List.append_assoc]
    refine ⟨hrest, ?_⟩
    rw [hcounter, List.length_cons]
    show s.threadCounter + 1 + rest.length = _
    omega

theorem Reports.cores (h : Reports info machineRef s items)
    (cores : List (List GroupAffinity × ℕ)) :
    Reports info machineRef (cores.foldl (scanCore info machineRef) s)
      (items ++ coresItems s.threadCounter cores) := by
  induction cores generalizing s items with
  | nil => rwa [List.foldl_nil, coresItems, List.append_nil]
  | cons core rest ih =>
    rw [List.foldl_cons, scanCore, scanMasks_eq]
    obtain ⟨hthreads, hcounter⟩ :=
      (h.add (.core core.2 core.1)).threads core.2 (coreSlots core.1)
    have hrest := ih hthreads
    rw [hcounter] at hrest
    have hsplit : items ++ coresItems s.threadCounter (core :: rest) =
        items ++ [.core core.2 core.1] ++ ((coreSlots core.1).zipIdx s.threadCounter).map
          (fun x => .thread x.2 core.2 x.1.1 x.1.2) ++
        coresItems (s.threadCounter + (coreSlots core.1).length) rest := by
      simp [coresItems, coreItems]
    rw [hsplit]
    exact hrest

/-- **What the loops report** are the items. -/
theorem cpuScan_spec (info : ProcessorInfo) (machineRef : Bytes) :
    Reports info machineRef (cpuScan info machineRef) (cpuItems info) := by
  have hstart : Reports info machineRef {} [] := ⟨rfl, rfl⟩
  have hnuma := hstart.numa info.numa
  have hpackages := hnuma.packages (List.range info.packages.length)
  have hcores := hpackages.cores info.cores.zipIdx
  have hcounter : ((List.range info.packages.length).foldl (scanPackage machineRef)
      (info.numa.foldl (scanNuma machineRef) {})).threadCounter = 0 := by
    have hsame : ∀ (l : List ℕ) (s : CpuScan),
        (l.foldl (scanPackage machineRef) s).threadCounter = s.threadCounter := by
      intro l
      induction l with
      | nil => exact fun s => rfl
      | cons i l ih => exact fun s => ih _
    have hsame' : ∀ (l : List NumaDomain) (s : CpuScan),
        (l.foldl (scanNuma machineRef) s).threadCounter = s.threadCounter := by
      intro l
      induction l with
      | nil => exact fun s => rfl
      | cons d l ih => exact fun s => ih _
    rw [hsame, hsame']
  rw [hcounter, List.nil_append] at hcores
  exact hcores

end Loops

/-! ### Which items there are -/

/-- The threads of cores: for each of them the core, the group and the bit. -/
def coreThreads (cores : List (List GroupAffinity × ℕ)) : List (ℕ × UInt16 × ℕ) :=
  cores.flatMap fun core => (coreSlots core.1).map fun x => (core.2, x.1, x.2)

/-- The processors by group and bit, as the cores list them. -/
def processors (info : ProcessorInfo) : List (UInt16 × ℕ) := info.cores.flatMap coreSlots

theorem mem_coresItems {counter : ℕ} {cores : List (List GroupAffinity × ℕ)} {item : CpuItem} :
    item ∈ coresItems counter cores ↔ (∃ core ∈ cores, item = .core core.2 core.1) ∨
      ∃ k ci grp bit, item = .thread (counter + k) ci grp bit ∧
        (coreThreads cores)[k]? = some (ci, grp, bit) := by
  induction cores generalizing counter with
  | nil => simp [coresItems, coreThreads]
  | cons core rest ih =>
    have hthreads : coreThreads (core :: rest) =
        ((coreSlots core.1).map fun x => (core.2, x.1, x.2)) ++ coreThreads rest := rfl
    rw [coresItems, coreItems, List.cons_append, List.mem_cons, List.mem_append, ih, hthreads]
    constructor
    · rintro (rfl | hmem | ⟨c, hc, rfl⟩ | ⟨k, ci, grp, bit, rfl, hk⟩)
      · exact Or.inl ⟨core, List.mem_cons_self .., rfl⟩
      · -- a thread of the first core
        obtain ⟨⟨⟨grp, bit⟩, j⟩, hx, rfl⟩ := List.mem_map.mp hmem
        obtain ⟨hle, hlt, hget⟩ := List.mem_zipIdx hx
        refine Or.inr ⟨j - counter, core.2, grp, bit, ?_, ?_⟩
        · rw [Nat.add_sub_cancel' hle]
        · rw [List.getElem?_append_left (by rw [List.length_map]; omega), List.getElem?_map,
            List.getElem?_eq_getElem (by omega), ← hget]
          rfl
      · exact Or.inl ⟨c, List.mem_cons_of_mem _ hc, rfl⟩
      · refine Or.inr ⟨(coreSlots core.1).length + k, ci, grp, bit, by rw [Nat.add_assoc], ?_⟩
        rw [List.getElem?_append_right (by rw [List.length_map]; omega), List.length_map,
          Nat.add_sub_cancel_left]
        exact hk
    · rintro (⟨c, hc, rfl⟩ | ⟨k, ci, grp, bit, rfl, hk⟩)
      · rcases List.mem_cons.mp hc with rfl | hc
        · exact Or.inl rfl
        · exact Or.inr (Or.inr (Or.inl ⟨c, hc, rfl⟩))
      · right
        by_cases hlt : k < (coreSlots core.1).length
        · left
          rw [List.getElem?_append_left (by rw [List.length_map]; exact hlt), List.getElem?_map,
            List.getElem?_eq_getElem hlt, Option.map_some, Option.some_inj] at hk
          simp only [Prod.mk.injEq] at hk
          obtain ⟨rfl, rfl, rfl⟩ := hk
          refine List.mem_map.mpr ⟨((coreSlots core.1)[k], counter + k), ?_, rfl⟩
          exact List.mk_add_mem_zipIdx_iff_getElem?.mpr (List.getElem?_eq_getElem hlt)
        · right
          right
          rw [List.getElem?_append_right (by rw [List.length_map]; omega), List.length_map] at hk
          refine ⟨k - (coreSlots core.1).length, ci, grp, bit, ?_, hk⟩
          rw [Nat.add_assoc, Nat.add_sub_cancel' (not_lt.mp hlt)]

theorem mem_cpuItems {info : ProcessorInfo} {item : CpuItem} : item ∈ cpuItems info ↔
    (∃ d ∈ info.numa, item = .numa d.number ∨ item = .memory d.number) ∨
      (∃ i < info.packages.length, item = .package i) ∨
      (∃ ci masks, info.cores[ci]? = some masks ∧ item = .core ci masks) ∨
      ∃ k ci grp bit, (coreThreads info.cores.zipIdx)[k]? = some (ci, grp, bit) ∧
        item = .thread k ci grp bit := by
  rw [cpuItems, List.mem_append, List.mem_append, mem_coresItems, List.mem_flatMap, List.mem_map,
    or_assoc]
  apply or_congr
  · simp only [List.mem_cons, List.not_mem_nil, or_false]
  apply or_congr
  · simp only [List.mem_range, eq_comm]
  apply or_congr
  · constructor
    · rintro ⟨⟨masks, ci⟩, hcore, rfl⟩
      exact ⟨ci, masks, List.mk_mem_zipIdx_iff_getElem?.mp hcore, rfl⟩
    · rintro ⟨ci, masks, hcore, rfl⟩
      exact ⟨(masks, ci), List.mk_mem_zipIdx_iff_getElem?.mpr hcore, rfl⟩
  · simp only [Nat.zero_add]
    constructor
    · rintro ⟨k, ci, grp, bit, hitem, hk⟩
      exact ⟨k, ci, grp, bit, hk, hitem⟩
    · rintro ⟨k, ci, grp, bit, hk, hitem⟩
      exact ⟨k, ci, grp, bit, hitem, hk⟩

/-- The counter of a thread. -/
def CpuItem.counter : CpuItem → ℕ
  | .thread counter _ _ _ => counter
  | _ => 0

theorem coresItems_nodup {counter : ℕ} {cores : List (List GroupAffinity × ℕ)}
    (hcores : (cores.map Prod.snd).Nodup) : (coresItems counter cores).Nodup := by
  induction cores generalizing counter with
  | nil => exact List.nodup_nil
  | cons core rest ih =>
    obtain ⟨hnew, hrest⟩ := List.nodup_cons.mp hcores
    have hthreads : (((coreSlots core.1).zipIdx counter).map fun x =>
        CpuItem.thread x.2 core.2 x.1.1 x.1.2).Nodup := by
      apply List.Nodup.of_map CpuItem.counter
      rw [List.map_map]
      show (((coreSlots core.1).zipIdx counter).map Prod.snd).Nodup
      rw [List.zipIdx_map_snd]
      exact List.nodup_range'
    have hfirst : (coreItems counter core).Nodup := by
      refine List.nodup_cons.mpr ⟨fun hmem => ?_, hthreads⟩
      obtain ⟨x, -, hx⟩ := List.mem_map.mp hmem
      cases hx
    rw [coresItems, List.nodup_append]
    refine ⟨hfirst, ih hrest, ?_⟩
    -- cores differ by their index, threads by their counter
    rintro a ha b hb rfl
    rcases List.mem_cons.mp ha with rfl | ha
    · rcases mem_coresItems.mp hb with ⟨c, hc, heq⟩ | ⟨k, ci, grp, bit, heq, -⟩
      · rw [CpuItem.core.injEq] at heq
        exact hnew (List.mem_map.mpr ⟨c, hc, heq.1.symm⟩)
      · cases heq
    · obtain ⟨⟨x, j⟩, hx, rfl⟩ := List.mem_map.mp ha
      obtain ⟨-, hlt, -⟩ := List.mem_zipIdx hx
      rcases mem_coresItems.mp hb with ⟨c, hc, heq⟩ | ⟨k, ci, grp, bit, heq, -⟩
      · cases heq
      · rw [CpuItem.thread.injEq] at heq
        omega

/-- **Each item is reported once**, if the NUMA numbers are distinct. -/
theorem cpuItems_nodup {info : ProcessorInfo}
    (hnuma : (info.numa.map NumaDomain.number).Nodup) : (cpuItems info).Nodup := by
  have hdomains : (info.numa.flatMap fun d => [CpuItem.numa d.number, .memory d.number]).Nodup := by
    rw [List.nodup_flatMap]
    refine ⟨fun d _ => by simp, ?_⟩
    have hpairs := List.pairwise_map.mp hnuma
    apply hpairs.imp
    intro d d' hne
    simp [List.disjoint_left, hne]
  have hpackages : ((List.range info.packages.length).map CpuItem.package).Nodup :=
    List.nodup_range.map fun i j h => by cases h; rfl
  have hcores : (coresItems 0 info.cores.zipIdx).Nodup := by
    apply coresItems_nodup
    rw [List.zipIdx_map_snd]
    exact List.nodup_range'
  rw [cpuItems, List.nodup_append, List.nodup_append]
  refine ⟨⟨hdomains, hpackages, ?_⟩, hcores, ?_⟩
  · rintro a ha b hb rfl
    obtain ⟨d, -, hd⟩ := List.mem_flatMap.mp ha
    obtain ⟨i, -, rfl⟩ := List.mem_map.mp hb
    simp at hd
  · rintro a ha b hb rfl
    rcases mem_coresItems.mp hb with ⟨c, -, rfl⟩ | ⟨k, ci, grp, bit, rfl, -⟩
    · rcases List.mem_append.mp ha with ha | ha
      · obtain ⟨d, -, hd⟩ := List.mem_flatMap.mp ha
        simp at hd
      · obtain ⟨i, -, hi⟩ := List.mem_map.mp ha
        cases hi
    · rcases List.mem_append.mp ha with ha | ha
      · obtain ⟨d, -, hd⟩ := List.mem_flatMap.mp ha
        simp at hd
      · obtain ⟨i, -, hi⟩ := List.mem_map.mp ha
        cases hi

end TopologyFabric

import TopologyFabric.Core.Snapshot

/-!
# Locality and Classification

Following CONTAINS edges to the enclosing root, and the classes of a pair of nodes that are derived
from native identity, node types and common roots.
-/

namespace TopologyFabric

open Library

/-! ## Traversal helpers -/

def parents (snap : TopologySnapshot) (id : TopologyNodeId) (type : EdgeType) :
    List TopologyNodeId :=
  (snap.edges.filter fun e => decide (type = e.type) && decide (e.target = id)).map
    TopologyEdge.source

theorem mem_parents {snap : TopologySnapshot} {id p : TopologyNodeId} {type : EdgeType} :
    p ∈ parents snap id type ↔ ∃ e ∈ snap.edges, e.type = type ∧ e.target = id ∧ e.source = p := by
  simp only [parents, List.mem_map, List.mem_filter, Bool.and_eq_true, decide_eq_true_eq]
  constructor
  · rintro ⟨e, ⟨he, ht, hid⟩, hp⟩
    exact ⟨e, he, ht.symm, hid, hp⟩
  · rintro ⟨e, he, ht, hid, hp⟩
    exact ⟨e, ⟨he, ht.symm, hid⟩, hp⟩

/-- One round of `root_ancestor` at `cur` with the nodes seen before. -/
def ancestorStep (snap : TopologySnapshot) (rootType : NodeType)
    (s : TopologyNodeId × List TopologyNodeId) :
    Run (TopologyNodeId × List TopologyNodeId ⊕ TopologyNodeId) :=
  let (cur, seen) := s
  if cur = kNullNodeId ∨ (snap.findNode cur).isNone then .ok (.inr kNullNodeId)
  else do
    let n ← snap.node cur
    if n.type = rootType then return .inr cur
    -- cycle guard
    if cur ∈ seen then return .inr kNullNodeId
    match parents snap cur .contains with
    | [] => return .inr kNullNodeId
    | p :: _ => return .inl (p, cur :: seen)

/-- The first node of the root type on the way up, or null. -/
def rootAncestor (fuel : ℕ) (snap : TopologySnapshot) (id : TopologyNodeId)
    (rootType : NodeType) : Run TopologyNodeId :=
  loop (ancestorStep snap rootType) fuel (id, [])

/-! ## Locality -/

def isHost (t : NodeType) : Bool :=
  t = .cpuPackage || t = .cpuCore || t = .cpuThread || t = .numaNode ||
    t = .hostMemoryDomain || t = .machine

def isCpu (t : NodeType) : Bool := t = .cpuPackage || t = .cpuCore || t = .cpuThread

def isPciEndpoint (n : TopologyNode) : Bool := n.type = .pciDevice || n.type = .accelerator

/-- Both values are reported and equal. -/
def bothEqual {α : Type} [DecidableEq α] (a b : Option α) : Bool := a.isSome && decide (a = b)

/-- Two ids that are not null and equal. -/
def commonRoot (a b : TopologyNodeId) : Bool :=
  a ≠ kNullNodeId && b ≠ kNullNodeId && a = b

def localityBetween (fuel : ℕ) (snap : TopologySnapshot) (a b : TopologyNodeId) :
    Run LocalityClass :=
  if a = b then .ok .exact
  else do
    let na ← snap.node a
    let nb ← snap.node b
    if na.type = .cpuThread && nb.type = .cpuThread && bothEqual na.native.coreId nb.native.coreId &&
        bothEqual na.native.cpuPackage nb.native.cpuPackage then
      return .sameCore
    if isCpu na.type && isCpu nb.type && bothEqual na.native.cpuPackage nb.native.cpuPackage then
      return .samePackage
    if bothEqual na.native.numaNode nb.native.numaNode then
      return .sameNuma
    let ra ← rootAncestor fuel snap a .pciRoot
    let rb ← rootAncestor fuel snap b .pciRoot
    if commonRoot ra rb then return .sameRootComplex
    let ha ← rootAncestor fuel snap a .machine
    let hb ← rootAncestor fuel snap b .machine
    if commonRoot ha hb then return .sameHost
    if ha = kNullNodeId && hb = kNullNodeId then return .unknown
    return .remote

/-! ## Path classes -/

/-- Whether some common CONTAINS parent is a PCI bridge, looking parents up as the nested loops
meet them. -/
def commonBridge (snap : TopologySnapshot) (pa pb : List TopologyNodeId) : Run Bool :=
  pa.anyM fun x => pb.anyM fun y =>
    if x = y then do
      let n ← snap.node x
      return decide (n.type = .pciBridge)
    else return false

/-- The part of `classify_path` after the PCI endpoints have been compared. -/
def classifyByNuma (fuel : ℕ) (snap : TopologySnapshot) (na nb : TopologyNode)
    (a b : TopologyNodeId) : Run PathClass :=
  match na.native.numaNode, nb.native.numaNode with
  | some x, some y => return if x = y then .sameNuma else .crossNuma
  | _, _ => do
    let ha ← rootAncestor fuel snap a .machine
    let hb ← rootAncestor fuel snap b .machine
    return if commonRoot ha hb then .remote else .unknown

def classifyPath (fuel : ℕ) (snap : TopologySnapshot) (a b : TopologyNodeId) : Run PathClass :=
  if a = b then .ok .sameObject
  else do
    let na ← snap.node a
    let nb ← snap.node b
    let accA := decide (na.type = .accelerator)
    let accB := decide (nb.type = .accelerator)
    let hostA := isHost na.type
    let hostB := isHost nb.type
    if accA && accB then return .acceleratorToAccelerator
    if (accA && hostB) || (hostA && accB) then return .hostToAccelerator
    if (hostA && nb.type = .storageDevice) || (hostB && na.type = .storageDevice) then
      return .hostToStorage
    if (hostA && nb.type = .networkInterface) || (hostB && na.type = .networkInterface) then
      return .hostToNetwork
    if isCpu na.type && isCpu nb.type then return .sameProcessor
    if isPciEndpoint na && isPciEndpoint nb then
      if ← commonBridge snap (parents snap a .contains) (parents snap b .contains) then
        return .samePciBridge
      let ra ← rootAncestor fuel snap a .pciRoot
      let rb ← rootAncestor fuel snap b .pciRoot
      if commonRoot ra rb then return .sameRootComplex
    classifyByNuma fuel snap na nb a b

end TopologyFabric

import TopologyFabric.Query.Cost
import TopologyFabric.Query.Locality
import TopologyFabric.Library.BreadthFirst

/-!
# Path Search

`shortest_path` is a breadth-first search and `lowest_cost_path` is Dijkstra's algorithm with lazy
deletion. Both stop when the destination is taken from the queue, follow the parent maps back, and
fill in the estimates of the path.

The functions take a step budget for their loops, and the cost functions take the rounding of the
arithmetic.
-/

namespace TopologyFabric

open Library

structure PathSegment where
  source : TopologyNodeId
  target : TopologyNodeId
  edgeIndex : ℕ
  edgeType : EdgeType
  edgeCost : Double
  deriving DecidableEq

/-- The answer of a path query. -/
structure TopologyPath where
  found : Bool := false
  source : TopologyNodeId
  destination : TopologyNodeId
  segments : List PathSegment := []
  hopCount : ℤ := 0
  pathClass : PathClass := .unknown
  locality : LocalityClass := .unknown
  totalCost : Double := .fin 0
  estimatedBandwidthBps : Double := .fin 0
  estimatedLatencyNs : Double := .fin 0
  confidence : Confidence := .unknown
  provenance : ProvenanceKind := .unknown
  costPolicyVersion : UInt32 := 0
  reasons : List Bytes := []
  deriving DecidableEq

/-! ## Shared parts -/

/-- A collocation edge is only followed on request. -/
def traverseEdge (snap : TopologySnapshot) (ref : EdgeRef) (inCollocation : Bool) : Run Bool := do
  let e ← snap.edge ref.edgeIndex
  return if collocationEdge e.type then inCollocation else true

/-- `std::numeric_limits<double>::max()`. -/
def doubleMax : Double := .fin ((2 ^ 53 - 1) * 2 ^ 971)

/-- Bottleneck bandwidth, summed latency, and whether there was a segment. -/
structure PathEstimate where
  bw : Double := doubleMax
  lat : Double := .fin 0
  anyBw : Bool := false

def estimateSegment (fl : Rounding) (snap : TopologySnapshot) (w : CostWeights)
    (acc : PathEstimate) (seg : PathSegment) : Run PathEstimate := do
  let un ← snap.node seg.source
  let vn ← snap.node seg.target
  let e ← snap.edge seg.edgeIndex
  let eb := edgeBandwidth un vn e w
  let el := edgeLatency un vn e
  return { bw := acc.bw.min eb, lat := acc.lat.add fl el, anyBw := true }

def fillPath (fl : Rounding) (fuel : ℕ) (snap : TopologySnapshot) (p : TopologyPath)
    (w : CostWeights) : Run TopologyPath := do
  let acc ← p.segments.foldlM (estimateSegment fl snap w) {}
  let bw := if acc.anyBw then acc.bw else w.bandwidthRefBps
  let locality ← localityBetween fuel snap p.source p.destination
  let pathClass ← classifyPath fuel snap p.source p.destination
  return { p with
    estimatedBandwidthBps := bw
    estimatedLatencyNs := acc.lat
    hopCount := p.segments.length
    locality := locality
    pathClass := pathClass
    costPolicyVersion := w.version
    confidence := .medium }

def endpointMissing : Bytes := str "endpoint node not present in snapshot"

def noPath : Bytes := str "no connected topology path between endpoints"

/-! ## Fewest hops -/

/-- The state of the search. -/
abbrev HopSearch := Bfs.State TopologyNodeId ℕ

/-- Look at one adjacency record of `cur`. -/
def hopVisit (snap : TopologySnapshot) (inCollocation : Bool) (cur : TopologyNodeId)
    (s : HopSearch) (ref : EdgeRef) : Run HopSearch := do
  if !(← traverseEdge snap ref inCollocation) then return s
  let nxt := ref.neighbor
  if nxt ∈ s.visited then return s
  return {
    queue := s.queue ++ [nxt]
    visited := insert nxt s.visited
    parent := Function.update s.parent nxt (some cur)
    via := Function.update s.via nxt (some ref.edgeIndex) }

/-- One round of the search; it leaves the loop with whether the destination was found. -/
def hopStep (snap : TopologySnapshot) (inCollocation : Bool) (dst : TopologyNodeId)
    (s : HopSearch) : Run (HopSearch ⊕ (Bool × HopSearch)) :=
  match s.queue with
  | [] => .ok (.inr (false, s))
  | cur :: rest =>
    if cur = dst then .ok (.inr (true, { s with queue := rest }))
    else do
      let s ← (snap.adjacency cur).foldlM (hopVisit snap inCollocation cur)
        { s with queue := rest }
      return .inl s

def hopInit (src : TopologyNodeId) : HopSearch where
  queue := [src]
  visited := {src}
  parent := fun _ => none
  via := fun _ => none

/-- One round of following the parents back; the segments so far come latest first. Reading a
map at a missing key gives the default. -/
def hopBackStep (snap : TopologySnapshot) (src : TopologyNodeId) (s : HopSearch)
    (st : TopologyNodeId × List PathSegment) :
    Run (TopologyNodeId × List PathSegment ⊕ List PathSegment) :=
  let (cur, segs) := st
  if cur = src then .ok (.inr segs)
  else do
    let prev := (s.parent cur).getD kNullNodeId
    let ei := (s.via cur).getD 0
    let e ← snap.edge ei
    return .inl (prev, ⟨prev, cur, ei, e.type, .fin 0⟩ :: segs)

def shortestPath (fl : Rounding) (fuel : ℕ) (snap : TopologySnapshot)
    (src dst : TopologyNodeId) (inCollocation : Bool) : Run TopologyPath :=
  let p : TopologyPath := { source := src, destination := dst }
  if (snap.findNode src).isNone || (snap.findNode dst).isNone then
    .ok { p with reasons := [endpointMissing] }
  else if src = dst then
    .ok { p with found := true, hopCount := 0, locality := .exact, pathClass := .sameObject }
  else do
    let (found, s) ← loop (hopStep snap inCollocation dst) fuel (hopInit src)
    if !found then return { p with reasons := [noPath] }
    let segs ← loop (hopBackStep snap src s) fuel (dst, [])
    fillPath fl fuel snap { p with segments := segs, found := true } {}

/-! ## Lowest cost -/

/-- The state of the search. `pq` lists the queued pairs in the order in which they are popped. -/
structure CostSearch where
  pq : List (Double × TopologyNodeId)
  dist : TopologyNodeId → Option Double
  parent : TopologyNodeId → Option TopologyNodeId
  cameEdge : TopologyNodeId → Option ℕ

/-- `operator<` of `std::pair<double, TopologyNodeId>`. -/
def entryLess (x y : Double × TopologyNodeId) : Bool :=
  x.1.lt y.1 || (!y.1.lt x.1 && decide (x.2 < y.2))

/-- `pq.push(x)`. -/
def pqPush (x : Double × TopologyNodeId) :
    List (Double × TopologyNodeId) → List (Double × TopologyNodeId)
  | [] => [x]
  | y :: l => if entryLess y x then y :: pqPush x l else x :: y :: l

/-- Look at one adjacency record of `u`, which was popped at distance `d`. -/
def costVisit (fl : Rounding) (snap : TopologySnapshot) (w : CostWeights) (u : TopologyNodeId)
    (d : Double) (s : CostSearch) (ref : EdgeRef) : Run CostSearch := do
  if !(← traverseEdge snap ref false) then return s
  let v := ref.neighbor
  let e ← snap.edge ref.edgeIndex
  let un ← snap.node u
  let vn ← snap.node v
  let nd := d.add fl (edgeTraversalCost fl un vn e w)
  if (s.dist v).all fun old => nd.lt old then
    return {
      dist := Function.update s.dist v (some nd)
      parent := Function.update s.parent v (some u)
      cameEdge := Function.update s.cameEdge v (some ref.edgeIndex)
      pq := pqPush (nd, v) s.pq }
  else return s

/-- One round of the search; it leaves the loop with whether the destination was found. The exit
stands before the check for outdated entries. -/
def costStep (fl : Rounding) (snap : TopologySnapshot) (w : CostWeights) (dst : TopologyNodeId)
    (s : CostSearch) : Run (CostSearch ⊕ (Bool × CostSearch)) :=
  match s.pq with
  | [] => .ok (.inr (false, s))
  | (d, u) :: rest =>
    if u = dst then .ok (.inr (true, { s with pq := rest }))
    else if ((s.dist u).getD (.fin 0)).lt d then .ok (.inl { s with pq := rest })
    else do
      let s ← (snap.adjacency u).foldlM (costVisit fl snap w u d) { s with pq := rest }
      return .inl s

def costInit (src : TopologyNodeId) : CostSearch where
  pq := [(.fin 0, src)]
  dist := Function.update (fun _ => none) src (some (.fin 0))
  parent := fun _ => none
  cameEdge := fun _ => none

/-- One round of following the parents back: the node, the total so far, and the segments so far,
latest first. -/
def costBackStep (fl : Rounding) (snap : TopologySnapshot) (w : CostWeights)
    (src : TopologyNodeId) (s : CostSearch) (st : TopologyNodeId × Double × List PathSegment) :
    Run (TopologyNodeId × Double × List PathSegment ⊕ Double × List PathSegment) :=
  let (cur, total, segs) := st
  if cur = src then .ok (.inr (total, segs))
  else do
    let prev := (s.parent cur).getD kNullNodeId
    let ei := (s.cameEdge cur).getD 0
    let e ← snap.edge ei
    let un ← snap.node prev
    let vn ← snap.node cur
    let ec := edgeTraversalCost fl un vn e w
    return .inl (prev, total.add fl ec, ⟨prev, cur, ei, e.type, ec⟩ :: segs)

/-- Whether the endpoints carry different NUMA nodes. -/
def crossesNuma (src dst : TopologyNode) : Bool :=
  match src.native.numaNode, dst.native.numaNode with
  | some a, some b => decide (a ≠ b)
  | _, _ => false

def lowestCostPath (fl : Rounding) (fuel : ℕ) (snap : TopologySnapshot)
    (src dst : TopologyNodeId) (weights : CostWeights) : Run TopologyPath :=
  let p : TopologyPath := { source := src, destination := dst }
  if (snap.findNode src).isNone || (snap.findNode dst).isNone then
    .ok { p with reasons := [endpointMissing] }
  else if src = dst then
    .ok { p with
      found := true, hopCount := 0, locality := .exact, pathClass := .sameObject
      costPolicyVersion := weights.version }
  else do
    let (found, s) ← loop (costStep fl snap weights dst) fuel (costInit src)
    if !found then return { p with reasons := [noPath] }
    let (total, segs) ← loop (costBackStep fl snap weights src s) fuel (dst, .fin 0, [])
    let srcNode ← snap.node src
    let dstNode ← snap.node dst
    let total :=
      if crossesNuma srcNode dstNode then total.add fl weights.numaPenalty else total
    fillPath fl fuel snap { p with segments := segs, found := true, totalCost := total } weights

end TopologyFabric

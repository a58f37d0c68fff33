import TopologyFabric.Query.CostSearch

/-!
# Cost Breakdowns and Distances

`cost_breakdown` adds up the cost terms of a path one by one, and `distance_between` summarizes a
shortest path.

## Main results

- `costBreakdown_returns`: the breakdown of a path whose segments can be looked up
- `distanceBetween_answers`: the distance of two different nodes that are not joined says so
-/

namespace TopologyFabric

open Library Filter

/-! ## Cost breakdowns -/

structure CostBreakdown where
  hopPenalty : Double := .fin 0
  numaPenalty : Double := .fin 0
  pciBridgePenalty : Double := .fin 0
  rootCrossingPenalty : Double := .fin 0
  latencyTerm : Double := .fin 0
  inverseBandwidthTerm : Double := .fin 0
  uncertaintyPenalty : Double := .fin 0
  policyPenalty : Double := .fin 0
  nodeTransitionPenalty : Double := .fin 0
  total : Double := .fin 0
  policyVersion : UInt32 := 0
  deriving DecidableEq

/-- A confidence that is charged for. -/
def Confidence.uncertain (c : Confidence) : Bool := c = .low || c = .unknown

/-- The terms of one edge. -/
def accumulate (fl : Rounding) (u v : TopologyNode) (e : TopologyEdge) (w : CostWeights)
    (cb : CostBreakdown) : CostBreakdown :=
  { cb with
    hopPenalty := cb.hopPenalty.add fl w.hopPenalty
    latencyTerm := cb.latencyTerm.add fl (w.latencyNsWeight.mul fl (edgeLatency u v e))
    inverseBandwidthTerm := cb.inverseBandwidthTerm.add fl
      (w.bandwidthScale.mul fl (w.bandwidthRefBps.div fl (edgeBandwidth u v e w)))
    pciBridgePenalty :=
      if v.type = .pciBridge then cb.pciBridgePenalty.add fl w.pciBridgePenalty
      else cb.pciBridgePenalty
    rootCrossingPenalty :=
      if v.type = .pciRoot then cb.rootCrossingPenalty.add fl w.rootCrossingPenalty
      else cb.rootCrossingPenalty
    nodeTransitionPenalty :=
      if hardwareClass u.type ≠ hardwareClass v.type then
        cb.nodeTransitionPenalty.add fl w.nodeTransitionPenalty
      else cb.nodeTransitionPenalty
    uncertaintyPenalty :=
      if e.confidence.uncertain then cb.uncertaintyPenalty.add fl w.uncertaintyPenalty
      else cb.uncertaintyPenalty
    policyPenalty := cb.policyPenalty.add fl w.policyPenalty }

def accumulateSegment (fl : Rounding) (snap : TopologySnapshot) (w : CostWeights)
    (cb : CostBreakdown) (seg : PathSegment) : Run CostBreakdown := do
  let u ← snap.node seg.source
  let v ← snap.node seg.target
  let e ← snap.edge seg.edgeIndex
  return accumulate fl u v e w cb

/-- The sum of the terms, in the order of the source. -/
def CostBreakdown.sum (fl : Rounding) (cb : CostBreakdown) : Double :=
  [cb.numaPenalty, cb.pciBridgePenalty, cb.rootCrossingPenalty, cb.latencyTerm,
    cb.inverseBandwidthTerm, cb.uncertaintyPenalty, cb.policyPenalty,
    cb.nodeTransitionPenalty].foldl (Double.add fl) cb.hopPenalty

/-- `cost_breakdown`: the NUMA penalty is charged for the ends of the path only. -/
def costBreakdown (fl : Rounding) (snap : TopologySnapshot) (path : TopologyPath)
    (weights : CostWeights) : Run CostBreakdown := do
  let cb ← path.segments.foldlM (accumulateSegment fl snap weights)
    { policyVersion := weights.version }
  let src ← snap.node path.source
  let dst ← snap.node path.destination
  let cb :=
    if crossesNuma src dst then
      { cb with numaPenalty := cb.numaPenalty.add fl weights.numaPenalty }
    else cb
  return { cb with total := cb.sum fl }

/-- `path_cost`. -/
def pathCost (fl : Rounding) (snap : TopologySnapshot) (path : TopologyPath)
    (weights : CostWeights) : Run CostBreakdown := costBreakdown fl snap path weights

/-! ## Distances -/

structure DistanceBreakdown where
  graphHops : ℤ := 0
  pciDepth : ℤ := 0
  rootCrossings : ℤ := 0
  deviceClassTransitions : ℤ := 0
  numaDistance : Option Double := none
  measuredLatencyNs : Option Double := none
  measuredBandwidthBps : Option Double := none
  configuredPenalty : Double := .fin 0
  uncertainty : Double := .fin 0
  normalizedScore : Double := .fin 0
  deriving DecidableEq

/-- Count the PCI bridges and roots that the segments enter. -/
def countPci (snap : TopologySnapshot) (n : ℤ) (seg : PathSegment) : Run ℤ := do
  let v ← snap.node seg.target
  return if v.type = .pciBridge ∨ v.type = .pciRoot then n + 1 else n

/-- Count the segments between nodes of different hardware classes. -/
def countTransition (snap : TopologySnapshot) (n : ℤ) (seg : PathSegment) : Run ℤ := do
  let u ← snap.node seg.source
  let v ← snap.node seg.target
  return if hardwareClass u.type ≠ hardwareClass v.type then n + 1 else n

/-- Charge the edges of low confidence. -/
def chargeUncertain (fl : Rounding) (snap : TopologySnapshot) (penalty : Double)
    (seg : PathSegment) : Run Double := do
  let e ← snap.edge seg.edgeIndex
  return if e.confidence.uncertain then penalty.add fl (.fin 1) else penalty

/-- 0 or 1 when both nodes carry a NUMA node. -/
def numaDistanceOf (a b : TopologyNode) : Option Double :=
  match a.native.numaNode, b.native.numaNode with
  | some x, some y => some (if x = y then .fin 0 else .fin 1)
  | _, _ => none

def distanceBetween (fl : Rounding) (fuel : ℕ) (snap : TopologySnapshot)
    (src dst : TopologyNodeId) (weights : CostWeights) : Run DistanceBreakdown :=
  if src = dst then .ok { graphHops := 0, normalizedScore := .fin 0 }
  else do
    let sp ← shortestPath fl fuel snap src dst false
    if !sp.found then
      return { graphHops := -1, normalizedScore := .fin 1, uncertainty := .fin 1 }
    let pciDepth ← sp.segments.foldlM (countPci snap) 0
    let ra ← rootAncestor fuel snap src .pciRoot
    let rb ← rootAncestor fuel snap dst .pciRoot
    let transitions ← sp.segments.foldlM (countTransition snap) 0
    let na ← snap.node src
    let nb ← snap.node dst
    let cb ← pathCost fl snap sp weights
    let uncertainty ← sp.segments.foldlM (chargeUncertain fl snap) (.fin 0)
    return {
      graphHops := sp.hopCount
      pciDepth := pciDepth
      rootCrossings := if ra ≠ kNullNodeId ∧ rb ≠ kNullNodeId ∧ ra ≠ rb then 1 else 0
      deviceClassTransitions := transitions
      numaDistance := numaDistanceOf na nb
      measuredLatencyNs := some sp.estimatedLatencyNs
      measuredBandwidthBps := some sp.estimatedBandwidthBps
      configuredPenalty := cb.policyPenalty
      uncertainty := uncertainty
      -- in [0, 1); lower is closer
      normalizedScore := cb.total.div fl (cb.total.add fl (.fin 1)) }

/-! ## The lookups succeed -/

section Returns

variable {snap : TopologySnapshot} {src dst : TopologyNodeId}

theorem accumulateSegment_returns (fl : Rounding) (w : CostWeights) (cb : CostBreakdown)
    (seg : PathSegment) (h : seg.Known snap) :
    ∃ cb', accumulateSegment fl snap w cb seg = .ok cb' := by
  obtain ⟨hs, ht, e, he⟩ := h
  obtain ⟨u, -, hu⟩ := hs.exists_node
  obtain ⟨v, -, hv⟩ := ht.exists_node
  simp only [accumulateSegment, hu, hv, TopologySnapshot.edge_eq_ok.mpr he, Outcome.ok_bind,
    Outcome.pure_eq_ok]
  exact ⟨_, rfl⟩

theorem countPci_returns (n : ℤ) (seg : PathSegment) (h : seg.Known snap) :
    ∃ n', countPci snap n seg = .ok n' := by
  obtain ⟨v, -, hv⟩ := h.2.1.exists_node
  simp only [countPci, hv, Outcome.ok_bind, Outcome.pure_eq_ok]
  exact ⟨_, rfl⟩

theorem countTransition_returns (n : ℤ) (seg : PathSegment) (h : seg.Known snap) :
    ∃ n', countTransition snap n seg = .ok n' := by
  obtain ⟨u, -, hu⟩ := h.1.exists_node
  obtain ⟨v, -, hv⟩ := h.2.1.exists_node
  simp only [countTransition, hu, hv, Outcome.ok_bind, Outcome.pure_eq_ok]
  exact ⟨_, rfl⟩

theorem chargeUncertain_returns (fl : Rounding) (penalty : Double) (seg : PathSegment)
    (h : seg.Known snap) : ∃ penalty', chargeUncertain fl snap penalty seg = .ok penalty' := by
  obtain ⟨-, -, e, he⟩ := h
  simp only [chargeUncertain, TopologySnapshot.edge_eq_ok.mpr he, Outcome.ok_bind, Outcome.pure_eq_ok]
  exact ⟨_, rfl⟩

/-- A path between nodes of the snapshot whose segments can be looked up has a breakdown. -/
theorem costBreakdown_returns (fl : Rounding) (w : CostWeights) {path : TopologyPath}
    (hsegs : ∀ seg ∈ path.segments, seg.Known snap)
    (hsrc : snap.Present path.source) (hdst : snap.Present path.destination) :
    ∃ cb, costBreakdown fl snap path w = .ok cb := by
  obtain ⟨cb, hcb⟩ := Outcome.foldlM_returns (accumulateSegment_returns fl w) path.segments
    { policyVersion := w.version } hsegs
  obtain ⟨a, -, ha⟩ := hsrc.exists_node
  obtain ⟨b, -, hb⟩ := hdst.exists_node
  simp only [costBreakdown, hcb, ha, hb, Outcome.ok_bind, Outcome.pure_eq_ok]
  exact ⟨_, rfl⟩

/-- The distance between two different nodes is there, and it has no hops iff they are not
joined. -/
theorem distanceBetween_answers (fl : Rounding) (w : CostWeights)
    (hstay : Enclosed snap false src dst) :
    ∃ d, Returns (fun fuel => distanceBetween fl fuel snap src dst w) d ∧
      (src = dst → d.graphHops = 0) ∧
      (src ≠ dst → ¬ Joined snap false src dst → d.graphHops = -1) := by
  by_cases hne : src = dst
  · refine ⟨_, Eventually.of_forall fun fuel => if_pos hne, fun _ => rfl, ?_⟩
    intro hne'
    exact absurd hne hne'
  obtain ⟨sp, hret, hsp⟩ := shortestPath_answers fl false hstay
  cases hfound : sp.found with
  | false =>
    refine ⟨{ graphHops := -1, normalizedScore := .fin 1, uncertainty := .fin 1 }, ?_,
      fun h => absurd h hne, fun _ _ => rfl⟩
    filter_upwards [hret] with fuel h
    simp only [distanceBetween, if_neg hne, h, Outcome.ok_bind, hfound]
    rfl
  | true =>
    have hjoined := hsp.found.mp hfound
    have ⟨hsrc, hdst, _⟩ := hjoined
    obtain ⟨depth, hdepth⟩ := Outcome.foldlM_returns countPci_returns sp.segments 0 hsp.known
    obtain ⟨crossed, hcrossed⟩ :=
      Outcome.foldlM_returns countTransition_returns sp.segments 0 hsp.known
    obtain ⟨na, -, hna⟩ := hsrc.exists_node
    obtain ⟨nb, -, hnb⟩ := hdst.exists_node
    obtain ⟨cb, hcb⟩ := costBreakdown_returns fl w hsp.known (hsp.source ▸ hsrc)
      (hsp.destination ▸ hdst)
    obtain ⟨charge, hcharge⟩ :=
      Outcome.foldlM_returns (chargeUncertain_returns fl) sp.segments (.fin 0) hsp.known
    -- one step for each lookup of the query, in its order
    have hfinish : Finishes fun fuel => distanceBetween fl fuel snap src dst w := by
      simp only [distanceBetween, if_neg hne]
      refine Finishes.bind ⟨sp, hret⟩ fun sp' hsp' => ?_
      obtain rfl := hret.unique hsp'
      simp only [hfound, Bool.not_true, Bool.false_eq_true, if_false]
      refine Finishes.ok_bind hdepth ?_
      refine Finishes.bind (rootAncestor_finishes src .pciRoot) fun ra _ => ?_
      refine Finishes.bind (rootAncestor_finishes dst .pciRoot) fun rb _ => ?_
      refine Finishes.ok_bind hcrossed ?_
      refine Finishes.ok_bind hna (Finishes.ok_bind hnb ?_)
      refine Finishes.ok_bind hcb (Finishes.ok_bind hcharge ?_)
      exact Finishes.ok _
    obtain ⟨d, hd⟩ := hfinish
    exact ⟨d, hd, fun h => absurd h hne, fun _ h => absurd hjoined h⟩

end Returns

end TopologyFabric

import TopologyFabric.Core.Snapshot

/-!
# Traversal Costs

The policy weights and the cost of traversing one edge. An edge may be traversed in either
direction, and its cost depends on the direction, because defaults and penalties look at the node
that is entered.

## Main results

- `edgeTraversalCost_isFinite`: the guard makes every cost a finite number
- `edgeTraversalCost_nonneg_rounded`: nonnegative weights and latencies give nonnegative costs
-/

namespace TopologyFabric

/-! ## Hardware classes -/

inductive HardwareClass where
  | cpu | accelerator | pci | memory | storage | network | machine | other
  deriving DecidableEq, Repr

def hardwareClass : NodeType → HardwareClass
  | .cpuPackage | .cpuCore | .cpuThread => .cpu
  | .accelerator | .acceleratorMemoryDomain => .accelerator
  | .pciRoot | .pciBridge | .pciDevice => .pci
  | .numaNode | .hostMemoryDomain | .sharedMemoryDomain => .memory
  | .storageDevice => .storage
  | .networkInterface => .network
  | .machine => .machine
  | .unknown | .extension => .other

/-- Conservative default by the class of the node that is entered. -/
def defaultLatencyNs (_u v : TopologyNode) : Double :=
  match v.type with
  | .accelerator => .fin 300
  | .cpuThread => .fin 60
  | .pciBridge => .fin 120
  | .pciRoot => .fin 250
  | .storageDevice => .fin 80
  | .networkInterface => .fin 500
  | _ => .fin 100

/-- Conservative default by the class of the node that is entered. -/
def defaultBandwidthBps (_u v : TopologyNode) : Double :=
  match v.type with
  | .accelerator => .fin 32000000000
  | .cpuThread => .fin 32000000000
  | .pciBridge => .fin 16000000000
  | .pciRoot => .fin 16000000000
  | .storageDevice => .fin 3000000000
  | .networkInterface => .fin 10000000000
  | _ => .fin 8000000000

/-! ## Weights -/

structure CostWeights where
  hopPenalty : Double := .fin 1
  numaPenalty : Double := .fin 20
  pciBridgePenalty : Double := .fin 5
  rootCrossingPenalty : Double := .fin 40
  latencyNsWeight : Double := binary64 (1 / 2000)
  bandwidthScale : Double := .fin (1 / 4)
  bandwidthRefBps : Double := .fin 64000000000
  uncertaintyPenalty : Double := .fin 4
  policyPenalty : Double := .fin 0
  nodeTransitionPenalty : Double := .fin 8
  version : UInt32 := 1

/-- Every weight is at least zero. -/
structure CostWeights.Nonneg (w : CostWeights) : Prop where
  hopPenalty : w.hopPenalty.Nonneg
  numaPenalty : w.numaPenalty.Nonneg
  pciBridgePenalty : w.pciBridgePenalty.Nonneg
  rootCrossingPenalty : w.rootCrossingPenalty.Nonneg
  latencyNsWeight : w.latencyNsWeight.Nonneg
  bandwidthScale : w.bandwidthScale.Nonneg
  bandwidthRefBps : w.bandwidthRefBps.Nonneg
  uncertaintyPenalty : w.uncertaintyPenalty.Nonneg
  policyPenalty : w.policyPenalty.Nonneg
  nodeTransitionPenalty : w.nodeTransitionPenalty.Nonneg

/-! ## The cost of an edge -/

/-- `e.latency_ns`, or the default. -/
def edgeLatency (u v : TopologyNode) (e : TopologyEdge) : Double :=
  e.latencyNs.getD (defaultLatencyNs u v)

/-- `e.bandwidth_bytes_per_sec`, or the default; the reference when that is not positive. -/
def edgeBandwidth (u v : TopologyNode) (e : TopologyEdge) (w : CostWeights) : Double :=
  let bw := e.bandwidthBytesPerSec.getD (defaultBandwidthBps u v)
  if bw.le (.fin 0) then w.bandwidthRefBps else bw

/-- The sum of the terms, before the guard. -/
def edgeCostTerms (fl : Rounding) (u v : TopologyNode) (e : TopologyEdge) (w : CostWeights) :
    Double :=
  let cost := w.hopPenalty
  let cost := cost.add fl (w.latencyNsWeight.mul fl (edgeLatency u v e))
  let cost := cost.add fl
    (w.bandwidthScale.mul fl (w.bandwidthRefBps.div fl (edgeBandwidth u v e w)))
  let cost := if v.type = .pciBridge then cost.add fl w.pciBridgePenalty else cost
  let cost := if v.type = .pciRoot then cost.add fl w.rootCrossingPenalty else cost
  let cost :=
    if hardwareClass u.type ≠ hardwareClass v.type then cost.add fl w.nodeTransitionPenalty
    else cost
  let cost :=
    if e.confidence = .low ∨ e.confidence = .unknown then cost.add fl w.uncertaintyPenalty
    else cost
  cost.add fl w.policyPenalty

/-- The cost of going from `u` to `v` along `e`; a NaN or an infinity becomes a huge finite
penalty. -/
def edgeTraversalCost (fl : Rounding) (u v : TopologyNode) (e : TopologyEdge) (w : CostWeights) :
    Double :=
  let cost := edgeCostTerms fl u v e w
  if cost.isNan || cost.isInf then .fin 1000000000000000 else cost

def collocationEdge (t : EdgeType) : Bool := t = .sharesParent || t = .sharesNuma

/-! ## Facts about costs -/

/-- Neither NaN nor an infinity. -/
def Double.IsFinite (x : Double) : Prop := x.isNan = false ∧ x.isInf = false

theorem edgeTraversalCost_isFinite (fl : Rounding) (u v : TopologyNode) (e : TopologyEdge)
    (w : CostWeights) : (edgeTraversalCost fl u v e w).IsFinite := by
  unfold edgeTraversalCost Double.IsFinite
  simp only
  split
  · exact ⟨rfl, rfl⟩
  · rename_i h
    simpa using h

/-- A sum of finite values is the rounded sum of the numbers. -/
theorem Double.IsFinite.add_eq {fl : Rounding} {x y : Double} (hx : x.IsFinite) (hy : y.IsFinite) :
    x.add fl y = fl (x.toRat + y.toRat) := by
  obtain ⟨hx, hx'⟩ := hx
  obtain ⟨hy, hy'⟩ := hy
  cases x <;> cases y <;> first | rfl | contradiction

/-- A finite summand leaves an infinity as it is. -/
theorem Double.IsFinite.inf_add {fl : Rounding} {y : Double} (hy : y.IsFinite) (neg : Bool) :
    (Double.inf neg).add fl y = .inf neg := by
  obtain ⟨hy, hy'⟩ := hy
  cases y <;> first | rfl | contradiction

/-- A sum is finite only when both summands are. -/
theorem Double.IsFinite.of_add {fl : Rounding} {x y : Double} (h : (x.add fl y).IsFinite) :
    x.IsFinite ∧ y.IsFinite := by
  obtain ⟨hnan, hinf⟩ := h
  cases x with
  | nan => cases hnan
  | inf a =>
    cases y with
    | nan => cases hnan
    | inf b =>
      simp only [Double.add] at hnan hinf
      split at hinf <;> simp_all [Double.isNan, Double.isInf]
    | negZero => cases hinf
    | fin q => cases hinf
  | negZero =>
    cases y with
    | nan => cases hnan
    | inf b => cases hinf
    | negZero => exact ⟨⟨rfl, rfl⟩, rfl, rfl⟩
    | fin q => exact ⟨⟨rfl, rfl⟩, rfl, rfl⟩
  | fin p =>
    cases y with
    | nan => cases hnan
    | inf b => cases hinf
    | negZero => exact ⟨⟨rfl, rfl⟩, rfl, rfl⟩
    | fin q => exact ⟨⟨rfl, rfl⟩, rfl, rfl⟩

/-- The cost of an edge is the large penalty or a rounded sum. -/
theorem edgeTraversalCost_cases (fl : Rounding) (u v : TopologyNode) (e : TopologyEdge)
    (w : CostWeights) : edgeTraversalCost fl u v e w = .fin 1000000000000000 ∨
      ∃ q, edgeTraversalCost fl u v e w = fl q := by
  obtain ⟨c, hc⟩ : ∃ c : Double, edgeCostTerms fl u v e w = c.add fl w.policyPenalty := ⟨_, rfl⟩
  unfold edgeTraversalCost
  rw [hc]
  by_cases h : ((c.add fl w.policyPenalty).isNan || (c.add fl w.policyPenalty).isInf) = true
  · exact Or.inl (if_pos h)
  · have hfinite : (c.add fl w.policyPenalty).IsFinite := by simpa [Double.IsFinite] using h
    obtain ⟨hx, hy⟩ := hfinite.of_add
    exact Or.inr ⟨_, (if_neg h).trans (hx.add_eq hy)⟩

/-- In exact arithmetic a cost is a plain number. -/
theorem edgeTraversalCost_exact (u v : TopologyNode) (e : TopologyEdge) (w : CostWeights) :
    ∃ q, edgeTraversalCost exact u v e w = .fin q := by
  rcases edgeTraversalCost_cases exact u v e w with h | ⟨q, h⟩
  · exact ⟨_, h⟩
  · exact ⟨q, h⟩

private theorem notNeg_add_if {fl : Rounding} (hfl : Double.KeepsSign fl) {c x : Double}
    {P : Prop} [Decidable P] (hc : c.NotNeg) (hx : x.Nonneg) :
    (if P then c.add fl x else c).NotNeg := by
  split
  · exact hc.add hfl hx.notNeg
  · exact hc

theorem defaultLatencyNs_nonneg (u v : TopologyNode) : (defaultLatencyNs u v).Nonneg := by
  unfold defaultLatencyNs
  split <;> simp

/-- The bandwidth that enters the cost is positive or NaN, or it is the reference. -/
theorem edgeBandwidth_cases (u v : TopologyNode) (e : TopologyEdge) (w : CostWeights) :
    (edgeBandwidth u v e w = .nan ∨ (edgeBandwidth u v e w).Pos) ∨
      edgeBandwidth u v e w = w.bandwidthRefBps := by
  unfold edgeBandwidth
  simp only
  generalize e.bandwidthBytesPerSec.getD (defaultBandwidthBps u v) = bw
  -- a bandwidth that is not positive gives way to the reference; a NaN does not
  split
  · exact Or.inr rfl
  · rename_i h
    left
    cases bw with
    | nan => exact Or.inl rfl
    | inf neg =>
      cases neg with
      | false => right; decide
      | true => exact absurd (by decide) h
    | negZero => exact absurd (by decide) h
    | fin q =>
      refine Or.inr ?_
      have hq : ¬ q ≤ 0 := by simpa [Double.le, Double.rank, Prod.Lex.toLex_le_toLex] using h
      rw [Double.Pos, Double.lt_fin, decide_eq_true_eq]
      exact not_le.mp hq

theorem edgeBandwidth_pos {u v : TopologyNode} {e : TopologyEdge} {w : CostWeights}
    (href : w.bandwidthRefBps.Pos) :
    edgeBandwidth u v e w = .nan ∨ (edgeBandwidth u v e w).Pos := by
  rcases edgeBandwidth_cases u v e w with h | h
  · exact h
  · exact Or.inr (h ▸ href)

/-- Nonnegative weights and latencies give a nonnegative finite cost, if the term for the bandwidth
is not negative. -/
private theorem edgeTraversalCost_nonneg_of_quotient {fl : Rounding} (hfl : Double.KeepsSign fl)
    {u v : TopologyNode} {e : TopologyEdge} {w : CostWeights} (hw : w.Nonneg)
    (hlat : ∀ l, e.latencyNs = some l → l.NotNeg)
    (hquotient : (w.bandwidthRefBps.div fl (edgeBandwidth u v e w)).NotNeg) :
    (edgeTraversalCost fl u v e w).Nonneg := by
  have hlatency : (edgeLatency u v e).NotNeg := by
    unfold edgeLatency
    cases h : e.latencyNs with
    | none => exact (defaultLatencyNs_nonneg u v).notNeg
    | some l => exact hlat l h
  have hterms : (edgeCostTerms fl u v e w).NotNeg := by
    unfold edgeCostTerms
    -- the terms in the order in which the code adds them
    have h1 := hw.hopPenalty.notNeg.add hfl (hw.latencyNsWeight.notNeg.mul hfl hlatency)
    have h2 := h1.add hfl (hw.bandwidthScale.notNeg.mul hfl hquotient)
    have h3 := notNeg_add_if (P := v.type = .pciBridge) hfl h2 hw.pciBridgePenalty
    have h4 := notNeg_add_if (P := v.type = .pciRoot) hfl h3 hw.rootCrossingPenalty
    have h5 := notNeg_add_if (P := hardwareClass u.type ≠ hardwareClass v.type) hfl h4
      hw.nodeTransitionPenalty
    have h6 := notNeg_add_if (P := e.confidence = .low ∨ e.confidence = .unknown) hfl h5
      hw.uncertaintyPenalty
    exact h6.add hfl hw.policyPenalty.notNeg
  unfold edgeTraversalCost
  simp only
  split
  · simp
  · -- what is left behind the guard is a number
    rename_i hguard
    rcases hterms with h | h
    · simp [h, Double.isNan] at hguard
    · exact h

/-- In exact arithmetic nonnegative weights and latencies give a nonnegative finite cost. -/
theorem edgeTraversalCost_nonneg {u v : TopologyNode} {e : TopologyEdge} {w : CostWeights}
    (hw : w.Nonneg) (href : w.bandwidthRefBps.Pos)
    (hlat : ∀ l, e.latencyNs = some l → l.Nonneg) :
    (edgeTraversalCost exact u v e w).Nonneg :=
  edgeTraversalCost_nonneg_of_quotient Double.keepsSign_exact hw (fun l hl => (hlat l hl).notNeg)
    (hw.bandwidthRefBps.notNeg.div Double.keepsSign_exact (edgeBandwidth_pos href))

/-- With rounding, the same holds for a reference bandwidth of zero: then a bandwidth that is not
positive makes the quotient NaN. -/
theorem edgeTraversalCost_nonneg_rounded {fl : Rounding} (hfl : Double.KeepsSign fl)
    {u v : TopologyNode} {e : TopologyEdge} {w : CostWeights} (hw : w.Nonneg)
    (hlat : ∀ l, e.latencyNs = some l → l.NotNeg) : (edgeTraversalCost fl u v e w).Nonneg := by
  refine edgeTraversalCost_nonneg_of_quotient hfl hw hlat ?_
  rcases edgeBandwidth_cases u v e w with h | h
  · exact hw.bandwidthRefBps.notNeg.div hfl h
  · rw [h]
    exact hw.bandwidthRefBps.notNeg.div_self hfl

end TopologyFabric

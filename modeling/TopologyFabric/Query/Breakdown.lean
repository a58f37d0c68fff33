import TopologyFabric.Query.ExactSum
import TopologyFabric.Query.LowestCostPath
import TopologyFabric.Query.Ranking

/-!
# Totals and Breakdowns

The cost of an edge is written twice: as one number for the search, and term by term for the
breakdown. Both add up the same terms, but only the search replaces a sum that is NaN or infinite
by a large number.

## Main results

- `accumulate_sum`: an edge adds the terms of its cost to a breakdown
- `costPaths_agree_iff`: when the total of a breakdown is that of the path
- `costPaths_disagree`: a path over an edge with an infinite latency
-/

namespace TopologyFabric

open Library

/-! ## The breakdown -/

section Accumulate

variable {snap : TopologySnapshot} {w : CostWeights}

/-- An edge adds the terms of its cost. -/
theorem accumulate_sum (u v : TopologyNode) (e : TopologyEdge) (cb : CostBreakdown) :
    (accumulate exact u v e w cb).sum exact =
      (cb.sum exact).add exact (edgeCostTerms exact u v e w) := by
  have huncertain : (e.confidence.uncertain = true) ↔
      (e.confidence = .low ∨ e.confidence = .unknown) := by
    simp [Confidence.uncertain]
  simp only [accumulate, edgeCostTerms, CostBreakdown.sum, List.foldl_cons, List.foldl_nil,
    huncertain]
  -- the terms of both sides in each case, up to their order
  split_ifs <;> ac_rfl

/-- The NUMA penalty is a term of its own. -/
theorem sum_numaPenalty (cb : CostBreakdown) :
    ({ cb with numaPenalty := cb.numaPenalty.add exact w.numaPenalty } : CostBreakdown).sum exact =
      (cb.sum exact).add exact w.numaPenalty := by
  simp only [CostBreakdown.sum, List.foldl_cons, List.foldl_nil]
  ac_rfl

end Accumulate

/-! ## The two totals -/

/-- What `edge_traversal_cost` adds up for a segment, before its guard. -/
def segmentTerms (snap : TopologySnapshot) (w : CostWeights) (seg : PathSegment) : Double :=
  match snap.findNode seg.source, snap.findNode seg.target, snap.edges[seg.edgeIndex]? with
  | some u, some v, some e => edgeCostTerms exact u v e w
  | _, _, _ => .fin 0

/-- The NUMA penalty, if the ends carry different NUMA nodes. -/
def numaTerms (snap : TopologySnapshot) (w : CostWeights) (src dst : TopologyNodeId) :
    List Double :=
  match snap.findNode src, snap.findNode dst with
  | some a, some b => if crossesNuma a b then [w.numaPenalty] else []
  | _, _ => []

/-- The guard of `edge_traversal_cost`. -/
def guardCost (cost : Double) : Double :=
  if cost.isNan || cost.isInf then .fin 1000000000000000 else cost

section Totals

variable {snap : TopologySnapshot} {w : CostWeights} {src dst : TopologyNodeId}

theorem segmentTerms_eq {seg : PathSegment} {u v : TopologyNode} {e : TopologyEdge}
    (hu : snap.findNode seg.source = some u) (hv : snap.findNode seg.target = some v)
    (he : snap.edges[seg.edgeIndex]? = some e) :
    segmentTerms snap w seg = edgeCostTerms exact u v e w := by
  simp only [segmentTerms, hu, hv, he]

/-- The costs of the segments are their guarded terms. -/
theorem SegmentsCosted.map_edgeCost {segs : List PathSegment} (h : SegmentsCosted snap w segs) :
    segs.map PathSegment.edgeCost = (segs.map (segmentTerms snap w)).map guardCost := by
  rw [List.map_map]
  refine List.map_congr_left fun seg hseg => ?_
  obtain ⟨u, v, e, hu, hv, he, hcost⟩ := h seg hseg
  rw [hcost, Function.comp_apply, segmentTerms_eq hu hv he]
  rfl

/-- The loop over the segments of a path adds up their terms. -/
theorem accumulateSegments_sum {segs : List PathSegment} (cb : CostBreakdown)
    (h : SegmentsCosted snap w segs) :
    ∃ cb', segs.foldlM (accumulateSegment exact snap w) cb = .ok cb' ∧
      cb'.sum exact = (segs.map (segmentTerms snap w)).foldl (Double.add exact) (cb.sum exact) := by
  induction segs generalizing cb with
  | nil => exact ⟨cb, rfl, rfl⟩
  | cons seg segs ih =>
    obtain ⟨u, v, e, hu, hv, he, -⟩ := h seg (List.mem_cons_self ..)
    have hstep : accumulateSegment exact snap w cb seg = .ok (accumulate exact u v e w cb) := by
      simp only [accumulateSegment, TopologySnapshot.node_eq_ok.mpr hu,
        TopologySnapshot.node_eq_ok.mpr hv, TopologySnapshot.edge_eq_ok.mpr he, Outcome.ok_bind,
        Outcome.pure_eq_ok]
    obtain ⟨cb', hcb', hsum⟩ := @ih (accumulate exact u v e w cb)
      fun seg' hseg' => h seg' (List.mem_cons_of_mem _ hseg')
    refine ⟨cb', ?_, ?_⟩
    · rw [List.foldlM_cons, hstep, Outcome.ok_bind, hcb']
    · rw [hsum, List.map_cons, List.foldl_cons, accumulate_sum, segmentTerms_eq hu hv he]

/-- The total of a breakdown is the sum of the terms. -/
theorem costBreakdown_total {p : TopologyPath} (h : SegmentsCosted snap w p.segments)
    (hsrc : snap.Present p.source) (hdst : snap.Present p.destination) :
    ∃ cb, costBreakdown exact snap p w = .ok cb ∧
      cb.total = exactSum (p.segments.map (segmentTerms snap w) ++
        numaTerms snap w p.source p.destination) := by
  obtain ⟨cb, hcb, hsum⟩ := accumulateSegments_sum { policyVersion := w.version } h
  obtain ⟨a, ha, ha'⟩ := hsrc.exists_node
  obtain ⟨b, hb, hb'⟩ := hdst.exists_node
  have hzero : ({ policyVersion := w.version } : CostBreakdown).sum exact = .fin 0 := by
    simp [CostBreakdown.sum, Double.add_exact]
  rw [hzero] at hsum
  simp only [costBreakdown, hcb, ha', hb', Outcome.ok_bind, Outcome.pure_eq_ok, numaTerms, ha, hb]
  refine ⟨_, rfl, ?_⟩
  split_ifs with hcross
  · rw [exactSum_append_singleton, exactSum, ← hsum]
    exact sum_numaPenalty cb
  · rw [List.append_nil, exactSum, ← hsum]

/-- A round of the walk back is the last one, or it adds a segment with its cost. -/
theorem costBackStep_cases {fl : Rounding} {s : CostSearch} {cur : TopologyNodeId} {total : Double}
    {segs : List PathSegment}
    {t : TopologyNodeId × Double × List PathSegment ⊕ Double × List PathSegment}
    (h : costBackStep fl snap w src s (cur, total, segs) = .ok t) :
    t = .inr (total, segs) ∨
      ∃ prev i u v e, snap.findNode prev = some u ∧ snap.findNode cur = some v ∧
        snap.edges[i]? = some e ∧
        t = .inl (prev, total.add fl (edgeTraversalCost fl u v e w),
          ⟨prev, cur, i, e.type, edgeTraversalCost fl u v e w⟩ :: segs) := by
  unfold costBackStep at h
  simp only at h
  -- the walk back is at the source, or takes the edge by which the node was reached
  split_ifs at h
  · exact Or.inl (Outcome.ok.inj h).symm
  · obtain ⟨e, he, h⟩ := Outcome.bind_eq_ok.mp h
    obtain ⟨u, hu, h⟩ := Outcome.bind_eq_ok.mp h
    obtain ⟨v, hv, h⟩ := Outcome.bind_eq_ok.mp h
    exact Or.inr ⟨_, _, u, v, e, TopologySnapshot.node_eq_ok.mp hu,
      TopologySnapshot.node_eq_ok.mp hv, TopologySnapshot.edge_eq_ok.mp he,
      (Outcome.ok.inj h).symm⟩

/-- The segments have their costs, and these add up to the total. -/
def CostedTotal (snap : TopologySnapshot) (w : CostWeights) (total : Double)
    (segs : List PathSegment) : Prop :=
  SegmentsCosted snap w segs ∧ total = exactSum (segs.map PathSegment.edgeCost)

/-- Following the parents back adds up the costs of the segments. -/
theorem costBack_total {fuel : ℕ} {s : CostSearch} {total : Double} {segs : List PathSegment}
    (h : loop (costBackStep exact snap w src s) fuel (dst, .fin 0, []) = .ok (total, segs)) :
    CostedTotal snap w total segs := by
  -- the invariant: the segments so far add up to the total so far
  have hround : ∀ st : TopologyNodeId × Double × List PathSegment,
      CostedTotal snap w st.2.1 st.2.2 →
      ∀ st', costBackStep exact snap w src s st = .ok (.inl st') →
        CostedTotal snap w st'.2.1 st'.2.2 := by
    rintro ⟨cur, total, segs⟩ ⟨hcosted, htotal⟩ st' hstep
    rcases costBackStep_cases hstep with h | ⟨prev, i, u, v, e, hu, hv, he, h⟩
    · cases h
    · obtain rfl := Sum.inl.inj h
      refine ⟨fun seg hseg => ?_, by rw [List.map_cons, exactSum_cons, ← htotal]⟩
      rcases List.mem_cons.mp hseg with rfl | hseg
      · exact ⟨u, v, e, hu, hv, he, rfl⟩
      · exact hcosted seg hseg
  have hexit : ∀ st : TopologyNodeId × Double × List PathSegment,
      CostedTotal snap w st.2.1 st.2.2 →
      ∀ r, costBackStep exact snap w src s st = .ok (.inr r) → CostedTotal snap w r.1 r.2 := by
    rintro ⟨cur, total, segs⟩ hinv r hstep
    rcases costBackStep_cases hstep with h | ⟨prev, i, u, v, e, -, -, -, h⟩
    · obtain rfl := Sum.inr.inj h
      exact hinv
    · cases h
  have hinit : CostedTotal snap w (.fin 0) [] := ⟨by simp [SegmentsCosted], rfl⟩
  exact loop_partial hround hexit fuel (dst, .fin 0, []) hinit (total, segs) h

theorem numaTerms_eq {a b : TopologyNode} (ha : snap.findNode src = some a)
    (hb : snap.findNode dst = some b) :
    numaTerms snap w src dst = if crossesNuma a b then [w.numaPenalty] else [] := by
  simp only [numaTerms, ha, hb]

theorem numaTerms_self (id : TopologyNodeId) : numaTerms snap w id id = [] := by
  unfold numaTerms crossesNuma
  cases snap.findNode id with
  | none => rfl
  | some n => cases hn : n.native.numaNode <;> simp [hn]

/-- What the search knows of a path that it returns. -/
structure PathCosted (snap : TopologySnapshot) (w : CostWeights) (src dst : TopologyNodeId)
    (p : TopologyPath) : Prop where
  presentSource : snap.Present src
  presentDestination : snap.Present dst
  source : p.source = src
  destination : p.destination = dst
  segments : SegmentsCosted snap w p.segments
  total : p.totalCost =
    exactSum (p.segments.map PathSegment.edgeCost ++ numaTerms snap w src dst)

/-- The total of a path is the sum of the costs of its segments and the NUMA penalty. -/
theorem lowestCostPath_costed {fuel : ℕ} {p : TopologyPath}
    (h : lowestCostPath exact fuel snap src dst w = .ok p) (hfound : p.found = true) :
    PathCosted snap w src dst p := by
  obtain ⟨hsrc, hdst⟩ := lowestCostPath_present h hfound
  by_cases hne : src = dst
  · subst hne
    obtain rfl := lowestCostPath_self_ok hsrc h
    refine ⟨hsrc, hsrc, rfl, rfl, by simp [SegmentsCosted], ?_⟩
    rw [numaTerms_self]
    rfl
  · rcases lowestCostPath_cases hsrc hdst hne h with
      rfl | ⟨s, total, segs, a, b, -, hback, ha, hb, hfilled⟩
    · cases hfound
    -- the total of the way back, and the NUMA penalty on top of it
    obtain ⟨hcosted, rfl⟩ := costBack_total hback
    refine ⟨hsrc, hdst, hfilled.source, hfilled.destination, hfilled.segments ▸ hcosted, ?_⟩
    rw [hfilled.totalCost, hfilled.segments, numaTerms_eq ha hb]
    simp only
    split_ifs with hcross
    · rw [exactSum_append_singleton]
    · rw [List.append_nil]

end Totals

/-! ## Guarded sums -/

/-- The guard turns every value into a finite one and keeps finite ones. -/
theorem guardCost_isFinite (x : Double) : (guardCost x).IsFinite := by
  unfold guardCost
  split_ifs with h
  · exact ⟨rfl, rfl⟩
  · simpa [Double.IsFinite] using h

theorem guardCost_of_isFinite {x : Double} (h : x.IsFinite) : guardCost x = x := by
  unfold guardCost
  rw [h.1, h.2]
  rfl

/-- The guard cannot be seen in a sum with further terms: it replaces nothing, or another term is
NaN or the only infinity. -/
def GuardUnseen (terms rest : List Double) : Prop :=
  (∀ x ∈ terms, x.IsFinite) ∨
    ∃ y ∈ rest, y = .nan ∨ ∃ neg, y = .inf neg ∧ ∀ x ∈ terms, x.IsFinite ∨ x = .inf neg

section Guard

variable {terms : List Double} {q : ℚ} {neg : Bool}

/-- A number and an infinity become equal by adding NaN or that infinity. -/
theorem inf_add_eq_iff (y : Double) :
    (Double.inf neg).add exact y = (Double.fin q).add exact y ↔ y = .nan ∨ y = .inf neg := by
  rcases y.isFinite_or with hy | rfl | ⟨neg', rfl⟩
  · rw [hy.inf_add, (Double.isFinite_fin q).add hy]
    refine iff_of_false (fun h => by cases h) ?_
    rintro (rfl | rfl)
    · exact Double.not_isFinite_nan hy
    · exact Double.not_isFinite_inf neg hy
  · exact iff_of_true rfl (Or.inl rfl)
  · by_cases hsame : neg = neg'
    · subst hsame
      exact iff_of_true (by simp [Double.add]) (Or.inr rfl)
    · simp [Double.add, hsame, Ne.symm hsame]

/-- A number and NaN become equal by adding NaN. -/
theorem nan_add_eq_iff (y : Double) :
    Double.nan.add exact y = (Double.fin q).add exact y ↔ y = .nan := by
  cases y <;> simp [Double.add, exact]

/-- Exactly then the sums with and without the guard are equal. -/
theorem exactSum_guardCost_iff (terms : List Double) {rest : List Double}
    (hrest : rest = [] ∨ ∃ y, rest = [y]) :
    exactSum (terms ++ rest) = exactSum (terms.map guardCost ++ rest) ↔
      GuardUnseen terms rest := by
  have hguarded : ∀ x ∈ terms.map guardCost, x.IsFinite := by
    intro x hx
    obtain ⟨c, -, rfl⟩ := List.mem_map.mp hx
    exact guardCost_isFinite c
  rcases exactSum_cases terms with ⟨hfinite, -⟩ | ⟨neg, hmem, hall, hsum⟩ | ⟨hall, hsum⟩
  · have hsame : terms.map guardCost = terms :=
      (List.map_congr_left fun x hx => guardCost_of_isFinite (hfinite x hx)).trans (List.map_id' _)
    rw [hsame]
    exact iff_of_true rfl (Or.inl hfinite)
  · have hinf : ¬ ∀ x ∈ terms, x.IsFinite := fun h => Double.not_isFinite_inf neg (h _ hmem)
    rcases hrest with rfl | ⟨y, rfl⟩
    · rw [List.append_nil, List.append_nil, hsum, exactSum_of_isFinite hguarded]
      exact iff_of_false (fun h => by cases h) (by simp [GuardUnseen, hinf])
    · rw [exactSum_append_singleton, exactSum_append_singleton, hsum,
        exactSum_of_isFinite hguarded, inf_add_eq_iff]
      constructor
      · rintro (rfl | rfl)
        · exact Or.inr ⟨_, List.mem_singleton_self _, Or.inl rfl⟩
        · exact Or.inr ⟨_, List.mem_singleton_self _, Or.inr ⟨neg, rfl, hall⟩⟩
      · rintro (h | ⟨y', hy', rfl | ⟨neg', rfl, hall'⟩⟩)
        · exact absurd h hinf
        · exact Or.inl (List.mem_singleton.mp hy').symm
        · -- the infinity among the terms has the sign of the one that is added
          have hsign := (hall' _ hmem).resolve_left (Double.not_isFinite_inf neg)
          exact Or.inr (hsign.symm ▸ (List.mem_singleton.mp hy').symm)
  · have hnan : ¬ ∀ x ∈ terms, x.IsFinite := fun h => hall false fun x hx => Or.inl (h x hx)
    rcases hrest with rfl | ⟨y, rfl⟩
    · rw [List.append_nil, List.append_nil, hsum, exactSum_of_isFinite hguarded]
      exact iff_of_false (fun h => by cases h) (by simp [GuardUnseen, hnan])
    · rw [exactSum_append_singleton, exactSum_append_singleton, hsum,
        exactSum_of_isFinite hguarded, nan_add_eq_iff]
      constructor
      · rintro rfl
        exact Or.inr ⟨_, List.mem_singleton_self _, Or.inl rfl⟩
      · rintro (h | ⟨y', hy', rfl | ⟨neg', -, hall'⟩⟩)
        · exact absurd h hnan
        · exact (List.mem_singleton.mp hy').symm
        · exact absurd hall' (hall neg')

end Guard

/-! ## Finite facts -/

/-- Every weight is a number. -/
structure CostWeights.IsFinite (w : CostWeights) : Prop where
  hopPenalty : w.hopPenalty.IsFinite
  numaPenalty : w.numaPenalty.IsFinite
  pciBridgePenalty : w.pciBridgePenalty.IsFinite
  rootCrossingPenalty : w.rootCrossingPenalty.IsFinite
  latencyNsWeight : w.latencyNsWeight.IsFinite
  bandwidthScale : w.bandwidthScale.IsFinite
  bandwidthRefBps : w.bandwidthRefBps.IsFinite
  uncertaintyPenalty : w.uncertaintyPenalty.IsFinite
  policyPenalty : w.policyPenalty.IsFinite
  nodeTransitionPenalty : w.nodeTransitionPenalty.IsFinite

/-- The latencies and bandwidths of the edges are numbers. -/
def FactsFinite (snap : TopologySnapshot) : Prop :=
  ∀ e ∈ snap.edges, (∀ l, e.latencyNs = some l → l.IsFinite) ∧
    ∀ b, e.bandwidthBytesPerSec = some b → b.IsFinite

section Finite

variable {snap : TopologySnapshot} {w : CostWeights} {u v : TopologyNode} {e : TopologyEdge}

theorem edgeLatency_isFinite (h : ∀ l, e.latencyNs = some l → l.IsFinite) :
    (edgeLatency u v e).IsFinite := by
  unfold edgeLatency
  cases hl : e.latencyNs with
  | none =>
    rw [Option.getD_none]
    unfold defaultLatencyNs
    split <;> exact Double.isFinite_fin _
  | some l => exact h l hl

theorem edgeBandwidth_isFinite (href : w.bandwidthRefBps.IsFinite)
    (h : ∀ b, e.bandwidthBytesPerSec = some b → b.IsFinite) :
    (edgeBandwidth u v e w).IsFinite := by
  unfold edgeBandwidth
  simp only
  split_ifs
  · exact href
  · cases hb : e.bandwidthBytesPerSec with
    | none =>
      rw [Option.getD_none]
      unfold defaultBandwidthBps
      split <;> exact Double.isFinite_fin _
    | some b => exact h b hb

private theorem isFinite_add_if {c x : Double} {P : Prop} [Decidable P] (hc : c.IsFinite)
    (hx : x.IsFinite) : (if P then c.add exact x else c).IsFinite := by
  split_ifs
  · rw [hc.add hx]
    exact Double.isFinite_fin _
  · exact hc

/-- Finite weights and facts give finite terms, as the bandwidth that divides is positive. -/
theorem edgeCostTerms_isFinite (hw : w.IsFinite) (href : w.bandwidthRefBps.Pos)
    (hlat : ∀ l, e.latencyNs = some l → l.IsFinite)
    (hbw : ∀ b, e.bandwidthBytesPerSec = some b → b.IsFinite) :
    (edgeCostTerms exact u v e w).IsFinite := by
  have hadd : ∀ {x y : Double}, x.IsFinite → y.IsFinite → (x.add exact y).IsFinite := by
    intro x y hx hy
    rw [hx.add hy]
    exact Double.isFinite_fin _
  have hbandwidth := edgeBandwidth_isFinite (u := u) (v := v) hw.bandwidthRefBps hbw
  have hpos : (edgeBandwidth u v e w).Pos :=
    (edgeBandwidth_pos href).resolve_left fun h => Double.not_isFinite_nan (h ▸ hbandwidth)
  have hlatency := hw.latencyNsWeight.mul (edgeLatency_isFinite (u := u) (v := v) hlat)
  have hquotient := hw.bandwidthScale.mul (hw.bandwidthRefBps.div hbandwidth hpos)
  unfold edgeCostTerms
  exact hadd (isFinite_add_if (isFinite_add_if (isFinite_add_if (isFinite_add_if
    (hadd (hadd hw.hopPenalty hlatency) hquotient) hw.pciBridgePenalty) hw.rootCrossingPenalty)
    hw.nodeTransitionPenalty) hw.uncertaintyPenalty) hw.policyPenalty

theorem segmentTerms_isFinite (hw : w.IsFinite) (href : w.bandwidthRefBps.Pos)
    (hfacts : FactsFinite snap) (seg : PathSegment) : (segmentTerms snap w seg).IsFinite := by
  unfold segmentTerms
  split
  · rename_i u v e _ _ he
    have hedge := hfacts e (List.mem_of_getElem? he)
    exact edgeCostTerms_isFinite hw href hedge.1 hedge.2
  · exact Double.isFinite_fin _

end Finite

/-! ## Agreement -/

/-- The breakdown of a path has the total of the path, and that is the sum of the costs of the
segments and the NUMA penalty. -/
def CostsAgree (snap : TopologySnapshot) (w : CostWeights) (p : TopologyPath) : Prop :=
  ∃ cb, costBreakdown exact snap p w = .ok cb ∧ cb.total = p.totalCost ∧
    p.totalCost = exactSum (p.segments.map PathSegment.edgeCost ++
      numaTerms snap w p.source p.destination)

/-- The guard replaces the cost of no segment of the path, or the NUMA penalty is NaN or the only
infinity, so that the replacement cannot be seen. -/
def PathGuardUnseen (snap : TopologySnapshot) (w : CostWeights) (p : TopologyPath) : Prop :=
  GuardUnseen (p.segments.map (segmentTerms snap w)) (numaTerms snap w p.source p.destination)

/-- The entry has the total and the breakdown of the path to its node. -/
def EntryOf (fuel : ℕ) (snap : TopologySnapshot) (w : CostWeights) (source : TopologyNodeId)
    (entry : RankEntry) (p : TopologyPath) : Prop :=
  lowestCostPath exact fuel snap source entry.id w = .ok p ∧ p.found = true ∧
    entry.cost = p.totalCost ∧ costBreakdown exact snap p w = .ok entry.breakdown

section Agreement

variable {fuel : ℕ} {snap : TopologySnapshot} {w : CostWeights} {src dst : TopologyNodeId}
  {p : TopologyPath}

theorem numaTerms_cases (snap : TopologySnapshot) (w : CostWeights) (src dst : TopologyNodeId) :
    numaTerms snap w src dst = [] ∨ ∃ y, numaTerms snap w src dst = [y] := by
  unfold numaTerms
  split
  · split_ifs
    · exact Or.inr ⟨_, rfl⟩
    · exact Or.inl rfl
  · exact Or.inl rfl

/-- The breakdown of a path that the search returns has the total of the path iff the guard cannot
be seen. -/
theorem PathCosted.breakdown (h : PathCosted snap w src dst p) :
    ∃ cb, costBreakdown exact snap p w = .ok cb ∧
      (cb.total = p.totalCost ↔ PathGuardUnseen snap w p) := by
  obtain ⟨cb, hcb, htotal⟩ := costBreakdown_total h.segments
    (h.source ▸ h.presentSource) (h.destination ▸ h.presentDestination)
  refine ⟨cb, hcb, ?_⟩
  rw [htotal, h.total, h.segments.map_edgeCost, ← h.source, ← h.destination]
  exact exactSum_guardCost_iff _ (numaTerms_cases snap w p.source p.destination)

theorem PathCosted.agree_iff (h : PathCosted snap w src dst p) :
    CostsAgree snap w p ↔ PathGuardUnseen snap w p := by
  obtain ⟨cb, hcb, hiff⟩ := h.breakdown
  rw [← hiff]
  constructor
  · rintro ⟨cb', hcb', htotal, -⟩
    obtain rfl := Outcome.ok.inj (hcb.symm.trans hcb')
    exact htotal
  · intro htotal
    exact ⟨cb, hcb, htotal, by rw [h.total, h.source, h.destination]⟩

theorem EntryOf.agree_iff {source : TopologyNodeId} {entry : RankEntry}
    (h : EntryOf fuel snap w source entry p) :
    entry.cost = entry.breakdown.total ↔ PathGuardUnseen snap w p := by
  obtain ⟨hret, hfound, hcost, hbreakdown⟩ := h
  obtain ⟨cb, hcb, hiff⟩ := (lowestCostPath_costed hret hfound).breakdown
  obtain rfl := Outcome.ok.inj (hcb.symm.trans hbreakdown)
  rw [← hiff, hcost, eq_comm]

end Agreement

/-! ## Rankings -/

section Rankings

variable {fuel : ℕ} {snap : TopologySnapshot} {w : CostWeights} {source : TopologyNodeId}

/-- The entry of a path has its total and its breakdown. -/
theorem EntryFrom.entryOf {entry : RankEntry} {p : TopologyPath}
    (h : EntryFrom exact fuel snap w source entry p) : EntryOf fuel snap w source entry p :=
  ⟨h.path, h.found, h.cost, h.breakdown⟩

theorem rankCandidates_entries {candidates : List TopologyNodeId} {r : RankResult}
    (h : rankCandidates exact fuel snap source candidates w = .ok r) :
    ∀ entry ∈ r.ranked, ∃ p, EntryOf fuel snap w source entry p := by
  intro entry hentry
  obtain ⟨-, p, hp⟩ := rankCandidates_entryFrom h entry hentry
  exact ⟨p, hp.entryOf⟩

theorem rankCandidatesByType_entries {order : IterationOrder} {type : NodeType}
    {maxCandidates : ℕ} {r : RankResult}
    (h : rankCandidatesByType exact order fuel snap source type maxCandidates w = .ok r) :
    ∀ entry ∈ r.ranked, ∃ p, EntryOf fuel snap w source entry p := by
  intro entry hentry
  obtain ⟨-, p, hp⟩ := rankCandidatesByType_entryFrom h entry hentry
  exact ⟨p, hp.entryOf⟩

end Rankings

/-- **When the cost paths agree.** In exact arithmetic the breakdown of a path that the search returns
has the total of the path iff the guard of the edge costs cannot be seen, and an entry of a ranking
has the total of its breakdown iff that is so for its path. With finite weights, a positive reference
bandwidth and finite facts it is always so. -/
theorem costPaths_agree_iff (snap : TopologySnapshot) (w : CostWeights) :
    (∀ fuel src dst p, lowestCostPath exact fuel snap src dst w = .ok p → p.found = true →
      (CostsAgree snap w p ↔ PathGuardUnseen snap w p)) ∧
    (∀ fuel source candidates r, rankCandidates exact fuel snap source candidates w = .ok r →
      ∀ entry ∈ r.ranked, ∃ p, EntryOf fuel snap w source entry p ∧
        (entry.cost = entry.breakdown.total ↔ PathGuardUnseen snap w p)) ∧
    (∀ order fuel source type maxCandidates r,
      rankCandidatesByType exact order fuel snap source type maxCandidates w = .ok r →
      ∀ entry ∈ r.ranked, ∃ p, EntryOf fuel snap w source entry p ∧
        (entry.cost = entry.breakdown.total ↔ PathGuardUnseen snap w p)) ∧
    (w.IsFinite → w.bandwidthRefBps.Pos → FactsFinite snap → ∀ p, PathGuardUnseen snap w p) := by
  refine ⟨fun fuel src dst p hret hfound => (lowestCostPath_costed hret hfound).agree_iff,
    fun fuel source candidates r h entry hentry => ?_,
    fun order fuel source type maxCandidates r h entry hentry => ?_,
    fun hw href hfacts p => Or.inl fun x hx => ?_⟩
  · -- an entry of a ranking is the lowest cost path to its node
    obtain ⟨p, hp⟩ := rankCandidates_entries h entry hentry
    exact ⟨p, hp, hp.agree_iff⟩
  · obtain ⟨p, hp⟩ := rankCandidatesByType_entries h entry hentry
    exact ⟨p, hp, hp.agree_iff⟩
  · obtain ⟨seg, -, rfl⟩ := List.mem_map.mp hx
    exact segmentTerms_isFinite hw href hfacts seg

/-- On two joined nodes the default weights give one total. -/
theorem costPaths_agree_pair : ∃ p, lowestCostPath exact 20 pairSnapshot ⟨0, 1⟩ ⟨0, 2⟩ {} = .ok p ∧
    p.found = true ∧ CostsAgree pairSnapshot {} p := by
  have hrun : (lowestCostPath exact 20 pairSnapshot ⟨0, 1⟩ ⟨0, 2⟩ {} >>= fun p =>
      .ok p.found) = .ok true := by decide +kernel
  obtain ⟨p, hret, hfound⟩ := Outcome.bind_eq_ok.mp hrun
  have hfound := Outcome.ok.inj hfound
  have hw : CostWeights.IsFinite {} := by
    constructor <;> exact ⟨by decide +kernel, by decide +kernel⟩
  have hfacts : FactsFinite pairSnapshot := by
    simp [FactsFinite, pairSnapshot]
  obtain ⟨hagree, -, -, hunseen⟩ := costPaths_agree_iff pairSnapshot {}
  exact ⟨p, hret, hfound, (hagree _ _ _ p hret hfound).mpr (hunseen hw (by decide) hfacts p)⟩

/-- The two joined nodes, with an edge that is never crossed in time. -/
def endlessPair : TopologySnapshot :=
  { pairSnapshot with
    edges := [{ source := ⟨0, 1⟩, target := ⟨0, 2⟩, latencyNs := some (.inf false) }]
    adjacencyMap := _
    adjacencyBuilt := rfl }

/-- The path has a finite total and its breakdown an infinite one. -/
theorem costPaths_disagree : endlessPair.NoDanglingEdges ∧
    (CostWeights.bandwidthRefBps {}).Pos ∧
    ∃ p, lowestCostPath exact 20 endlessPair ⟨0, 1⟩ ⟨0, 2⟩ {} = .ok p ∧ p.found = true ∧
      ¬ CostsAgree endlessPair {} p := by
  have hrun : (lowestCostPath exact 20 endlessPair ⟨0, 1⟩ ⟨0, 2⟩ {} >>= fun p =>
      costBreakdown exact endlessPair p {} >>= fun cb =>
        .ok (p.found, decide (cb.total = p.totalCost))) = .ok (true, false) := by decide +kernel
  obtain ⟨p, hret, hrun⟩ := Outcome.bind_eq_ok.mp hrun
  obtain ⟨cb, hcb, hrun⟩ := Outcome.bind_eq_ok.mp hrun
  obtain ⟨hfound, hne⟩ := Prod.mk.inj (Outcome.ok.inj hrun)
  refine ⟨by decide, by decide, p, hret, hfound, ?_⟩
  rintro ⟨cb', hcb', htotal, -⟩
  obtain rfl := Outcome.ok.inj (hcb.symm.trans hcb')
  exact of_decide_eq_false hne htotal

end TopologyFabric

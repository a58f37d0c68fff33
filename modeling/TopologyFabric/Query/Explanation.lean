import TopologyFabric.Query.Breakdown

/-!
# What an Explanation Adds Up To

An explanation lists the terms of a cost next to its total. Two terms of the breakdown are not among
them, the penalties for hops and for changes of the device class; the factor for the hops shows their
number. Where no path is found, the total that is shown is zero, and the breakdown may charge the
NUMA penalty.

## Main results

- `explanation_addsUp_iff`: when the factors of an explanation add up to its total
- `explanation_short`: a change of the device class, and two nodes that are not connected
-/

namespace TopologyFabric

open Library

/-! ## Credits -/

/-- What a factor contributes to the cost. The one for the hops shows a number of hops, so its
contribution is given. -/
def ExplanationFactor.credit (hops : Double) (f : ExplanationFactor) : Double :=
  if f.name = str "hop_count" then hops else f.weight

/-- The total that is shown is the total of the breakdown and the sum of what the other factors
contribute. -/
def Explanation.AddsUp (hops : Double) (ex : Explanation) : Prop :=
  ∃ f ∈ ex.factors, f.name = str "total_cost" ∧ f.weight = ex.cost.total ∧
    f.weight = exactSum
      ((ex.factors.filter fun g => g.name ≠ str "total_cost").map (ExplanationFactor.credit hops))

instance (hops : Double) (ex : Explanation) : Decidable (ex.AddsUp hops) :=
  inferInstanceAs (Decidable (∃ f ∈ ex.factors, _))

/-- The sum of the terms that have a factor of their own. -/
def CostBreakdown.listed (cb : CostBreakdown) : Double :=
  exactSum [cb.numaPenalty, cb.pciBridgePenalty, cb.rootCrossingPenalty, cb.latencyTerm,
    cb.inverseBandwidthTerm, cb.uncertaintyPenalty, cb.policyPenalty]

/-- The segment goes to a node of another device class. -/
def segmentTransition (snap : TopologySnapshot) (seg : PathSegment) : Bool :=
  match snap.findNode seg.source, snap.findNode seg.target with
  | some u, some v => decide (hardwareClass u.type ≠ hardwareClass v.type)
  | _, _ => false

/-! ## Sums -/

section Sums

theorem exactSum_ne_negZero (l : List Double) : exactSum l ≠ .negZero := by
  rcases exactSum_cases l with ⟨-, h⟩ | ⟨neg, -, -, h⟩ | ⟨-, h⟩ <;> simp [h]

/-- Adding zero can only change the sign of a zero. -/
theorem add_exact_zero {x : Double} (h : x ≠ .negZero) : x.add exact (.fin 0) = x := by
  cases x <;> simp_all [Double.add, exact, Double.toRat]

/-- A repeated charge that adds up to a number is a multiple. -/
theorem toRat_exactSum_replicate {n : ℕ} {x : Double}
    (h : (exactSum (List.replicate n x)).IsFinite) :
    (exactSum (List.replicate n x)).toRat = n * x.toRat := by
  rcases exactSum_cases (List.replicate n x) with ⟨-, hsum⟩ | ⟨neg, -, -, hsum⟩ | ⟨-, hsum⟩
  · rw [hsum]
    simp [Double.toRat]
  · exact absurd (hsum ▸ h) (Double.not_isFinite_inf neg)
  · exact absurd (hsum ▸ h) Double.not_isFinite_nan

end Sums

/-! ## The terms of a breakdown -/

section Breakdown

variable {snap : TopologySnapshot} {w : CostWeights}

/-- Every segment is charged for its hop, and for a change of the device class. -/
theorem accumulateSegments_fields {segs : List PathSegment} {cb cb' : CostBreakdown}
    (h : segs.foldlM (accumulateSegment exact snap w) cb = .ok cb') :
    cb'.hopPenalty =
        (List.replicate segs.length w.hopPenalty).foldl (Double.add exact) cb.hopPenalty ∧
      cb'.nodeTransitionPenalty =
        (List.replicate (segs.countP (segmentTransition snap)) w.nodeTransitionPenalty).foldl
          (Double.add exact) cb.nodeTransitionPenalty ∧
      cb'.numaPenalty = cb.numaPenalty := by
  induction segs generalizing cb with
  | nil =>
    obtain rfl := Outcome.ok.inj h
    exact ⟨rfl, rfl, rfl⟩
  | cons seg segs ih =>
    rw [List.foldlM_cons] at h
    obtain ⟨c, hc, h⟩ := Outcome.bind_eq_ok.mp h
    obtain ⟨u, hu, hc⟩ := Outcome.bind_eq_ok.mp hc
    obtain ⟨v, hv, hc⟩ := Outcome.bind_eq_ok.mp hc
    obtain ⟨e, -, hc⟩ := Outcome.bind_eq_ok.mp hc
    obtain rfl := Outcome.ok.inj hc
    obtain ⟨hhop, htransition, hnuma⟩ := ih h
    refine ⟨hhop, htransition.trans ?_, hnuma⟩
    -- a segment is charged when the device class changes
    have hseg : segmentTransition snap seg =
        decide (hardwareClass u.type ≠ hardwareClass v.type) := by
      simp only [segmentTransition, TopologySnapshot.node_eq_ok.mp hu,
        TopologySnapshot.node_eq_ok.mp hv]
    rw [List.countP_cons, hseg]
    by_cases hclass : hardwareClass u.type = hardwareClass v.type
    · simp [accumulate, hclass]
    · simp [accumulate, hclass, List.replicate_succ]

/-- What the breakdown of a path charges for its hops, the changes of the device class and its
ends. -/
structure Charges (snap : TopologySnapshot) (w : CostWeights) (p : TopologyPath)
    (cb : CostBreakdown) : Prop where
  hops : cb.hopPenalty = exactSum (List.replicate p.segments.length w.hopPenalty)
  transitions : cb.nodeTransitionPenalty = exactSum (List.replicate
    (p.segments.countP (segmentTransition snap)) w.nodeTransitionPenalty)
  numa : cb.numaPenalty = exactSum (numaTerms snap w p.source p.destination)
  total : cb.total = cb.sum exact

theorem costBreakdown_charges {p : TopologyPath} {cb : CostBreakdown}
    (h : costBreakdown exact snap p w = .ok cb) : Charges snap w p cb := by
  obtain ⟨c, hc, h⟩ := Outcome.bind_eq_ok.mp h
  obtain ⟨a, ha, h⟩ := Outcome.bind_eq_ok.mp h
  obtain ⟨b, hb, h⟩ := Outcome.bind_eq_ok.mp h
  obtain rfl := Outcome.ok.inj h
  obtain ⟨hhop, htransition, hnuma⟩ := accumulateSegments_fields hc
  -- the NUMA penalty is the only charge that is added behind the loop
  have hterms := numaTerms_eq (w := w) (TopologySnapshot.node_eq_ok.mp ha)
    (TopologySnapshot.node_eq_ok.mp hb)
  refine ⟨?_, ?_, ?_, ?_⟩
  · simp only
    split_ifs <;> exact hhop
  · simp only
    split_ifs <;> exact htransition
  · rw [hterms]
    simp only
    split_ifs
    · rw [hnuma]
      rfl
    · exact hnuma
  · rfl

/-- The total is the sum of the listed terms and of the two that are not listed. -/
theorem Charges.total_eq {p : TopologyPath} {cb : CostBreakdown} (h : Charges snap w p cb) :
    cb.total = cb.listed.add exact (cb.hopPenalty.add exact cb.nodeTransitionPenalty) := by
  have hhop : cb.hopPenalty.add exact (.fin 0) = cb.hopPenalty :=
    add_exact_zero (h.hops ▸ exactSum_ne_negZero _)
  have hsum : cb.sum exact =
      (cb.listed).add exact (cb.hopPenalty.add exact cb.nodeTransitionPenalty) := by
    conv_lhs => rw [CostBreakdown.sum, ← hhop]
    simp only [CostBreakdown.listed, exactSum, List.foldl_cons, List.foldl_nil]
    ac_rfl
  exact h.total.trans hsum

end Breakdown

/-! ## When an explanation adds up -/

section AddsUp

variable {fuel : ℕ} {snap : TopologySnapshot} {w : CostWeights} {src dst : TopologyNodeId}
  {p : TopologyPath} {cb : CostBreakdown} {ex : Explanation} {hops : Double}

/-- An explanation between two nodes shows the path and its breakdown. -/
theorem explain_ok (hsrc : snap.Present src) (hdst : snap.Present dst)
    (h : explain exact fuel snap src dst w = .ok ex) :
    ∃ p, lowestCostPath exact fuel snap src dst w = .ok p ∧
      costBreakdown exact snap p w = .ok ex.cost ∧ ex.factors = explanationFactors p ex.cost := by
  obtain ⟨n, hn, -⟩ := hsrc.exists_node
  obtain ⟨m, hm, -⟩ := hdst.exists_node
  simp only [explain, hn, hm, Option.isNone_some, Bool.or_self, Bool.false_eq_true, if_false] at h
  obtain ⟨p, hp, h⟩ := Outcome.bind_eq_ok.mp h
  obtain ⟨cb, hcb, h⟩ := Outcome.bind_eq_ok.mp h
  obtain ⟨reasons, -, h⟩ := Outcome.bind_eq_ok.mp h
  obtain rfl := Outcome.ok.inj h
  exact ⟨p, hp, hcb, rfl⟩

/-- What the other factors contribute: the listed terms and what is credited for the hops. -/
theorem exactSum_credit :
    exactSum (((explanationFactors p cb).filter fun g => g.name ≠ str "total_cost").map
      (ExplanationFactor.credit hops)) = cb.listed.add exact hops := by
  have hzero : (Double.fin 0).add exact (.fin 0) = .fin 0 := by simp
  have hcredits : ((explanationFactors p cb).filter fun g => g.name ≠ str "total_cost").map
      (ExplanationFactor.credit hops) = [.fin 0, .fin 0, hops, cb.numaPenalty, cb.pciBridgePenalty,
        cb.rootCrossingPenalty, cb.latencyTerm, cb.inverseBandwidthTerm, cb.uncertaintyPenalty,
        cb.policyPenalty] := rfl
  rw [hcredits]
  simp only [CostBreakdown.listed, exactSum, List.foldl_cons, List.foldl_nil, hzero]
  ac_rfl

theorem addsUp_iff (hfactors : ex.factors = explanationFactors p ex.cost) :
    ex.AddsUp hops ↔
      p.totalCost = ex.cost.total ∧ p.totalCost = ex.cost.listed.add exact hops := by
  -- the factors name the total once, at their end
  have htotal : ∀ f ∈ ex.factors, f.name = str "total_cost" → f.weight = p.totalCost := by
    rw [hfactors]
    intro f hf hname
    have hlast : (explanationFactors p ex.cost).filter (fun g => g.name = str "total_cost") =
        [costFactor (str "total_cost") (str "sum of all penalties/weights") p.totalCost] := rfl
    have hmem : f ∈ (explanationFactors p ex.cost).filter fun g => g.name = str "total_cost" :=
      List.mem_filter.mpr ⟨hf, decide_eq_true hname⟩
    rw [hlast] at hmem
    exact congrArg ExplanationFactor.weight (List.mem_singleton.mp hmem)
  unfold Explanation.AddsUp
  constructor
  · rintro ⟨f, hf, hname, hcost, hsum⟩
    rw [htotal f hf hname] at hcost hsum
    rw [hfactors, exactSum_credit] at hsum
    exact ⟨hcost, hsum⟩
  · rintro ⟨hcost, hsum⟩
    refine ⟨costFactor (str "total_cost") (str "sum of all penalties/weights") p.totalCost, ?_, rfl,
      hcost, ?_⟩
    · rw [hfactors]
      simp [explanationFactors]
    · rw [hfactors, exactSum_credit]
      exact hsum

/-- A NUMA penalty that is not a number hides what is missing: both sums become it. -/
theorem total_eq_of_numa (hcharges : Charges snap w p cb) (hcosted : PathCosted snap w src dst p)
    (htotal : cb.total = p.totalCost) (hhops : hops.IsFinite ∨ hops = cb.hopPenalty) {y : Double}
    (hnuma : numaTerms snap w src dst = [y]) (hy : ¬ y.IsFinite) :
    p.totalCost = cb.listed.add exact hops := by
  have hedges : ∀ x ∈ p.segments.map PathSegment.edgeCost, x.IsFinite := by
    rw [hcosted.segments.map_edgeCost]
    intro x hx
    obtain ⟨c, -, rfl⟩ := List.mem_map.mp hx
    exact guardCost_isFinite c
  have hpath := hcosted.total
  rw [hnuma, exactSum_append_singleton, exactSum_of_isFinite hedges] at hpath
  have hfield := hcharges.numa
  rw [hcosted.source, hcosted.destination, hnuma] at hfield
  have hsplit := hcharges.total_eq
  rw [htotal] at hsplit
  rcases y.isFinite_or with hfin | rfl | ⟨neg, rfl⟩
  · exact absurd hfin hy
  · have hnan : cb.numaPenalty = .nan := hfield
    have hlisted : cb.listed = .nan := by
      rw [CostBreakdown.listed, hnan]
      rfl
    rw [hpath, hlisted]
    rfl
  · have hinf : cb.numaPenalty = .inf neg := hfield
    have htotal' : p.totalCost = .inf neg := by
      rw [hpath, Double.add_exact_comm, (Double.isFinite_fin _).inf_add]
    rw [htotal'] at hsplit ⊢
    -- the listed terms hold the infinity, and no part of the total is NaN
    have hlisted : cb.listed = .inf neg := by
      refine (exactSum_of_inf_mem (by rw [hinf]; exact List.mem_cons_self ..)).resolve_right
        fun hnan => ?_
      rw [CostBreakdown.listed, hnan] at hsplit
      cases hsplit
    rw [hlisted] at hsplit ⊢
    rcases hhops with hhops | rfl
    · exact (hhops.inf_add neg).symm
    · refine ((Double.inf_add_cases neg _).resolve_right fun hnan => ?_).symm
      rw [← Double.add_exact_assoc, hnan] at hsplit
      cases hsplit

/-- Where the NUMA penalty is a number or not charged, all terms are numbers. -/
theorem charges_isFinite (hcharges : Charges snap w p cb) (hcosted : PathCosted snap w src dst p)
    (htotal : cb.total = p.totalCost) (hnuma : ∀ y ∈ numaTerms snap w src dst, y.IsFinite) :
    cb.listed.IsFinite ∧ cb.hopPenalty.IsFinite ∧ cb.nodeTransitionPenalty.IsFinite := by
  have hfinite : ∀ x ∈ p.segments.map PathSegment.edgeCost ++ numaTerms snap w src dst,
      x.IsFinite := by
    rw [hcosted.segments.map_edgeCost]
    intro x hx
    rcases List.mem_append.mp hx with hx | hx
    · obtain ⟨c, -, rfl⟩ := List.mem_map.mp hx
      exact guardCost_isFinite c
    · exact hnuma x hx
  have hsum : cb.total.IsFinite := by
    rw [htotal, hcosted.total, exactSum_of_isFinite hfinite]
    exact Double.isFinite_fin _
  rw [hcharges.total_eq] at hsum
  obtain ⟨hlisted, hrest⟩ := Double.IsFinite.of_add hsum
  exact ⟨hlisted, Double.IsFinite.of_add hrest⟩

/-- Then the two terms without a factor have to add up to the credit. -/
theorem total_eq_iff (hcharges : Charges snap w p cb) (hcosted : PathCosted snap w src dst p)
    (htotal : cb.total = p.totalCost) (hnuma : ∀ y ∈ numaTerms snap w src dst, y.IsFinite)
    (hhops : hops.IsFinite) :
    p.totalCost = cb.listed.add exact hops ↔
      p.segments.length * w.hopPenalty.toRat +
        p.segments.countP (segmentTransition snap) * w.nodeTransitionPenalty.toRat = hops.toRat := by
  obtain ⟨hlisted, hhop, htransition⟩ := charges_isFinite hcharges hcosted htotal hnuma
  -- the two charges are paid as often as they are due
  have hhop' : cb.hopPenalty.toRat = p.segments.length * w.hopPenalty.toRat := by
    rw [hcharges.hops] at hhop ⊢
    exact toRat_exactSum_replicate hhop
  have htransition' : cb.nodeTransitionPenalty.toRat =
      p.segments.countP (segmentTransition snap) * w.nodeTransitionPenalty.toRat := by
    rw [hcharges.transitions] at htransition ⊢
    exact toRat_exactSum_replicate htransition
  rw [← htotal, hcharges.total_eq, hhop.add htransition, hlisted.add (Double.isFinite_fin _),
    hlisted.add hhops, ← hhop', ← htransition']
  simp [Double.toRat]

/-- The path has a NUMA penalty that is not a number. -/
def NumaHides (snap : TopologySnapshot) (w : CostWeights) (src dst : TopologyNodeId) : Prop :=
  ∃ y ∈ numaTerms snap w src dst, ¬ y.IsFinite

/-- What a path charges for its hops and the changes of the device class. -/
def unlistedCost (snap : TopologySnapshot) (w : CostWeights) (segs : List PathSegment) : ℚ :=
  segs.length * w.hopPenalty.toRat +
    segs.countP (segmentTransition snap) * w.nodeTransitionPenalty.toRat

/-- The explanation of a path adds up iff its breakdown has the total of the path, and the NUMA
penalty hides the rest or, where all terms are numbers, the sums agree. -/
theorem addsUp_found_iff {P : Prop} (hcb : costBreakdown exact snap p w = .ok ex.cost)
    (hfactors : ex.factors = explanationFactors p ex.cost) (hcosted : PathCosted snap w src dst p)
    (hhops : hops.IsFinite ∨ hops = ex.cost.hopPenalty)
    (hnumbers : ex.cost.total = p.totalCost → (∀ y ∈ numaTerms snap w src dst, y.IsFinite) →
      (p.totalCost = ex.cost.listed.add exact hops ↔ P)) :
    ex.AddsUp hops ↔ PathGuardUnseen snap w p ∧ (NumaHides snap w src dst ∨ P) := by
  obtain ⟨cb, hcb', hguard⟩ := hcosted.breakdown
  obtain rfl := Outcome.ok.inj (hcb.symm.trans hcb')
  rw [addsUp_iff hfactors, eq_comm, hguard]
  refine and_congr_right fun hunseen => ?_
  have htotal := hguard.mpr hunseen
  -- a NUMA penalty that is infinite or not a number hides every difference
  by_cases hnuma : NumaHides snap w src dst
  · refine iff_of_true ?_ (Or.inl hnuma)
    obtain ⟨y, hy, hfin⟩ := hnuma
    rcases numaTerms_cases snap w src dst with hnone | ⟨z, hz⟩
    · simp [hnone] at hy
    · rw [hz, List.mem_singleton] at hy
      exact total_eq_of_numa (costBreakdown_charges hcb) hcosted htotal hhops hz (hy ▸ hfin)
  · rw [or_iff_right hnuma]
    exact hnumbers htotal fun y hy => not_not.mp fun hfin => hnuma ⟨y, hy, hfin⟩

/-- Without a path only the NUMA penalty is charged, and it must be zero. -/
theorem addsUp_notFound_iff (hsrc : snap.Present src) (hdst : snap.Present dst)
    (hcb : costBreakdown exact snap { source := src, destination := dst, reasons := [noPath] } w =
      .ok ex.cost)
    (hfactors : ex.factors = explanationFactors
      { source := src, destination := dst, reasons := [noPath] } ex.cost)
    (hhops : hops = .fin 0 ∨ hops = ex.cost.hopPenalty) :
    ex.AddsUp hops ↔ ∀ y ∈ numaTerms snap w src dst, y = .fin 0 ∨ y = .negZero := by
  have hcosted : SegmentsCosted snap w [] := by simp [SegmentsCosted]
  obtain ⟨cb, hcb', htotal⟩ := costBreakdown_total
    (p := { source := src, destination := dst, reasons := [noPath] }) hcosted hsrc hdst
  obtain rfl := Outcome.ok.inj (hcb.symm.trans hcb')
  have hcharges := costBreakdown_charges hcb
  have hhop : ex.cost.hopPenalty = .fin 0 := hcharges.hops
  have htransition : ex.cost.nodeTransitionPenalty = .fin 0 := hcharges.transitions
  -- without a segment the hops cost nothing, so only the NUMA penalty can be left
  have hcredit : hops = .fin 0 := hhops.elim id fun h => h.trans hhop
  have hsame : ex.cost.listed.add exact hops = ex.cost.total := by
    rw [hcharges.total_eq, hhop, htransition, hcredit, Double.add_exact, add_zero]
  rw [addsUp_iff hfactors, hsame, and_self, htotal, List.map_nil, List.nil_append]
  rcases numaTerms_cases snap w src dst with hnone | ⟨z, hz⟩
  · rw [hnone]
    simp [exactSum]
  · rw [hz]
    cases z <;> simp [exactSum, Double.add, exact, Double.toRat, eq_comm]

theorem lowestCostPath_hopCount (h : lowestCostPath exact fuel snap src dst w = .ok p)
    (hfound : p.found = true) : p.hopCount = p.segments.length := by
  obtain ⟨hsrc, hdst⟩ := lowestCostPath_present h hfound
  by_cases hne : src = dst
  · subst hne
    obtain rfl := lowestCostPath_self_ok hsrc h
    rfl
  · rcases lowestCostPath_cases hsrc hdst hne h with rfl | ⟨s, total, segs, a, b, -, -, -, -, hfilled⟩
    · cases hfound
    · rw [hfilled.hopCount, hfilled.segments]

end AddsUp

/-- **When an explanation adds up.** For two nodes of any snapshot and all weights: where a path is
found, its breakdown must have the total of the path, and a NUMA penalty that is not a number hides
the rest, or the penalties for hops and device classes add up to the number of hops that is shown.
Crediting the penalty for the hops instead, those for device classes must be zero. Where no path is
found, the ends must not be charged a NUMA penalty. -/
theorem explanation_addsUp_iff {fuel : ℕ} {snap : TopologySnapshot} {w : CostWeights}
    {src dst : TopologyNodeId} {ex : Explanation} (hsrc : snap.Present src)
    (hdst : snap.Present dst) (h : explain exact fuel snap src dst w = .ok ex) :
    ∃ p, lowestCostPath exact fuel snap src dst w = .ok p ∧
      (p.found = true →
        (ex.AddsUp (.fin p.hopCount) ↔ PathGuardUnseen snap w p ∧
          (NumaHides snap w src dst ∨ unlistedCost snap w p.segments = p.segments.length)) ∧
        (ex.AddsUp ex.cost.hopPenalty ↔ PathGuardUnseen snap w p ∧ (NumaHides snap w src dst ∨
          p.segments.countP (segmentTransition snap) * w.nodeTransitionPenalty.toRat = 0))) ∧
      (p.found = false → ∀ hops, hops = .fin p.hopCount ∨ hops = ex.cost.hopPenalty →
        (ex.AddsUp hops ↔ ∀ y ∈ numaTerms snap w src dst, y = .fin 0 ∨ y = .negZero)) := by
  obtain ⟨p, hp, hcb, hfactors⟩ := explain_ok hsrc hdst h
  refine ⟨p, hp, fun hfound => ?_, fun hfound hops hhops => ?_⟩
  · have hcosted := lowestCostPath_costed hp hfound
    have hcharges := costBreakdown_charges hcb
    have hcount := lowestCostPath_hopCount hp hfound
    refine ⟨addsUp_found_iff hcb hfactors hcosted (Or.inl (Double.isFinite_fin _))
      fun htotal hnuma => ?_, addsUp_found_iff hcb hfactors hcosted (Or.inr rfl)
      fun htotal hnuma => ?_⟩
    · -- the number of hops stands in for the hop penalty
      rw [total_eq_iff hcharges hcosted htotal hnuma (Double.isFinite_fin _), hcount, unlistedCost]
      simp [Double.toRat]
    · -- the hop penalty cancels, and the penalty for the device classes is left
      have hhop := (charges_isFinite hcharges hcosted htotal hnuma).2.1
      rw [total_eq_iff hcharges hcosted htotal hnuma hhop]
      rw [hcharges.hops] at hhop ⊢
      rw [toRat_exactSum_replicate hhop]
      exact add_eq_left
  · -- a node is always found from itself, so the ends differ
    have hne : src ≠ dst := by
      rintro rfl
      rw [lowestCostPath_self_ok hsrc hp] at hfound
      cases hfound
    rcases lowestCostPath_cases hsrc hdst hne hp with
      rfl | ⟨s, total, segs, a, b, -, -, -, -, hfilled⟩
    · exact addsUp_notFound_iff hsrc hdst hcb hfactors (by simpa using hhops)
    · rw [hfilled.found] at hfound
      cases hfound

/-- The explanation of a path between two joined nodes. -/
theorem explanation_addsUp_iff_pair :
    ∃ ex p, explain exact 20 pairSnapshot ⟨0, 1⟩ ⟨0, 2⟩ {} = .ok ex ∧
      lowestCostPath exact 20 pairSnapshot ⟨0, 1⟩ ⟨0, 2⟩ {} = .ok p ∧ p.found = true ∧
      (ex.AddsUp (.fin p.hopCount) ↔ PathGuardUnseen pairSnapshot {} p ∧
        (NumaHides pairSnapshot {} ⟨0, 1⟩ ⟨0, 2⟩ ∨
          unlistedCost pairSnapshot {} p.segments = p.segments.length)) := by
  have hrun : (explain exact 20 pairSnapshot ⟨0, 1⟩ ⟨0, 2⟩ {} >>= fun ex =>
      lowestCostPath exact 20 pairSnapshot ⟨0, 1⟩ ⟨0, 2⟩ {} >>= fun p =>
        .ok (ex.factors.isEmpty, p.found)) = .ok (false, true) := by decide +kernel
  obtain ⟨ex, hex, hrun⟩ := Outcome.bind_eq_ok.mp hrun
  obtain ⟨p, hp, hrun⟩ := Outcome.bind_eq_ok.mp hrun
  have hfound : p.found = true := congrArg Prod.snd (Outcome.ok.inj hrun)
  obtain ⟨p', hp', hiff, -⟩ := explanation_addsUp_iff (by decide) (by decide) hex
  obtain rfl := Outcome.ok.inj (hp.symm.trans hp')
  exact ⟨ex, p, hex, hp, hfound, (hiff hfound).1⟩

/-- Two nodes on different NUMA nodes that nothing connects. -/
def splitPair : TopologySnapshot where
  nodes := ⟨[(⟨0, 1⟩, { id := ⟨0, 1⟩, type := .cpuCore, native := { numaNode := some 0 } }),
    (⟨0, 2⟩, { id := ⟨0, 2⟩, type := .cpuCore, native := { numaNode := some 1 } })], by decide⟩
  keyed := by simp
  edges := []
  adjacencyMap := fun _ => []
  adjacencyBuilt := rfl
  metadata := {}
  validation := {}
  bounds := {}

/-- From a NUMA node to an accelerator the change of the device class has no factor. Between the
other two nodes the total that is shown is zero and the breakdown charges the NUMA penalty. -/
theorem explanation_short : pairSnapshot.NoDanglingEdges ∧ splitPair.NoDanglingEdges ∧
    (CostWeights.bandwidthRefBps {}).Pos ∧
    (∃ ex, explain exact 20 pairSnapshot ⟨0, 1⟩ ⟨0, 2⟩ {} = .ok ex ∧ ¬ ex.AddsUp (.fin 1) ∧
      ¬ ex.AddsUp ex.cost.hopPenalty) ∧
    ∃ ex, explain exact 20 splitPair ⟨0, 1⟩ ⟨0, 2⟩ {} = .ok ex ∧ ¬ ex.AddsUp (.fin 0) ∧
      ex.cost.total = .fin 20 := by
  have hpair : (explain exact 20 pairSnapshot ⟨0, 1⟩ ⟨0, 2⟩ {} >>= fun ex =>
      .ok (decide (ex.AddsUp (.fin 1)), decide (ex.AddsUp ex.cost.hopPenalty))) =
        .ok (false, false) := by decide +kernel
  have hsplit : (explain exact 20 splitPair ⟨0, 1⟩ ⟨0, 2⟩ {} >>= fun ex =>
      .ok (decide (ex.AddsUp (.fin 0)), ex.cost.total)) = .ok (false, .fin 20) := by decide +kernel
  obtain ⟨ex, hex, hpair⟩ := Outcome.bind_eq_ok.mp hpair
  obtain ⟨hcount, hpenalty⟩ := Prod.mk.inj (Outcome.ok.inj hpair)
  obtain ⟨ex', hex', hsplit⟩ := Outcome.bind_eq_ok.mp hsplit
  obtain ⟨hzero, htotal⟩ := Prod.mk.inj (Outcome.ok.inj hsplit)
  exact ⟨by decide, by decide, by decide,
    ⟨ex, hex, of_decide_eq_false hcount, of_decide_eq_false hpenalty⟩,
    ex', hex', of_decide_eq_false hzero, htotal⟩

end TopologyFabric

import TopologyFabric.Query.Breakdown

/-!
# Costs and Policies

Raising the weights of a policy does not lower a total. A path may change with the policy, but the
path that is best under the higher weights is a candidate under the lower ones, and every term of an
edge's cost grows with its weight, the inverse bandwidth included, whose fallback is a weight itself.

## Main results

- `edgeTraversalCost_mono`: the cost of an edge grows with finite weights
- `lowestCostPath_mono`: so does the total of the lowest-cost path
- `policy_not_monotone`: an infinite weight lowers a total, because the guard replaces it
-/

namespace TopologyFabric

open Library

/-! ## Numbers below numbers -/

namespace Double

/-- Both values are numbers, the first is not negative and at most the second. -/
structure Below (x y : Double) : Prop where
  left : x.IsFinite
  right : y.IsFinite
  nonneg : 0 ≤ x.toRat
  le : x.toRat ≤ y.toRat

theorem below_of_le {x y : Double} (hx : x.Nonneg) (hle : x.le y = true) (hy : y.IsFinite) :
    x.Below y := by
  -- by the kinds of the two numbers; zero may have a sign
  cases x with
  | nan => exact absurd hx not_nonneg_nan
  | inf neg =>
    obtain rfl := (nonneg_inf neg).mp hx
    cases y with
    | nan => exact absurd hy not_isFinite_nan
    | inf neg => exact absurd hy (not_isFinite_inf neg)
    | _ => simp [Double.le, rank, Prod.Lex.toLex_le_toLex] at hle
  | negZero =>
    cases y with
    | nan => exact absurd hy not_isFinite_nan
    | inf neg => exact absurd hy (not_isFinite_inf neg)
    | negZero => exact ⟨⟨rfl, rfl⟩, hy, le_refl _, le_refl _⟩
    | fin q =>
      have hq : 0 ≤ q := by simpa [Double.le, rank, Prod.Lex.toLex_le_toLex] using hle
      exact ⟨⟨rfl, rfl⟩, hy, le_refl _, hq⟩
  | fin p =>
    have hp : 0 ≤ p := (nonneg_fin p).mp hx
    cases y with
    | nan => exact absurd hy not_isFinite_nan
    | inf neg => exact absurd hy (not_isFinite_inf neg)
    | negZero =>
      have hq : p ≤ 0 := by simpa [Double.le, rank, Prod.Lex.toLex_le_toLex] using hle
      exact ⟨isFinite_fin p, hy, hp, hq⟩
    | fin q => exact ⟨isFinite_fin p, hy, hp, by simpa [toRat] using hle⟩

section Below

variable {x x' y y' : Double}

theorem Below.add (hx : x.Below x') (hy : y.Below y') :
    (x.add exact y).Below (x'.add exact y') := by
  rw [hx.left.add hy.left, hx.right.add hy.right]
  exact ⟨isFinite_fin _, isFinite_fin _, add_nonneg hx.nonneg hy.nonneg, add_le_add hx.le hy.le⟩

theorem Below.add_if {P : Prop} [Decidable P] (hx : x.Below x') (hy : y.Below y') :
    (if P then x.add exact y else x).Below (if P then x'.add exact y' else x') := by
  split_ifs
  · exact hx.add hy
  · exact hx

theorem IsFinite.mul_eq (hx : x.IsFinite) (hy : y.IsFinite) :
    x.mul exact y = .fin (x.toRat * y.toRat) := by
  rw [Double.mul, hx.1, hx.2, hy.1, hy.2]
  rfl

theorem Below.mul (hx : x.Below x') (hy : y.Below y') :
    (x.mul exact y).Below (x'.mul exact y') := by
  rw [hx.left.mul_eq hy.left, hx.right.mul_eq hy.right]
  refine ⟨isFinite_fin _, isFinite_fin _, mul_nonneg hx.nonneg hy.nonneg, ?_⟩
  exact mul_le_mul hx.le hy.le hy.nonneg (hx.nonneg.trans hx.le)

/-- An infinite divisor counts as zero, like its quotients. -/
theorem IsFinite.div_eq (hx : x.IsFinite) (hy : y.Pos) :
    x.div exact y = .fin (x.toRat / y.toRat) := by
  cases y with
  | nan => simp [Pos, lt, rank] at hy
  | inf neg =>
    rw [Double.div, hx.1, hx.2]
    simp [isNan, isInf, toRat]
  | negZero => simp [Pos, lt, rank] at hy
  | fin q =>
    have hq : q ≠ 0 := by
      rw [Pos, lt_fin, decide_eq_true_eq] at hy
      exact hy.ne'
    rw [Double.div, hx.1, hx.2]
    simp [isNan, isInf, toRat, hq, exact]

theorem Below.div (hx : x.Below x') (hy : y.Pos) : (x.div exact y).Below (x'.div exact y) := by
  rw [hx.left.div_eq hy, hx.right.div_eq hy]
  have hpos : 0 ≤ y.toRat := hy.nonneg.toRat_nonneg
  exact ⟨isFinite_fin _, isFinite_fin _, div_nonneg hx.nonneg hpos,
    div_le_div_of_nonneg_right hx.le hpos⟩

end Below

/-- What is not a number stays so in a sum. -/
theorem not_isFinite_add {x y : Double} (h : ¬ x.IsFinite ∨ ¬ y.IsFinite) :
    ¬ (x.add exact y).IsFinite := fun hadd =>
  h.elim (fun hx => hx (IsFinite.of_add hadd).1) fun hy => hy (IsFinite.of_add hadd).2

/-- What is not a number stays so in a product. -/
theorem not_isFinite_mul {x y : Double} (h : ¬ y.IsFinite) : ¬ (x.mul exact y).IsFinite := by
  intro hmul
  rcases y.isFinite_or with hy | rfl | ⟨neg, rfl⟩
  · exact h hy
  · simp [Double.mul, IsFinite, isNan] at hmul
  · unfold Double.mul at hmul
    split_ifs at hmul <;> simp_all [IsFinite, isNan, isInf]

end Double

/-! ## Policies -/

/-- Every weight is at most the other one. -/
structure CostWeights.Le (w w' : CostWeights) : Prop where
  hopPenalty : w.hopPenalty.le w'.hopPenalty = true
  numaPenalty : w.numaPenalty.le w'.numaPenalty = true
  pciBridgePenalty : w.pciBridgePenalty.le w'.pciBridgePenalty = true
  rootCrossingPenalty : w.rootCrossingPenalty.le w'.rootCrossingPenalty = true
  latencyNsWeight : w.latencyNsWeight.le w'.latencyNsWeight = true
  bandwidthScale : w.bandwidthScale.le w'.bandwidthScale = true
  bandwidthRefBps : w.bandwidthRefBps.le w'.bandwidthRefBps = true
  uncertaintyPenalty : w.uncertaintyPenalty.le w'.uncertaintyPenalty = true
  policyPenalty : w.policyPenalty.le w'.policyPenalty = true
  nodeTransitionPenalty : w.nodeTransitionPenalty.le w'.nodeTransitionPenalty = true

/-- The weights that enter the cost of an edge, all but the NUMA penalty, are numbers. -/
def CostWeights.EdgeFinite (w : CostWeights) : Prop :=
  ({ w with numaPenalty := .fin 0 } : CostWeights).IsFinite

section Edges

variable {w w' : CostWeights} {u v : TopologyNode} {e : TopologyEdge}

/-- The bandwidth is the same under both policies, or each takes its own reference. -/
theorem quotient_below (href : w.bandwidthRefBps.Pos)
    (h : w.bandwidthRefBps.Below w'.bandwidthRefBps) (hnan : edgeBandwidth u v e w ≠ .nan) :
    (w.bandwidthRefBps.div exact (edgeBandwidth u v e w)).Below
      (w'.bandwidthRefBps.div exact (edgeBandwidth u v e w')) := by
  have hpos := (edgeBandwidth_pos (u := u) (v := v) (e := e) href).resolve_left hnan
  unfold edgeBandwidth at hpos ⊢
  simp only at hpos ⊢
  split_ifs at hpos ⊢ with hle
  · -- the fallback: both quotients are one
    have hone : ∀ {x : Double}, x.IsFinite → 0 < x.toRat → x.div exact x = .fin 1 := by
      intro x hx hpos
      rw [Double.div, hx.1, hx.2]
      simp [hpos.ne', exact]
    have hlt : 0 < w.bandwidthRefBps.toRat := by
      have hfin := h.left
      cases hw : w.bandwidthRefBps with
      | nan => simp [hw, Double.Pos, Double.lt, Double.rank] at href
      | inf neg => exact absurd (hw ▸ hfin) (Double.not_isFinite_inf neg)
      | negZero => simp [hw, Double.Pos, Double.lt, Double.rank] at href
      | fin q => simpa [hw, Double.Pos, Double.toRat] using href
    rw [hone h.left hlt, hone h.right (hlt.trans_le h.le)]
    exact ⟨Double.isFinite_fin _, Double.isFinite_fin _, zero_le_one, le_refl _⟩
  · exact h.div hpos

/-- Where the latency and the bandwidth are usable, every term grows. -/
theorem edgeCostTerms_below (hw : w.Nonneg) (href : w.bandwidthRefBps.Pos) (hle : w.Le w')
    (hfin : w'.EdgeFinite) (hlat : (edgeLatency u v e).Below (edgeLatency u v e))
    (hnan : edgeBandwidth u v e w ≠ .nan) :
    (edgeCostTerms exact u v e w).Below (edgeCostTerms exact u v e w') := by
  have hhop := Double.below_of_le hw.hopPenalty hle.hopPenalty hfin.hopPenalty
  have hlatency := (Double.below_of_le hw.latencyNsWeight hle.latencyNsWeight
    hfin.latencyNsWeight).mul hlat
  have hbandwidth := (Double.below_of_le hw.bandwidthScale hle.bandwidthScale
    hfin.bandwidthScale).mul (quotient_below (u := u) (v := v) (e := e) href
      (Double.below_of_le hw.bandwidthRefBps hle.bandwidthRefBps hfin.bandwidthRefBps) hnan)
  unfold edgeCostTerms
  exact (((((hhop.add hlatency).add hbandwidth).add_if
    (Double.below_of_le hw.pciBridgePenalty hle.pciBridgePenalty hfin.pciBridgePenalty)).add_if
    (Double.below_of_le hw.rootCrossingPenalty hle.rootCrossingPenalty
      hfin.rootCrossingPenalty)).add_if
    (Double.below_of_le hw.nodeTransitionPenalty hle.nodeTransitionPenalty
      hfin.nodeTransitionPenalty)).add_if
    (Double.below_of_le hw.uncertaintyPenalty hle.uncertaintyPenalty hfin.uncertaintyPenalty)
    |>.add (Double.below_of_le hw.policyPenalty hle.policyPenalty hfin.policyPenalty)

/-- An unusable latency or bandwidth leaves no number, whatever the weights are. -/
theorem edgeCostTerms_not_isFinite
    (h : ¬ (edgeLatency u v e).IsFinite ∨ edgeBandwidth u v e w = .nan) :
    ¬ (edgeCostTerms exact u v e w).IsFinite := by
  -- adding a penalty, or leaving it out, makes nothing finite
  have hif : ∀ {c x : Double} {P : Prop} [Decidable P], ¬ c.IsFinite →
      ¬ (if P then c.add exact x else c).IsFinite := by
    intro c x P _ hc
    split_ifs
    · exact Double.not_isFinite_add (Or.inl hc)
    · exact hc
  unfold edgeCostTerms
  refine Double.not_isFinite_add (Or.inl (hif (hif (hif (hif (Double.not_isFinite_add ?_))))))
  rcases h with hlat | hbw
  · exact Or.inl (Double.not_isFinite_add (Or.inr (Double.not_isFinite_mul hlat)))
  · right
    rw [hbw]
    refine Double.not_isFinite_mul fun hdiv => ?_
    simp [Double.div, Double.IsFinite, Double.isNan] at hdiv

/-- NaN as the bandwidth of an edge does not depend on the policy. -/
theorem edgeBandwidth_eq_nan (hnan : w'.bandwidthRefBps ≠ .nan)
    (h : edgeBandwidth u v e w' = .nan) : edgeBandwidth u v e w = .nan := by
  unfold edgeBandwidth at h ⊢
  simp only at h ⊢
  split_ifs at h ⊢
  · exact absurd h hnan
  · exact h

/-- The cost of an edge grows with the weights. -/
theorem edgeTraversalCost_mono (hw : w.Nonneg) (href : w.bandwidthRefBps.Pos) (hle : w.Le w')
    (hfin : w'.EdgeFinite) (hlat : ∀ l, e.latencyNs = some l → l.Nonneg) :
    (edgeTraversalCost exact u v e w).toRat ≤ (edgeTraversalCost exact u v e w').toRat := by
  have hguard : ∀ w, edgeTraversalCost exact u v e w = guardCost (edgeCostTerms exact u v e w) :=
    fun _ => rfl
  have hreplaced : ∀ {x : Double}, ¬ x.IsFinite → guardCost x = .fin 1000000000000000 := by
    intro x hx
    rcases x.isFinite_or with h | rfl | ⟨neg, rfl⟩
    · exact absurd h hx
    · rfl
    · rfl
  rw [hguard, hguard]
  -- a sum that is not finite is replaced under both weights, and it is so under both or neither
  by_cases hlatency : (edgeLatency u v e).IsFinite
  · by_cases hnan : edgeBandwidth u v e w = .nan
    · have hnan' : edgeBandwidth u v e w' = .nan :=
        edgeBandwidth_eq_nan (fun h => by simp [h, Double.Pos, Double.lt, Double.rank] at href) hnan
      rw [hreplaced (edgeCostTerms_not_isFinite (Or.inr hnan)),
        hreplaced (edgeCostTerms_not_isFinite (Or.inr hnan'))]
    · have hnonneg : 0 ≤ (edgeLatency u v e).toRat := by
        unfold edgeLatency
        cases hl : e.latencyNs with
        | none => exact (defaultLatencyNs_nonneg u v).toRat_nonneg
        | some l => exact (hlat l hl).toRat_nonneg
      have hbelow := edgeCostTerms_below (u := u) (v := v) hw href hle hfin
        ⟨hlatency, hlatency, hnonneg, le_refl _⟩ hnan
      rw [guardCost_of_isFinite hbelow.left, guardCost_of_isFinite hbelow.right]
      exact hbelow.le
  · rw [hreplaced (edgeCostTerms_not_isFinite (Or.inl hlatency)),
      hreplaced (edgeCostTerms_not_isFinite (Or.inl hlatency))]

end Edges

/-! ## Totals -/

section Totals

variable {snap : TopologySnapshot} {w w' : CostWeights} {src dst : TopologyNodeId}

theorem exactCost_mono (hw : w.Nonneg) (href : w.bandwidthRefBps.Pos) (hle : w.Le w')
    (hfin : w'.EdgeFinite) (hlat : ∀ e ∈ snap.edges, ∀ l, e.latencyNs = some l → l.Nonneg)
    (a b : TopologyNodeId) (i : ℕ) : exactCost snap w a b i ≤ exactCost snap w' a b i := by
  unfold exactCost hopCost
  split
  · rename_i u v e _ _ he
    exact edgeTraversalCost_mono hw href hle hfin (hlat e (List.mem_of_getElem? he))
  · exact le_refl _

/-- Adding the NUMA penalty keeps the order of two sums. -/
theorem add_numaPenalty_le {p q : ℚ} (hpq : p ≤ q) (hw : w.numaPenalty.Nonneg)
    (hle : w.numaPenalty.le w'.numaPenalty = true) :
    ((Double.fin p).add exact w.numaPenalty).le ((Double.fin q).add exact w'.numaPenalty) = true := by
  rcases w'.numaPenalty.isFinite_or with hfin | hnan | ⟨neg, hinf⟩
  · have hbelow := Double.below_of_le hw hle hfin
    rw [(Double.isFinite_fin p).add hbelow.left, (Double.isFinite_fin q).add hbelow.right]
    simpa [Double.toRat] using add_le_add hpq hbelow.le
  · rw [hnan] at hle
    obtain ⟨a, b, -, hb, -⟩ := Double.le_eq_true.mp hle
    cases hb
  · -- an infinite penalty is positive, and the other sum is not NaN
    have hpos : (Double.inf neg).Nonneg := hinf ▸ hw.of_le hle
    obtain rfl := (Double.nonneg_inf neg).mp hpos
    have hright : (Double.fin q).add exact w'.numaPenalty = .inf false := by rw [hinf]; rfl
    rw [hright]
    cases hnuma : w.numaPenalty with
    | nan => exact absurd (hnuma ▸ hw) Double.not_nonneg_nan
    | inf neg =>
      obtain rfl := (Double.nonneg_inf neg).mp (hnuma ▸ hw)
      exact Double.le_eq_true.mpr ⟨_, _, rfl, rfl, le_refl _⟩
    | _ => simp [Double.add, exact, Double.le, Double.rank, Prod.Lex.toLex_le_toLex]

/-- The total of a route grows with the weights. -/
theorem routeTotal_mono (hw : w.Nonneg) (href : w.bandwidthRefBps.Pos) (hle : w.Le w')
    (hfin : w'.EdgeFinite) (hlat : ∀ e ∈ snap.edges, ∀ l, e.latencyNs = some l → l.Nonneg)
    (hops : List EdgeHop) :
    (routeTotal snap w src dst hops).le (routeTotal snap w' src dst hops) = true := by
  have hsum : walkCost (exactCost snap w) hops ≤ walkCost (exactCost snap w') hops :=
    walkCost_le_walkCost fun hop _ => exactCost_mono hw href hle hfin hlat hop.src hop.dst hop.via
  have hplain : (Double.fin (walkCost (exactCost snap w) hops)).le
      (.fin (walkCost (exactCost snap w') hops)) = true := by simpa using hsum
  unfold routeTotal totalWith
  split
  · split_ifs
    · exact add_numaPenalty_le hsum hw.numaPenalty hle.numaPenalty
    · exact hplain
  · exact hplain

/-- Raising the weights keeps them nonnegative. -/
theorem CostWeights.Le.nonneg (hle : w.Le w') (hw : w.Nonneg) : w'.Nonneg where
  hopPenalty := hw.hopPenalty.of_le hle.hopPenalty
  numaPenalty := hw.numaPenalty.of_le hle.numaPenalty
  pciBridgePenalty := hw.pciBridgePenalty.of_le hle.pciBridgePenalty
  rootCrossingPenalty := hw.rootCrossingPenalty.of_le hle.rootCrossingPenalty
  latencyNsWeight := hw.latencyNsWeight.of_le hle.latencyNsWeight
  bandwidthScale := hw.bandwidthScale.of_le hle.bandwidthScale
  bandwidthRefBps := hw.bandwidthRefBps.of_le hle.bandwidthRefBps
  uncertaintyPenalty := hw.uncertaintyPenalty.of_le hle.uncertaintyPenalty
  policyPenalty := hw.policyPenalty.of_le hle.policyPenalty
  nodeTransitionPenalty := hw.nodeTransitionPenalty.of_le hle.nodeTransitionPenalty

end Totals

/-- **Costs grow with the policy.** On a snapshot without dangling edges and with nonnegative
latencies, the query returns under both of two nonnegative policies. If one is at most the other and
its edge weights are numbers there, it finds a path under the one iff it finds one under the other,
and the total is not lower under the higher policy. -/
theorem lowestCostPath_mono {snap : TopologySnapshot} {w w' : CostWeights}
    {src dst : TopologyNodeId} (hd : snap.NoDanglingEdges) (hsrc : snap.Present src)
    (hdst : snap.Present dst) (hlat : ∀ e ∈ snap.edges, ∀ l, e.latencyNs = some l → l.Nonneg)
    (hw : w.Nonneg) (href : w.bandwidthRefBps.Pos) (hle : w.Le w') (hfin : w'.EdgeFinite) :
    ∃ p p', Returns (fun fuel => lowestCostPath exact fuel snap src dst w) p ∧
      Returns (fun fuel => lowestCostPath exact fuel snap src dst w') p' ∧
      (p.found = true ↔ p'.found = true) ∧
      (p.found = true → p.totalCost.le p'.totalCost = true) := by
  have hw' := hle.nonneg hw
  obtain ⟨p, hret, hanswer⟩ := lowestCostPath_returns hd hsrc hdst hw href hlat
  obtain ⟨p', hret', hanswer'⟩ :=
    lowestCostPath_returns hd hsrc hdst hw' (href.of_le hle.bandwidthRefBps) hlat
  have hfound : p.found = true ↔ p'.found = true := hanswer.found.trans hanswer'.found.symm
  refine ⟨p, p', hret, hret', hfound, fun h => ?_⟩
  obtain ⟨hops, -, htotal⟩ := hanswer.attained h
  obtain ⟨hops', hroute', htotal'⟩ := hanswer'.attained (hfound.mp h)
  -- the route taken under the higher policy competes under the lower one
  have hleast : p.totalCost.le (routeTotal snap w src dst hops') = true := by
    refine Double.le_of_not_lt ?_ (totalWith_ne_nan hw.numaPenalty) (hanswer.least h hops' hroute')
    rw [htotal]
    exact totalWith_ne_nan hw.numaPenalty
  rw [htotal']
  exact Double.le_trans hleast (routeTotal_mono hw href hle hfin hlat hops')

/-- Two joined nodes under the default policy and under one with a higher penalty for a hop. -/
theorem lowestCostPath_mono_pair :
    ∃ p p', Returns (fun fuel => lowestCostPath exact fuel pairSnapshot ⟨0, 1⟩ ⟨0, 2⟩
        { latencyNsWeight := .fin (1 / 2000) }) p ∧
      Returns (fun fuel => lowestCostPath exact fuel pairSnapshot ⟨0, 1⟩ ⟨0, 2⟩
        { hopPenalty := .fin 2, latencyNsWeight := .fin (1 / 2000) }) p' ∧
      (p.found = true ↔ p'.found = true) ∧
      (p.found = true → p.totalCost.le p'.totalCost = true) := by
  apply lowestCostPath_mono (by decide) (by decide) (by decide)
  · simp [pairSnapshot]
  · constructor <;> simp
  · decide
  · constructor <;> decide +kernel
  · constructor <;> exact Double.isFinite_fin _

/-- A penalty for a hop that is higher than the replacement of an infinite cost. -/
def dearHops : CostWeights :=
  { hopPenalty := .fin 2000000000000000, latencyNsWeight := .fin (1 / 2000) }

/-- An infinite penalty for a hop. -/
def endlessHops : CostWeights := { dearHops with hopPenalty := .inf false }

/-- The guard makes the infinite penalty the cheaper one. -/
theorem policy_not_monotone : pairSnapshot.NoDanglingEdges ∧
    (∀ e ∈ pairSnapshot.edges, ∀ l, e.latencyNs = some l → l.Nonneg) ∧
    dearHops.Nonneg ∧ dearHops.bandwidthRefBps.Pos ∧ dearHops.Le endlessHops ∧
    ∃ p p', lowestCostPath exact 20 pairSnapshot ⟨0, 1⟩ ⟨0, 2⟩ dearHops = .ok p ∧
      lowestCostPath exact 20 pairSnapshot ⟨0, 1⟩ ⟨0, 2⟩ endlessHops = .ok p' ∧
      p.found = true ∧ p'.found = true ∧ p'.totalCost.lt p.totalCost = true := by
  have hrun : (lowestCostPath exact 20 pairSnapshot ⟨0, 1⟩ ⟨0, 2⟩ dearHops >>= fun p =>
      lowestCostPath exact 20 pairSnapshot ⟨0, 1⟩ ⟨0, 2⟩ endlessHops >>= fun p' =>
        .ok (p.found, p'.found, p'.totalCost.lt p.totalCost)) = .ok (true, true, true) := by
    decide +kernel
  obtain ⟨p, hp, hrun⟩ := Outcome.bind_eq_ok.mp hrun
  obtain ⟨p', hp', hrun⟩ := Outcome.bind_eq_ok.mp hrun
  obtain ⟨hfound, hrun⟩ := Prod.mk.inj (Outcome.ok.inj hrun)
  obtain ⟨hfound', hlt⟩ := Prod.mk.inj hrun
  refine ⟨by decide, by simp [pairSnapshot], ?_, by decide, ?_, p, p', hp, hp', hfound, hfound', hlt⟩
  · constructor <;> simp [dearHops]
  · constructor <;> decide +kernel

end TopologyFabric

import TopologyFabric.Core.Rounding
import TopologyFabric.Query.CorrectedSearch

/-!
# The Cost Search with Rounding

The distances of `lowest_cost_path` with rounding are infinities and multiples of the least number of
the format. Rounded sums keep their order, so the search is a best-first search, also with negative
costs. When no cost is negative, the distances stay among the numbers of the format, a rounded sum is
never below the first summand, and the search goes round nothing. The path that is found need not be
a cheapest one.

## Main results

- `lowestCostPath_answers`: the query returns and finds a path iff there is a route, when what would
  lead the search astray is overtaken
- `CostsNotNeg.detoursOvertaken`: without negative costs only edges that leave the snapshot do that
-/

namespace TopologyFabric

open Library LabelCorrecting Filter

/-! ## Numbers of the format -/

/-- Infinity, or a number that is not negative and that the rounding keeps. -/
def IsRounded (fl : Rounding) (d : Double) : Prop :=
  d = .inf false ∨ ∃ q, 0 ≤ q ∧ d = .fin q ∧ fl q = .fin q

theorem isRounded_zero {fl : Rounding} (hfl : IsRounding fl) : IsRounded fl (.fin 0) :=
  Or.inr ⟨0, le_rfl, rfl, hfl.zero⟩

/-- The sum with a finite number that is not negative is a number of the format again, and it is not
below the first summand. -/
theorem IsRounded.add_cost {fl : Rounding} (hfl : IsRounding fl) {d c : Double}
    (hd : IsRounded fl d) (hc : c.Nonneg) (hfinite : c.IsFinite) :
    IsRounded fl (d.add fl c) ∧ (d.add fl c).lt d = false := by
  rcases hd with rfl | ⟨q, hq, rfl, hfq⟩
  · rw [hfinite.inf_add false]
    exact ⟨Or.inl rfl, Double.lt_irrefl _⟩
  · have hsum : (Double.fin q).add fl c = fl (q + c.toRat) :=
      Double.IsFinite.add_eq ⟨rfl, rfl⟩ hfinite
    have hge : 0 ≤ c.toRat := hc.toRat_nonneg
    -- rounding is monotone, and the distance is rounded already
    have hmono := hfl.mono q (q + c.toRat) hq (le_add_of_nonneg_right hge)
    rw [hfq] at hmono
    rw [hsum]
    refine ⟨?_, hmono⟩
    rcases hfl.closed (q + c.toRat) (add_nonneg hq hge) with h | ⟨r, hr, h, hfr⟩
    · exact Or.inl h
    · exact Or.inr ⟨r, hr, h, hfr⟩

/-! ## Distances -/

/-- An infinity, or a multiple of the least positive number. -/
def IsDistance (d : Double) : Prop :=
  (∃ neg, d = .inf neg) ∨ ∃ r, IsMultiple r ∧ d = .fin r

/-- A sum with a multiple is rounded to a distance again. -/
theorem IsDistance.add {d c : Double} (hd : IsDistance d) (hfinite : c.IsFinite)
    (hc : IsMultiple c.toRat) : IsDistance (d.add binary64 c) := by
  rcases hd with ⟨neg, rfl⟩ | ⟨r, hr, rfl⟩
  · exact Or.inl ⟨neg, hfinite.inf_add neg⟩
  · rw [Double.IsFinite.add_eq ⟨rfl, rfl⟩ hfinite]
    exact (hr.add hc).binary64

/-- The distances of a search with rounding. -/
abbrev Rounded := {d : Double // IsDistance d}

namespace Rounded

/-- The position on the real line with its ends. -/
def position (d : Rounded) : ℤ ×ₗ ℚ := d.1.rank.getD (toLex (0, 0))

theorem rank_eq (d : Rounded) : d.1.rank = some d.position := by
  obtain ⟨d, ⟨neg, rfl⟩ | ⟨r, -, rfl⟩⟩ := d <;> rfl

theorem position_injective : Function.Injective position := by
  rintro ⟨a, ha⟩ ⟨b, hb⟩ h
  have hrank : a.rank = b.rank := (rank_eq ⟨a, ha⟩).trans (h ▸ (rank_eq ⟨b, hb⟩).symm)
  apply Subtype.ext
  rcases ha with ⟨neg, rfl⟩ | ⟨r, -, rfl⟩ <;> rcases hb with ⟨neg', rfl⟩ | ⟨r', -, rfl⟩
  · cases neg <;> cases neg' <;> simp_all [Double.rank]
  · cases neg <;> simp [Double.rank] at hrank
  · cases neg' <;> simp [Double.rank] at hrank
  · simpa [Double.rank] using hrank

instance : LinearOrder Rounded := LinearOrder.lift' position position_injective

theorem keepsOrder : KeepsOrder (Subtype.val : Rounded → Double) := by
  intro a b
  rw [Double.le, rank_eq, rank_eq]
  rfl

theorem le_iff {a b : Rounded} : a ≤ b ↔ b.1.lt a.1 = false := by
  rw [keepsOrder.lt b a, decide_eq_false_iff_not, not_lt]

/-- The value zero. -/
def zero : Rounded := ⟨.fin 0, Or.inr ⟨0, isMultiple_zero, rfl⟩⟩

@[simp] theorem val_zero : zero.1 = .fin 0 := rfl

end Rounded

/-! ## The search -/

section Search

variable {fl : Rounding} {snap : TopologySnapshot} {w : CostWeights} {src dst : TopologyNodeId}

/-- No usable edge between two nodes of the snapshot has a latency below zero. -/
def LatenciesNotNeg (snap : TopologySnapshot) : Prop :=
  ∀ e ∈ snap.edges, e.Usable false → snap.Present e.source → snap.Present e.target →
    ∀ l, e.latencyNs = some l → l.NotNeg

/-- No usable edge between two nodes of the snapshot has a negative cost. -/
def CostsNotNeg (fl : Rounding) (snap : TopologySnapshot) (w : CostWeights) : Prop :=
  ∀ e ∈ snap.edges, e.Usable false → ∀ a b, e.Joins a b →
    ∀ u v, snap.findNode a = some u → snap.findNode b = some v →
      (edgeTraversalCost fl u v e w).Nonneg

/-- Weights that are not negative turn latencies that are not negative into such costs. -/
theorem costsNotNeg_of_latencies (hfl : IsRounding fl) (hw : w.Nonneg)
    (hlat : LatenciesNotNeg snap) : CostsNotNeg fl snap w := by
  intro e he husable a b hjoins u v hu hv
  have ha : snap.Present a := Option.isSome_iff_exists.mpr ⟨u, hu⟩
  have hb : snap.Present b := Option.isSome_iff_exists.mpr ⟨v, hv⟩
  apply edgeTraversalCost_nonneg_rounded hfl.keepsSign hw
  rcases hjoins with ⟨rfl, rfl⟩ | ⟨rfl, rfl⟩
  · exact hlat e he husable ha hb
  · exact hlat e he husable hb ha

theorem CostsNotNeg.hopCost_nonneg (hcost : CostsNotNeg fl snap w) {u : TopologyNodeId}
    {p : TopologyNodeId × ℕ} (hp : p ∈ snap.links false u) :
    (hopCost fl snap w u p.1 p.2).Nonneg := by
  obtain ⟨e, he, husable, hj⟩ := mem_links.mp hp
  unfold hopCost
  split
  · rename_i un vn e' hun hvn he'
    obtain rfl := Option.some.inj (he.symm.trans he')
    exact hcost e (List.mem_of_getElem? he) husable u p.1 hj un vn hun hvn
  · exact (Double.nonneg_fin 0).mpr le_rfl

/-- A cost is a multiple of the least positive number. -/
theorem hopCost_isMultiple (a b : TopologyNodeId) (i : ℕ) :
    IsMultiple (hopCost binary64 snap w a b i).toRat := by
  unfold hopCost
  split
  · rename_i u v e _ _ _
    rcases edgeTraversalCost_cases binary64 u v e w with h | ⟨q, h⟩
    · rw [h]
      refine ⟨1000000000000000 * 2 ^ 1074, ?_⟩
      rw [zpow_neg, Int.cast_mul, Int.cast_pow, Int.cast_ofNat, Int.cast_ofNat, mul_assoc]
      norm_cast
      rw [mul_inv_cancel₀ (by positivity), mul_one]
      rfl
    · rw [h]
      exact toRat_binary64_isMultiple q
  · exact isMultiple_zero

/-- The value that a hop leads to. -/
def roundedExtend (snap : TopologySnapshot) (w : CostWeights) (d : Rounded)
    (u v : TopologyNodeId) (i : ℕ) : Rounded :=
  ⟨d.1.add binary64 (hopCost binary64 snap w u v i),
    d.2.add (hopCost_isFinite u v i) (hopCost_isMultiple u v i)⟩

theorem addsHopCost_rounded : AddsHopCost binary64 snap w Subtype.val (roundedExtend snap w) :=
  fun _ _ _ _ => rfl

theorem roundedExtend_mono (u v : TopologyNodeId) (i : ℕ) :
    Monotone fun d => roundedExtend snap w d u v i := by
  rintro ⟨a, ha⟩ ⟨b, hb⟩ h
  have hlt : b.lt a = false := Rounded.le_iff.mp h
  refine Rounded.le_iff.mpr ?_
  show (b.add binary64 (hopCost binary64 snap w u v i)).lt
    (a.add binary64 (hopCost binary64 snap w u v i)) = false
  have hfinite : (hopCost binary64 snap w u v i).IsFinite := hopCost_isFinite u v i
  generalize hopCost binary64 snap w u v i = c at hfinite
  -- infinities stay what they are, and between numbers the rounding is monotone
  rcases ha with ⟨neg, rfl⟩ | ⟨r, -, rfl⟩
  · rw [hfinite.inf_add neg]
    cases neg with
    | true => exact Double.lt_negInf _
    | false =>
      rcases hb with ⟨neg', rfl⟩ | ⟨r', -, rfl⟩
      · rwa [hfinite.inf_add neg']
      · rw [Double.fin_lt_inf] at hlt
        cases hlt
  · rcases hb with ⟨neg', rfl⟩ | ⟨r', -, rfl⟩
    · rw [hfinite.inf_add neg']
      cases neg' with
      | true =>
        rw [Double.inf_lt_fin] at hlt
        cases hlt
      | false => exact Double.posInf_lt _
    · rw [Double.lt_fin, decide_eq_false_iff_not, not_lt] at hlt
      rw [Double.IsFinite.add_eq ⟨rfl, rfl⟩ hfinite, Double.IsFinite.add_eq ⟨rfl, rfl⟩ hfinite]
      exact binary64_mono (add_le_add_left hlt _)

/-- The walks that would lead the search astray are overtaken: those to nodes that the snapshot does
not hold, and those that traps are put together from. -/
structure DetoursOvertaken (snap : TopologySnapshot) (w : CostWeights) (src dst : TopologyNodeId) :
    Prop where
  lookups : LookupsOvertaken snap (roundedExtend snap w) Rounded.zero src dst
  traps : TrapsOvertaken (snap.links false) (roundedExtend snap w) Rounded.zero src dst

/-! ## Costs that are not negative -/

section NotNeg

variable (hcost : CostsNotNeg binary64 snap w)

include hcost

/-- Without negative costs a walk leads to a number of the format. -/
theorem CostsNotNeg.isRounded_walkValue {Q : List EdgeHop} {x : TopologyNodeId}
    (h : IsWalk (snap.links false) src Q x) :
    IsRounded binary64 (BestFirst.walkValue (roundedExtend snap w) Rounded.zero Q).1 := by
  induction Q using List.reverseRecOn generalizing x with
  | nil => exact isRounded_zero binary64_isRounding
  | append_singleton Q hop ih =>
    obtain ⟨hinit, hsrc, hend, hmem⟩ := isWalk_snoc h
    rw [← hsrc, ← hend] at hmem
    rw [BestFirst.walkValue_snoc]
    exact ((ih hinit).add_cost binary64_isRounding
      (hcost.hopCost_nonneg (p := (hop.dst, hop.via)) hmem) (hopCost_isFinite ..)).1

/-- Without negative costs no hop of a walk leads to a smaller distance. -/
theorem CostsNotNeg.walkValue_le {Q : List EdgeHop} {x : TopologyNodeId}
    (h : IsWalk (snap.links false) src Q x) {p : TopologyNodeId × ℕ} (hp : p ∈ snap.links false x) :
    BestFirst.walkValue (roundedExtend snap w) Rounded.zero Q ≤
      roundedExtend snap w (BestFirst.walkValue (roundedExtend snap w) Rounded.zero Q) x p.1 p.2 :=
  Rounded.le_iff.mpr ((hcost.isRounded_walkValue h).add_cost binary64_isRounding
    (hcost.hopCost_nonneg hp) (hopCost_isFinite ..)).2

theorem CostsNotNeg.walkValue_le_append {A C : List EdgeHop} {x : TopologyNodeId}
    (h : IsWalk (snap.links false) src (A ++ C) x) :
    BestFirst.walkValue (roundedExtend snap w) Rounded.zero A ≤
      BestFirst.walkValue (roundedExtend snap w) Rounded.zero (A ++ C) := by
  induction C using List.reverseRecOn generalizing x with
  | nil => rw [List.append_nil]
  | append_singleton C hop ih =>
    rw [← List.append_assoc] at h ⊢
    obtain ⟨hinit, hsrc, hend, hmem⟩ := isWalk_snoc h
    rw [← hsrc] at hinit hmem
    rw [← hend] at hmem
    rw [BestFirst.walkValue_snoc]
    exact (ih hinit).trans (hcost.walkValue_le (p := (hop.dst, hop.via)) hinit hmem)

/-- Without negative costs there are no traps. -/
theorem CostsNotNeg.not_trap {Q : List EdgeHop} :
    ¬ Trap (snap.links false) (roundedExtend snap w) Rounded.zero src dst Q := by
  intro htrap
  cases htrap with
  | back hwalk _ hless => exact not_lt.mpr (hcost.walkValue_le_append (A := []) hwalk) hless
  | circle hwalk _ hA _ hmem hless =>
    obtain ⟨C, rfl⟩ := hA
    exact not_lt.mpr ((hcost.walkValue_le_append hwalk).trans (hcost.walkValue_le hwalk hmem)) hless

/-- Without negative costs nothing leads the search astray but edges that leave the snapshot. -/
theorem CostsNotNeg.detoursOvertaken (hsrc : snap.Present src) (hstay : LinksStay snap) :
    DetoursOvertaken snap w src dst where
  lookups := hstay.lookupsOvertaken hsrc
  traps _ _ _ htrap := absurd htrap hcost.not_trap

end NotNeg

/-- `lowest_cost_path` answers, if between two different nodes of the snapshot the detours are
overtaken. -/
theorem lowestCostPath_answers
    (h : snap.Present src → snap.Present dst → src ≠ dst → DetoursOvertaken snap w src dst) :
    ∃ p, Returns (fun fuel => lowestCostPath binary64 fuel snap src dst w) p ∧
      PathAnswer snap false src dst p := by
  by_cases hpresent : snap.Present src ∧ snap.Present dst
  swap
  · -- an endpoint is missing
    refine ⟨{ source := src, destination := dst, reasons := [endpointMissing] },
      Eventually.of_forall fun fuel => ?_, rfl, rfl, ?_, by simp⟩
    · simp only [lowestCostPath, missing_endpoint hpresent, if_true]
    · exact ⟨fun h => absurd h Bool.false_ne_true, fun h => absurd ⟨h.1, h.2.1⟩ hpresent⟩
  obtain ⟨hsrc, hdst⟩ := hpresent
  by_cases hne : src = dst
  · subst hne
    exact ⟨_, lowestCostPath_self hsrc, rfl, rfl,
      ⟨fun _ => ⟨hsrc, hsrc, [], .nil src⟩, fun _ => rfl⟩, by simp⟩
  obtain ⟨hlookups, htraps⟩ := h hsrc hdst hne
  exact lowestCostPath_answers_of_overtaken Rounded.keepsOrder addsHopCost_rounded rfl
    roundedExtend_mono hsrc hdst hne hlookups htraps

end Search

end TopologyFabric

import TopologyFabric.Query.CostSearch
import TopologyFabric.Library.Dijkstra

/-!
# Lowest-Cost Paths

In exact arithmetic `lowest_cost_path` refines Dijkstra's algorithm over the rationals.

## Main result

- `lowestCostPath_correct`: on a snapshot without dangling edges, with nonnegative weights and
  latencies, the query returns, finds a route iff there is one, and no route has a lower total
-/

namespace TopologyFabric

open Library Filter

/-! ## Exact costs -/

/-- The cost of a hop as a rational number. -/
def exactCost (snap : TopologySnapshot) (w : CostWeights) (a b : TopologyNodeId) (i : ℕ) : ℚ :=
  (hopCost exact snap w a b i).toRat

section ExactCosts

variable {snap : TopologySnapshot} {w : CostWeights}

theorem hopCost_exact (a b : TopologyNodeId) (i : ℕ) :
    hopCost exact snap w a b i = .fin (exactCost snap w a b i) := by
  have hfin : ∃ q, hopCost exact snap w a b i = .fin q := by
    unfold hopCost
    split
    · exact edgeTraversalCost_exact ..
    · exact ⟨0, rfl⟩
  obtain ⟨q, hq⟩ := hfin
  rw [exactCost, hq]
  rfl

/-- In exact arithmetic the hops of the query lead to the values of Dijkstra's algorithm. -/
theorem addsHopCost_exact :
    AddsHopCost exact snap w Double.fin (Dijkstra.addCost (exactCost snap w)) := by
  intro u p _ d
  rw [hopCost_exact, Double.add_exact, Dijkstra.addCost]

theorem keepsOrder_fin : KeepsOrder Double.fin := Double.le_fin

end ExactCosts

/-! ## Totals -/

/-- The total of a list of hop costs between two endpoints: the sum, and the NUMA penalty exactly
when both endpoints carry different NUMA nodes. -/
def totalWith (snap : TopologySnapshot) (w : CostWeights) (src dst : TopologyNodeId) (sum : ℚ) :
    Double :=
  match snap.findNode src, snap.findNode dst with
  | some a, some b =>
    if crossesNuma a b then (Double.fin sum).add exact w.numaPenalty else .fin sum
  | _, _ => .fin sum

/-- The total cost of a route. -/
def routeTotal (snap : TopologySnapshot) (w : CostWeights) (src dst : TopologyNodeId)
    (hops : List EdgeHop) : Double :=
  totalWith snap w src dst (walkCost (exactCost snap w) hops)

/-- Every segment has the cost of traversing its edge in its direction. -/
def SegmentsCosted (snap : TopologySnapshot) (w : CostWeights) (segs : List PathSegment) : Prop :=
  ∀ seg ∈ segs, ∃ u v e, snap.findNode seg.source = some u ∧ snap.findNode seg.target = some v ∧
    snap.edges[seg.edgeIndex]? = some e ∧ seg.edgeCost = edgeTraversalCost exact u v e w

section Totals

variable {snap : TopologySnapshot} {w : CostWeights} {src dst : TopologyNodeId}

private theorem not_lt_add {a b : ℚ} (h : a ≤ b) (x : Double) :
    ((Double.fin b).add exact x).lt ((Double.fin a).add exact x) = false := by
  cases x with
  | nan => rfl
  | inf neg => exact Double.lt_irrefl _
  | negZero =>
    show (Double.fin (b + 0)).lt (Double.fin (a + 0)) = false
    simpa using h
  | fin q =>
    show (Double.fin (b + q)).lt (Double.fin (a + q)) = false
    simpa using h

theorem not_totalWith_lt {a b : ℚ} (h : a ≤ b) :
    (totalWith snap w src dst b).lt (totalWith snap w src dst a) = false := by
  unfold totalWith
  split
  · split
    · exact not_lt_add h _
    · simpa using h
  · simpa using h

/-- With a nonnegative penalty a total is a number or positive infinity. -/
theorem totalWith_cases (hnuma : w.numaPenalty.Nonneg) (sum : ℚ) :
    (∃ q, totalWith snap w src dst sum = .fin q) ∨ totalWith snap w src dst sum = .inf false := by
  have hadd : (∃ q, (Double.fin sum).add exact w.numaPenalty = .fin q) ∨
      (Double.fin sum).add exact w.numaPenalty = .inf false := by
    -- a penalty that is not negative is a number or infinite
    cases h : w.numaPenalty with
    | nan => exact absurd (h ▸ hnuma) Double.not_nonneg_nan
    | inf neg =>
      obtain rfl := (Double.nonneg_inf neg).mp (h ▸ hnuma)
      exact Or.inr rfl
    | negZero => exact Or.inl ⟨_, rfl⟩
    | fin q => exact Or.inl ⟨_, rfl⟩
  unfold totalWith
  split
  · split_ifs
    · exact hadd
    · exact Or.inl ⟨_, rfl⟩
  · exact Or.inl ⟨_, rfl⟩

theorem totalWith_ne_nan (hnuma : w.numaPenalty.Nonneg) {sum : ℚ} :
    totalWith snap w src dst sum ≠ .nan := by
  have hcases : (∃ q, totalWith snap w src dst sum = .fin q) ∨
      totalWith snap w src dst sum = .inf false := totalWith_cases hnuma sum
  rcases hcases with ⟨q, h⟩ | h <;> simp [h]

theorem backTotal_exact (hops : List EdgeHop) (t : ℚ) :
    backTotal exact snap w (.fin t) hops = .fin (t + walkCost (exactCost snap w) hops) := by
  induction hops with
  | nil => simp [backTotal]
  | cons hop hops ih =>
    rw [backTotal, List.foldr_cons, ← backTotal, ih, hopCost_exact, Double.add_exact,
      walkCost_cons]
    congr 1
    ring

/-- The costs of the segments of a route sum up to its cost. -/
theorem sum_costSegment (hops : List EdgeHop) :
    ((hops.map (costSegment exact snap w)).map fun seg => seg.edgeCost.toRat).sum =
      walkCost (exactCost snap w) hops := by
  rw [List.map_map]
  rfl

theorem exactCost_nonneg (hw : w.Nonneg) (href : w.bandwidthRefBps.Pos)
    (hlat : ∀ e ∈ snap.edges, ∀ l, e.latencyNs = some l → l.Nonneg) (a b : TopologyNodeId) (i : ℕ) :
    0 ≤ exactCost snap w a b i := by
  unfold exactCost hopCost
  split
  · rename_i u v e _ _ he
    exact (edgeTraversalCost_nonneg hw href (hlat e (List.mem_of_getElem? he))).toRat_nonneg
  · exact le_refl _

end Totals

/-! ## The query -/

section Query

variable {snap : TopologySnapshot} {w : CostWeights} {src dst : TopologyNodeId}

theorem SegmentsFollow.of_costed {hops : List EdgeHop} (h : IsRoute snap false src hops dst)
    (hknown : ∀ hop ∈ hops, HopKnown snap hop) :
    SegmentsFollow snap false src (hops.map (costSegment exact snap w)) dst ∧
      SegmentsCosted snap w (hops.map (costSegment exact snap w)) := by
  refine ⟨⟨by rwa [map_hop_costSegment], fun seg hseg => ?_⟩, fun seg hseg => ?_⟩
  · obtain ⟨hop, hhop, rfl⟩ := List.mem_map.mp hseg
    obtain ⟨e, he, _⟩ := h.edge_of_mem hop hhop
    exact ⟨e, he, by simp [costSegment, hopSegment, he]⟩
  · obtain ⟨hop, hhop, rfl⟩ := List.mem_map.mp hseg
    obtain ⟨hu, hv, e, he⟩ := hknown hop hhop
    obtain ⟨u, hu', _⟩ := hu.exists_node
    obtain ⟨v, hv', _⟩ := hv.exists_node
    exact ⟨u, v, e, hu', hv', he, hopCost_eq hu' hv' he⟩

/-- What the answer of the query says about the routes between its endpoints. -/
structure LowestCostAnswer (snap : TopologySnapshot) (w : CostWeights) (src dst : TopologyNodeId)
    (p : TopologyPath) : Prop where
  found : p.found = true ↔ ∃ hops, IsRoute snap false src hops dst
  segments : p.found = true → SegmentsFollow snap false src p.segments dst ∧
    SegmentsCosted snap w p.segments
  total : p.found = true → p.totalCost =
    totalWith snap w src dst (p.segments.map fun seg => seg.edgeCost.toRat).sum
  attained : p.found = true → ∃ hops, IsRoute snap false src hops dst ∧
    p.totalCost = routeTotal snap w src dst hops
  least : p.found = true → ∀ hops, IsRoute snap false src hops dst →
    (routeTotal snap w src dst hops).lt p.totalCost = false
  notFound : p.found = false → p.totalCost = .fin 0

/-- A node is reached from itself at no cost, and no route round it is cheaper. -/
theorem LowestCostAnswer.self {p : TopologyPath} (hsrc : snap.Present src)
    (hnonneg : ∀ a b i, 0 ≤ exactCost snap w a b i) (hfound : p.found = true)
    (hsegments : p.segments = []) (htotal : p.totalCost = .fin 0) :
    LowestCostAnswer snap w src src p := by
  obtain ⟨srcNode, hsrcNode, -⟩ := hsrc.exists_node
  have hself : ∀ sum, totalWith snap w src src sum = .fin sum := by
    intro sum
    -- a node is in the same NUMA domain as itself
    have hcross : crossesNuma srcNode srcNode = false := by
      unfold crossesNuma
      cases srcNode.native.numaNode <;> simp
    simp [totalWith, hsrcNode, hcross]
  exact
    { found := ⟨fun _ => ⟨[], .nil src⟩, fun _ => hfound⟩
      segments := fun _ => by
        rw [hsegments]
        exact ⟨⟨.nil src, by simp⟩, by simp [SegmentsCosted]⟩
      total := fun _ => by simp [hself, hsegments, htotal]
      attained := fun _ => ⟨[], .nil src, by simp [routeTotal, hself, htotal]⟩
      least := fun _ hops _ => by
        rw [routeTotal, hself, htotal]
        simpa using walkCost_nonneg _ fun hop _ => hnonneg hop.src hop.dst hop.via
      notFound := fun _ => htotal }

/-- The query returns an answer about the routes. -/
theorem lowestCostPath_returns (hd : snap.NoDanglingEdges) (hsrc : snap.Present src)
    (hdst : snap.Present dst) (hw : w.Nonneg) (href : w.bandwidthRefBps.Pos)
    (hlat : ∀ e ∈ snap.edges, ∀ l, e.latencyNs = some l → l.Nonneg) :
    ∃ p, Returns (fun fuel => lowestCostPath exact fuel snap src dst w) p ∧
      LowestCostAnswer snap w src dst p := by
  have hnonneg : ∀ a b i, 0 ≤ exactCost snap w a b i := exactCost_nonneg hw href hlat
  by_cases hne : src = dst
  · subst hne
    exact ⟨_, lowestCostPath_self hsrc, .self hsrc hnonneg rfl rfl rfl⟩
  -- in exact arithmetic the search is that of the library, with rational costs
  obtain ⟨⟨found, s⟩, hans, hret⟩ := Dijkstra.dijkstra_correct (ε := Exception)
    (snap.links false) (exactCost snap w) (insert src snap.endpoints)
    (fun u p hp => Finset.mem_insert_of_mem (mem_endpoints_of_link hp).1) src dst
    (Finset.mem_insert_self ..) (fun _ u _ p _ => hnonneg u p.1 p.2)
  have hsearch := costSearch_returns keepsOrder_fin addsHopCost_exact (hd.linksStay.supports _ dst)
    rfl (BestFirst.queued_init hsrc 0) hret
  cases found with
  | false =>
    have hno : ¬ ({ source := src, destination := dst, reasons := [noPath] } :
        TopologyPath).found = true := Bool.false_ne_true
    refine ⟨_, lowestCostPath_notFound hsrc hdst hne hsearch, ⟨fun h => absurd h hno, ?_⟩,
      fun h => absurd h hno, fun h => absurd h hno, fun h => absurd h hno, fun h => absurd h hno,
      fun _ => rfl⟩
    rintro ⟨hops, hroute⟩
    exact absurd (isRoute_iff_isWalk.mp hroute) (hans hops)
  | true =>
    obtain ⟨hops, hchain, hwalk, hleast⟩ := hans
    have hroute := isRoute_iff_isWalk.mpr hwalk
    obtain ⟨p, hret, hfound, -, -, hsegs, srcNode, dstNode, hsrcNode, hdstNode, htotal⟩ :=
      lowestCostPath_found hsrc hdst hne hsearch hchain (hd.linksStay.hopKnown hsrc hwalk)
        (hd.linksStay.parents_present hsrc)
    -- the costs that are added up on the way back are those of the route
    have htotal' : p.totalCost = routeTotal snap w src dst hops := by
      rw [htotal, backTotal_exact, zero_add]
      simp only [routeTotal, totalWith, hsrcNode, hdstNode]
    obtain ⟨hfollow, hcosted⟩ :=
      SegmentsFollow.of_costed (w := w) hroute (hd.linksStay.hopKnown hsrc hwalk)
    refine ⟨p, hret, ⟨fun _ => ⟨hops, hroute⟩, fun _ => hfound⟩, fun _ => ?_, fun _ => ?_,
      fun _ => ⟨hops, hroute, htotal'⟩, fun _ hops' hroute' => ?_, fun h => ?_⟩
    · rw [hsegs]
      exact ⟨hfollow, hcosted⟩
    · rw [hsegs, htotal', sum_costSegment, routeTotal]
    · rw [htotal']
      exact not_totalWith_lt (hleast hops' (isRoute_iff_isWalk.mp hroute'))
    · exact absurd (hfound.symm.trans h) (by simp)

/-- **Lowest cost.** In exact arithmetic, on a snapshot without dangling edges and with
nonnegative weights and latencies, `lowest_cost_path` returns. It reports a path iff there is a
route; then the segments are a route with its costs, the total is their sum and the NUMA penalty
of the endpoints, and no route has a lower total. -/
theorem lowestCostPath_correct (hd : snap.NoDanglingEdges) (hsrc : snap.Present src)
    (hdst : snap.Present dst) (hw : w.Nonneg) (href : w.bandwidthRefBps.Pos)
    (hlat : ∀ e ∈ snap.edges, ∀ l, e.latencyNs = some l → l.Nonneg) :
    ∃ p, Returns (fun fuel => lowestCostPath exact fuel snap src dst w) p ∧
      (p.found = true ↔ ∃ hops, IsRoute snap false src hops dst) ∧
      (p.found = true → SegmentsFollow snap false src p.segments dst ∧
        SegmentsCosted snap w p.segments ∧
        p.totalCost =
          totalWith snap w src dst (p.segments.map fun seg => seg.edgeCost.toRat).sum ∧
        ∀ hops, IsRoute snap false src hops dst →
          (routeTotal snap w src dst hops).lt p.totalCost = false) := by
  obtain ⟨p, hret, hanswer⟩ := lowestCostPath_returns hd hsrc hdst hw href hlat
  refine ⟨p, hret, hanswer.found, fun h => ?_⟩
  obtain ⟨hfollow, hcosted⟩ := hanswer.segments h
  exact ⟨hfollow, hcosted, hanswer.total h, hanswer.least h⟩

end Query

/-- The query on two joined nodes with the default weights. -/
theorem lowestCostPath_correct_pair :
    pairSnapshot.NoDanglingEdges ∧
      ∃ p, Returns (fun fuel => lowestCostPath exact fuel pairSnapshot ⟨0, 1⟩ ⟨0, 2⟩
          { latencyNsWeight := .fin (1 / 2000) }) p ∧
        (p.found = true ↔ ∃ hops, IsRoute pairSnapshot false ⟨0, 1⟩ hops ⟨0, 2⟩) := by
  have hd : pairSnapshot.NoDanglingEdges := by decide
  have hsrc : pairSnapshot.Present ⟨0, 1⟩ := by decide
  have hdst : pairSnapshot.Present ⟨0, 2⟩ := by decide
  have hw : CostWeights.Nonneg { latencyNsWeight := .fin (1 / 2000) } := by
    constructor <;> simp
  have hlat : ∀ e ∈ pairSnapshot.edges, ∀ l, e.latencyNs = some l → l.Nonneg := by
    simp [pairSnapshot]
  obtain ⟨p, hret, hfound, _⟩ := lowestCostPath_correct hd hsrc hdst hw (by decide) hlat
  exact ⟨hd, p, hret, hfound⟩

end TopologyFabric

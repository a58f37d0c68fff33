import TopologyFabric.Library.Subwalks
import TopologyFabric.Query.Distance
import TopologyFabric.Query.LowestCostPath
import TopologyFabric.Query.Symmetry

/-!
# Distances Compose

The answers of the path queries for different pairs of nodes fit together. Hops are a distance, the
shortest paths out of one node form a tree, and parts of lowest-cost paths are lowest-cost paths. A
total also has a penalty for the ends of the path, which is not a sum over its segments; totals
satisfy the triangle inequality where the node in the middle carries a NUMA node.

## Main results

- `graphHops_metric`: the hops of `distance_between` are a distance
- `shortestPath_tree`: a shortest path goes along the shortest paths to the nodes on it
- `lowestCostPath_composes`: triangle inequality and parts of lowest-cost paths
-/

namespace TopologyFabric

open Library Filter

/-! ## Hops -/

/-- The number of hops of a shortest route, or -1 where there is none. -/
def HopsApart (snap : TopologySnapshot) (a b : TopologyNodeId) (n : ℤ) : Prop :=
  (n = -1 ∧ ∀ hops, ¬ IsRoute snap false a hops b) ∨
    ∃ hops, IsRoute snap false a hops b ∧ n = hops.length ∧
      ∀ hops', IsRoute snap false a hops' b → hops.length ≤ hops'.length

namespace HopsApart

variable {snap : TopologySnapshot} {a b c : TopologyNodeId} {m n k : ℤ}

theorem eq_neg_one_iff (h : HopsApart snap a b n) :
    n = -1 ↔ ∀ hops, ¬ IsRoute snap false a hops b := by
  rcases h with ⟨hn, hnone⟩ | ⟨hops, hroute, hn, -⟩
  · exact ⟨fun _ => hnone, fun _ => hn⟩
  · constructor
    · intro hneg
      omega
    · intro hnone
      exact absurd hroute (hnone hops)

theorem eq_zero_iff (h : HopsApart snap a b n) : n = 0 ↔ a = b := by
  rcases h with ⟨hn, hnone⟩ | ⟨hops, hroute, hn, hleast⟩
  · constructor
    · intro hzero
      omega
    · rintro rfl
      exact absurd (.nil a) (hnone [])
  · constructor
    · intro hzero
      obtain rfl : hops = [] := List.eq_nil_of_length_eq_zero (by omega)
      exact (isRoute_iff_isWalk.mp hroute).dst_eq_of_nil
    · rintro rfl
      have hnil := hleast [] (.nil a)
      rw [List.length_nil] at hnil
      omega

/-- The distance back is the distance there. -/
theorem symm_eq (h : HopsApart snap a b m) (h' : HopsApart snap b a n) : m = n := by
  rcases h with ⟨hm, hnone⟩ | ⟨hops, hroute, hm, hleast⟩
  · have hnone' : ∀ hops, ¬ IsRoute snap false b hops a := by
      intro hops hroute
      obtain ⟨back, hback, -⟩ := hroute.reverse
      exact hnone back hback
    exact hm.trans (h'.eq_neg_one_iff.mpr hnone').symm
  · obtain ⟨back, hback, hlength⟩ := hroute.reverse
    rcases h' with ⟨-, hnone⟩ | ⟨hops', hroute', hn, hleast'⟩
    · exact absurd hback (hnone back)
    · -- each of the two routes walks back along the other direction
      obtain ⟨back', hback', hlength'⟩ := hroute'.reverse
      have hle := hleast back' hback'
      have hge := hleast' back hback
      omega

theorem triangle (hab : HopsApart snap a b m) (hbc : HopsApart snap b c n)
    (hac : HopsApart snap a c k) (hm : m ≠ -1) (hn : n ≠ -1) : k ≠ -1 ∧ k ≤ m + n := by
  obtain ⟨hops, hroute, hm', -⟩ := hab.resolve_left fun h => hm h.1
  obtain ⟨hops', hroute', hn', -⟩ := hbc.resolve_left fun h => hn h.1
  -- one route after the other leads all the way
  have hwhole : IsRoute snap false a (hops ++ hops') c :=
    isRoute_iff_isWalk.mpr
      ((isRoute_iff_isWalk.mp hroute).append (isRoute_iff_isWalk.mp hroute'))
  rcases hac with ⟨-, hnone⟩ | ⟨direct, -, hk, hleast⟩
  · exact absurd hwhole (hnone _)
  · have hle := hleast _ hwhole
    rw [List.length_append] at hle
    omega

/-- Every smaller number of hops leads to a node on a shortest route, and the rest from there. -/
theorem split (h : HopsApart snap a b n) (hm : 0 ≤ m) (hle : m ≤ n) :
    ∃ c hops, IsRoute snap false a hops c ∧ HopsApart snap a c m ∧ HopsApart snap c b (n - m) := by
  obtain ⟨hops, hroute, hn, hleast⟩ := h.resolve_left fun h => by omega
  -- the route is cut after that many hops
  have hcut : hops.take m.toNat ++ hops.drop m.toNat = hops := List.take_append_drop _ _
  have hfront : (hops.take m.toNat).length = m.toNat := List.length_take_of_le (by omega)
  have hback : (hops.drop m.toNat).length = hops.length - m.toNat := List.length_drop
  have hwalk := isRoute_iff_isWalk.mp hroute
  rw [← hcut] at hwalk
  obtain ⟨c, hto, hon⟩ := hwalk.split
  refine ⟨c, hops.take m.toNat, isRoute_iff_isWalk.mpr hto,
    Or.inr ⟨_, isRoute_iff_isWalk.mpr hto, by omega, fun hops' hroute' => ?_⟩,
    Or.inr ⟨_, isRoute_iff_isWalk.mpr hon, by omega, fun hops' hroute' => ?_⟩⟩
  · have hwhole := hleast (hops' ++ hops.drop m.toNat)
      (isRoute_iff_isWalk.mpr ((isRoute_iff_isWalk.mp hroute').append hon))
    rw [List.length_append] at hwhole
    omega
  · have hwhole := hleast (hops.take m.toNat ++ hops')
      (isRoute_iff_isWalk.mpr (hto.append (isRoute_iff_isWalk.mp hroute')))
    rw [List.length_append] at hwhole
    omega

/-- Nodes apart in the same way have the same number of hops between them. -/
theorem unique (h : HopsApart snap a b m) (h' : HopsApart snap a b n) : m = n := by
  rcases h with ⟨hm, hnone⟩ | ⟨hops, hroute, hm, hleast⟩
  · exact hm.trans (h'.eq_neg_one_iff.mpr hnone).symm
  · rcases h' with ⟨-, hnone⟩ | ⟨hops', hroute', hn, hleast'⟩
    · exact absurd hroute (hnone hops)
    · have hle := hleast hops' hroute'
      have hge := hleast' hops hroute
      omega

end HopsApart

section Hops

variable {snap : TopologySnapshot} {a b c : TopologyNodeId}

/-- The hops of a distance are those of the shortest path. -/
theorem distanceBetween_searched {fl : Rounding} {fuel : ℕ} {w : CostWeights} {d : DistanceBreakdown}
    (hne : a ≠ b) (h : distanceBetween fl fuel snap a b w = .ok d) :
    ∃ p, shortestPath fl fuel snap a b false = .ok p ∧
      d.graphHops = if p.found then (p.hopCount : ℤ) else -1 := by
  rw [distanceBetween, if_neg hne, Outcome.bind_eq_ok] at h
  obtain ⟨p, hp, h⟩ := h
  refine ⟨p, hp, ?_⟩
  cases hfound : p.found with
  | false =>
    rw [hfound] at h
    obtain rfl := Outcome.ok.inj h
    rfl
  | true =>
    rw [hfound] at h
    simp only [Bool.not_true, Bool.false_eq_true, if_false, Outcome.bind_eq_ok,
      Outcome.pure_eq_ok, Outcome.ok.injEq] at h
    obtain ⟨_, _, _, _, _, _, _, _, _, _, _, _, _, _, _, _, rfl⟩ := h
    rfl

theorem distanceBetween_hops (fl : Rounding) (hd : snap.NoDanglingEdges) (ha : snap.Present a)
    (hb : snap.Present b) (w : CostWeights) :
    ∃ d, Returns (fun fuel => distanceBetween fl fuel snap a b w) d ∧
      HopsApart snap a b d.graphHops := by
  have hstay : Enclosed snap false a b := hd.linksStay.enclosed
  obtain ⟨d, hret, hself, -⟩ := distanceBetween_answers fl w hstay
  refine ⟨d, hret, ?_⟩
  by_cases hne : a = b
  · subst hne
    exact Or.inr ⟨[], .nil a, by simpa using hself rfl, fun _ _ => Nat.zero_le _⟩
  obtain ⟨p, hp, hanswer⟩ := shortestPath_hops fl hd ha hb false
  -- a budget for which both queries have answered
  obtain ⟨fuel, hfuel, hfuel'⟩ := (hret.and hp).exists
  obtain ⟨p', hp', hhops⟩ := distanceBetween_searched hne hfuel
  obtain rfl : p = p' := Outcome.ok.inj (hfuel'.symm.trans hp')
  rcases hanswer with ⟨hfound, -, hnone⟩ | ⟨hfound, hops, hroute, hcount, hleast⟩
  · exact Or.inl ⟨by simpa [hfound] using hhops, hnone⟩
  · exact Or.inr ⟨hops, hroute, by simpa [hfound, hcount] using hhops, hleast⟩

/-- On a route from a node of the snapshot all nodes are in it. -/
theorem TopologySnapshot.NoDanglingEdges.route_present (hd : snap.NoDanglingEdges)
    (ha : snap.Present a) {inCollocation : Bool} {hops : List EdgeHop}
    (h : IsRoute snap inCollocation a hops b) : snap.Present b := by
  induction h with
  | nil a => exact ha
  | cons he _ hj _ ih => exact ih (hd.joins he hj).2

/-- Some node lies on the way, `n` hops from the one end and `k` hops from the other. -/
def NodeOnTheWay (fl : Rounding) (snap : TopologySnapshot) (w : CostWeights)
    (a b : TopologyNodeId) (n k : ℤ) : Prop :=
  ∃ m am mb, snap.Present m ∧ Returns (fun fuel => distanceBetween fl fuel snap a m w) am ∧
    Returns (fun fuel => distanceBetween fl fuel snap m b w) mb ∧
    am.graphHops = n ∧ mb.graphHops = k

/-- **Hops are a distance.** On a snapshot without dangling edges the `graph_hops` of
`distance_between` are -1 exactly where no route leads, 0 exactly from a node to itself, the same in
both directions, and satisfy the triangle inequality, under all weights. Every smaller distance is
that of a node on the way, from where the rest of the hops is left. -/
theorem graphHops_metric (fl : Rounding) (w : CostWeights) (hd : snap.NoDanglingEdges)
    (ha : snap.Present a) (hb : snap.Present b) (hc : snap.Present c) :
    ∃ ab ba bc ac, Returns (fun fuel => distanceBetween fl fuel snap a b w) ab ∧
      Returns (fun fuel => distanceBetween fl fuel snap b a w) ba ∧
      Returns (fun fuel => distanceBetween fl fuel snap b c w) bc ∧
      Returns (fun fuel => distanceBetween fl fuel snap a c w) ac ∧
      (ab.graphHops = -1 ↔ ∀ hops, ¬ IsRoute snap false a hops b) ∧
      (ab.graphHops = 0 ↔ a = b) ∧ ab.graphHops = ba.graphHops ∧
      (ab.graphHops ≠ -1 → bc.graphHops ≠ -1 →
        ac.graphHops ≠ -1 ∧ ac.graphHops ≤ ab.graphHops + bc.graphHops) ∧
      ∀ n, 0 ≤ n → n ≤ ab.graphHops → NodeOnTheWay fl snap w a b n (ab.graphHops - n) := by
  obtain ⟨ab, hab, hhab⟩ := distanceBetween_hops fl hd ha hb w
  obtain ⟨ba, hba, hhba⟩ := distanceBetween_hops fl hd hb ha w
  obtain ⟨bc, hbc, hhbc⟩ := distanceBetween_hops fl hd hb hc w
  obtain ⟨ac, hac, hhac⟩ := distanceBetween_hops fl hd ha hc w
  refine ⟨ab, ba, bc, ac, hab, hba, hbc, hac, hhab.eq_neg_one_iff, hhab.eq_zero_iff,
    hhab.symm_eq hhba, hhab.triangle hhbc hhac, fun n hn hle => ?_⟩
  obtain ⟨m, hops, hroute, ham, hmb⟩ := hhab.split hn hle
  have hm : snap.Present m := hd.route_present ha hroute
  obtain ⟨am, hret, hham⟩ := distanceBetween_hops fl hd ha hm w
  obtain ⟨mb, hret', hhmb⟩ := distanceBetween_hops fl hd hm hb w
  exact ⟨m, am, mb, hm, hret, hret', hham.unique ham, hhmb.unique hmb⟩

/-- There and back again between two joined nodes. -/
theorem graphHops_metric_pair :
    ∃ ab ba bc ac,
      Returns (fun fuel => distanceBetween binary64 fuel pairSnapshot ⟨0, 1⟩ ⟨0, 2⟩ {}) ab ∧
      Returns (fun fuel => distanceBetween binary64 fuel pairSnapshot ⟨0, 2⟩ ⟨0, 1⟩ {}) ba ∧
      Returns (fun fuel => distanceBetween binary64 fuel pairSnapshot ⟨0, 2⟩ ⟨0, 1⟩ {}) bc ∧
      Returns (fun fuel => distanceBetween binary64 fuel pairSnapshot ⟨0, 1⟩ ⟨0, 1⟩ {}) ac ∧
      (ab.graphHops = -1 ↔ ∀ hops, ¬ IsRoute pairSnapshot false ⟨0, 1⟩ hops ⟨0, 2⟩) ∧
      (ab.graphHops = 0 ↔ (⟨0, 1⟩ : TopologyNodeId) = ⟨0, 2⟩) ∧ ab.graphHops = ba.graphHops ∧
      (ab.graphHops ≠ -1 → bc.graphHops ≠ -1 →
        ac.graphHops ≠ -1 ∧ ac.graphHops ≤ ab.graphHops + bc.graphHops) ∧
      ∀ n, 0 ≤ n → n ≤ ab.graphHops →
        NodeOnTheWay binary64 pairSnapshot {} ⟨0, 1⟩ ⟨0, 2⟩ n (ab.graphHops - n) :=
  graphHops_metric binary64 {} (by decide) (by decide) (by decide) (by decide)

/-! ## The tree of shortest paths -/

/-- The hops of segments that were made of hops. -/
private theorem hops_of_segments {segment : EdgeHop → PathSegment} {hops : List EdgeHop}
    {front back : List PathSegment} (h : hops.map segment = front ++ back) :
    ∃ l l', hops = l ++ l' ∧ l.map segment = front ∧ l'.map segment = back :=
  List.map_eq_append_iff.mp h

/-- **Shortest paths form a tree.** Wherever a returned shortest path is cut, at some node, its
front part is the path that the query returns for that node, segment by segment, and its back part
has as many segments as the path that the query returns from there. -/
theorem shortestPath_tree (fl : Rounding) (hd : snap.NoDanglingEdges) (ha : snap.Present a)
    (hc : snap.Present c) (inCollocation : Bool) :
    ∃ p, Returns (fun fuel => shortestPath fl fuel snap a c inCollocation) p ∧
      ∀ front back, p.found = true → p.segments = front ++ back → ∃ m q r,
        SegmentsFollow snap inCollocation a front m ∧
        Returns (fun fuel => shortestPath fl fuel snap a m inCollocation) q ∧
        q.found = true ∧ q.segments = front ∧
        Returns (fun fuel => shortestPath fl fuel snap m c inCollocation) r ∧
        r.found = true ∧ r.hopCount = back.length := by
  obtain ⟨p, hret, hanswer⟩ := shortestPath_first fl hd ha hc inCollocation
  refine ⟨p, hret, ?_⟩
  intro front back hfound hcut
  rcases hanswer with ⟨hnot, -, -⟩ | ⟨-, hops, hfirst, hsegs, -⟩
  · exact absurd (hfound.symm.trans hnot) Bool.noConfusion
  obtain ⟨l, l', rfl, hl, hl'⟩ := hops_of_segments (hsegs.symm.trans hcut)
  obtain ⟨m, hfront, hback⟩ := hfirst.isWalk.split
  have hroute := isRoute_iff_isWalk.mpr hfront
  have hm : snap.Present m := hd.route_present ha hroute
  obtain ⟨q, hq, hq'⟩ := shortestPath_first fl hd ha hm inCollocation
  obtain ⟨r, hr, hr'⟩ := shortestPath_first fl hd hm hc inCollocation
  -- both queries find a path, since the parts are routes
  rcases hq' with ⟨-, -, hnone⟩ | ⟨hqfound, hops, hfirst', hqsegs, -⟩
  · exact absurd hroute (hnone l)
  rcases hr' with ⟨-, -, hnone⟩ | ⟨hrfound, hops', hfirst'', -, hcount⟩
  · exact absurd (isRoute_iff_isWalk.mpr hback) (hnone l')
  have hsame : hops = l := hfirst'.unique (hfirst.front hfront)
  have hle := hfirst.back_length_le hfront hfirst''.isWalk
  have hge := hfirst''.length_le hback
  refine ⟨m, q, r, ?_, hq, hqfound, ?_, hr, hrfound, ?_⟩
  · rw [← hl]
    exact SegmentsFollow.of_isRoute hroute
  · rw [hqsegs, hsame, hl]
  · rw [hcount, ← hl', List.length_map]
    exact_mod_cast le_antisymm hge hle

/-- The path between two joined nodes, cut anywhere. -/
theorem shortestPath_tree_pair :
    ∃ p, Returns (fun fuel => shortestPath binary64 fuel pairSnapshot ⟨0, 1⟩ ⟨0, 2⟩ false) p ∧
      ∀ front back, p.found = true → p.segments = front ++ back → ∃ m q r,
        SegmentsFollow pairSnapshot false ⟨0, 1⟩ front m ∧
        Returns (fun fuel => shortestPath binary64 fuel pairSnapshot ⟨0, 1⟩ m false) q ∧
        q.found = true ∧ q.segments = front ∧
        Returns (fun fuel => shortestPath binary64 fuel pairSnapshot m ⟨0, 2⟩ false) r ∧
        r.found = true ∧ r.hopCount = back.length :=
  shortestPath_tree binary64 (by decide) (by decide) (by decide) false

end Hops

/-! ## Lowest costs -/

/-- The sum of the segment costs of a path. -/
def segmentSum (segments : List PathSegment) : ℚ :=
  (segments.map fun seg => seg.edgeCost.toRat).sum

/-- A route that no route undercuts, and its total, or no route. -/
def CheapestAnswer (snap : TopologySnapshot) (w : CostWeights) (a b : TopologyNodeId)
    (p : TopologyPath) : Prop :=
  (p.found = false ∧ ∀ hops, ¬ IsRoute snap false a hops b) ∨
    (p.found = true ∧ ∃ hops, IsCheapest (snap.links false) (exactCost snap w) a hops b ∧
      p.segments = hops.map (costSegment exact snap w) ∧ p.totalCost = routeTotal snap w a b hops)

/-- The snapshot and the weights for which lowest-cost paths are sought. -/
structure Costed (snap : TopologySnapshot) (w : CostWeights) : Prop where
  noDangling : snap.NoDanglingEdges
  weights : w.Nonneg
  reference : w.bandwidthRefBps.Pos
  latencies : ∀ e ∈ snap.edges, ∀ l, e.latencyNs = some l → l.Nonneg

section Costs

variable {snap : TopologySnapshot} {w : CostWeights} {a b c : TopologyNodeId}

/-- Staying where one is costs nothing, and no cost is negative. -/
private theorem isCheapest_nil (h : Costed snap w) (a : TopologyNodeId) :
    IsCheapest (snap.links false) (exactCost snap w) a [] a where
  isWalk := .nil a
  least := by
    intro hops _
    rw [walkCost_nil]
    exact walkCost_nonneg _ fun hop _ =>
      exactCost_nonneg h.weights h.reference h.latencies hop.src hop.dst hop.via

/-- A path from a node to itself has no NUMA penalty. -/
private theorem routeTotal_self (ha : snap.Present a) : routeTotal snap w a a [] = .fin 0 := by
  obtain ⟨n, hn, -⟩ := ha.exists_node
  have hcross : crossesNuma n n = false := by
    unfold crossesNuma
    cases n.native.numaNode <;> simp
  simp [routeTotal, totalWith, hn, hcross]

/-- What the query for a lowest-cost path returns. -/
theorem lowestCostPath_cheapest (h : Costed snap w) (ha : snap.Present a) (hb : snap.Present b) :
    ∃ p, Returns (fun fuel => lowestCostPath exact fuel snap a b w) p ∧
      CheapestAnswer snap w a b p := by
  by_cases hne : a = b
  · subst hne
    exact ⟨_, lowestCostPath_self ha, Or.inr ⟨rfl, [], isCheapest_nil h a, rfl,
      (routeTotal_self ha).symm⟩⟩
  -- in exact arithmetic the search is Dijkstra's, with rational costs
  obtain ⟨⟨found, s⟩, hans, hret⟩ := Dijkstra.dijkstra_correct (ε := Exception)
    (snap.links false) (exactCost snap w) (insert a snap.endpoints)
    (fun u p hp => Finset.mem_insert_of_mem (mem_endpoints_of_link hp).1) a b
    (Finset.mem_insert_self ..)
    (fun _ u _ p _ => exactCost_nonneg h.weights h.reference h.latencies u p.1 p.2)
  have hsearch := costSearch_returns keepsOrder_fin addsHopCost_exact
    (h.noDangling.linksStay.supports _ b) rfl (BestFirst.queued_init ha 0) hret
  cases found with
  | false =>
    exact ⟨_, lowestCostPath_notFound ha hb hne hsearch, Or.inl ⟨rfl, fun hops hroute =>
      hans hops (isRoute_iff_isWalk.mp hroute)⟩⟩
  | true =>
    obtain ⟨hops, hchain, hwalk, hleast⟩ := hans
    obtain ⟨p, hp, hfound, -, -, hsegs, na, nb, hna, hnb, htotal⟩ :=
      lowestCostPath_found ha hb hne hsearch hchain (h.noDangling.linksStay.hopKnown ha hwalk)
        (h.noDangling.linksStay.parents_present ha)
    refine ⟨p, hp, Or.inr ⟨hfound, hops, ⟨hwalk, hleast⟩, hsegs, ?_⟩⟩
    rw [htotal, backTotal_exact, zero_add]
    simp only [routeTotal, totalWith, hna, hnb]

/-- The segments of a route cost what the route costs. -/
theorem segmentSum_map (hops : List EdgeHop) :
    segmentSum (hops.map (costSegment exact snap w)) = walkCost (exactCost snap w) hops :=
  sum_costSegment hops

/-! ### Totals -/

/-- Two nodes apart are apart from every node that carries a NUMA node. -/
theorem crossesNuma_or {na nb nc : TopologyNode} (hb : nb.native.numaNode.isSome = true)
    (h : crossesNuma na nc = true) : crossesNuma na nb = true ∨ crossesNuma nb nc = true := by
  obtain ⟨y, hy⟩ := Option.isSome_iff_exists.mp hb
  cases ha : na.native.numaNode with
  | none => simp [crossesNuma, ha] at h
  | some x =>
    cases hc : nc.native.numaNode with
    | none => simp [crossesNuma, hc] at h
    | some z =>
      simp only [crossesNuma, ha, hc, hy, decide_eq_true_eq] at h ⊢
      by_cases hxy : x = y
      · exact Or.inr fun hyz => h (hxy.trans hyz)
      · exact Or.inl hxy

/-- A sum, with the penalty where it is charged. -/
private def charged (pen : Double) (charge : Bool) (sum : ℚ) : Double :=
  if charge then (Double.fin sum).add exact pen else .fin sum

/-- A penalty that is a number is added where it is charged. -/
private theorem charged_number {pen : Double} (hpen : pen = .negZero ∨ ∃ c, pen = .fin c)
    (charge : Bool) (sum : ℚ) :
    charged pen charge sum = .fin (sum + if charge then pen.toRat else 0) := by
  rcases hpen with rfl | ⟨c, rfl⟩
  · cases charge <;> simp [charged, Double.add, Double.toRat, exact]
  · cases charge <;> simp [charged, Double.toRat]

/-- Nothing is above infinity. -/
private theorem not_inf_lt_charged (charge : Bool) (sum : ℚ) :
    (Double.inf false).lt (charged (.inf false) charge sum) = false := by
  cases charge with
  | false => simp [charged, Double.lt, Double.rank, Prod.Lex.toLex_lt_toLex]
  | true => exact Double.lt_irrefl _

/-- A penalty that is charged for the whole only where it is charged for a part. -/
private theorem charged_triangle {pen : Double} (hpen : pen.Nonneg) {p q r : Bool} {x y z : ℚ}
    (hle : z ≤ x + y) (hcharge : r = true → p = true ∨ q = true) :
    ((charged pen p x).add exact (charged pen q y)).lt (charged pen r z) = false := by
  by_cases hnumber : pen = .negZero ∨ ∃ c, pen = .fin c
  · rw [charged_number hnumber, charged_number hnumber, charged_number hnumber, Double.add_exact,
      Double.lt_fin, decide_eq_false_iff_not, not_lt]
    have hpos : 0 ≤ pen.toRat := hpen.toRat_nonneg
    have hparts : (if r then pen.toRat else 0) ≤
        (if p then pen.toRat else 0) + if q then pen.toRat else 0 := by
      cases p <;> cases q <;> cases r <;> simp_all
    linarith
  · -- the only other penalty is infinite
    obtain rfl : pen = .inf false := by
      cases pen with
      | nan => exact absurd hpen Double.not_nonneg_nan
      | inf neg => rw [(Double.nonneg_inf neg).mp hpen]
      | negZero => exact absurd (Or.inl rfl) hnumber
      | fin c => exact absurd (Or.inr ⟨c, rfl⟩) hnumber
    cases p with
    | true => cases q <;> exact not_inf_lt_charged r z
    | false =>
      cases q with
      | true => exact not_inf_lt_charged r z
      | false =>
        cases r with
        | true => simp at hcharge
        | false => simpa [charged] using hle

theorem routeTotal_eq {na nb : TopologyNode} (ha : snap.findNode a = some na)
    (hb : snap.findNode b = some nb) (hops : List EdgeHop) :
    routeTotal snap w a b hops =
      charged w.numaPenalty (crossesNuma na nb) (walkCost (exactCost snap w) hops) := by
  simp only [routeTotal, totalWith, ha, hb, charged]

/-- The node carries a NUMA node. -/
def CarriesNuma (snap : TopologySnapshot) (id : TopologyNodeId) : Prop :=
  ∃ n, snap.findNode id = some n ∧ n.native.numaNode.isSome = true

/-- What lowest-cost paths from `a` over `b` to `c` and the one from `a` to `c` have to do with each
other. -/
structure Composes (snap : TopologySnapshot) (a b c : TopologyNodeId) (p q r : TopologyPath) :
    Prop where
  found : p.found = true → q.found = true → r.found = true
  segments : p.found = true → q.found = true →
    segmentSum r.segments ≤ segmentSum p.segments + segmentSum q.segments
  total : p.found = true → q.found = true → CarriesNuma snap b →
    (p.totalCost.add exact q.totalCost).lt r.totalCost = false

theorem CheapestAnswer.composes (h : Costed snap w) (ha : snap.Present a) (hc : snap.Present c)
    {p q r : TopologyPath} (hp : CheapestAnswer snap w a b p) (hq : CheapestAnswer snap w b c q)
    (hr : CheapestAnswer snap w a c r) : Composes snap a b c p q r := by
  -- where one of the three paths is not found there is nothing to compare
  rcases hp with ⟨hpf, -⟩ | ⟨-, l, hl, hpsegs, hptotal⟩
  · exact ⟨fun hf => absurd (hf.symm.trans hpf) Bool.noConfusion,
      fun hf => absurd (hf.symm.trans hpf) Bool.noConfusion,
      fun hf => absurd (hf.symm.trans hpf) Bool.noConfusion⟩
  rcases hq with ⟨hqf, -⟩ | ⟨-, l', hl', hqsegs, hqtotal⟩
  · exact ⟨fun _ hf => absurd (hf.symm.trans hqf) Bool.noConfusion,
      fun _ hf => absurd (hf.symm.trans hqf) Bool.noConfusion,
      fun _ hf => absurd (hf.symm.trans hqf) Bool.noConfusion⟩
  rcases hr with ⟨-, hnone⟩ | ⟨hrf, direct, hdirect, hrsegs, hrtotal⟩
  · exact absurd (isRoute_iff_isWalk.mpr (hl.isWalk.append hl'.isWalk)) (hnone _)
  have htriangle := hdirect.triangle hl hl'
  refine ⟨fun _ _ => hrf, fun _ _ => ?_, fun _ _ hnuma => ?_⟩
  · rwa [hpsegs, hqsegs, hrsegs, segmentSum_map, segmentSum_map, segmentSum_map]
  · obtain ⟨nb, hnb, hsome⟩ := hnuma
    obtain ⟨na, hna, -⟩ := ha.exists_node
    obtain ⟨nc, hnc, -⟩ := hc.exists_node
    rw [hptotal, hqtotal, hrtotal, routeTotal_eq hna hnb, routeTotal_eq hnb hnc,
      routeTotal_eq hna hnc]
    exact charged_triangle h.weights.numaPenalty htriangle (crossesNuma_or hsome)

/-- The parts of a path, wherever it is cut, cost as much as the paths that the query returns for
their ends. -/
def PartsCheapest (snap : TopologySnapshot) (w : CostWeights) (a c : TopologyNodeId)
    (p : TopologyPath) : Prop :=
  ∀ front back, p.found = true → p.segments = front ++ back → ∃ m q r,
    SegmentsFollow snap false a front m ∧ SegmentsFollow snap false m back c ∧
    Returns (fun fuel => lowestCostPath exact fuel snap a m w) q ∧ q.found = true ∧
    segmentSum q.segments = segmentSum front ∧
    Returns (fun fuel => lowestCostPath exact fuel snap m c w) r ∧ r.found = true ∧
    segmentSum r.segments = segmentSum back

/-- The segments of a route with its costs. -/
private theorem segmentsFollow_costed {hops : List EdgeHop} (h : IsRoute snap false a hops b) :
    SegmentsFollow snap false a (hops.map (costSegment exact snap w)) b := by
  refine ⟨by rwa [map_hop_costSegment], fun seg hseg => ?_⟩
  obtain ⟨hop, hhop, rfl⟩ := List.mem_map.mp hseg
  obtain ⟨e, he, -⟩ := h.edge_of_mem hop hhop
  exact ⟨e, he, by simp [costSegment, hopSegment, he]⟩

theorem CheapestAnswer.parts (h : Costed snap w) (ha : snap.Present a) (hc : snap.Present c)
    {p : TopologyPath} (hp : CheapestAnswer snap w a c p) : PartsCheapest snap w a c p := by
  intro front back hfound hcut
  rcases hp with ⟨hpf, -⟩ | ⟨-, hops, hcheapest, hsegs, -⟩
  · exact absurd (hfound.symm.trans hpf) Bool.noConfusion
  obtain ⟨l, l', rfl, rfl, rfl⟩ := hops_of_segments (hsegs.symm.trans hcut)
  obtain ⟨m, hfront, hback⟩ := hcheapest.isWalk.split
  have hroute := isRoute_iff_isWalk.mpr hfront
  have hroute' := isRoute_iff_isWalk.mpr hback
  have hm : snap.Present m := h.noDangling.route_present ha hroute
  obtain ⟨q, hq, hq'⟩ := lowestCostPath_cheapest h ha hm
  obtain ⟨r, hr, hr'⟩ := lowestCostPath_cheapest h hm hc
  -- both queries find a path, since the parts are routes
  rcases hq' with ⟨-, hnone⟩ | ⟨hqf, k, hk, hqsegs, -⟩
  · exact absurd hroute (hnone l)
  rcases hr' with ⟨-, hnone⟩ | ⟨hrf, k', hk', hrsegs, -⟩
  · exact absurd hroute' (hnone l')
  refine ⟨m, q, r, segmentsFollow_costed hroute, segmentsFollow_costed hroute', hq, hqf, ?_, hr,
    hrf, ?_⟩
  · rw [hqsegs, segmentSum_map, segmentSum_map]
    exact hk.cost_eq (hcheapest.front hfront hback)
  · rw [hrsegs, segmentSum_map, segmentSum_map]
    exact hk'.cost_eq (hcheapest.back hfront hback)

/-- **Lowest costs compose.** In exact arithmetic, with nonnegative weights and latencies, a positive
reference bandwidth and on a snapshot without dangling edges: where there is a way over `b`, the
direct query finds one, and its segments cost no more than those of the way over `b`; its total is
no more than the two totals when `b` carries a NUMA node. And wherever a returned path is cut, its
parts cost what the query finds for their ends. -/
theorem lowestCostPath_composes (h : Costed snap w) (ha : snap.Present a) (hb : snap.Present b)
    (hc : snap.Present c) :
    ∃ p q r, Returns (fun fuel => lowestCostPath exact fuel snap a b w) p ∧
      Returns (fun fuel => lowestCostPath exact fuel snap b c w) q ∧
      Returns (fun fuel => lowestCostPath exact fuel snap a c w) r ∧
      Composes snap a b c p q r ∧ PartsCheapest snap w a c r := by
  obtain ⟨p, hp, hp'⟩ := lowestCostPath_cheapest h ha hb
  obtain ⟨q, hq, hq'⟩ := lowestCostPath_cheapest h hb hc
  obtain ⟨r, hr, hr'⟩ := lowestCostPath_cheapest h ha hc
  exact ⟨p, q, r, hp, hq, hr, hp'.composes h ha hc hq' hr', hr'.parts h ha hc⟩

end Costs

/-- Default weights with an exact latency weight. -/
private theorem costed_pair : Costed pairSnapshot { latencyNsWeight := .fin (1 / 2000) } where
  noDangling := by decide
  weights := by constructor <;> simp
  reference := by decide
  latencies := by simp [pairSnapshot]

/-- From one of two joined nodes over the other one back. -/
theorem lowestCostPath_composes_pair :
    ∃ p q r, Returns (fun fuel => lowestCostPath exact fuel pairSnapshot ⟨0, 1⟩ ⟨0, 2⟩
        { latencyNsWeight := .fin (1 / 2000) }) p ∧
      Returns (fun fuel => lowestCostPath exact fuel pairSnapshot ⟨0, 2⟩ ⟨0, 1⟩
        { latencyNsWeight := .fin (1 / 2000) }) q ∧
      Returns (fun fuel => lowestCostPath exact fuel pairSnapshot ⟨0, 1⟩ ⟨0, 1⟩
        { latencyNsWeight := .fin (1 / 2000) }) r ∧
      Composes pairSnapshot ⟨0, 1⟩ ⟨0, 2⟩ ⟨0, 1⟩ p q r ∧
      PartsCheapest pairSnapshot { latencyNsWeight := .fin (1 / 2000) } ⟨0, 1⟩ ⟨0, 1⟩ r :=
  lowestCostPath_composes costed_pair (by decide) (by decide) (by decide)

end TopologyFabric

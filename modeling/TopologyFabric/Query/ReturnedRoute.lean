import TopologyFabric.Query.CostSearch

/-!
# Returned Paths

Whatever the arithmetic and the costs are, a path that `lowest_cost_path` returns is a route: the
search records a parent only along a usable edge, and it queues only nodes that have one.

## Main results

- `lowestCostPath_route`: the segments of a returned path follow a route between its ends
- `shortestPath_returned`: those of a shortest path follow the first of the shortest routes
-/

namespace TopologyFabric

open Library

/-! ## The search records links -/

/-- The node is the source or has a parent. -/
def CostSearch.Reached (src : TopologyNodeId) (s : CostSearch) (v : TopologyNodeId) : Prop :=
  v = src ∨ ∃ u, s.parent v = some u

/-- Queued nodes are reached, and a recorded parent is a reached node with a link to its child. -/
structure CostSearch.Linked (snap : TopologySnapshot) (src : TopologyNodeId) (s : CostSearch) :
    Prop where
  queued : ∀ x ∈ s.pq, s.Reached src x.2
  chained : ∀ v u, s.parent v = some u →
    (∃ i, s.cameEdge v = some i ∧ (v, i) ∈ snap.links false u) ∧ s.Reached src u

section Search

variable {fl : Rounding} {snap : TopologySnapshot} {w : CostWeights} {src dst : TopologyNodeId}

theorem mem_pqPush {x y : Double × TopologyNodeId} {l : List (Double × TopologyNodeId)} :
    y ∈ pqPush x l ↔ y = x ∨ y ∈ l := by
  induction l with
  | nil => simp [pqPush]
  | cons z l ih =>
    rw [pqPush]
    split
    · rw [List.mem_cons, ih, List.mem_cons]
      tauto
    · rw [List.mem_cons]

/-- A record that is looked at changes nothing, or it makes the node a parent along a link. -/
theorem costVisit_cases {u : TopologyNodeId} {d : Double} {s s' : CostSearch} {ref : EdgeRef}
    (href : ref ∈ snap.adjacency u) (h : costVisit fl snap w u d s ref = .ok s') :
    s' = s ∨ ((ref.neighbor, ref.edgeIndex) ∈ snap.links false u ∧ ∃ nd, s' = {
      dist := Function.update s.dist ref.neighbor (some nd)
      parent := Function.update s.parent ref.neighbor (some u)
      cameEdge := Function.update s.cameEdge ref.neighbor (some ref.edgeIndex)
      pq := pqPush (nd, ref.neighbor) s.pq }) := by
  unfold costVisit at h
  rw [traverseEdge_eq href, Outcome.ok_bind] at h
  -- the edge does not lead there, the cost is no improvement, or the node is reached anew
  cases hfollows : snap.follows false ref with
  | false =>
    simp only [hfollows] at h
    exact Or.inl (Outcome.ok.inj h).symm
  | true =>
    simp only [hfollows, Bool.not_true, Bool.false_eq_true, if_false] at h
    obtain ⟨e, -, h⟩ := Outcome.bind_eq_ok.mp h
    obtain ⟨un, -, h⟩ := Outcome.bind_eq_ok.mp h
    obtain ⟨vn, -, h⟩ := Outcome.bind_eq_ok.mp h
    split at h
    · refine Or.inr ⟨?_, _, (Outcome.ok.inj h).symm⟩
      exact List.mem_map.mpr ⟨ref, List.mem_filter.mpr ⟨href, hfollows⟩, rfl⟩
    · exact Or.inl (Outcome.ok.inj h).symm

theorem CostSearch.Linked.visit {u : TopologyNodeId} {d : Double} {s s' : CostSearch}
    {ref : EdgeRef} (hlinked : s.Linked snap src) (hu : s.Reached src u)
    (href : ref ∈ snap.adjacency u) (h : costVisit fl snap w u d s ref = .ok s') :
    s'.Linked snap src ∧ s'.Reached src u := by
  rcases costVisit_cases href h with rfl | ⟨hlink, nd, rfl⟩
  · exact ⟨hlinked, hu⟩
  -- a node that was reached stays so
  have hkeep : ∀ v, s.Reached src v → v = src ∨
      ∃ p, Function.update s.parent ref.neighbor (some u) v = some p := by
    intro v hv
    by_cases hsame : v = ref.neighbor
    · subst hsame
      exact Or.inr ⟨u, Function.update_self ..⟩
    · rw [Function.update_of_ne hsame]
      exact hv
  refine ⟨⟨fun x hx => ?_, fun v p hp => ?_⟩, hkeep u hu⟩
  · rcases mem_pqPush.mp hx with rfl | hx
    · exact Or.inr ⟨u, Function.update_self ..⟩
    · exact hkeep x.2 (hlinked.queued x hx)
  · have hp : Function.update s.parent ref.neighbor (some u) v = some p := hp
    by_cases hsame : v = ref.neighbor
    · subst hsame
      rw [Function.update_self] at hp
      obtain rfl := Option.some.inj hp
      exact ⟨⟨_, Function.update_self .., hlink⟩, hkeep u hu⟩
    · rw [Function.update_of_ne hsame] at hp
      obtain ⟨⟨i, hi, hmem⟩, hreached⟩ := hlinked.chained v p hp
      exact ⟨⟨i, (Function.update_of_ne hsame ..).trans hi, hmem⟩, hkeep p hreached⟩

/-- A round keeps the links. -/
theorem CostSearch.Linked.step {s s' : CostSearch} (hlinked : s.Linked snap src)
    (h : costStep fl snap w dst s = .ok (.inl s')) : s'.Linked snap src := by
  unfold costStep at h
  cases hpq : s.pq with
  | nil =>
    simp only [hpq] at h
    cases h
  | cons x rest =>
    obtain ⟨d, u⟩ := x
    have hu : s.Reached src u := hlinked.queued (d, u) (hpq ▸ List.mem_cons_self ..)
    have hrest : ({ s with pq := rest } : CostSearch).Linked snap src :=
      ⟨fun y hy => hlinked.queued y (hpq ▸ List.mem_cons_of_mem _ hy), hlinked.chained⟩
    simp only [hpq] at h
    -- the destination is reached, the entry is stale, or the node is visited
    split_ifs at h
    · cases h
    · obtain rfl := Sum.inl.inj (Outcome.ok.inj h)
      exact hrest
    · obtain ⟨t, ht, h⟩ := Outcome.bind_eq_ok.mp h
      obtain rfl := Sum.inl.inj (Outcome.ok.inj h)
      refine (Outcome.foldlM_partial_mem
        (P := fun t => CostSearch.Linked snap src t ∧ CostSearch.Reached src t u)
        (fun t t' ref href hinv hstep => ?_) ⟨hrest, hu⟩ ht).1
      exact hinv.1.visit hinv.2 href hstep

/-- A round that finds the destination leaves the links, and the destination is reached. -/
theorem CostSearch.Linked.exit {s : CostSearch} {r : Bool × CostSearch}
    (hlinked : s.Linked snap src) (h : costStep fl snap w dst s = .ok (.inr r)) :
    r.1 = true → r.2.Linked snap src ∧ r.2.Reached src dst := by
  unfold costStep at h
  cases hpq : s.pq with
  | nil =>
    simp only [hpq] at h
    obtain rfl := Sum.inr.inj (Outcome.ok.inj h)
    exact fun hfalse => absurd hfalse Bool.false_ne_true
  | cons x rest =>
    obtain ⟨d, u⟩ := x
    simp only [hpq] at h
    split_ifs at h with hdst
    · -- the destination comes off the queue, where every node has been reached
      obtain rfl := Sum.inr.inj (Outcome.ok.inj h)
      intro _
      refine ⟨⟨fun y hy => hlinked.queued y (hpq ▸ List.mem_cons_of_mem _ hy), hlinked.chained⟩, ?_⟩
      exact hdst ▸ hlinked.queued (d, u) (hpq ▸ List.mem_cons_self ..)
    · cases h
    · obtain ⟨t, -, h⟩ := Outcome.bind_eq_ok.mp h
      cases h

theorem costSearch_linked {fuel : ℕ} {s : CostSearch}
    (h : loop (costStep fl snap w dst) fuel (costInit src) = .ok (true, s)) :
    s.Linked snap src ∧ s.Reached src dst := by
  have hinit : (costInit src).Linked snap src := by
    refine ⟨fun x hx => ?_, fun v u hu => by cases hu⟩
    exact Or.inl (congrArg Prod.snd (List.mem_singleton.mp hx))
  exact loop_partial (Q := fun r => r.1 = true → r.2.Linked snap src ∧ r.2.Reached src dst)
    (fun s hs s' hstep => hs.step hstep) (fun s hs r hstep => hs.exit hstep) fuel _ hinit _ h rfl

/-! ## Following the links back -/

/-- The segments so far lead from a reached node to the destination. -/
structure BackRoute (snap : TopologySnapshot) (src dst : TopologyNodeId) (s : CostSearch)
    (cur : TopologyNodeId) (segs : List PathSegment) : Prop where
  reached : s.Reached src cur
  follow : SegmentsFollow snap false cur segs dst

theorem SegmentsFollow.cons {a b : TopologyNodeId} {i : ℕ} {e : TopologyEdge} {cost : Double}
    {segs : List PathSegment} (hsegs : SegmentsFollow snap false b segs dst)
    (he : snap.edges[i]? = some e) (husable : e.Usable false) (hjoins : e.Joins a b) :
    SegmentsFollow snap false a (⟨a, b, i, e.type, cost⟩ :: segs) dst := by
  refine ⟨.cons he husable hjoins hsegs.1, fun seg hseg => ?_⟩
  rcases List.mem_cons.mp hseg with rfl | hseg
  · exact ⟨e, he, rfl⟩
  · exact hsegs.2 seg hseg

theorem costBack_route {fuel : ℕ} {s : CostSearch} {total : Double} {segs : List PathSegment}
    (hlinked : s.Linked snap src) (hdst : s.Reached src dst)
    (h : loop (costBackStep fl snap w src s) fuel (dst, .fin 0, []) = .ok (total, segs)) :
    SegmentsFollow snap false src segs dst := by
  -- the invariant: what has been filled in leads from the current node to the destination
  have hround : ∀ st : TopologyNodeId × Double × List PathSegment,
      BackRoute snap src dst s st.1 st.2.2 →
      ∀ st', costBackStep fl snap w src s st = .ok (.inl st') →
        BackRoute snap src dst s st'.1 st'.2.2 := by
    rintro ⟨cur, total, segs⟩ ⟨hreached, hfollow⟩ st' hstep
    unfold costBackStep at hstep
    simp only at hstep
    split_ifs at hstep with hcur
    · cases hstep
    obtain ⟨u, hu⟩ := hreached.resolve_left hcur
    -- the node has been reached through its parent, by a link of the snapshot
    obtain ⟨⟨i, hi, hlink⟩, hreached'⟩ := hlinked.chained cur u hu
    simp only [hu, hi, Option.getD_some] at hstep
    obtain ⟨e, he, hstep⟩ := Outcome.bind_eq_ok.mp hstep
    obtain ⟨un, -, hstep⟩ := Outcome.bind_eq_ok.mp hstep
    obtain ⟨vn, -, hstep⟩ := Outcome.bind_eq_ok.mp hstep
    obtain rfl := Sum.inl.inj (Outcome.ok.inj hstep)
    obtain ⟨e', he', husable, hjoins⟩ := mem_links.mp hlink
    obtain rfl := Option.some.inj ((TopologySnapshot.edge_eq_ok.mp he).symm.trans he')
    exact ⟨hreached', hfollow.cons he' husable hjoins⟩
  have hexit : ∀ st : TopologyNodeId × Double × List PathSegment,
      BackRoute snap src dst s st.1 st.2.2 →
      ∀ r, costBackStep fl snap w src s st = .ok (.inr r) →
        SegmentsFollow snap false src r.2 dst := by
    rintro ⟨cur, total, segs⟩ ⟨-, hfollow⟩ r hstep
    unfold costBackStep at hstep
    simp only at hstep
    split_ifs at hstep with hcur
    · obtain rfl := Sum.inr.inj (Outcome.ok.inj hstep)
      exact hcur ▸ hfollow
    · -- behind these reads the loop goes round, so it does not exit
      obtain ⟨e, -, hstep⟩ := Outcome.bind_eq_ok.mp hstep
      obtain ⟨un, -, hstep⟩ := Outcome.bind_eq_ok.mp hstep
      obtain ⟨vn, -, hstep⟩ := Outcome.bind_eq_ok.mp hstep
      cases hstep
  exact loop_partial hround hexit fuel _ ⟨hdst, .nil dst, by simp⟩ _ h

/-- **Returned paths are routes.** The segments of a path that the query finds follow a route, and
its locality is the one between its ends. -/
theorem lowestCostPath_route {fuel : ℕ} {p : TopologyPath} (hne : src ≠ dst)
    (h : lowestCostPath fl fuel snap src dst w = .ok p) (hfound : p.found = true) :
    SegmentsFollow snap false src p.segments dst ∧
      localityBetween fuel snap src dst = .ok p.locality := by
  obtain ⟨hsrc, hdst⟩ := lowestCostPath_present h hfound
  rcases lowestCostPath_cases hsrc hdst hne h with
    rfl | ⟨s, total, segs, a, b, hsearch, hback, -, -, hfilled⟩
  · cases hfound
  · obtain ⟨hlinked, hreached⟩ := costSearch_linked hsearch
    rw [hfilled.segments]
    exact ⟨costBack_route hlinked hreached hback, hfilled.locality⟩

/-! ## Shortest paths -/

/-- Where there is a route, a path that the query returns takes the first of the shortest ones. -/
theorem shortestPath_returned {fuel : ℕ} {p : TopologyPath} {inCollocation : Bool}
    (hsrc : snap.Present src) (hdst : snap.Present dst) (hne : src ≠ dst)
    (hroute : ∃ hops, IsRoute snap inCollocation src hops dst)
    (h : shortestPath fl fuel snap src dst inCollocation = .ok p) :
    p.found = true ∧ ∃ hops, IsFirstWalk (snap.links inCollocation) src hops dst ∧
      p.segments = hops.map (hopSegment snap) := by
  have hguard : ((snap.findNode src).isNone || (snap.findNode dst).isNone) = false := by
    obtain ⟨n, hn, _⟩ := hsrc.exists_node
    obtain ⟨m, hm, _⟩ := hdst.exists_node
    simp [hn, hm]
  simp only [shortestPath, hguard, if_neg hne] at h
  obtain ⟨⟨found, s⟩, hsearch, h⟩ := Outcome.bind_eq_ok.mp h
  -- the search returns what breadth-first search returns
  obtain ⟨⟨found', s'⟩, hans, hret⟩ := Bfs.bfs_correct (ε := Exception) (snap.links inCollocation)
    snap.endpoints (fun u p hp => (mem_endpoints_of_link hp).1) src dst
  rw [funext (hopStep_eq dst), hopInit_eq] at hsearch
  obtain ⟨rfl, rfl⟩ := Prod.mk.inj ((Returns.of_loop hsearch).unique hret)
  cases found with
  | false =>
    obtain ⟨hops, hroute⟩ := hroute
    exact absurd (isRoute_iff_isWalk.mp hroute) (hans hops)
  | true =>
    obtain ⟨hops, hfirst, hchain⟩ := hans
    obtain ⟨segs, hback, h⟩ := Outcome.bind_eq_ok.mp h
    have hedges := isRoute_iff_isWalk.mpr hfirst.isWalk
    have hsegs := hopBack_returns hchain
      (fun hop hhop => (hedges.edge_of_mem hop hhop).imp fun _ h => h.1) []
    obtain rfl := (Returns.of_loop hback).unique hsegs
    have hfilled := fillPath_ok h
    exact ⟨hfilled.found, hops, hfirst, by rw [hfilled.segments, List.append_nil]⟩

end Search

end TopologyFabric

import TopologyFabric.Query.Route

/-!
# Shortest Paths

`shortest_path` refines breadth-first search over the usable adjacency records: its rounds are the
rounds of the search, and following its parent map back spells out the walk that the search
reports.

## Main results

- `shortestPath_cases`: what a search between two present nodes does, on any snapshot
- `shortestPath_correct`: on a snapshot without dangling edges the query finds a route with the
  fewest hops iff there is a route
-/

namespace TopologyFabric

open Library Filter

/-- The hop that a segment makes. -/
def PathSegment.hop (seg : PathSegment) : EdgeHop := ⟨seg.source, seg.target, seg.edgeIndex⟩

/-- The segments are a route, and each one names the type of its edge. -/
def SegmentsFollow (snap : TopologySnapshot) (inCollocation : Bool) (src : TopologyNodeId)
    (segs : List PathSegment) (dst : TopologyNodeId) : Prop :=
  IsRoute snap inCollocation src (segs.map PathSegment.hop) dst ∧
    ∀ seg ∈ segs, ∃ e, snap.edges[seg.edgeIndex]? = some e ∧ seg.edgeType = e.type

/-! ## The rounds of the search -/

section Rounds

variable {snap : TopologySnapshot} {inCollocation : Bool}

theorem traverseEdge_eq {u : TopologyNodeId} {ref : EdgeRef} (h : ref ∈ snap.adjacency u) :
    traverseEdge snap ref inCollocation = .ok (snap.follows inCollocation ref) := by
  obtain ⟨e, he, hget⟩ := TopologySnapshot.edge_of_mem_adjacency h
  simp only [traverseEdge, he, TopologySnapshot.follows, hget, Outcome.ok_bind,
    Outcome.pure_eq_ok]

/-- A fold that skips entries is the fold over the others. -/
theorem foldl_links {σ : Type} (f : σ → TopologyNodeId × ℕ → σ) (u : TopologyNodeId) (s : σ) :
    (snap.links inCollocation u).foldl f s = (snap.adjacency u).foldl (fun s ref =>
      if snap.follows inCollocation ref then f s (ref.neighbor, ref.edgeIndex) else s) s := by
  rw [TopologySnapshot.links, List.foldl_map, List.foldl_filter]

/-- A round of the query is a round of breadth-first search. -/
theorem hopStep_eq (dst : TopologyNodeId) (s : HopSearch) :
    hopStep snap inCollocation dst s =
      .ok (Bfs.step (snap.links inCollocation) dst s) := by
  unfold hopStep Bfs.step
  cases s.queue with
  | nil => rfl
  | cons cur rest =>
    simp only
    split
    · rfl
    · rw [foldl_links, Outcome.foldlM_ok (P := fun ref => ref ∈ snap.adjacency cur) ?_ _ _
        fun ref h => h]
      · rfl
      intro s ref href
      simp only [hopVisit, traverseEdge_eq href, Outcome.ok_bind, Outcome.pure_eq_ok, Bfs.discover]
      split_ifs <;> simp_all

theorem hopInit_eq (src : TopologyNodeId) : hopInit src = Bfs.init src := rfl

/-! ## Following the parents back -/

/-- The segment for a hop. -/
def hopSegment (snap : TopologySnapshot) (hop : EdgeHop) : PathSegment where
  source := hop.src
  target := hop.dst
  edgeIndex := hop.via
  edgeType := (snap.edges[hop.via]?.map TopologyEdge.type).getD .connectedTo
  edgeCost := .fin 0

theorem map_hop_hopSegment (hops : List EdgeHop) :
    (hops.map (hopSegment snap)).map PathSegment.hop = hops := by
  rw [List.map_map]
  exact List.map_id' hops

/-- Following a parent chain back spells out its hops. -/
theorem hopBack_returns {src v : TopologyNodeId} {s : HopSearch} {hops : List EdgeHop}
    (hchain : ParentChain s.parent s.via src hops v)
    (hedges : ∀ hop ∈ hops, ∃ e, snap.edges[hop.via]? = some e) (segs : List PathSegment) :
    Returns (loop (hopBackStep snap src s) · (v, segs))
      (hops.map (hopSegment snap) ++ segs) := by
  induction hchain generalizing segs with
  | root => exact Returns.loop_inr (by simp [hopBackStep])
  | @snoc hops u v i hchain hne hp hv ih =>
    obtain ⟨e, he⟩ := hedges ⟨u, v, i⟩ (by simp)
    have hstep : hopBackStep snap src s (v, segs) =
        .ok (.inl (u, hopSegment snap ⟨u, v, i⟩ :: segs)) := by
      simp [hopBackStep, hne, hp, hv, TopologySnapshot.edge_eq_ok.mpr he, hopSegment, he]
    have hrest := ih (fun hop hhop => hedges hop (by simp [hhop]))
      (hopSegment snap ⟨u, v, i⟩ :: segs)
    rw [List.map_append, List.append_assoc]
    exact hrest.loop_inl hstep

end Rounds

/-! ## The query -/

section Query

variable {snap : TopologySnapshot} {src dst : TopologyNodeId} {inCollocation : Bool}

/-- What `shortest_path` does between two different nodes of any snapshot: it reports that there
is no route, or it fills in the estimates for the first of the shortest routes. -/
theorem shortestPath_cases (fl : Rounding) (hsrc : snap.Present src) (hdst : snap.Present dst)
    (hne : src ≠ dst) (inCollocation : Bool) :
    ((∀ hops, ¬ IsRoute snap inCollocation src hops dst) ∧
        Returns (fun fuel => shortestPath fl fuel snap src dst inCollocation)
          { source := src, destination := dst, reasons := [noPath] }) ∨
      ∃ hops, IsFirstWalk (snap.links inCollocation) src hops dst ∧
        ∀ᶠ fuel in atTop, shortestPath fl fuel snap src dst inCollocation =
          fillPath fl fuel snap
            { source := src, destination := dst, segments := hops.map (hopSegment snap)
              found := true } {} := by
  have hguard : ((snap.findNode src).isNone || (snap.findNode dst).isNone) = false := by
    obtain ⟨n, hn, _⟩ := hsrc.exists_node
    obtain ⟨m, hm, _⟩ := hdst.exists_node
    simp [hn, hm]
  -- the search of the code is the breadth-first search of the library
  obtain ⟨⟨found, s⟩, hans, hret⟩ := Bfs.bfs_correct (ε := Exception) (snap.links inCollocation)
    snap.endpoints (fun u p hp => (mem_endpoints_of_link hp).1) src dst
  have hsearch : Returns (loop (hopStep snap inCollocation dst) · (hopInit src)) (found, s) := by
    rw [funext (hopStep_eq dst), hopInit_eq]
    exact hret
  cases found with
  | false =>
    refine Or.inl ⟨fun hops hroute => hans hops (isRoute_iff_isWalk.mp hroute), ?_⟩
    filter_upwards [hsearch] with fuel hfuel
    simp only [shortestPath, hguard, if_neg hne, hfuel]
    rfl
  | true =>
    obtain ⟨hops, hfirst, hchain⟩ := hans
    refine Or.inr ⟨hops, hfirst, ?_⟩
    have hroute := isRoute_iff_isWalk.mpr hfirst.isWalk
    have hback := hopBack_returns hchain
      (fun hop hhop => (hroute.edge_of_mem hop hhop).imp fun _ h => h.1) []
    filter_upwards [hsearch, hback] with fuel hfuel hsegs
    simp only [shortestPath, hguard, if_neg hne, hfuel, Outcome.ok_bind, hsegs, List.append_nil]
    rfl

theorem SegmentsFollow.of_isRoute {hops : List EdgeHop}
    (h : IsRoute snap inCollocation src hops dst) :
    SegmentsFollow snap inCollocation src (hops.map (hopSegment snap)) dst := by
  refine ⟨by rwa [map_hop_hopSegment], fun seg hseg => ?_⟩
  obtain ⟨hop, hhop, rfl⟩ := List.mem_map.mp hseg
  obtain ⟨e, he, _⟩ := h.edge_of_mem hop hhop
  exact ⟨e, he, by simp [hopSegment, he]⟩

/-- The segments of a route between nodes of the snapshot can be looked up. -/
theorem IsRoute.known {hops : List EdgeHop} (h : IsRoute snap inCollocation src hops dst)
    (hpresent : ∀ hop ∈ hops, snap.Present hop.src ∧ snap.Present hop.dst) :
    ∀ seg ∈ hops.map (hopSegment snap), seg.Known snap := by
  intro seg hseg
  obtain ⟨hop, hhop, rfl⟩ := List.mem_map.mp hseg
  obtain ⟨e, he, -⟩ := h.edge_of_mem hop hhop
  exact ⟨(hpresent hop hhop).1, (hpresent hop hhop).2, e, he⟩

/-- Between two different nodes of the snapshot the first of the shortest routes stays in it, and so
do the CONTAINS parents of the source. -/
def Enclosed (snap : TopologySnapshot) (inCollocation : Bool) (src dst : TopologyNodeId) : Prop :=
  snap.Present src → snap.Present dst → src ≠ dst →
    (∀ hops, IsFirstWalk (snap.links inCollocation) src hops dst →
      ∀ hop ∈ hops, snap.Present hop.src ∧ snap.Present hop.dst) ∧
    ∀ x ∈ parents snap src .contains, snap.Present x

/-- `shortest_path` answers where the first of the shortest routes stays in the snapshot. -/
theorem shortestPath_answers (fl : Rounding) (inCollocation : Bool)
    (hstay : Enclosed snap inCollocation src dst) :
    ∃ p, Returns (fun fuel => shortestPath fl fuel snap src dst inCollocation) p ∧
      PathAnswer snap inCollocation src dst p := by
  by_cases hpresent : snap.Present src ∧ snap.Present dst
  swap
  · -- an endpoint is missing
    refine ⟨{ source := src, destination := dst, reasons := [endpointMissing] },
      Eventually.of_forall fun fuel => ?_, rfl, rfl, ?_, by simp⟩
    · simp only [shortestPath, missing_endpoint hpresent, if_true]
    · exact ⟨fun h => absurd h Bool.false_ne_true, fun h => absurd ⟨h.1, h.2.1⟩ hpresent⟩
  obtain ⟨hsrc, hdst⟩ := hpresent
  by_cases hne : src = dst
  · subst hne
    obtain ⟨n, hn, _⟩ := hsrc.exists_node
    refine ⟨{ source := src, destination := src, found := true, hopCount := 0
              locality := .exact, pathClass := .sameObject },
      Eventually.of_forall fun fuel => ?_, rfl, rfl, ?_, by simp⟩
    · simp [shortestPath, hn]
    · exact ⟨fun _ => ⟨hsrc, hsrc, [], .nil src⟩, fun _ => rfl⟩
  obtain ⟨hwalk, hparents⟩ := hstay hsrc hdst hne
  rcases shortestPath_cases fl hsrc hdst hne inCollocation with
    ⟨hnone, hret⟩ | ⟨hops, hfirst, hret⟩
  · refine ⟨_, hret, rfl, rfl, ?_, by simp⟩
    exact ⟨fun h => absurd h Bool.false_ne_true, fun ⟨_, _, hops, h⟩ => absurd h (hnone hops)⟩
  · have hroute := isRoute_iff_isWalk.mpr hfirst.isWalk
    have hknown := hroute.known (hwalk hops hfirst)
    -- the segments that are walked back are those of the first walk
    obtain ⟨p, hfill, hfound, hsource, hdestination, hsegs, _, _⟩ := fillPath_returns fl
      (p := { source := src, destination := dst, segments := hops.map (hopSegment snap)
              found := true }) (w := {}) hknown ⟨hsrc, hdst⟩ hparents
    refine ⟨p, ?_, hsource, hdestination, ?_, by rwa [hsegs]⟩
    · filter_upwards [hret, hfill] with fuel h1 h2
      rw [h1, h2]
    · exact ⟨fun _ => ⟨hsrc, hdst, hops, hroute⟩, fun _ => hfound⟩

/-- Without dangling edges the ends of an edge are in the snapshot. -/
theorem TopologySnapshot.NoDanglingEdges.joins (hd : snap.NoDanglingEdges) {i : ℕ}
    {e : TopologyEdge} {a b : TopologyNodeId} (he : snap.edges[i]? = some e) (hj : e.Joins a b) :
    snap.Present a ∧ snap.Present b := by
  obtain ⟨hs, ht⟩ := hd e (List.mem_of_getElem? he)
  rcases hj with ⟨rfl, rfl⟩ | ⟨rfl, rfl⟩
  · exact ⟨hs, ht⟩
  · exact ⟨ht, hs⟩

/-- **Fewest hops.** On a snapshot without dangling edges `shortest_path` returns; it reports a
path iff there is a route, and then its segments are a route that no other route undercuts. -/
theorem shortestPath_correct (fl : Rounding) (hd : snap.NoDanglingEdges)
    (hsrc : snap.Present src) (hdst : snap.Present dst) (inCollocation : Bool) :
    ∃ p, Returns (fun fuel => shortestPath fl fuel snap src dst inCollocation) p ∧
      (p.found = true ↔ ∃ hops, IsRoute snap inCollocation src hops dst) ∧
      (p.found = true → SegmentsFollow snap inCollocation src p.segments dst ∧
        p.hopCount = p.segments.length ∧
        ∀ hops, IsRoute snap inCollocation src hops dst → p.segments.length ≤ hops.length) := by
  by_cases hne : src = dst
  · subst hne
    obtain ⟨n, hn, _⟩ := hsrc.exists_node
    refine ⟨{ source := src, destination := src, found := true, hopCount := 0
              locality := .exact, pathClass := .sameObject },
      Eventually.of_forall fun fuel => ?_, ?_, ?_⟩
    · simp [shortestPath, hn]
    · exact ⟨fun _ => ⟨[], .nil src⟩, fun _ => rfl⟩
    · intro _
      exact ⟨⟨.nil src, by simp⟩, rfl, fun hops _ => Nat.zero_le _⟩
  rcases shortestPath_cases fl hsrc hdst hne inCollocation with
    ⟨hnone, hret⟩ | ⟨hops, hfirst, hret⟩
  · refine ⟨_, hret, ?_, ?_⟩
    · constructor
      · intro h
        exact absurd h Bool.false_ne_true
      · rintro ⟨hops, hroute⟩
        exact absurd hroute (hnone hops)
    · intro h
      exact absurd h Bool.false_ne_true
  · -- `fill_path` keeps the segments that the search has found
    have hroute := isRoute_iff_isWalk.mpr hfirst.isWalk
    have hknown : ∀ seg ∈ hops.map (hopSegment snap), seg.Known snap := by
      refine hroute.known fun hop hhop => ?_
      obtain ⟨e, he, hj⟩ := hroute.edge_of_mem hop hhop
      exact hd.joins he hj
    obtain ⟨p', hfill, hfound, _, _, hsegs, _, hcount⟩ := fillPath_returns fl
      (p := { source := src, destination := dst, segments := hops.map (hopSegment snap)
              found := true }) (w := {}) hknown ⟨hsrc, hdst⟩ (hd.parents_present src .contains)
    refine ⟨p', ?_, ?_, ?_⟩
    · filter_upwards [hret, hfill] with fuel h1 h2
      rw [h1, h2]
    · exact ⟨fun _ => ⟨hops, hroute⟩, fun _ => hfound⟩
    · intro _
      rw [hsegs]
      refine ⟨SegmentsFollow.of_isRoute hroute, hcount, fun hops' hroute' => ?_⟩
      rw [List.length_map]
      exact hfirst.length_le (isRoute_iff_isWalk.mp hroute')

end Query

/-- The query on two joined nodes. -/
theorem shortestPath_correct_pair :
    pairSnapshot.NoDanglingEdges ∧
      ∃ p, Returns (fun fuel => shortestPath binary64 fuel pairSnapshot ⟨0, 1⟩ ⟨0, 2⟩ false) p ∧
        (p.found = true ↔ ∃ hops, IsRoute pairSnapshot false ⟨0, 1⟩ hops ⟨0, 2⟩) := by
  have hd : pairSnapshot.NoDanglingEdges := by decide
  have hsrc : pairSnapshot.Present ⟨0, 1⟩ := by decide
  have hdst : pairSnapshot.Present ⟨0, 2⟩ := by decide
  obtain ⟨p, hret, hfound, _⟩ := shortestPath_correct binary64 hd hsrc hdst false
  exact ⟨hd, p, hret, hfound⟩

end TopologyFabric

import TopologyFabric.Query.Path
import TopologyFabric.Library.Walk

/-!
# Routes

The specification side of path search. A route is a contiguous list of hops over edges of the
snapshot, each edge used in either direction; collocation edges are usable only on request.

## Main results

- `isRoute_iff_isWalk`: routes are the walks along the usable adjacency records
- `rootAncestor_finishes`, `localityBetween_finishes`, `classifyPath_finishes`: the classification
  of two nodes of a snapshot returns
- `fillPath_returns`: filling in the estimates keeps the path and does not throw
-/

namespace TopologyFabric

open Library

/-! ## Routes -/

/-- A hop from one node to another along the edge with the given index. -/
abbrev EdgeHop := Hop TopologyNodeId ℕ

/-- The edge has the two nodes as its ends. -/
def TopologyEdge.Joins (e : TopologyEdge) (a b : TopologyNodeId) : Prop :=
  (e.source = a ∧ e.target = b) ∨ (e.source = b ∧ e.target = a)

/-- A SHARES_PARENT or SHARES_NUMA edge is usable only in collocation. -/
def TopologyEdge.Usable (e : TopologyEdge) (inCollocation : Bool) : Prop :=
  e.type = .sharesParent ∨ e.type = .sharesNuma → inCollocation = true

/-- `IsRoute snap c a hops b`: the hops lead from `a` to `b`, each along a usable edge that joins
its two ends. -/
inductive IsRoute (snap : TopologySnapshot) (inCollocation : Bool) :
    TopologyNodeId → List EdgeHop → TopologyNodeId → Prop where
  | nil (a : TopologyNodeId) : IsRoute snap inCollocation a [] a
  | cons {a b c : TopologyNodeId} {i : ℕ} {e : TopologyEdge} {hops : List EdgeHop} :
      snap.edges[i]? = some e → e.Usable inCollocation → e.Joins a b →
      IsRoute snap inCollocation b hops c → IsRoute snap inCollocation a (⟨a, b, i⟩ :: hops) c

/-- The edge of the record is usable. -/
def TopologySnapshot.follows (snap : TopologySnapshot) (inCollocation : Bool)
    (ref : EdgeRef) : Bool :=
  match snap.edges[ref.edgeIndex]? with
  | some e => if collocationEdge e.type then inCollocation else true
  | none => false

/-- The usable adjacency records of a node. -/
def TopologySnapshot.links (snap : TopologySnapshot) (inCollocation : Bool)
    (u : TopologyNodeId) : List (TopologyNodeId × ℕ) :=
  ((snap.adjacency u).filter (snap.follows inCollocation)).map fun ref =>
    (ref.neighbor, ref.edgeIndex)

section Routes

variable {snap : TopologySnapshot} {inCollocation : Bool} {a b : TopologyNodeId}
  {hops : List EdgeHop}

theorem usable_iff {e : TopologyEdge} :
    e.Usable inCollocation ↔ (if collocationEdge e.type then inCollocation else true) = true := by
  unfold TopologyEdge.Usable collocationEdge
  cases inCollocation <;> cases e.type <;> simp

theorem mem_links {u v : TopologyNodeId} {i : ℕ} :
    (v, i) ∈ snap.links inCollocation u ↔
      ∃ e, snap.edges[i]? = some e ∧ e.Usable inCollocation ∧ e.Joins u v := by
  simp only [TopologySnapshot.links, List.mem_map, List.mem_filter, Prod.mk.injEq]
  constructor
  · rintro ⟨ref, ⟨hmem, hfilter⟩, rfl, rfl⟩
    obtain ⟨e, he, hends⟩ := TopologySnapshot.mem_adjacency.mp hmem
    simp only [TopologySnapshot.follows, he] at hfilter
    refine ⟨e, he, usable_iff.mpr hfilter, ?_⟩
    exact hends.imp id fun h => ⟨h.2, h.1⟩
  · rintro ⟨e, he, husable, hjoins⟩
    refine ⟨⟨v, i⟩, ⟨TopologySnapshot.mem_adjacency.mpr ⟨e, he, ?_⟩, ?_⟩, rfl, rfl⟩
    · exact hjoins.imp id fun h => ⟨h.2, h.1⟩
    · simp only [TopologySnapshot.follows, he]
      exact usable_iff.mp husable

/-- Routes are the walks along the usable adjacency records. -/
theorem isRoute_iff_isWalk :
    IsRoute snap inCollocation a hops b ↔ IsWalk (snap.links inCollocation) a hops b := by
  constructor
  · intro h
    induction h with
    | nil a => exact .nil a
    | cons he hu hj _ ih => exact .cons (mem_links.mpr ⟨_, he, hu, hj⟩) ih
  · intro h
    induction h with
    | nil a => exact .nil a
    | cons hmem _ ih =>
      obtain ⟨e, he, hu, hj⟩ := mem_links.mp hmem
      exact .cons he hu hj ih

/-- Every hop of a route names an edge that joins its ends. -/
theorem IsRoute.edge_of_mem (h : IsRoute snap inCollocation a hops b) :
    ∀ hop ∈ hops, ∃ e, snap.edges[hop.via]? = some e ∧ e.Joins hop.src hop.dst := by
  induction h with
  | nil => simp
  | cons he _ hj _ ih =>
    intro hop hhop
    rcases List.mem_cons.mp hhop with rfl | hhop
    · exact ⟨_, he, hj⟩
    · exact ih hop hhop

/-- The ids that occur in edges. -/
def TopologySnapshot.endpoints (snap : TopologySnapshot) : Finset TopologyNodeId :=
  (snap.edges.flatMap fun e => [e.source, e.target]).toFinset

theorem mem_endpoints_of_link {u : TopologyNodeId} {p : TopologyNodeId × ℕ}
    (h : p ∈ snap.links inCollocation u) : p.1 ∈ snap.endpoints ∧ u ∈ snap.endpoints := by
  obtain ⟨v, i⟩ := p
  obtain ⟨e, he, _, hj⟩ := mem_links.mp h
  have hmem := List.mem_of_getElem? he
  simp only [TopologySnapshot.endpoints, List.mem_toFinset, List.mem_flatMap]
  rcases hj with ⟨rfl, rfl⟩ | ⟨rfl, rfl⟩
  · exact ⟨⟨e, hmem, by simp⟩, ⟨e, hmem, by simp⟩⟩
  · exact ⟨⟨e, hmem, by simp⟩, ⟨e, hmem, by simp⟩⟩

end Routes

/-- Both nodes are in the snapshot and a route leads from one to the other. -/
def Joined (snap : TopologySnapshot) (inCollocation : Bool) (a b : TopologyNodeId) : Prop :=
  snap.Present a ∧ snap.Present b ∧ ∃ hops, IsRoute snap inCollocation a hops b

/-- The check of the endpoints that the path queries start with. -/
theorem missing_endpoint {snap : TopologySnapshot} {src dst : TopologyNodeId}
    (h : ¬ (snap.Present src ∧ snap.Present dst)) :
    ((snap.findNode src).isNone || (snap.findNode dst).isNone) = true := by
  by_contra hfound
  simp only [Bool.or_eq_true, not_or, Bool.not_eq_true, Option.isNone_eq_false_iff] at hfound
  exact h hfound

/-- Two nodes and one edge between them. -/
def pairSnapshot : TopologySnapshot where
  nodes := ⟨[(⟨0, 1⟩, { id := ⟨0, 1⟩, type := .numaNode }),
    (⟨0, 2⟩, { id := ⟨0, 2⟩, type := .accelerator })], by decide⟩
  keyed := by simp
  edges := [{ source := ⟨0, 1⟩, target := ⟨0, 2⟩ }]
  adjacencyMap := _
  adjacencyBuilt := rfl
  metadata := {}
  validation := {}
  bounds := {}

/-! ## Classification returns -/

section Classification

variable {snap : TopologySnapshot}

/-- Walking up to a root returns: every round but the last adds a node to the seen ones. -/
theorem rootAncestor_finishes (id : TopologyNodeId) (rootType : NodeType) :
    Finishes fun fuel => rootAncestor fuel snap id rootType := by
  suffices h : ∃ r, True ∧ Returns (loop (ancestorStep snap rootType) · (id, [])) r by
    obtain ⟨r, _, hr⟩ := h
    exact ⟨r, hr⟩
  -- the variant: every round marks a node of the snapshot that had not been seen
  refine loop_total Nat.lt_wfRel.wf
    (fun n s => (snap.nodes.keys.toFinset \ s.2.toFinset).card = n) ?_ _ (id, []) rfl
  rintro n ⟨cur, seen⟩ rfl
  unfold ancestorStep
  simp only
  split
  · exact Or.inr ⟨_, rfl, trivial⟩
  · rename_i hcur
    obtain ⟨_, hpresent⟩ := not_or.mp hcur
    obtain ⟨n, hn⟩ : ∃ n, snap.findNode cur = some n := by
      cases h : snap.findNode cur with
      | none => simp [h] at hpresent
      | some n => exact ⟨n, rfl⟩
    rw [TopologySnapshot.node_eq_ok.mpr hn, Outcome.ok_bind]
    split
    · exact Or.inr ⟨_, rfl, trivial⟩
    split
    · exact Or.inr ⟨_, rfl, trivial⟩
    · rename_i hseen
      cases parents snap cur .contains with
      | nil => exact Or.inr ⟨_, rfl, trivial⟩
      | cons p ps =>
        have hkey : cur ∈ snap.nodes.keys :=
          HashMap.mem_keys_of_mem (HashMap.find?_eq_some.mp hn)
        exact Or.inl ⟨(p, cur :: seen), _, rfl, rfl,
          card_unmarked_lt (List.mem_toFinset.mpr hkey) hseen⟩

theorem localityBetween_finishes {a b : TopologyNodeId}
    (h : a ≠ b → snap.Present a ∧ snap.Present b) :
    Finishes fun fuel => localityBetween fuel snap a b := by
  unfold localityBetween
  refine Finishes.ite (fun _ => Finishes.ok _) fun hne => ?_
  obtain ⟨na, _, hna⟩ := (h hne).1.exists_node
  obtain ⟨nb, _, hnb⟩ := (h hne).2.exists_node
  refine Finishes.ok_bind hna (Finishes.ok_bind hnb ?_)
  refine Finishes.ite (fun _ => Finishes.ok _) fun _ => ?_
  refine Finishes.ite (fun _ => Finishes.ok _) fun _ => ?_
  refine Finishes.ite (fun _ => Finishes.ok _) fun _ => ?_
  refine Finishes.bind (rootAncestor_finishes a .pciRoot) fun ra _ => ?_
  refine Finishes.bind (rootAncestor_finishes b .pciRoot) fun rb _ => ?_
  refine Finishes.ite (fun _ => Finishes.ok _) fun _ => ?_
  refine Finishes.bind (rootAncestor_finishes a .machine) fun ha _ => ?_
  refine Finishes.bind (rootAncestor_finishes b .machine) fun hb _ => ?_
  refine Finishes.ite (fun _ => Finishes.ok _) fun _ => ?_
  exact Finishes.ite (fun _ => Finishes.ok _) fun _ => Finishes.ok _

private theorem classifyByNuma_finishes (na nb : TopologyNode) (a b : TopologyNodeId) :
    Finishes fun fuel => classifyByNuma fuel snap na nb a b := by
  unfold classifyByNuma
  split
  · exact Finishes.ok _
  · refine Finishes.bind (rootAncestor_finishes a .machine) fun ha _ => ?_
    exact Finishes.bind (rootAncestor_finishes b .machine) fun hb _ => Finishes.ok _

/-- Looking for a common bridge finds whether there is one. -/
theorem commonBridge_eq {pa pb : List TopologyNodeId}
    (hpa : ∀ p ∈ pa, snap.Present p) : commonBridge snap pa pb = .ok (decide
      (∃ p ∈ pa, p ∈ pb ∧ (snap.findNode p).map TopologyNode.type = some .pciBridge)) := by
  -- the inner loop, for one ancestor
  have hinner : ∀ p, snap.Present p → (pb.anyM fun y =>
      if p = y then do
        let n ← snap.node p
        return decide (n.type = .pciBridge)
      else return false : Run Bool) =
      .ok (decide (p ∈ pb ∧ (snap.findNode p).map TopologyNode.type = some .pciBridge)) := by
    intro p hp
    obtain ⟨n, hn, hn'⟩ := hp.exists_node
    induction pb with
    | nil => simp [List.anyM]
    | cons q pb ih =>
      rw [List.anyM, ih]
      by_cases hpq : p = q
      · subst hpq
        cases hbridge : decide (n.type = .pciBridge) <;> simp_all
      · simp [hpq]
  unfold commonBridge
  induction pa with
  | nil => simp [List.anyM]
  | cons p pa ih =>
    rw [List.anyM, hinner p (hpa p (List.mem_cons_self ..)),
      ih fun q hq => hpa q (List.mem_cons_of_mem _ hq), Outcome.ok_bind]
    by_cases hp : p ∈ pb ∧ (snap.findNode p).map TopologyNode.type = some .pciBridge
    · simp only [List.exists_mem_cons_iff, hp, and_self, true_or, decide_true, Outcome.pure_eq_ok]
    · simp only [List.exists_mem_cons_iff, hp, false_or, decide_false]

theorem classifyPath_finishes {a b : TopologyNodeId}
    (h : a ≠ b → snap.Present a ∧ snap.Present b)
    (hparents : a ≠ b → ∀ x ∈ parents snap a .contains, snap.Present x) :
    Finishes fun fuel => classifyPath fuel snap a b := by
  unfold classifyPath
  -- the tests of the source in their order; only the last ones search
  refine Finishes.ite (fun _ => Finishes.ok _) fun hne => ?_
  obtain ⟨na, _, hna⟩ := (h hne).1.exists_node
  obtain ⟨nb, _, hnb⟩ := (h hne).2.exists_node
  refine Finishes.ok_bind hna (Finishes.ok_bind hnb ?_)
  simp only
  refine Finishes.ite (fun _ => Finishes.ok _) fun _ => ?_
  refine Finishes.ite (fun _ => Finishes.ok _) fun _ => ?_
  refine Finishes.ite (fun _ => Finishes.ok _) fun _ => ?_
  refine Finishes.ite (fun _ => Finishes.ok _) fun _ => ?_
  refine Finishes.ite (fun _ => Finishes.ok _) fun _ => ?_
  refine Finishes.ite (fun _ => ?_) fun _ => classifyByNuma_finishes na nb a b
  refine Finishes.ok_bind (commonBridge_eq (hparents hne)) ?_
  refine Finishes.ite (fun _ => Finishes.ok _) fun _ => ?_
  refine Finishes.bind (rootAncestor_finishes a .pciRoot) fun ra _ => ?_
  refine Finishes.bind (rootAncestor_finishes b .pciRoot) fun rb _ => ?_
  exact Finishes.ite (fun _ => Finishes.ok _) fun _ => classifyByNuma_finishes na nb a b

/-- The segment can be looked up: both nodes are present and the edge exists. -/
def PathSegment.Known (snap : TopologySnapshot) (seg : PathSegment) : Prop :=
  snap.Present seg.source ∧ snap.Present seg.target ∧ ∃ e, snap.edges[seg.edgeIndex]? = some e

/-- What a path query answers: a path exactly between joined nodes, and only segments that can be
looked up. -/
structure PathAnswer (snap : TopologySnapshot) (inCollocation : Bool) (src dst : TopologyNodeId)
    (p : TopologyPath) : Prop where
  source : p.source = src
  destination : p.destination = dst
  found : p.found = true ↔ Joined snap inCollocation src dst
  known : ∀ seg ∈ p.segments, seg.Known snap

/-- A segment that can be looked up has an estimate. -/
theorem estimateSegment_returns (fl : Rounding) (w : CostWeights) (acc : PathEstimate)
    (seg : PathSegment) (h : seg.Known snap) :
    ∃ acc', estimateSegment fl snap w acc seg = .ok acc' := by
  obtain ⟨hs, ht, e, he⟩ := h
  obtain ⟨un, _, hun⟩ := hs.exists_node
  obtain ⟨vn, _, hvn⟩ := ht.exists_node
  simp only [estimateSegment, hun, hvn, TopologySnapshot.edge_eq_ok.mpr he, Outcome.ok_bind,
    Outcome.pure_eq_ok]
  exact ⟨_, rfl⟩

/-- Filling in the estimates keeps what the search found. -/
theorem fillPath_returns (fl : Rounding) {p : TopologyPath} {w : CostWeights}
    (hsegs : ∀ seg ∈ p.segments, seg.Known snap)
    (hends : snap.Present p.source ∧ snap.Present p.destination)
    (hparents : ∀ x ∈ parents snap p.source .contains, snap.Present x) :
    ∃ p', Returns (fun fuel => fillPath fl fuel snap p w) p' ∧ p'.found = p.found ∧
      p'.source = p.source ∧ p'.destination = p.destination ∧ p'.segments = p.segments ∧
      p'.totalCost = p.totalCost ∧ p'.hopCount = p.segments.length := by
  -- the segments are estimated, then the locality and the class of the ends are asked for
  obtain ⟨acc, hacc⟩ := Outcome.foldlM_returns (estimateSegment_returns fl w) p.segments {} hsegs
  obtain ⟨loc, hloc⟩ := localityBetween_finishes fun _ => hends
  obtain ⟨cls, hcls⟩ := classifyPath_finishes (fun _ => hends) fun _ => hparents
  refine ⟨{ p with
    estimatedBandwidthBps := if acc.anyBw then acc.bw else w.bandwidthRefBps
    estimatedLatencyNs := acc.lat
    hopCount := p.segments.length
    locality := loc
    pathClass := cls
    costPolicyVersion := w.version
    confidence := .medium }, ?_, rfl, rfl, rfl, rfl, rfl, rfl⟩
  unfold fillPath
  simp only [hacc, Outcome.ok_bind]
  exact hloc.bind (hcls.bind (Returns.pure _))

theorem TopologySnapshot.NoDanglingEdges.parents_present (hd : snap.NoDanglingEdges)
    (id : TopologyNodeId) (type : EdgeType) : ∀ x ∈ parents snap id type, snap.Present x := by
  intro x hx
  obtain ⟨e, he, _, _, rfl⟩ := mem_parents.mp hx
  exact (hd e he).1

end Classification

/-- What a path keeps and what it gets when its estimates are filled in. -/
structure FilledFrom (fuel : ℕ) (snap : TopologySnapshot) (p p' : TopologyPath) : Prop where
  found : p'.found = p.found
  source : p'.source = p.source
  destination : p'.destination = p.destination
  segments : p'.segments = p.segments
  totalCost : p'.totalCost = p.totalCost
  hopCount : p'.hopCount = p.segments.length
  locality : localityBetween fuel snap p.source p.destination = .ok p'.locality
  pathClass : classifyPath fuel snap p.source p.destination = .ok p'.pathClass

theorem fillPath_ok {fl : Rounding} {fuel : ℕ} {snap : TopologySnapshot} {w : CostWeights}
    {p p' : TopologyPath} (h : fillPath fl fuel snap p w = .ok p') : FilledFrom fuel snap p p' := by
  obtain ⟨acc, -, h⟩ := Outcome.bind_eq_ok.mp h
  obtain ⟨locality, hlocality, h⟩ := Outcome.bind_eq_ok.mp h
  obtain ⟨pathClass, hclass, h⟩ := Outcome.bind_eq_ok.mp h
  obtain rfl := Outcome.ok.inj h
  exact ⟨rfl, rfl, rfl, rfl, rfl, rfl, hlocality, hclass⟩

end TopologyFabric

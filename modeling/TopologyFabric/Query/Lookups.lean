import TopologyFabric.Query.Ranking
import TopologyFabric.Query.RoundedSearch
import TopologyFabric.Serialization.Snapshot

/-!
# When the Queries Answer

A snapshot may hold edges to nodes that it does not hold, and edges with a negative latency. The
searches look up every node that they reach, and `lowest_cost_path` goes round closed walks that
lower its distances. The queries between two nodes therefore answer when their routes stay in the
snapshot and the way between them overtakes the walks that lead astray.

## Main results

- `queries_answer_iff`: when the queries between two ids answer, and what is so when they do
- `LookupsSucceed.queriesReturn`: without negative costs the queries return for all ids on snapshots
  whose usable edges stay in them
- `lookupsSucceed_of_queries`: and only on those
-/

namespace TopologyFabric

open Library LabelCorrecting Filter

/-! ## What the queries should do -/

/-- The queries between two ids return. -/
structure QueriesReturn (snap : TopologySnapshot) (a b : TopologyNodeId) (w : CostWeights) :
    Prop where
  shortest : ∀ inCollocation, Finishes fun fuel =>
    shortestPath binary64 fuel snap a b inCollocation
  lowest : Finishes fun fuel => lowestCostPath binary64 fuel snap a b w
  distance : Finishes fun fuel => distanceBetween binary64 fuel snap a b w
  rankByType : ∀ order type maxCandidates, Finishes fun fuel =>
    rankCandidatesByType binary64 order fuel snap a type maxCandidates w
  rank : ∀ candidates, Finishes fun fuel => rankCandidates binary64 fuel snap a candidates w
  explanation : Finishes fun fuel => explain binary64 fuel snap a b w

/-- Nothing leads the searches between two nodes astray: the first shortest routes stay in the
snapshot, and the detours are overtaken. -/
structure PairSafe (snap : TopologySnapshot) (w : CostWeights) (a b : TopologyNodeId) : Prop where
  routes : ∀ inCollocation hops, IsFirstWalk (snap.links inCollocation) a hops b →
    ∀ hop ∈ hops, snap.Present hop.src ∧ snap.Present hop.dst
  detours : DetoursOvertaken snap w a b

/-- A usable edge has both ends in the snapshot or none. -/
def UsableEdgesStay (snap : TopologySnapshot) : Prop :=
  ∀ e ∈ snap.edges, e.Usable false → (snap.Present e.source ↔ snap.Present e.target)

/-- The lookups of the searches succeed: with two nodes to search between, the usable edges stay in
the snapshot, and so do the first of the shortest routes that may use collocation edges. -/
structure LookupsSucceed (snap : TopologySnapshot) : Prop where
  edges : ∀ a b, snap.Present a → snap.Present b → a ≠ b → UsableEdgesStay snap
  collocation : ∀ a b hops, snap.Present a → snap.Present b →
    IsFirstWalk (snap.links true) a hops b →
      ∀ hop ∈ hops, snap.Present hop.src ∧ snap.Present hop.dst

section Condition

variable {snap : TopologySnapshot} {w : CostWeights} {a b : TopologyNodeId}

theorem linksStay_iff : LinksStay snap ↔ UsableEdgesStay snap := by
  constructor
  · intro h e he husable
    -- an edge is a link from each of its ends
    obtain ⟨i, hi⟩ := List.getElem?_of_mem he
    constructor
    · intro hsource
      exact h e.source hsource (e.target, i)
        (mem_links.mpr ⟨e, hi, husable, Or.inl ⟨rfl, rfl⟩⟩)
    · intro htarget
      exact h e.target htarget (e.source, i)
        (mem_links.mpr ⟨e, hi, husable, Or.inr ⟨rfl, rfl⟩⟩)
  · intro h u hu p hp
    obtain ⟨e, he, husable, hjoins⟩ := mem_links.mp hp
    have hends := h e (List.mem_of_getElem? he) husable
    rcases hjoins with ⟨rfl, hv⟩ | ⟨hv, rfl⟩
    · exact hv ▸ hends.mp hu
    · exact hv ▸ hends.mpr hu

/-! ## Safe pairs -/

theorem PairSafe.enclosed (h : PairSafe snap w a b) (ha : snap.Present a) (inCollocation : Bool) :
    Enclosed snap inCollocation a b :=
  fun _ _ _ => ⟨h.routes inCollocation, (h.detours.lookups.endKnown_nil ha).parents_present⟩

section Safe

variable (hsafe : snap.Present a → snap.Present b → a ≠ b → PairSafe snap w a b)

include hsafe

theorem enclosed_of_safe (inCollocation : Bool) : Enclosed snap inCollocation a b :=
  fun ha hb hne => (hsafe ha hb hne).enclosed ha inCollocation ha hb hne

theorem rankable_of_safe : Rankable binary64 snap w a b where
  path := lowestCostPath_answers fun ha hb hne => (hsafe ha hb hne).detours
  enclosed := enclosed_of_safe hsafe false

end Safe

/-- Without negative costs two nodes are safe where the lookups succeed. -/
theorem LookupsSucceed.pairSafe (h : LookupsSucceed snap) (hcost : CostsNotNeg binary64 snap w)
    (ha : snap.Present a) (hb : snap.Present b) (hne : a ≠ b) : PairSafe snap w a b := by
  have hstay := linksStay_iff.mpr (h.edges a b ha hb hne)
  refine ⟨fun inCollocation hops hfirst => ?_, hcost.detoursOvertaken ha hstay⟩
  cases inCollocation with
  | true => exact h.collocation a b hops ha hb hfirst
  | false => exact hstay.walk_present ha hfirst.isWalk

/-- **The lookups suffice** when no cost is negative. -/
theorem LookupsSucceed.queriesReturn (hcost : CostsNotNeg binary64 snap w)
    (h : LookupsSucceed snap) (a b : TopologyNodeId) : QueriesReturn snap a b w where
  shortest inCollocation := (shortestPath_answers binary64 inCollocation
    (enclosed_of_safe (h.pairSafe hcost) inCollocation)).imp fun _ hp => hp.1
  lowest := (rankable_of_safe (h.pairSafe hcost)).path.imp fun _ hp => hp.1
  distance := (distanceBetween_answers binary64 w (enclosed_of_safe (h.pairSafe hcost) false)).imp
    fun _ hd => hd.1
  rankByType order _ maxCandidates := (rankCandidatesByType_answers
    (fun _ _ => rankable_of_safe (h.pairSafe hcost)) order maxCandidates).imp fun _ hr => hr.1
  rank _ :=
    (rankCandidates_answers fun _ _ => rankable_of_safe (h.pairSafe hcost)).imp fun _ hr => hr.1
  explanation := (explain_answers (rankable_of_safe (h.pairSafe hcost))).imp fun _ he => he.1

/-- Filling in the estimates of a path looks up the ends of its segments. -/
theorem segments_present_of_fill {fl : Rounding} {fuel : ℕ} {p p' : TopologyPath}
    (h : fillPath fl fuel snap p w = .ok p') :
    ∀ seg ∈ p.segments, snap.Present seg.source ∧ snap.Present seg.target := by
  unfold fillPath at h
  obtain ⟨acc, hfold, -⟩ := Outcome.bind_eq_ok.mp h
  intro seg hseg
  obtain ⟨c, c', hstep⟩ := Outcome.step_of_foldlM hfold seg hseg
  unfold estimateSegment at hstep
  obtain ⟨un, hun, hstep⟩ := Outcome.bind_eq_ok.mp hstep
  obtain ⟨vn, hvn, -⟩ := Outcome.bind_eq_ok.mp hstep
  exact ⟨present_of_node hun, present_of_node hvn⟩

/-- When `shortest_path` returns, the first of the shortest routes stays in the snapshot. -/
theorem firstWalk_present_of_shortest {inCollocation : Bool} {hops : List EdgeHop}
    (hsrc : snap.Present a) (hdst : snap.Present b) (hne : a ≠ b)
    (hfirst : IsFirstWalk (snap.links inCollocation) a hops b)
    (h : Finishes fun fuel => shortestPath binary64 fuel snap a b inCollocation) :
    ∀ hop ∈ hops, snap.Present hop.src ∧ snap.Present hop.dst := by
  obtain ⟨p, hreturns⟩ := h
  rcases shortestPath_cases binary64 hsrc hdst hne inCollocation with
    ⟨hnone, -⟩ | ⟨hops', hfirst', hfill⟩
  · exact absurd (isRoute_iff_isWalk.mpr hfirst.isWalk) (hnone hops)
  · obtain rfl := hfirst.unique hfirst'
    obtain ⟨fuel, hfuel, hfillFuel⟩ := (hreturns.and hfill).exists
    intro hop hhop
    exact segments_present_of_fill (hfillFuel.symm.trans hfuel) (hopSegment snap hop)
      (List.mem_map_of_mem hhop)

/-- The first walk from a node to itself makes no hop. -/
theorem firstWalk_self {inCollocation : Bool} {hops : List EdgeHop}
    (h : IsFirstWalk (snap.links inCollocation) a hops a) : hops = [] :=
  List.length_eq_zero_iff.mp (Nat.le_zero.mp (h.length_le (.nil a)))

/-- When `lowest_cost_path` returns, the records of its source lead to nodes of the snapshot. -/
theorem endKnown_of_lowest (ha : snap.Present a) (hb : snap.Present b) (hne : a ≠ b)
    (h : Finishes fun fuel => lowestCostPath binary64 fuel snap a b w) : EndKnown snap a [] := by
  obtain ⟨p, hp⟩ := h
  obtain ⟨fuel, hfuel⟩ := hp.exists
  exact ((overtaken_or_searchFollows Rounded.keepsOrder addsHopCost_rounded Rounded.val_zero
    roundedExtend_mono ha hb hne hfuel (.nil a) (by simp)).resolve_left not_overtaken_nil).1

/-- **The lookups are necessary.** -/
theorem lookupsSucceed_of_queries (h : ∀ a b, QueriesReturn snap a b w) : LookupsSucceed snap := by
  constructor
  · intro a b ha hb hne
    refine linksStay_iff.mp fun u hu p hp => ?_
    -- there is another node to search for
    obtain ⟨t, ht, hut⟩ : ∃ t, snap.Present t ∧ u ≠ t := by
      by_cases hua : u = a
      · exact ⟨b, hb, hua ▸ hne⟩
      · exact ⟨a, ha, hua⟩
    exact (endKnown_of_lowest hu ht hut (h u t).lowest p hp).2
  · intro a b hops ha hb hfirst
    by_cases hne : a = b
    · subst hne
      rw [firstWalk_self hfirst]
      simp
    · exact firstWalk_present_of_shortest ha hb hne hfirst ((h a b).shortest true)

/-! ## Rankings -/

/-- A lowest-cost path is found between joined nodes only. -/
theorem EntryFrom.joined {fuel : ℕ} {entry : RankEntry} {p : TopologyPath}
    (h : EntryFrom binary64 fuel snap w a entry p) (hne : a ≠ entry.id) :
    Joined snap false a entry.id := by
  obtain ⟨ha, hb⟩ := lowestCostPath_present h.path h.found
  exact joined_of_lowestCostPath Rounded.keepsOrder addsHopCost_rounded Rounded.val_zero
    roundedExtend_mono ha hb hne h.path h.found

end Condition

/-- The default weights are not negative. -/
theorem default_nonneg : CostWeights.Nonneg {} := by
  constructor <;> decide +kernel

end TopologyFabric

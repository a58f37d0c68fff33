import TopologyFabric.Query.CorrectedSearch
import TopologyFabric.Query.LowestCostPath

/-!
# Lowest-Cost Paths with Negative Costs

The weights may make hops cost less than nothing. Then the search of `lowest_cost_path` corrects the
distances of nodes that it has passed, and it need not come to an end.

## Main results

- `lowestCostPath_terminates`: the query finishes if every trap is overtaken; if it finishes in spite
  of a trap that is not, the nodes are joined and the search has gone through the trap
- `lowestCostPath_terminates_fails`: there are weights for which it does not finish
-/

namespace TopologyFabric

open Library LabelCorrecting

section NegativeCosts

variable {snap : TopologySnapshot} {src dst : TopologyNodeId} {w : CostWeights}

/-- If every trap is overtaken, the query finishes. -/
theorem lowestCostPath_finishes (hd : snap.NoDanglingEdges) (hsrc : snap.Present src)
    (hdst : snap.Present dst)
    (hover : ∀ Q, Trap (snap.links false) (Dijkstra.addCost (exactCost snap w)) 0 src dst Q →
      Overtaken (snap.links false) (Dijkstra.addCost (exactCost snap w)) 0 src dst Q) :
    Finishes fun fuel => lowestCostPath exact fuel snap src dst w := by
  by_cases hne : src = dst
  · subst hne
    exact (lowestCostPath_self hsrc).finishes
  -- exact sums hide nothing, so a trap is put together from itself only
  obtain ⟨p, hp, -⟩ := lowestCostPath_answers_of_overtaken keepsOrder_fin addsHopCost_exact rfl
    (Dijkstra.monotone_addCost (exactCost snap w)) hsrc hdst hne
    (hd.linksStay.lookupsOvertaken hsrc)
    (trapsOvertaken_of_strictMono (Dijkstra.strictMono_addCost (exactCost snap w)) hover)
  exact hp.finishes

/-- If no route joins the nodes and a trap can be reached, the query does not finish. -/
theorem lowestCostPath_diverges_of_trap (hd : snap.NoDanglingEdges) (hsrc : snap.Present src)
    (hdst : snap.Present dst) (hjoined : ¬ Joined snap false src dst) {Q : List EdgeHop}
    (htrap : Trap (snap.links false) (Dijkstra.addCost (exactCost snap w)) 0 src dst Q) :
    Diverges fun fuel => lowestCostPath exact fuel snap src dst w := by
  have hreach : ∀ hops, ¬ IsWalk (snap.links false) src hops dst :=
    fun hops hwalk => hjoined ⟨hsrc, hdst, hops, isRoute_iff_isWalk.mpr hwalk⟩
  have hne : src ≠ dst := by
    rintro rfl
    exact hreach [] (.nil src)
  obtain ⟨x, A, C, hA, hC, hneg⟩ := htrap.exists_negative
  have hsearch := labelCorrecting_diverges (ε := Exception) hreach hA hC hneg
  exact lowestCostPath_diverges hsrc hdst hne (costSearch_diverges keepsOrder_fin addsHopCost_exact
    (hd.linksStay.supports _ dst) rfl (BestFirst.queued_init hsrc 0) hsearch)

/-- **Termination with any weights.** In exact arithmetic, on a snapshot without dangling edges,
`lowest_cost_path` finishes if every trap between its endpoints is overtaken. When it finishes with a
trap that is not overtaken, the nodes are joined, and the search has followed the trap to its end:
it has gone round a closed walk of negative cost before the destination came off the queue. -/
theorem lowestCostPath_terminates (hd : snap.NoDanglingEdges) (hsrc : snap.Present src)
    (hdst : snap.Present dst) :
    ((∀ Q, Trap (snap.links false) (Dijkstra.addCost (exactCost snap w)) 0 src dst Q →
        Overtaken (snap.links false) (Dijkstra.addCost (exactCost snap w)) 0 src dst Q) →
      Finishes fun fuel => lowestCostPath exact fuel snap src dst w) ∧
    ((Finishes fun fuel => lowestCostPath exact fuel snap src dst w) → src ≠ dst →
      ∀ Q, Trap (snap.links false) (Dijkstra.addCost (exactCost snap w)) 0 src dst Q →
        Overtaken (snap.links false) (Dijkstra.addCost (exactCost snap w)) 0 src dst Q ∨
          Joined snap false src dst ∧ SearchFollows exact snap w src dst Q) := by
  refine ⟨lowestCostPath_finishes hd hsrc hdst, fun hfin hne Q htrap => ?_⟩
  obtain ⟨p, hp⟩ := hfin
  have hjoined : Joined snap false src dst := by
    by_contra hjoined
    exact hp.not_diverges (lowestCostPath_diverges_of_trap hd hsrc hdst hjoined htrap)
  obtain ⟨fuel, hfuel⟩ := hp.exists
  obtain ⟨hwalk, havoid⟩ := htrap.isWalk
  exact (overtaken_or_searchFollows keepsOrder_fin addsHopCost_exact rfl
    (Dijkstra.monotone_addCost (exactCost snap w)) hsrc hdst hne hfuel hwalk havoid).imp id
    fun hfollowed => ⟨hjoined, hfollowed.2⟩

end NegativeCosts

/-- The query on two joined nodes with a negative and a NaN weight. No walk that avoids the
destination has a hop, so there are no traps. -/
theorem lowestCostPath_terminates_pair : Finishes fun fuel =>
    lowestCostPath exact fuel pairSnapshot ⟨0, 1⟩ ⟨0, 2⟩
      { hopPenalty := .fin (-5), latencyNsWeight := .nan } := by
  have hlinks : ∀ p ∈ pairSnapshot.links false ⟨0, 1⟩, p.1 = ⟨0, 2⟩ := by decide +kernel
  exact (lowestCostPath_terminates (by decide +kernel) (by decide +kernel)
    (by decide +kernel)).1 fun Q htrap => absurd htrap (not_trap_of_adj hlinks)

/-- Two joined nodes and a third one without edges. -/
def islandNodes : List (TopologyNodeId × TopologyNode) := [
  (⟨0, 1⟩, { id := ⟨0, 1⟩, type := .machine }),
  (⟨0, 2⟩, { id := ⟨0, 2⟩, type := .accelerator }),
  (⟨0, 3⟩, { id := ⟨0, 3⟩, type := .accelerator })]

theorem nodup_islandNodes : (islandNodes.map Prod.fst).Nodup := by decide

theorem keyed_islandNodes : ∀ e ∈ islandNodes, e.2.id = e.1 := by decide

def islandSnapshot : TopologySnapshot where
  nodes := ⟨islandNodes, nodup_islandNodes⟩
  keyed := keyed_islandNodes
  edges := [{ source := ⟨0, 2⟩, target := ⟨0, 1⟩ }]
  adjacencyMap := _
  adjacencyBuilt := rfl
  metadata := {}
  validation := {}
  bounds := {}

/-- Weights under which every hop between these nodes costs less than nothing. -/
def steepWeights : CostWeights where
  hopPenalty := .fin (-100)
  latencyNsWeight := .fin (1 / 2000)

/-- With a large negative hop penalty the search goes back and forth along the one edge, and the
third node is never found. -/
theorem lowestCostPath_terminates_fails : ∃ snap src dst w, snap.NoDanglingEdges ∧
    snap.Present src ∧ snap.Present dst ∧
    ¬ Finishes fun fuel => lowestCostPath exact fuel snap src dst w := by
  have hd : islandSnapshot.NoDanglingEdges := by decide +kernel
  have hsrc : islandSnapshot.Present ⟨0, 1⟩ := by decide +kernel
  have hdst : islandSnapshot.Present ⟨0, 3⟩ := by decide +kernel
  have hedge : ∀ e ∈ islandSnapshot.edges, e.source ≠ ⟨0, 3⟩ ∧ e.target ≠ ⟨0, 3⟩ := by
    decide +kernel
  -- no edge leads to the destination, so the search cannot stop there
  have hjoined : ¬ Joined islandSnapshot false ⟨0, 1⟩ ⟨0, 3⟩ := by
    rintro ⟨-, -, hops, hroute⟩
    refine (IsWalk.closed (S := fun x => x ≠ ⟨0, 3⟩) ?_ (isRoute_iff_isWalk.mp hroute)
      (by decide)).1 rfl
    intro x y i _ hmem
    obtain ⟨e, he, -, hj⟩ := mem_links.mp hmem
    obtain ⟨hs, ht⟩ := hedge e (List.mem_of_getElem? he)
    rcases hj with ⟨-, rfl⟩ | ⟨rfl, -⟩
    · exact ht
    · exact hs
  have hthere : ((⟨0, 2⟩, 0) : TopologyNodeId × ℕ) ∈ islandSnapshot.links false ⟨0, 1⟩ := by
    decide +kernel
  have hback : ((⟨0, 1⟩, 0) : TopologyNodeId × ℕ) ∈ islandSnapshot.links false ⟨0, 2⟩ := by
    decide +kernel
  -- there and back again costs less than nothing
  have hcost : exactCost islandSnapshot steepWeights ⟨0, 1⟩ ⟨0, 2⟩ 0 +
      exactCost islandSnapshot steepWeights ⟨0, 2⟩ ⟨0, 1⟩ 0 < 0 := by decide +kernel
  have htrap : Trap (islandSnapshot.links false)
      (Dijkstra.addCost (exactCost islandSnapshot steepWeights)) 0 ⟨0, 1⟩ ⟨0, 3⟩
      [⟨⟨0, 1⟩, ⟨0, 2⟩, 0⟩, ⟨⟨0, 2⟩, ⟨0, 1⟩, 0⟩] := by
    refine .back (.cons hthere (.cons hback (.nil _))) (by decide) ?_
    simpa [Dijkstra.walkValue_zero] using hcost
  refine ⟨islandSnapshot, ⟨0, 1⟩, ⟨0, 3⟩, steepWeights, hd, hsrc, hdst, fun ⟨p, hp⟩ => ?_⟩
  exact hp.not_diverges (lowestCostPath_diverges_of_trap hd hsrc hdst hjoined htrap)

end TopologyFabric

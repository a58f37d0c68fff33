import TopologyFabric.Query.ShortestPath

/-!
# Symmetric Relations

Adjacency is undirected, so every route can be walked back, and the classes of a pair of nodes do
not depend on which of them comes first.

## Main results

- `shortestPath_hops`: what the hop count of a path says
- `localityBetween_symm`, `classifyPath_symm`: the classes, for large budgets
- `pathRelations_symm`: hop counts and classes in both directions
-/

namespace TopologyFabric

open Library Filter

/-! ## Fewest hops -/

section Hops

variable {snap : TopologySnapshot} {inCollocation : Bool} {a b : TopologyNodeId}

theorem TopologyEdge.Joins.symm {e : TopologyEdge} (h : e.Joins a b) : e.Joins b a :=
  h.elim Or.inr Or.inl

/-- A route can be walked back. -/
theorem IsRoute.reverse {hops : List EdgeHop} (h : IsRoute snap inCollocation a hops b) :
    ∃ back, IsRoute snap inCollocation b back a ∧ back.length = hops.length := by
  have hsymm : ∀ x y i, (y, i) ∈ snap.links inCollocation x →
      (x, i) ∈ snap.links inCollocation y := by
    intro x y i hmem
    obtain ⟨e, he, husable, hjoins⟩ := mem_links.mp hmem
    exact mem_links.mpr ⟨e, he, husable, hjoins.symm⟩
  obtain ⟨back, hback, hlength⟩ := (isRoute_iff_isWalk.mp h).reverse_exists hsymm
  exact ⟨back, isRoute_iff_isWalk.mpr hback, hlength⟩

/-- The hops of a shortest route, or none. -/
def HopAnswer (snap : TopologySnapshot) (inCollocation : Bool) (a b : TopologyNodeId)
    (p : TopologyPath) : Prop :=
  (p.found = false ∧ p.hopCount = 0 ∧ ∀ hops, ¬ IsRoute snap inCollocation a hops b) ∨
    (p.found = true ∧ ∃ hops, IsRoute snap inCollocation a hops b ∧ p.hopCount = hops.length ∧
      ∀ hops', IsRoute snap inCollocation a hops' b → hops.length ≤ hops'.length)

/-- The first of the shortest routes, or none. -/
def FirstAnswer (snap : TopologySnapshot) (inCollocation : Bool) (a b : TopologyNodeId)
    (p : TopologyPath) : Prop :=
  (p.found = false ∧ p.hopCount = 0 ∧ ∀ hops, ¬ IsRoute snap inCollocation a hops b) ∨
    (p.found = true ∧ ∃ hops, IsFirstWalk (snap.links inCollocation) a hops b ∧
      p.segments = hops.map (hopSegment snap) ∧ p.hopCount = hops.length)

/-- Staying where one is comes before every other walk. -/
private theorem isFirstWalk_nil (adj : TopologyNodeId → List (TopologyNodeId × ℕ))
    (a : TopologyNodeId) : IsFirstWalk adj a [] a := by
  refine ⟨[], rfl, rfl, ?_⟩
  intro w _
  rcases List.eq_nil_or_concat w with rfl | ⟨w, i, rfl⟩
  · exact le_rfl
  · exact (shortlex_lt_iff.mpr (Or.inl (by simp))).le

/-- What a search between two nodes of the snapshot returns. -/
theorem shortestPath_first (fl : Rounding) (hd : snap.NoDanglingEdges) (ha : snap.Present a)
    (hb : snap.Present b) (inCollocation : Bool) :
    ∃ p, Returns (fun fuel => shortestPath fl fuel snap a b inCollocation) p ∧
      FirstAnswer snap inCollocation a b p := by
  by_cases hne : a = b
  · subst hne
    obtain ⟨n, hn, -⟩ := ha.exists_node
    refine ⟨{ source := a, destination := a, found := true, hopCount := 0
              locality := .exact, pathClass := .sameObject },
      Eventually.of_forall fun fuel => ?_, Or.inr ⟨rfl, [], isFirstWalk_nil _ a, rfl, rfl⟩⟩
    simp [shortestPath, hn]
  rcases shortestPath_cases fl ha hb hne inCollocation with ⟨hnone, hret⟩ | ⟨hops, hfirst, hret⟩
  · exact ⟨_, hret, Or.inl ⟨rfl, rfl, hnone⟩⟩
  · -- the estimates are filled in for the segments of the first walk
    have hroute := isRoute_iff_isWalk.mpr hfirst.isWalk
    have hpresent : ∀ hop ∈ hops, snap.Present hop.src ∧ snap.Present hop.dst := by
      intro hop hhop
      obtain ⟨e, he, hj⟩ := hroute.edge_of_mem hop hhop
      exact hd.joins he hj
    obtain ⟨p, hfill, hfound, -, -, hsegs, -, hcount⟩ := fillPath_returns fl
      (p := { source := a, destination := b, segments := hops.map (hopSegment snap)
              found := true }) (w := {}) (hroute.known hpresent) ⟨ha, hb⟩
      (hd.parents_present a .contains)
    refine ⟨p, ?_, Or.inr ⟨hfound, hops, hfirst, hsegs, by simpa using hcount⟩⟩
    filter_upwards [hret, hfill] with fuel h1 h2
    rw [h1, h2]

/-- What the hop count of a path says. -/
theorem shortestPath_hops (fl : Rounding) (hd : snap.NoDanglingEdges) (ha : snap.Present a)
    (hb : snap.Present b) (inCollocation : Bool) :
    ∃ p, Returns (fun fuel => shortestPath fl fuel snap a b inCollocation) p ∧
      HopAnswer snap inCollocation a b p := by
  obtain ⟨p, hret, hanswer⟩ := shortestPath_first fl hd ha hb inCollocation
  refine ⟨p, hret, hanswer.imp_right ?_⟩
  rintro ⟨hfound, hops, hfirst, -, hcount⟩
  exact ⟨hfound, hops, isRoute_iff_isWalk.mpr hfirst.isWalk, hcount,
    fun hops' hroute' => hfirst.length_le (isRoute_iff_isWalk.mp hroute')⟩

/-- Hop counts in the two directions. -/
theorem HopAnswer.symm {p q : TopologyPath} (hp : HopAnswer snap inCollocation a b p)
    (hq : HopAnswer snap inCollocation b a q) : p.found = q.found ∧ p.hopCount = q.hopCount := by
  rcases hp with ⟨hp, hcount, hnone⟩ | ⟨hp, hops, hroute, hcount, hleast⟩
  · rcases hq with ⟨hq, hcount', -⟩ | ⟨-, hops', hroute', -⟩
    · exact ⟨hp.trans hq.symm, hcount.trans hcount'.symm⟩
    · obtain ⟨back, hback, -⟩ := hroute'.reverse
      exact absurd hback (hnone back)
  · rcases hq with ⟨-, -, hnone⟩ | ⟨hq, hops', hroute', hcount', hleast'⟩
    · obtain ⟨back, hback, -⟩ := hroute.reverse
      exact absurd hback (hnone back)
    · -- each of the two shortest routes walks back along the other direction
      obtain ⟨back, hback, hlength⟩ := hroute.reverse
      obtain ⟨back', hback', hlength'⟩ := hroute'.reverse
      have hle : hops'.length ≤ hops.length := hlength ▸ hleast' back hback
      have hle' : hops.length ≤ hops'.length := hlength' ▸ hleast back' hback'
      exact ⟨hp.trans hq.symm, by rw [hcount, hcount', le_antisymm hle' hle]⟩

end Hops

/-! ## Classes -/

theorem bothEqual_comm {α : Type} [DecidableEq α] (x y : Option α) :
    bothEqual x y = bothEqual y x := by
  by_cases h : x = y
  · rw [h]
  · simp [bothEqual, h, Ne.symm h]

theorem commonRoot_comm (x y : TopologyNodeId) : commonRoot x y = commonRoot y x := by
  by_cases h : x = y
  · rw [h]
  · simp [commonRoot, h, Ne.symm h]

section Classes

variable {snap : TopologySnapshot} {a b : TopologyNodeId}

theorem localityBetween_symm (ha : snap.Present a) (hb : snap.Present b) :
    ∀ᶠ fuel in atTop, localityBetween fuel snap a b = localityBetween fuel snap b a := by
  obtain ⟨na, -, hna⟩ := ha.exists_node
  obtain ⟨nb, -, hnb⟩ := hb.exists_node
  obtain ⟨ra, hra⟩ := @rootAncestor_finishes snap a .pciRoot
  obtain ⟨rb, hrb⟩ := @rootAncestor_finishes snap b .pciRoot
  obtain ⟨ma, hma⟩ := @rootAncestor_finishes snap a .machine
  obtain ⟨mb, hmb⟩ := @rootAncestor_finishes snap b .machine
  filter_upwards [hra, hrb, hma, hmb] with fuel hra hrb hma hmb
  by_cases hne : a = b
  · rw [hne]
  · -- every test of the cascade looks at both nodes in the same way
    simp only [localityBetween, if_neg hne, if_neg (Ne.symm hne), hna, hnb, hra, hrb, hma, hmb,
      Outcome.ok_bind, bothEqual_comm nb.native.coreId, bothEqual_comm nb.native.cpuPackage,
      bothEqual_comm nb.native.numaNode, commonRoot_comm rb, commonRoot_comm mb,
      Bool.and_comm (decide (nb.type = .cpuThread)), Bool.and_comm (isCpu nb.type),
      Bool.and_comm (decide (mb = kNullNodeId))]

theorem commonBridge_symm (hd : snap.NoDanglingEdges) :
    commonBridge snap (parents snap a .contains) (parents snap b .contains) =
      commonBridge snap (parents snap b .contains) (parents snap a .contains) := by
  rw [commonBridge_eq (hd.parents_present a .contains),
    commonBridge_eq (hd.parents_present b .contains)]
  congr 2
  simp only [eq_iff_iff]
  constructor
  · rintro ⟨p, hpa, hpb, htype⟩
    exact ⟨p, hpb, hpa, htype⟩
  · rintro ⟨p, hpb, hpa, htype⟩
    exact ⟨p, hpa, hpb, htype⟩

private theorem classifyByNuma_symm (snap : TopologySnapshot) (a b : TopologyNodeId)
    (na nb : TopologyNode) : ∀ᶠ fuel in atTop,
      classifyByNuma fuel snap na nb a b = classifyByNuma fuel snap nb na b a := by
  obtain ⟨ma, hma⟩ := @rootAncestor_finishes snap a .machine
  obtain ⟨mb, hmb⟩ := @rootAncestor_finishes snap b .machine
  filter_upwards [hma, hmb] with fuel hma hmb
  unfold classifyByNuma
  cases na.native.numaNode <;> cases nb.native.numaNode
  case some.some x y => simp only [eq_comm]
  all_goals simp only [hma, hmb, Outcome.ok_bind, commonRoot_comm mb]

theorem classifyPath_symm (hd : snap.NoDanglingEdges) (ha : snap.Present a)
    (hb : snap.Present b) :
    ∀ᶠ fuel in atTop, classifyPath fuel snap a b = classifyPath fuel snap b a := by
  obtain ⟨na, -, hna⟩ := ha.exists_node
  obtain ⟨nb, -, hnb⟩ := hb.exists_node
  obtain ⟨ra, hra⟩ := @rootAncestor_finishes snap a .pciRoot
  obtain ⟨rb, hrb⟩ := @rootAncestor_finishes snap b .pciRoot
  filter_upwards [hra, hrb, classifyByNuma_symm snap a b na nb] with fuel hra hrb hnuma
  by_cases hne : a = b
  · rw [hne]
  · -- the tests that name the two sides apart come in pairs joined by a disjunction
    simp only [classifyPath, if_neg hne, if_neg (Ne.symm hne), hna, hnb, hra, hrb,
      Outcome.ok_bind, hnuma, @commonBridge_symm snap b a hd, commonRoot_comm rb,
      Bool.and_comm (decide (nb.type = .accelerator)), Bool.and_comm (isCpu nb.type),
      Bool.and_comm (isPciEndpoint nb),
      Bool.and_comm (decide (na.type = .accelerator)) (isHost nb.type),
      Bool.or_comm (isHost nb.type && decide (na.type = .accelerator)),
      Bool.or_comm (isHost nb.type && decide (na.type = .storageDevice)),
      Bool.or_comm (isHost nb.type && decide (na.type = .networkInterface))]

/-- **Path relations are symmetric.** On a snapshot without dangling edges the searches in the two
directions agree on whether there is a path and on its hops, and both classifications return the
same class. -/
theorem pathRelations_symm (fl : Rounding) (hd : snap.NoDanglingEdges) (ha : snap.Present a)
    (hb : snap.Present b) :
    (∀ inCollocation, ∃ p q,
      Returns (fun fuel => shortestPath fl fuel snap a b inCollocation) p ∧
        Returns (fun fuel => shortestPath fl fuel snap b a inCollocation) q ∧
        p.found = q.found ∧ p.hopCount = q.hopCount) ∧
    (∃ c, Returns (fun fuel => localityBetween fuel snap a b) c ∧
      Returns (fun fuel => localityBetween fuel snap b a) c) ∧
    ∃ c, Returns (fun fuel => classifyPath fuel snap a b) c ∧
      Returns (fun fuel => classifyPath fuel snap b a) c := by
  refine ⟨fun inCollocation => ?_, ?_, ?_⟩
  · obtain ⟨p, hp, hhops⟩ := shortestPath_hops fl hd ha hb inCollocation
    obtain ⟨q, hq, hhops'⟩ := shortestPath_hops fl hd hb ha inCollocation
    exact ⟨p, q, hp, hq, hhops.symm hhops'⟩
  · -- a call that finishes has the answer of the call with the ends exchanged
    obtain ⟨c, hc⟩ := localityBetween_finishes fun _ => ⟨ha, hb⟩
    refine ⟨c, hc, ?_⟩
    filter_upwards [hc, localityBetween_symm ha hb] with fuel hc hsymm
    rw [← hsymm, hc]
  · obtain ⟨c, hc⟩ := classifyPath_finishes (fun _ => ⟨ha, hb⟩) fun _ =>
      hd.parents_present a .contains
    refine ⟨c, hc, ?_⟩
    filter_upwards [hc, classifyPath_symm hd ha hb] with fuel hc hsymm
    rw [← hsymm, hc]

end Classes

/-- The relations of two joined nodes. -/
theorem pathRelations_symm_pair :
    (∀ inCollocation, ∃ p q,
      Returns (fun fuel => shortestPath binary64 fuel pairSnapshot ⟨0, 1⟩ ⟨0, 2⟩ inCollocation) p ∧
        Returns (fun fuel => shortestPath binary64 fuel pairSnapshot ⟨0, 2⟩ ⟨0, 1⟩ inCollocation)
          q ∧
        p.found = q.found ∧ p.hopCount = q.hopCount) ∧
    (∃ c, Returns (fun fuel => localityBetween fuel pairSnapshot ⟨0, 1⟩ ⟨0, 2⟩) c ∧
      Returns (fun fuel => localityBetween fuel pairSnapshot ⟨0, 2⟩ ⟨0, 1⟩) c) ∧
    ∃ c, Returns (fun fuel => classifyPath fuel pairSnapshot ⟨0, 1⟩ ⟨0, 2⟩) c ∧
      Returns (fun fuel => classifyPath fuel pairSnapshot ⟨0, 2⟩ ⟨0, 1⟩) c :=
  pathRelations_symm binary64 (by decide) (by decide) (by decide)

end TopologyFabric

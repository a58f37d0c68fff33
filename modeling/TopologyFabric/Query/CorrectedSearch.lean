import TopologyFabric.Library.LabelCorrecting
import TopologyFabric.Query.CostSearch

/-!
# The Cost Search with Negative Costs

The weights and the latencies may make hops cost less than nothing, and edges may lead to nodes that
the snapshot does not hold. Then the search of `lowest_cost_path` corrects the distances of nodes that
it has passed, and it looks up the nodes behind every node that it expands. What this does to the
query depends on which walks the way to the destination overtakes. It is the same in every arithmetic
whose sums are ordered.

## Main results

- `lowestCostPath_answers_of_overtaken`: the query answers when the traps and the walks to missing
  nodes are overtaken
- `overtaken_or_searchFollows`: a query that returns has overtaken a walk or followed it to its end
- `joined_of_lowestCostPath`: a path that is found joins its ends, with costs of any sign
-/

namespace TopologyFabric

open Library LabelCorrecting

/-! ## Runs of the search -/

/-- The search of the query takes the node off the queue at the distance. -/
def SearchTakesOff (fl : Rounding) (snap : TopologySnapshot) (w : CostWeights)
    (src dst x : TopologyNodeId) (d : Double) : Prop :=
  ∃ s rest, Relation.ReflTransGen (fun s s' => costStep fl snap w dst s = .ok (.inl s'))
    (costInit src) s ∧ s.pq = (d, x) :: rest

/-- The sum of the hop costs of a walk, in the order of the search. -/
def walkTotal (fl : Rounding) (snap : TopologySnapshot) (w : CostWeights) (Q : List EdgeHop) :
    Double :=
  Q.foldl (fun d hop => d.add fl (hopCost fl snap w hop.src hop.dst hop.via)) (.fin 0)

/-- The search takes every node of the walk off the queue, at no more than its total on the walk. -/
def SearchFollows (fl : Rounding) (snap : TopologySnapshot) (w : CostWeights)
    (src dst : TopologyNodeId) (Q : List EdgeHop) : Prop :=
  ∀ B, B <+: Q → ∃ d, d.le (walkTotal fl snap w B) = true ∧
    SearchTakesOff fl snap w src dst (walkEnd src B) d

/-- The end of the walk and the nodes that its usable records lead to are in the snapshot. -/
def EndKnown (snap : TopologySnapshot) (src : TopologyNodeId) (Q : List EdgeHop) : Prop :=
  ∀ p ∈ snap.links false (walkEnd src Q), snap.Present (walkEnd src Q) ∧ snap.Present p.1

/-- A walk to a node with a usable record of a missing node is overtaken, unless it passes the
destination. -/
def LookupsOvertaken {D : Type} [LinearOrder D] (snap : TopologySnapshot)
    (extend : D → TopologyNodeId → TopologyNodeId → ℕ → D) (start : D)
    (src dst : TopologyNodeId) : Prop :=
  ∀ Q, IsWalk (snap.links false) src Q (walkEnd src Q) → (∀ hop ∈ Q, hop.dst ≠ dst) →
    (∃ p ∈ snap.links false (walkEnd src Q), ¬ snap.Present p.1) →
    Overtaken (snap.links false) extend start src dst Q

section Search

variable {fl : Rounding} {snap : TopologySnapshot} {w : CostWeights} {D : Type} [LinearOrder D]
  {emb : D → Double} {extend : D → TopologyNodeId → TopologyNodeId → ℕ → D} {start : D}
  {src dst : TopologyNodeId}

theorem LinksStay.lookupsOvertaken (hstay : LinksStay snap) (hsrc : snap.Present src) :
    LookupsOvertaken snap extend start src dst := by
  rintro Q hwalk - ⟨p, hp, hmissing⟩
  have hend := (IsWalk.closed (fun x y f hx hmem => hstay x hx (y, f) hmem) hwalk hsrc).1
  exact absurd (hstay _ hend p hp) hmissing

/-- Where walks to missing nodes are overtaken, a walk that is not overtaken stays in the snapshot,
and so do the records of its end. -/
theorem endKnown_of_free (hsrc : snap.Present src)
    (hlookups : LookupsOvertaken snap extend start src dst) {Q : List EdgeHop}
    (hwalk : IsWalk (snap.links false) src Q (walkEnd src Q)) (havoid : ∀ hop ∈ Q, hop.dst ≠ dst)
    (hfree : ¬ Overtaken (snap.links false) extend start src dst Q) : EndKnown snap src Q := by
  suffices hpresent : snap.Present (walkEnd src Q) by
    intro p hp
    refine ⟨hpresent, ?_⟩
    by_contra hmissing
    exact hfree (hlookups Q hwalk havoid ⟨p, hp, hmissing⟩)
  induction Q using List.reverseRecOn with
  | nil => exact hsrc
  | append_singleton Q hop ih =>
    obtain ⟨hinit, -, -, hmem⟩ := isWalk_snoc hwalk
    -- a shorter walk is overtaken no later than a longer one
    have hfree' : ¬ Overtaken (snap.links false) extend start src dst Q := by
      rintro ⟨A, B, P, hAB, hne, hBQ, hP⟩
      exact hfree ⟨A, B, P, hAB, hne, hBQ.trans (List.prefix_append ..), hP⟩
    by_contra hmissing
    exact hfree' (hlookups Q hinit (fun hop hhop => havoid hop (by simp [hhop]))
      ⟨_, hmem, hmissing⟩)

/-- The records of the source lead to nodes of the snapshot. -/
theorem LookupsOvertaken.endKnown_nil (h : LookupsOvertaken snap extend start src dst)
    (hsrc : snap.Present src) : EndKnown snap src [] :=
  endKnown_of_free hsrc h (.nil src) (by simp) not_overtaken_nil

/-- The CONTAINS parents of the source are ends of its records. -/
theorem EndKnown.parents_present (h : EndKnown snap src []) :
    ∀ x ∈ parents snap src .contains, snap.Present x := by
  intro x hx
  obtain ⟨i, hi⟩ := exists_link_of_parent hx
  exact (h (x, i) hi).2

/-- Queued nodes have distances. -/
theorem queued_of_runInv {P : List EdgeHop → Prop} {t : BestFirst.State TopologyNodeId ℕ D}
    (h : RunInv (snap.links false) extend start src dst P t) :
    BestFirst.Queued (fun _ => True) t := by
  intro q hq
  obtain ⟨label, popped, I, -⟩ := h
  obtain ⟨Q, hQ, -⟩ := I.queued q hq
  exact ⟨trivial, _, by rw [I.dist, hQ, Option.map_some]⟩

/-- Runs of the best-first search only look up nodes of the snapshot. -/
theorem LookupsOvertaken.supports (hmono : ∀ u v i, Monotone fun d => extend d u v i)
    (hsrc : snap.Present src) (hlookups : LookupsOvertaken snap extend start src dst) :
    Supports snap extend dst
      (RunInv (snap.links false) extend start src dst (EndKnown snap src)) where
  known t ht d u rest hpq hdst hnew := by
    obtain ⟨Q, hQ, rfl, -⟩ := ht.expands hmono hpq hdst hnew
    exact endKnown_of_free hsrc hlookups hQ.walk hQ.avoids hQ.free
  queued t ht := queued_of_runInv ht
  step t t' ht hstep := ht.step hmono hstep
    fun Q hQ => endKnown_of_free hsrc hlookups hQ.walk hQ.avoids hQ.free

section Query

variable (hemb : KeepsOrder emb) (hextend : AddsHopCost fl snap w emb extend)
  (hstart : emb start = .fin 0) (hmono : ∀ u v i, Monotone fun d => extend d u v i)
  (hsrc : snap.Present src) (hdst : snap.Present dst) (hne : src ≠ dst)

include hemb hextend hstart hmono hsrc hdst hne

/-- **The query answers** between two nodes when the walks to missing nodes are overtaken, and of the
walks that a trap is put together from one is overtaken. -/
theorem lowestCostPath_answers_of_overtaken
    (hlookups : LookupsOvertaken snap extend start src dst)
    (hover : TrapsOvertaken (snap.links false) extend start src dst) :
    ∃ p, Returns (fun fuel => lowestCostPath fl fuel snap src dst w) p ∧
      PathAnswer snap false src dst p := by
  have hknown : ∀ (s : BestFirst.State TopologyNodeId ℕ D) Q,
      Expands (snap.links false) extend start src dst s Q → EndKnown snap src Q :=
    fun s Q hQ => endKnown_of_free hsrc hlookups hQ.walk hQ.avoids hQ.free
  obtain ⟨⟨found, t⟩, ⟨hfound, hnone⟩, hret⟩ := labelCorrecting_returns (ε := Exception)
    (snap.links false) extend start src dst hmono hover snap.endpoints
    (fun u p hp => (mem_endpoints_of_link hp).1) hknown
  have hsearch := costSearch_returns hemb hextend (hlookups.supports hmono hsrc) hstart runInv_init
    hret
  cases found with
  | false =>
    refine ⟨_, lowestCostPath_notFound hsrc hdst hne hsearch, rfl, rfl, ?_, by simp⟩
    refine ⟨fun h => absurd h Bool.false_ne_true, fun hjoined => ?_⟩
    obtain ⟨-, -, hops, hroute⟩ := hjoined
    exact absurd (isRoute_iff_isWalk.mp hroute) (hnone rfl hops)
  | true =>
    obtain ⟨hops, hchain, hwalk, hsources⟩ := hfound rfl
    have hroute := isRoute_iff_isWalk.mpr hwalk
    -- every hop starts at a node that was expanded, so its record was looked up
    have hhops : ∀ hop ∈ hops, HopKnown snap hop := by
      intro hop hhop
      obtain ⟨A, hA, hend⟩ := hsources hop hhop
      obtain ⟨e, he, -⟩ := hroute.edge_of_mem hop hhop
      have hmem := hwalk.mem_adj hop hhop
      rw [← hend] at hmem
      obtain ⟨hs, ht⟩ := hA _ hmem
      exact ⟨hend ▸ hs, ht, e, he⟩
    obtain ⟨p, hp, hfound, hsource, hdestination, hsegs, -⟩ :=
      lowestCostPath_found hsrc hdst hne hsearch hchain hhops
        (hlookups.endKnown_nil hsrc).parents_present
    refine ⟨p, hp, hsource, hdestination,
      ⟨fun _ => ⟨hsrc, hdst, hops, hroute⟩, fun _ => hfound⟩, fun seg hseg => ?_⟩
    rw [hsegs] at hseg
    obtain ⟨hop, hhop, rfl⟩ := List.mem_map.mp hseg
    exact hhops hop hhop

end Query

/-! ## Queries that return -/

/-- What a run of the query has done at the beginning of a round: its state embeds one of the
best-first search, and the ends of the walks that were expanded there were taken off the queue and
looked up. -/
structure Searched (fl : Rounding) (snap : TopologySnapshot) (w : CostWeights) (emb : D → Double)
    (extend : D → TopologyNodeId → TopologyNodeId → ℕ → D) (start : D) (src dst : TopologyNodeId)
    (t : BestFirst.State TopologyNodeId ℕ D) : Prop where
  reached : Relation.ReflTransGen (fun s s' => costStep fl snap w dst s = .ok (.inl s'))
    (costInit src) (.ofSearch emb t)
  followed : RunInv (snap.links false) extend start src dst (fun A => EndKnown snap src A ∧
    SearchTakesOff fl snap w src dst (walkEnd src A) (emb (BestFirst.walkValue extend start A))) t

section Returned

variable (hemb : KeepsOrder emb) (hextend : AddsHopCost fl snap w emb extend)
  (hstart : emb start = .fin 0) (hmono : ∀ u v i, Monotone fun d => extend d u v i)

omit [LinearOrder D] in
include hextend hstart in
/-- The value of a walk is the sum of its hop costs. -/
theorem emb_walkValue {Q : List EdgeHop} {x : TopologyNodeId}
    (h : IsWalk (snap.links false) src Q x) :
    emb (BestFirst.walkValue extend start Q) = walkTotal fl snap w Q := by
  induction Q using List.reverseRecOn generalizing x with
  | nil => exact hstart
  | append_singleton Q hop ih =>
    obtain ⟨hinit, hsrc, hend, hmem⟩ := isWalk_snoc h
    rw [← hsrc, ← hend] at hmem
    rw [BestFirst.walkValue_snoc, hextend hop.src (hop.dst, hop.via) hmem, ih hinit, walkTotal,
      walkTotal, List.foldl_append]
    rfl

include hemb hextend hmono

/-- A round of the query that succeeds is one of the best-first search, and it looks up the nodes of
the walk whose end it expands. -/
theorem Searched.round {t : BestFirst.State TopologyNodeId ℕ D}
    (h : Searched fl snap w emb extend start src dst t) {r : CostSearch ⊕ (Bool × CostSearch)}
    (hround : costStep fl snap w dst (.ofSearch emb t) = .ok r) :
    r = (BestFirst.step (snap.links false) extend dst t).map (CostSearch.ofSearch emb)
        (Prod.map id (CostSearch.ofSearch emb)) ∧
      ∀ t', BestFirst.step (snap.links false) extend dst t = .inl t' →
        Searched fl snap w emb extend start src dst t' := by
  have hqueued := queued_of_runInv h.followed
  have hknown := roundKnown_of_costStep hemb hround hqueued
  rw [costStep_ofSearch hemb hextend hknown hqueued] at hround
  refine ⟨(Outcome.ok.inj hround).symm, fun t' hstep => ?_⟩
  refine ⟨h.reached.tail ?_, h.followed.step hmono hstep fun Q hQ => ?_⟩
  · rw [costStep_ofSearch hemb hextend hknown hqueued, hstep]
    rfl
  · obtain ⟨rest, hpq⟩ := hQ.top
    have hhead : (CostSearch.ofSearch emb t).pq =
        (emb (BestFirst.walkValue extend start Q), walkEnd src Q) ::
          rest.map fun q => (emb (ofLex q).1, (ofLex q).2) := by
      simp [CostSearch.ofSearch, hpq, entry]
    exact ⟨hknown _ _ rest hpq hQ.goes hQ.current, _, _, h.reached, hhead⟩

variable (hsrc : snap.Present src) (hdst : snap.Present dst) (hne : src ≠ dst)

include hstart hsrc hdst hne

/-- A query that returns has run the search to the end. -/
theorem exists_searched {fuel : ℕ} {p : TopologyPath}
    (h : lowestCostPath fl fuel snap src dst w = .ok p) :
    ∃ t found t', Searched fl snap w emb extend start src dst t ∧
      BestFirst.step (snap.links false) extend dst t = .inr (found, t') ∧ p.found = found := by
  rw [lowestCostPath_eq hsrc hdst hne] at h
  obtain ⟨⟨found, s⟩, hsearch, hrest⟩ := Outcome.bind_eq_ok.mp h
  have hfound : p.found = found := by
    cases found with
    | false => exact Outcome.ok.inj hrest ▸ rfl
    | true =>
      obtain ⟨⟨total, segs⟩, -, hrest⟩ := Outcome.bind_eq_ok.mp hrest
      obtain ⟨a, -, hrest⟩ := Outcome.bind_eq_ok.mp hrest
      obtain ⟨b, -, hrest⟩ := Outcome.bind_eq_ok.mp hrest
      exact (fillPath_ok hrest).found
  -- every round keeps what is known of the run, up to the one that stops it
  have hrun : ∀ n s, (∃ t, s = .ofSearch emb t ∧ Searched fl snap w emb extend start src dst t) →
      ∀ r, loop (costStep fl snap w dst) n s = .ok r →
        ∃ t t', Searched fl snap w emb extend start src dst t ∧
          BestFirst.step (snap.links false) extend dst t = .inr (r.1, t') := by
    refine loop_partial ?_ ?_
    · rintro _ ⟨t, rfl, ht⟩ s' hround
      obtain ⟨hr, hnext⟩ := ht.round hemb hextend hmono hround
      cases hstep : BestFirst.step (snap.links false) extend dst t with
      | inl t' =>
        rw [hstep] at hr
        exact ⟨t', Sum.inl.inj hr, hnext t' hstep⟩
      | inr r => simp [hstep] at hr
    · rintro _ ⟨t, rfl, ht⟩ r hround
      obtain ⟨hr, -⟩ := ht.round hemb hextend hmono hround
      cases hstep : BestFirst.step (snap.links false) extend dst t with
      | inl t' => simp [hstep] at hr
      | inr r' =>
        rw [hstep] at hr
        exact ⟨t, r'.2, ht, by rw [hstep, Sum.inr.inj hr]; rfl⟩
  have hinit := costInit_ofSearch hstart src
  obtain ⟨t, t', ht, hstep⟩ := hrun fuel (costInit src)
    ⟨BestFirst.init start src, hinit, ⟨hinit ▸ .refl, runInv_init⟩⟩ _ hsearch
  exact ⟨t, found, t', ht, hstep, hfound⟩

/-- A path that is found joins its ends. -/
theorem joined_of_lowestCostPath {fuel : ℕ} {p : TopologyPath}
    (h : lowestCostPath fl fuel snap src dst w = .ok p) (hfound : p.found = true) :
    Joined snap false src dst := by
  obtain ⟨t, found, t', ht, hstep, rfl⟩ :=
    exists_searched hemb hextend hstart hmono hsrc hdst hne h
  rw [hfound] at hstep
  obtain ⟨hops, hwalk⟩ := ht.followed.reached hstep
  exact ⟨hsrc, hdst, hops, isRoute_iff_isWalk.mpr hwalk⟩

/-- **What a query that returns has done with a walk** that avoids the destination: the walk is
overtaken, or the search has followed it to its end and looked up the nodes there. -/
theorem overtaken_or_searchFollows {fuel : ℕ} {p : TopologyPath}
    (h : lowestCostPath fl fuel snap src dst w = .ok p) {Q : List EdgeHop}
    (hwalk : IsWalk (snap.links false) src Q (walkEnd src Q)) (havoid : ∀ hop ∈ Q, hop.dst ≠ dst) :
    Overtaken (snap.links false) extend start src dst Q ∨
      EndKnown snap src Q ∧ SearchFollows fl snap w src dst Q := by
  obtain ⟨t, found, t', ht, hstep, -⟩ := exists_searched hemb hextend hstart hmono hsrc hdst hne h
  refine (ht.followed.overtaken_or_passed hmono hne hstep hwalk havoid).imp id fun hpassed => ?_
  constructor
  · obtain ⟨A, ⟨hA, -⟩, hend, -⟩ := hpassed Q List.prefix_rfl
    unfold EndKnown at hA ⊢
    rwa [hend] at hA
  · intro B hB
    obtain ⟨C, rfl⟩ := hB
    obtain ⟨A, ⟨-, hA⟩, hend, hle⟩ := hpassed B (List.prefix_append ..)
    refine ⟨_, ?_, hend ▸ hA⟩
    rw [← emb_walkValue hextend hstart (isWalk_append hwalk).1, hemb]
    exact decide_eq_true hle

end Returned

end Search

end TopologyFabric

import TopologyFabric.Query.ShortestPath
import TopologyFabric.Library.BestFirst

/-!
# The Rounds of the Cost Search

Where the records of a node lead to nodes of the snapshot, scanning them does not throw and is a
pure fold. Then the search of `lowest_cost_path` refines best-first search: when the distances are
embedded values of some linear order and a hop leads to an embedded value again, the states of the
query are the embedded states of that search, round by round. This holds in every arithmetic.

## Main results

- `costScan_eq`: scanning the records of a node is a fold of `costRelax`
- `costSearch_returns`: the search loop returns what the best-first search returns
- `costBack_returns`: following a parent chain back yields its segments and their total
-/

namespace TopologyFabric

open Library Filter

/-- The cost of a hop between nodes of the snapshot. -/
def hopCost (fl : Rounding) (snap : TopologySnapshot) (w : CostWeights)
    (a b : TopologyNodeId) (i : ℕ) : Double :=
  match snap.findNode a, snap.findNode b, snap.edges[i]? with
  | some u, some v, some e => edgeTraversalCost fl u v e w
  | _, _, _ => .fin 0

/-- The effect of a usable record on the search, when its lookups succeed. -/
def costRelax (fl : Rounding) (snap : TopologySnapshot) (w : CostWeights) (u : TopologyNodeId)
    (d : Double) (s : CostSearch) (p : TopologyNodeId × ℕ) : CostSearch :=
  let nd := d.add fl (hopCost fl snap w u p.1 p.2)
  if (s.dist p.1).all fun old => nd.lt old then
    { dist := Function.update s.dist p.1 (some nd)
      parent := Function.update s.parent p.1 (some u)
      cameEdge := Function.update s.cameEdge p.1 (some p.2)
      pq := pqPush (nd, p.1) s.pq }
  else s

/-- The segment for a hop, with its cost. -/
def costSegment (fl : Rounding) (snap : TopologySnapshot) (w : CostWeights) (hop : EdgeHop) :
    PathSegment :=
  { hopSegment snap hop with edgeCost := hopCost fl snap w hop.src hop.dst hop.via }

/-- The hop can be looked up: both nodes are present and the edge exists. -/
def HopKnown (snap : TopologySnapshot) (hop : EdgeHop) : Prop :=
  snap.Present hop.src ∧ snap.Present hop.dst ∧ ∃ e, snap.edges[hop.via]? = some e

section Rounds

variable {fl : Rounding} {snap : TopologySnapshot} {w : CostWeights}

theorem hopCost_eq {a b : TopologyNodeId} {i : ℕ} {u v : TopologyNode} {e : TopologyEdge}
    (hu : snap.findNode a = some u) (hv : snap.findNode b = some v)
    (he : snap.edges[i]? = some e) : hopCost fl snap w a b i = edgeTraversalCost fl u v e w := by
  simp only [hopCost, hu, hv, he]

theorem present_of_node {id : TopologyNodeId} {n : TopologyNode} (h : snap.node id = .ok n) :
    snap.Present id :=
  Option.isSome_iff_exists.mpr ⟨n, TopologySnapshot.node_eq_ok.mp h⟩

theorem hopCost_isFinite (a b : TopologyNodeId) (i : ℕ) :
    (hopCost fl snap w a b i).IsFinite := by
  unfold hopCost
  split
  · exact edgeTraversalCost_isFinite ..
  · exact ⟨rfl, rfl⟩

theorem costVisit_eq {u : TopologyNodeId} {ref : EdgeRef} (href : ref ∈ snap.adjacency u)
    (hpresent : snap.follows false ref = true → snap.Present u ∧ snap.Present ref.neighbor)
    (d : Double) (s : CostSearch) :
    costVisit fl snap w u d s ref = .ok (if snap.follows false ref then
      costRelax fl snap w u d s (ref.neighbor, ref.edgeIndex) else s) := by
  unfold costVisit
  rw [traverseEdge_eq href, Outcome.ok_bind]
  cases hf : snap.follows false ref with
  | false => rfl
  | true =>
    obtain ⟨hu, hv⟩ := hpresent hf
    obtain ⟨e, he, hget⟩ := TopologySnapshot.edge_of_mem_adjacency href
    obtain ⟨un, hun, hun'⟩ := hu.exists_node
    obtain ⟨vn, hvn, hvn'⟩ := hv.exists_node
    simp only [he, hun', hvn', Outcome.ok_bind, costRelax, hopCost_eq hun hvn hget]
    simp only [Bool.not_true, Bool.false_eq_true, if_false, if_true]
    split <;> rfl

/-- Looking at a usable record looks up both its ends. -/
theorem present_of_visit {u : TopologyNodeId} {d : Double} {s s' : CostSearch} {ref : EdgeRef}
    (href : ref ∈ snap.adjacency u) (hfollows : snap.follows false ref = true)
    (h : costVisit fl snap w u d s ref = .ok s') :
    snap.Present u ∧ snap.Present ref.neighbor := by
  unfold costVisit at h
  rw [traverseEdge_eq href, Outcome.ok_bind, hfollows] at h
  simp only [Bool.not_true, Bool.false_eq_true, if_false] at h
  obtain ⟨e, -, h⟩ := Outcome.bind_eq_ok.mp h
  obtain ⟨un, hun, h⟩ := Outcome.bind_eq_ok.mp h
  obtain ⟨vn, hvn, -⟩ := Outcome.bind_eq_ok.mp h
  exact ⟨present_of_node hun, present_of_node hvn⟩

/-- Scanning the records of a node whose usable records stay in the snapshot. -/
theorem costScan_eq {u : TopologyNodeId}
    (hpresent : ∀ p ∈ snap.links false u, snap.Present u ∧ snap.Present p.1)
    (d : Double) (s : CostSearch) :
    (snap.adjacency u).foldlM (costVisit fl snap w u d) s =
      .ok ((snap.links false u).foldl (costRelax fl snap w u d) s) := by
  rw [foldl_links]
  refine Outcome.foldlM_ok (P := fun ref => ref ∈ snap.adjacency u) ?_ _ _ fun ref h => h
  intro s ref href
  refine costVisit_eq href (fun hf => ?_) d s
  exact hpresent (ref.neighbor, ref.edgeIndex)
    (List.mem_map.mpr ⟨ref, List.mem_filter.mpr ⟨href, hf⟩, rfl⟩)

end Rounds

/-! ## Refinement of best-first search -/

/-- A state of the best-first search as a state of the query. -/
def CostSearch.ofSearch {D : Type} (emb : D → Double)
    (t : BestFirst.State TopologyNodeId ℕ D) : CostSearch where
  pq := t.pq.map fun q => (emb (ofLex q).1, (ofLex q).2)
  dist := fun v => (t.dist v).map emb
  parent := t.parent
  cameEdge := t.via

/-- The usable records of every node of the snapshot stay in it. -/
def LinksStay (snap : TopologySnapshot) : Prop :=
  ∀ u, snap.Present u → ∀ p ∈ snap.links false u, snap.Present p.1

theorem TopologySnapshot.NoDanglingEdges.linksStay {snap : TopologySnapshot}
    (hd : snap.NoDanglingEdges) : LinksStay snap := by
  intro u _ p hp
  obtain ⟨e, he, _, hj⟩ := mem_links.mp hp
  exact (hd.joins he hj).2

/-- The value that a hop leads to is the embedded distance plus the cost of the hop. -/
def AddsHopCost {D : Type} (fl : Rounding) (snap : TopologySnapshot) (w : CostWeights)
    (emb : D → Double) (extend : D → TopologyNodeId → TopologyNodeId → ℕ → D) : Prop :=
  ∀ u, ∀ p ∈ snap.links false u, ∀ d,
    emb (extend d u p.1 p.2) = (emb d).add fl (hopCost fl snap w u p.1 p.2)

/-- The embedding keeps the order of the values. -/
def KeepsOrder {D : Type} [LinearOrder D] (emb : D → Double) : Prop :=
  ∀ a b, (emb a).le (emb b) = decide (a ≤ b)

theorem KeepsOrder.lt {D : Type} [LinearOrder D] {emb : D → Double} (hemb : KeepsOrder emb)
    (a b : D) : (emb a).lt (emb b) = decide (a < b) := by
  -- values that are below themselves have ranks
  obtain ⟨x, -, hx, -⟩ := Double.le_eq_true.mp ((hemb a a).trans (decide_eq_true le_rfl))
  obtain ⟨y, -, hy, -⟩ := Double.le_eq_true.mp ((hemb b b).trans (decide_eq_true le_rfl))
  have hle := hemb b a
  simp only [Double.le, Double.lt, hx, hy, decide_eq_decide] at hle ⊢
  rw [← not_le, hle, not_le]

/-- The round looks up nodes of the snapshot only: the node that it expands and the ends of its usable
records. -/
def RoundKnown {D : Type} [LinearOrder D] (snap : TopologySnapshot) (dst : TopologyNodeId)
    (t : BestFirst.State TopologyNodeId ℕ D) : Prop :=
  ∀ d u rest, t.pq = toLex (d, u) :: rest → u ≠ dst → (¬ (t.dist u).any fun old => old < d) →
    ∀ p ∈ snap.links false u, snap.Present u ∧ snap.Present p.1

/-- An invariant of the best-first search under which all rounds look up nodes of the snapshot. -/
structure Supports {D : Type} [LinearOrder D] (snap : TopologySnapshot)
    (extend : D → TopologyNodeId → TopologyNodeId → ℕ → D) (dst : TopologyNodeId)
    (J : BestFirst.State TopologyNodeId ℕ D → Prop) : Prop where
  known : ∀ t, J t → RoundKnown snap dst t
  queued : ∀ t, J t → BestFirst.Queued (fun _ => True) t
  step : ∀ t t', J t → BestFirst.step (snap.links false) extend dst t = .inl t' → J t'

theorem LinksStay.supports {D : Type} [LinearOrder D] {snap : TopologySnapshot}
    (hstay : LinksStay snap) (extend : D → TopologyNodeId → TopologyNodeId → ℕ → D)
    (dst : TopologyNodeId) : Supports snap extend dst (BestFirst.Queued snap.Present) where
  known t ht d u rest hpq _ _ p hp := by
    have hu : snap.Present u := (ht (toLex (d, u)) (by rw [hpq]; exact List.mem_cons_self ..)).1
    exact ⟨hu, hstay u hu p hp⟩
  queued t ht q hq := ⟨trivial, (ht q hq).2⟩
  step t t' ht hstep := ht.step hstay hstep

section Refinement

variable {fl : Rounding} {snap : TopologySnapshot} {w : CostWeights} {D : Type} [LinearOrder D]
  {emb : D → Double} {extend : D → TopologyNodeId → TopologyNodeId → ℕ → D}

private theorem entryLess_emb (hemb : KeepsOrder emb) (p q : D × TopologyNodeId) :
    entryLess (emb p.1, p.2) (emb q.1, q.2) = true ↔ ¬ (toLex q ≤ toLex p) := by
  rw [not_le, Prod.Lex.toLex_lt_toLex']
  simp only [entryLess, hemb.lt p.1 q.1, hemb.lt q.1 p.1, Bool.or_eq_true, Bool.and_eq_true,
    Bool.not_eq_true', decide_eq_true_eq, decide_eq_false_iff_not, not_lt]
  constructor
  · rintro (h | ⟨h1, h2⟩)
    · exact ⟨h.le, fun heq => absurd heq h.ne⟩
    · exact ⟨h1, fun _ => h2⟩
  · rintro ⟨h1, h2⟩
    rcases h1.lt_or_eq with h | h
    · exact Or.inl h
    · exact Or.inr ⟨h.le, h2 h⟩

theorem pqPush_emb (hemb : KeepsOrder emb) (x : D ×ₗ TopologyNodeId)
    (l : List (D ×ₗ TopologyNodeId)) :
    pqPush (emb (ofLex x).1, (ofLex x).2) (l.map fun q => (emb (ofLex q).1, (ofLex q).2)) =
      (l.orderedInsert (· ≤ ·) x).map fun q => (emb (ofLex q).1, (ofLex q).2) := by
  induction l with
  | nil => rfl
  | cons y l ih =>
    have hless := entryLess_emb hemb (ofLex y) (ofLex x)
    simp only [toLex_ofLex] at hless
    simp only [List.map_cons, pqPush, List.orderedInsert_cons]
    by_cases hle : x ≤ y
    · rw [if_pos hle, if_neg (by rw [hless]; exact not_not.mpr hle)]
      rfl
    · rw [if_neg hle, if_pos (hless.mpr hle), ih]
      rfl

theorem costRelax_ofSearch (hemb : KeepsOrder emb) {u : TopologyNodeId} {d : D}
    {p : TopologyNodeId × ℕ}
    (hextend : emb (extend d u p.1 p.2) = (emb d).add fl (hopCost fl snap w u p.1 p.2))
    (t : BestFirst.State TopologyNodeId ℕ D) :
    costRelax fl snap w u (emb d) (.ofSearch emb t) p =
      .ofSearch emb (BestFirst.relax extend u d t p) := by
  -- the embedding keeps the order, so both searches take the step or neither does
  have hguard : ((t.dist p.1).map emb).all
        (fun old => (emb (extend d u p.1 p.2)).lt old) =
      (t.dist p.1).all fun old => decide (extend d u p.1 p.2 < old) := by
    cases t.dist p.1 with
    | none => rfl
    | some old => exact hemb.lt _ _
  unfold costRelax BestFirst.relax
  simp only [← hextend, CostSearch.ofSearch, hguard]
  split
  · congr 1
    · exact pqPush_emb hemb (toLex (_, p.1)) t.pq
    · funext v
      by_cases hv : v = p.1
      · subst hv
        simp
      · simp [Function.update_of_ne hv]
  · rfl

theorem costRelax_foldl_ofSearch (hemb : KeepsOrder emb) {u : TopologyNodeId} {d : D}
    {l : List (TopologyNodeId × ℕ)} (hextend : ∀ p ∈ l,
      emb (extend d u p.1 p.2) = (emb d).add fl (hopCost fl snap w u p.1 p.2))
    (t : BestFirst.State TopologyNodeId ℕ D) :
    l.foldl (costRelax fl snap w u (emb d)) (.ofSearch emb t) =
      .ofSearch emb (l.foldl (BestFirst.relax extend u d) t) := by
  induction l generalizing t with
  | nil => rfl
  | cons p l ih =>
    rw [List.forall_mem_cons] at hextend
    rw [List.foldl_cons, List.foldl_cons, costRelax_ofSearch hemb hextend.1, ih hextend.2]

/-- A round of the query from an embedded state with a queued entry. -/
theorem costStep_cons (hemb : KeepsOrder emb) {dst u : TopologyNodeId} {d du : D}
    {rest : List (D ×ₗ TopologyNodeId)} {t : BestFirst.State TopologyNodeId ℕ D}
    (hpq : t.pq = toLex (d, u) :: rest) (hdu : t.dist u = some du) :
    costStep fl snap w dst (.ofSearch emb t) =
      if u = dst then .ok (.inr (true, .ofSearch emb { t with pq := rest }))
      else if du < d then .ok (.inl (.ofSearch emb { t with pq := rest }))
      else (snap.adjacency u).foldlM (costVisit fl snap w u (emb d))
        (.ofSearch emb { t with pq := rest }) >>= fun s => pure (.inl s) := by
  have hrest : ({ CostSearch.ofSearch emb t with
      pq := rest.map fun q => (emb (ofLex q).1, (ofLex q).2) } : CostSearch) =
    .ofSearch emb { t with pq := rest } := rfl
  have hpq' : (CostSearch.ofSearch emb t).pq =
      (emb d, u) :: rest.map fun q => (emb (ofLex q).1, (ofLex q).2) := by
    simp [CostSearch.ofSearch, hpq]
  have hdist : ((CostSearch.ofSearch emb t).dist u).getD (.fin 0) = emb du := by
    simp [CostSearch.ofSearch, hdu]
  unfold costStep
  simp only [hpq', hdist, hrest, hemb.lt du d, decide_eq_true_eq]

/-- A round of the query from an embedded state is a round of best-first search, if it looks up nodes
of the snapshot only. -/
theorem costStep_ofSearch (hemb : KeepsOrder emb) (hextend : AddsHopCost fl snap w emb extend)
    {dst : TopologyNodeId} {t : BestFirst.State TopologyNodeId ℕ D}
    (hknown : RoundKnown snap dst t) (hq : BestFirst.Queued (fun _ => True) t) :
    costStep fl snap w dst (.ofSearch emb t) =
      .ok ((BestFirst.step (snap.links false) extend dst t).map (CostSearch.ofSearch emb)
        (Prod.map id (CostSearch.ofSearch emb))) := by
  cases hpq : t.pq with
  | nil =>
    rw [BestFirst.step_nil hpq]
    simp [costStep, CostSearch.ofSearch, hpq]
  | cons top rest =>
    obtain ⟨d, u, rfl⟩ : ∃ d u, top = toLex (d, u) := ⟨_, _, rfl⟩
    -- a queued node has a distance
    obtain ⟨-, du, hdu⟩ := hq (toLex (d, u)) (by rw [hpq]; exact List.mem_cons_self ..)
    have hdu' : t.dist u = some du := hdu
    rw [costStep_cons hemb hpq hdu']
    by_cases hdst : u = dst
    · subst hdst
      rw [BestFirst.step_target hpq, if_pos rfl]
      rfl
    · rw [if_neg hdst]
      by_cases hold : du < d
      · rw [BestFirst.step_skip hpq hdst (by simp [hdu', hold]), if_pos hold]
        rfl
      · have hnew : ¬ (t.dist u).any fun old => old < d := by simp [hdu', hold]
        rw [BestFirst.step_expand hpq hdst hnew, if_neg hold,
          costScan_eq (hknown d u rest hpq hdst hnew),
          costRelax_foldl_ofSearch hemb fun p hp => hextend u p hp d]
        rfl

/-- A round that succeeds has looked up nodes of the snapshot only. -/
theorem roundKnown_of_costStep (hemb : KeepsOrder emb) {dst : TopologyNodeId}
    {t : BestFirst.State TopologyNodeId ℕ D} {r : CostSearch ⊕ (Bool × CostSearch)}
    (h : costStep fl snap w dst (.ofSearch emb t) = .ok r)
    (hq : BestFirst.Queued (fun _ => True) t) : RoundKnown snap dst t := by
  intro d u rest hpq hdst hnew p hp
  obtain ⟨-, du, hdu⟩ := hq (toLex (d, u)) (by rw [hpq]; exact List.mem_cons_self ..)
  have hdu' : t.dist u = some du := hdu
  have hold : ¬ du < d := by simpa [hdu'] using hnew
  rw [costStep_cons hemb hpq hdu', if_neg hdst, if_neg hold] at h
  obtain ⟨s, hscan, -⟩ := Outcome.bind_eq_ok.mp h
  obtain ⟨ref, href, rfl⟩ := List.mem_map.mp hp
  obtain ⟨hadj, hfollows⟩ := List.mem_filter.mp href
  obtain ⟨c, c', hvisit⟩ := Outcome.step_of_foldlM hscan ref hadj
  exact present_of_visit hadj hfollows hvisit

omit [LinearOrder D] in
theorem costInit_ofSearch {start : D} (hstart : emb start = .fin 0) (src : TopologyNodeId) :
    costInit src = .ofSearch emb (BestFirst.init start src) := by
  unfold costInit CostSearch.ofSearch BestFirst.init
  congr 1
  · simp [hstart]
  · funext v
    by_cases hv : v = src
    · subst hv
      simp [hstart]
    · simp [Function.update_of_ne hv]

/-- A state of the search that embeds a state of the invariant. -/
def CostSearch.Embeds (emb : D → Double) (J : BestFirst.State TopologyNodeId ℕ D → Prop)
    (t : BestFirst.State TopologyNodeId ℕ D) (s : CostSearch) : Prop :=
  s = .ofSearch emb t ∧ J t

section Supported

variable {dst : TopologyNodeId} {J : BestFirst.State TopologyNodeId ℕ D → Prop}
  (hemb : KeepsOrder emb) (hextend : AddsHopCost fl snap w emb extend)
  (hJ : Supports snap extend dst J)

include hemb hextend hJ

/-- Going round again keeps the embedding. -/
theorem CostSearch.Embeds.round {t t' : BestFirst.State TopologyNodeId ℕ D} {s : CostSearch}
    (h : CostSearch.Embeds emb J t s)
    (hstep : (.ok (BestFirst.step (snap.links false) extend dst t) : Run _) = .ok (.inl t')) :
    ∃ s', costStep fl snap w dst s = .ok (.inl s') ∧ CostSearch.Embeds emb J t' s' := by
  obtain ⟨rfl, ht⟩ := h
  have hstep' := Outcome.ok.inj hstep
  refine ⟨.ofSearch emb t', ?_, rfl, hJ.step t t' ht hstep'⟩
  rw [costStep_ofSearch hemb hextend (hJ.known t ht) (hJ.queued t ht), hstep']
  rfl

/-- The search loop returns what the best-first search returns. -/
theorem costSearch_returns {start : D} (hstart : emb start = .fin 0) {src : TopologyNodeId}
    (hinit : J (BestFirst.init start src)) {found : Bool} {t : BestFirst.State TopologyNodeId ℕ D}
    (h : Returns (loop (fun t => (.ok (BestFirst.step (snap.links false) extend dst t) : Run _)) ·
      (BestFirst.init start src)) (found, t)) :
    Returns (loop (costStep fl snap w dst) · (costInit src)) (found, .ofSearch emb t) := by
  suffices hsim : ∃ r, r = Prod.map id (CostSearch.ofSearch emb) (found, t) ∧
      Returns (loop (costStep fl snap w dst) · (.ofSearch emb (BestFirst.init start src))) r by
    obtain ⟨_, rfl, hret⟩ := hsim
    rw [costInit_ofSearch hstart]
    exact hret
  -- a round of the search over the costs is a round of the search over their embedding
  refine h.simulate (R := CostSearch.Embeds emb J)
    (Q := fun r r' => r' = Prod.map id (CostSearch.ofSearch emb) r)
    (fun t s t' => CostSearch.Embeds.round hemb hextend hJ) ?_ ⟨rfl, hinit⟩
  rintro t _ r ⟨rfl, ht⟩ hstep
  have hstep' := Outcome.ok.inj hstep
  refine ⟨_, ?_, rfl⟩
  rw [costStep_ofSearch hemb hextend (hJ.known t ht) (hJ.queued t ht), hstep']
  rfl

/-- The search loop goes on for ever when the best-first search does. -/
theorem costSearch_diverges {start : D} (hstart : emb start = .fin 0) {src : TopologyNodeId}
    (hinit : J (BestFirst.init start src))
    (h : Diverges (loop (fun t => (.ok (BestFirst.step (snap.links false) extend dst t) : Run _)) ·
      (BestFirst.init start src))) :
    Diverges (loop (costStep fl snap w dst) · (costInit src)) := by
  rw [costInit_ofSearch hstart]
  exact h.simulate (R := CostSearch.Embeds emb J) (fun t => ⟨_, rfl⟩)
    (fun t s t' => CostSearch.Embeds.round hemb hextend hJ) ⟨rfl, hinit⟩

end Supported

end Refinement

section Back

variable {fl : Rounding} {snap : TopologySnapshot} {w : CostWeights}

theorem map_hop_costSegment (hops : List EdgeHop) :
    (hops.map (costSegment fl snap w)).map PathSegment.hop = hops := by
  rw [List.map_map]
  exact List.map_id' hops

/-- The total that following the hops back accumulates, starting from `total`. -/
def backTotal (fl : Rounding) (snap : TopologySnapshot) (w : CostWeights) (total : Double)
    (hops : List EdgeHop) : Double :=
  hops.foldr (fun hop t => t.add fl (hopCost fl snap w hop.src hop.dst hop.via)) total

/-- Following a parent chain back spells out its hops and sums their costs. -/
theorem costBack_returns {src v : TopologyNodeId} {s : CostSearch} {hops : List EdgeHop}
    (hchain : ParentChain s.parent s.cameEdge src hops v)
    (hknown : ∀ hop ∈ hops, HopKnown snap hop) (total : Double) (segs : List PathSegment) :
    Returns (loop (costBackStep fl snap w src s) · (v, total, segs))
      (backTotal fl snap w total hops, hops.map (costSegment fl snap w) ++ segs) := by
  induction hchain generalizing total segs with
  | root => exact Returns.loop_inr (by simp [costBackStep, backTotal])
  | @snoc hops u v i hchain hne hp hv ih =>
    obtain ⟨hu, hw, e, he⟩ := hknown ⟨u, v, i⟩ (by simp)
    obtain ⟨un, hun, hun'⟩ := hu.exists_node
    obtain ⟨vn, hvn, hvn'⟩ := hw.exists_node
    have hcost : hopCost fl snap w u v i = edgeTraversalCost fl un vn e w :=
      hopCost_eq hun hvn he
    -- one round walks back over the last hop
    have hstep : costBackStep fl snap w src s (v, total, segs) =
        .ok (.inl (u, total.add fl (hopCost fl snap w u v i),
          costSegment fl snap w ⟨u, v, i⟩ :: segs)) := by
      simp only at hun' hvn'
      simp [costBackStep, hne, hp, hv, TopologySnapshot.edge_eq_ok.mpr he, hun', hvn', costSegment,
        hopSegment, he, hcost]
    have hrest := ih (fun hop hhop => hknown hop (by simp [hhop]))
      (total.add fl (hopCost fl snap w u v i)) (costSegment fl snap w ⟨u, v, i⟩ :: segs)
    have htotal : backTotal fl snap w total (hops ++ [⟨u, v, i⟩]) =
        backTotal fl snap w (total.add fl (hopCost fl snap w u v i)) hops := by
      simp [backTotal]
    rw [htotal, List.map_append, List.append_assoc]
    exact hrest.loop_inl hstep

end Back

/-! ## The query after the search -/

section Query

variable {fl : Rounding} {snap : TopologySnapshot} {w : CostWeights} {src dst : TopologyNodeId}

/-- A CONTAINS parent is the end of a usable record. -/
theorem exists_link_of_parent {x : TopologyNodeId} (h : x ∈ parents snap src .contains) :
    ∃ i, (x, i) ∈ snap.links false src := by
  obtain ⟨e, he, htype, htarget, hsource⟩ := mem_parents.mp h
  obtain ⟨i, hi⟩ := List.getElem?_of_mem he
  have husable : e.Usable false := by
    intro h
    rw [htype] at h
    simp at h
  exact ⟨i, mem_links.mpr ⟨e, hi, husable, Or.inr ⟨hsource, htarget⟩⟩⟩

theorem LinksStay.parents_present (hstay : LinksStay snap) (hsrc : snap.Present src) :
    ∀ x ∈ parents snap src .contains, snap.Present x := by
  intro x hx
  obtain ⟨i, hi⟩ := exists_link_of_parent hx
  exact hstay src hsrc (x, i) hi

/-- Walks from a node of the snapshot stay in it. -/
theorem LinksStay.walk_present (hstay : LinksStay snap) (hsrc : snap.Present src)
    {hops : List EdgeHop} (h : IsWalk (snap.links false) src hops dst) :
    ∀ hop ∈ hops, snap.Present hop.src ∧ snap.Present hop.dst :=
  (IsWalk.closed (fun x y f hx hmem => hstay x hx (y, f) hmem) h hsrc).2

theorem LinksStay.enclosed (hstay : LinksStay snap) : Enclosed snap false src dst :=
  fun hsrc _ _ => ⟨fun _ hfirst => hstay.walk_present hsrc hfirst.isWalk,
    hstay.parents_present hsrc⟩

theorem LinksStay.hopKnown (hstay : LinksStay snap) (hsrc : snap.Present src)
    {hops : List EdgeHop} (h : IsWalk (snap.links false) src hops dst) :
    ∀ hop ∈ hops, HopKnown snap hop := by
  intro hop hhop
  obtain ⟨e, he, -⟩ := (isRoute_iff_isWalk.mpr h).edge_of_mem hop hhop
  obtain ⟨hs, ht⟩ := hstay.walk_present hsrc h hop hhop
  exact ⟨hs, ht, e, he⟩

/-- A path is found between nodes of the snapshot only. -/
theorem lowestCostPath_present {fuel : ℕ} {p : TopologyPath}
    (h : lowestCostPath fl fuel snap src dst w = .ok p) (hfound : p.found = true) :
    snap.Present src ∧ snap.Present dst := by
  by_contra hmissing
  rw [lowestCostPath, if_pos (missing_endpoint hmissing)] at h
  obtain rfl := Outcome.ok.inj h
  cases hfound

theorem lowestCostPath_self_ok {fuel : ℕ} {p : TopologyPath} (hsrc : snap.Present src)
    (h : lowestCostPath fl fuel snap src src w = .ok p) :
    p = { source := src, destination := src, found := true, hopCount := 0, locality := .exact
          pathClass := .sameObject, costPolicyVersion := w.version } := by
  obtain ⟨n, hn, -⟩ := hsrc.exists_node
  simp only [lowestCostPath, hn, Option.isNone_some, Bool.or_self, Bool.false_eq_true, if_false,
    if_true] at h
  exact (Outcome.ok.inj h).symm

theorem lowestCostPath_self (hsrc : snap.Present src) :
    Returns (fun fuel => lowestCostPath fl fuel snap src src w)
      { source := src, destination := src, found := true, hopCount := 0, locality := .exact
        pathClass := .sameObject, costPolicyVersion := w.version } := by
  obtain ⟨srcNode, hsrcNode, -⟩ := hsrc.exists_node
  exact Eventually.of_forall fun fuel => by simp [lowestCostPath, hsrcNode]

section Search

variable (hsrc : snap.Present src) (hdst : snap.Present dst) (hne : src ≠ dst)
include hsrc hdst hne

/-- Between two different nodes of the snapshot the query starts with the search. -/
theorem lowestCostPath_eq (fuel : ℕ) :
    lowestCostPath fl fuel snap src dst w = (do
      let (found, s) ← loop (costStep fl snap w dst) fuel (costInit src)
      if !found then return { source := src, destination := dst, reasons := [noPath] }
      let (total, segs) ← loop (costBackStep fl snap w src s) fuel (dst, .fin 0, [])
      let srcNode ← snap.node src
      let dstNode ← snap.node dst
      fillPath fl fuel snap
        { source := src, destination := dst, segments := segs, found := true
          totalCost :=
            if crossesNuma srcNode dstNode then total.add fl w.numaPenalty else total } w) := by
  obtain ⟨srcNode, hsrcNode, -⟩ := hsrc.exists_node
  obtain ⟨dstNode, hdstNode, -⟩ := hdst.exists_node
  simp [lowestCostPath, hsrcNode, hdstNode, hne]

theorem lowestCostPath_notFound {s : CostSearch}
    (hsearch : Returns (loop (costStep fl snap w dst) · (costInit src)) (false, s)) :
    Returns (fun fuel => lowestCostPath fl fuel snap src dst w)
      { source := src, destination := dst, reasons := [noPath] } := by
  filter_upwards [hsearch] with fuel hfuel
  rw [lowestCostPath_eq hsrc hdst hne, hfuel]
  rfl

/-- When the search ends with a parent chain whose hops can be looked up, the query returns them. -/
theorem lowestCostPath_found {s : CostSearch} {hops : List EdgeHop}
    (hsearch : Returns (loop (costStep fl snap w dst) · (costInit src)) (true, s))
    (hchain : ParentChain s.parent s.cameEdge src hops dst)
    (hknown : ∀ hop ∈ hops, HopKnown snap hop)
    (hparents : ∀ x ∈ parents snap src .contains, snap.Present x) :
    ∃ p, Returns (fun fuel => lowestCostPath fl fuel snap src dst w) p ∧ p.found = true ∧
      p.source = src ∧ p.destination = dst ∧ p.segments = hops.map (costSegment fl snap w) ∧
      ∃ srcNode dstNode, snap.findNode src = some srcNode ∧ snap.findNode dst = some dstNode ∧
        p.totalCost =
          if crossesNuma srcNode dstNode then
            (backTotal fl snap w (.fin 0) hops).add fl w.numaPenalty
          else backTotal fl snap w (.fin 0) hops := by
  obtain ⟨srcNode, hsrcNode, hsrcNode'⟩ := hsrc.exists_node
  obtain ⟨dstNode, hdstNode, hdstNode'⟩ := hdst.exists_node
  -- walking back adds up the costs again, from the destination on
  have hback : Returns (loop (costBackStep fl snap w src s) · (dst, .fin 0, []))
      (backTotal fl snap w (.fin 0) hops, hops.map (costSegment fl snap w) ++ []) :=
    costBack_returns hchain hknown (.fin 0) []
  have hsegs : ∀ seg ∈ hops.map (costSegment fl snap w), seg.Known snap := by
    intro seg hseg
    obtain ⟨hop, hhop, rfl⟩ := List.mem_map.mp hseg
    exact hknown hop hhop
  obtain ⟨p, hfill, hfound, hsource, hdestination, hsegs', htotal, -⟩ := fillPath_returns fl
    (p := { source := src, destination := dst, found := true
            segments := hops.map (costSegment fl snap w)
            totalCost :=
              if crossesNuma srcNode dstNode then
                (backTotal fl snap w (.fin 0) hops).add fl w.numaPenalty
              else backTotal fl snap w (.fin 0) hops }) (w := w) hsegs ⟨hsrc, hdst⟩
    hparents
  refine ⟨p, ?_, hfound, hsource, hdestination, hsegs', srcNode, dstNode, hsrcNode, hdstNode,
    htotal⟩
  -- a budget that is enough for the search, the way back and the summary
  filter_upwards [hsearch, hback, hfill] with fuel h1 h2 h3
  rw [← h3, lowestCostPath_eq hsrc hdst hne, h1]
  simp only [Outcome.ok_bind, h2, hsrcNode', hdstNode', List.append_nil]
  rfl

/-- A returned answer: the ends are one node, or no route was found, or the path of the parents back
from the destination was filled in. -/
theorem lowestCostPath_cases {fuel : ℕ} {p : TopologyPath}
    (h : lowestCostPath fl fuel snap src dst w = .ok p) :
    p = { source := src, destination := dst, reasons := [noPath] } ∨
      ∃ s total segs srcNode dstNode,
        loop (costStep fl snap w dst) fuel (costInit src) = .ok (true, s) ∧
        loop (costBackStep fl snap w src s) fuel (dst, .fin 0, []) = .ok (total, segs) ∧
        snap.findNode src = some srcNode ∧ snap.findNode dst = some dstNode ∧
        FilledFrom fuel snap
          { source := src, destination := dst, segments := segs, found := true
            totalCost :=
              if crossesNuma srcNode dstNode then total.add fl w.numaPenalty else total } p := by
  rw [lowestCostPath_eq hsrc hdst hne] at h
  obtain ⟨⟨found, s⟩, hsearch, h⟩ := Outcome.bind_eq_ok.mp h
  -- the search gives up, or a way back is followed and the path is filled in
  cases found with
  | false => exact Or.inl (Outcome.ok.inj h).symm
  | true =>
    obtain ⟨⟨total, segs⟩, hback, h⟩ := Outcome.bind_eq_ok.mp h
    obtain ⟨a, ha, h⟩ := Outcome.bind_eq_ok.mp h
    obtain ⟨b, hb, h⟩ := Outcome.bind_eq_ok.mp h
    exact Or.inr ⟨s, total, segs, a, b, hsearch, hback, TopologySnapshot.node_eq_ok.mp ha,
      TopologySnapshot.node_eq_ok.mp hb, fillPath_ok h⟩

theorem lowestCostPath_diverges
    (hsearch : Diverges (loop (costStep fl snap w dst) · (costInit src))) :
    Diverges (fun fuel => lowestCostPath fl fuel snap src dst w) := by
  simp only [lowestCostPath_eq hsrc hdst hne]
  exact hsearch.bind

end Search

end Query

end TopologyFabric

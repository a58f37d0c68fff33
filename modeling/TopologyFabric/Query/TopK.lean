import TopologyFabric.Library.Sorting
import TopologyFabric.Query.Breakdown

/-!
# Rankings Are Exact

A ranking of the nodes of a type lists the reachable ones by their lowest total and then by id, up
to its limit. A list of candidates is ranked the same way.

## Main result

- `rankCandidates_topK`: both overloads return the one full ranking, cut at the limit
-/

namespace TopologyFabric

open Library Filter

/-! ## Lowest totals -/

/-- The total of some route, and no route has a lower one. -/
def IsLowestTotal (snap : TopologySnapshot) (w : CostWeights) (src dst : TopologyNodeId)
    (t : Double) : Prop :=
  (∃ hops, IsRoute snap false src hops dst ∧ t = routeTotal snap w src dst hops) ∧
    ∀ hops, IsRoute snap false src hops dst → (routeTotal snap w src dst hops).lt t = false

/-- A number or positive infinity. -/
def Double.IsTotal (t : Double) : Prop := (∃ q, t = .fin q) ∨ t = .inf false

/-- Totals have different positions. -/
theorem Double.IsTotal.rank_inj {x y : Double} (hx : x.IsTotal) (hy : y.IsTotal)
    (h : x.rank = y.rank) : x = y := by
  rcases hx with ⟨p, rfl⟩ | rfl
  · rcases hy with ⟨q, rfl⟩ | rfl
    · simpa [rank] using h
    · simp [rank] at h
  · rcases hy with ⟨q, rfl⟩ | rfl
    · simp [rank] at h
    · rfl

theorem Double.IsTotal.rank_eq {x : Double} (hx : x.IsTotal) :
    x.rank = some (x.rank.getD (toLex (0, 0))) := by
  rcases hx with ⟨q, rfl⟩ | rfl <;> rfl

theorem IsLowestTotal.isTotal {snap : TopologySnapshot} {w : CostWeights}
    {src dst : TopologyNodeId} {t : Double} (h : IsLowestTotal snap w src dst t)
    (hnuma : w.numaPenalty.Nonneg) : t.IsTotal := by
  obtain ⟨⟨hops, -, rfl⟩, -⟩ := h
  exact totalWith_cases hnuma _

/-! ## The order of a ranking -/

/-- What an entry is sorted by. -/
def rankKey (e : RankEntry) : (ℤ ×ₗ ℚ) ×ₗ TopologyNodeId :=
  toLex (e.cost.rank.getD (toLex (0, 0)), e.id)

/-- On totals the comparison of the entries is that of their keys. -/
theorem rankBefore_eq_false_iff {a b : RankEntry} (ha : a.cost.IsTotal) (hb : b.cost.IsTotal) :
    rankBefore b a = false ↔ rankKey a ≤ rankKey b := by
  unfold rankBefore rankKey Double.ne Double.lt
  rw [ha.rank_eq, hb.rank_eq]
  generalize a.cost.rank.getD _ = x
  generalize b.cost.rank.getD _ = y
  simp only [Prod.Lex.toLex_le_toLex, Option.getD_some]
  by_cases h : y = x
  · simp [h]
  · simp [h, Ne.symm h, le_iff_lt_or_eq]

/-- The place of an entry before another one: by cost, ties by id. -/
def RankedBefore (a b : RankEntry) : Prop :=
  a.cost.lt b.cost = true ∨ (a.cost = b.cost ∧ a.id < b.id)

theorem rankedBefore_of_key {a b : RankEntry} (ha : a.cost.IsTotal) (hb : b.cost.IsTotal)
    (h : rankKey a ≤ rankKey b) (hne : a.id ≠ b.id) : RankedBefore a b := by
  rcases Prod.Lex.toLex_le_toLex.mp h with hlt | ⟨heq, hid⟩
  · exact Or.inl (Double.lt_eq_true.mpr ⟨_, _, ha.rank_eq, hb.rank_eq, hlt⟩)
  · refine Or.inr ⟨ha.rank_inj hb ?_, lt_of_le_of_ne hid hne⟩
    rw [ha.rank_eq, hb.rank_eq]
    exact congrArg some heq

section Sorting

variable {l l' : List RankEntry}

/-- Sorting entries with totals sorts them by their keys. -/
theorem rankSort_sorted (h : ∀ e ∈ l, e.cost.IsTotal) :
    SortedBy rankKey l (l.insertionSort fun a b => rankBefore b a = false) :=
  SortedBy.insertionSort fun a ha b hb => rankBefore_eq_false_iff (h a ha) (h b hb)

/-- The order in which the entries are found does not matter. -/
theorem rankSort_congr (hperm : l.Perm l') (h : ∀ e ∈ l, e.cost.IsTotal)
    (hinj : ∀ a ∈ l, ∀ b ∈ l, a.id = b.id → a = b) :
    (l.insertionSort fun a b => rankBefore b a = false) =
      l'.insertionSort fun a b => rankBefore b a = false := by
  have hkeys : KeyInjOn rankKey l := fun a ha b hb hkey =>
    hinj a ha b hb (congrArg (fun k => (ofLex k).2) hkey)
  exact (rankSort_sorted h).unique hkeys hperm
    (rankSort_sorted fun e he => h e (hperm.mem_iff.mpr he))

end Sorting

/-! ## Candidates -/

/-- What a candidate adds to a ranking: nothing if no route leads to it, else an entry with its
lowest total. -/
structure CandidateEntry (snap : TopologySnapshot) (w : CostWeights) (source id : TopologyNodeId)
    (entry : Option RankEntry) : Prop where
  appended : ∀ ranked, Returns (fun fuel => rankCandidate exact fuel snap source w ranked id)
    (ranked ++ entry.toList)
  reached : entry.isSome = true ↔ ∃ hops, IsRoute snap false source hops id
  named : ∀ e, entry = some e → e.id = id ∧ IsLowestTotal snap w source id e.cost

section Candidates

variable {snap : TopologySnapshot} {w : CostWeights} {source : TopologyNodeId}

theorem candidateEntry_exists {id : TopologyNodeId} (hd : snap.NoDanglingEdges)
    (hsrc : snap.Present source) (hdst : snap.Present id) (hw : w.Nonneg)
    (href : w.bandwidthRefBps.Pos)
    (hlat : ∀ e ∈ snap.edges, ∀ l, e.latencyNs = some l → l.Nonneg) :
    ∃ entry, CandidateEntry snap w source id entry := by
  obtain ⟨p, hret, hanswer⟩ := lowestCostPath_returns hd hsrc hdst hw href hlat
  cases hfound : p.found with
  | false =>
    -- no path: the candidate gets no entry
    refine ⟨none, fun ranked => ?_, ?_, fun e he => by cases he⟩
    · filter_upwards [hret] with fuel h
      simp only [rankCandidate, h, Outcome.ok_bind, hfound]
      simp
    · rw [← hanswer.found, hfound]
      rfl
  | true =>
    obtain ⟨fuel, hfuel⟩ := hret.exists
    have hcosted := lowestCostPath_costed hfuel hfound
    -- a path: breakdown, distance and reasons are computed for the entry
    obtain ⟨cb, hcb, -⟩ := hcosted.breakdown
    have hstay : Enclosed snap false source id := hd.linksStay.enclosed
    obtain ⟨d, hdist, -⟩ := distanceBetween_answers exact w hstay
    obtain ⟨reasons, hreasons⟩ := buildReasons_finishes exact w hsrc hdst hstay
    refine ⟨some {
      id := id, cost := p.totalCost, breakdown := cb, distance := d
      pathClass := p.pathClass, locality := p.locality, reasons := reasons },
      fun ranked => ?_, ?_, fun e he => ?_⟩
    · filter_upwards [hret, hdist, hreasons] with fuel h h' h''
      simp only [rankCandidate, h, h', h'', Outcome.ok_bind, hfound, hcb]
      rfl
    · exact iff_of_true rfl (hanswer.found.mp hfound)
    · obtain rfl := Option.some.inj he
      exact ⟨rfl, hanswer.attained hfound, hanswer.least hfound⟩

/-- The loop over the candidates collects their entries. -/
theorem rankCandidate_foldlM {entry : TopologyNodeId → Option RankEntry}
    {ids : List TopologyNodeId} (h : ∀ id ∈ ids, CandidateEntry snap w source id (entry id))
    (ranked : List RankEntry) :
    Returns (fun fuel => ids.foldlM (rankCandidate exact fuel snap source w) ranked)
      (ranked ++ ids.filterMap entry) := by
  induction ids generalizing ranked with
  | nil =>
    rw [List.filterMap_nil, List.append_nil]
    exact Returns.pure ranked
  | cons id ids ih =>
    have hrest := ih (fun id' hid => h id' (List.mem_cons_of_mem _ hid)) (ranked ++ (entry id).toList)
    -- the entry of the first candidate is appended before the rest is ranked
    have hsplit : ranked ++ (id :: ids).filterMap entry =
        ranked ++ (entry id).toList ++ ids.filterMap entry := by
      rw [List.append_assoc, List.filterMap_cons]
      cases entry id <;> rfl
    rw [hsplit]
    exact ((h id (List.mem_cons_self ..)).appended ranked).bind hrest

/-- A ranking of candidates: their entries, sorted. -/
def rankingOf (w : CostWeights) (source : TopologyNodeId) (entries : List RankEntry) :
    RankResult where
  found := !entries.isEmpty
  source := source
  ranked := entries.insertionSort fun a b => rankBefore b a = false
  costPolicyVersion := w.version

theorem rankIds_filterMap {entry : TopologyNodeId → Option RankEntry} {ids : List TopologyNodeId}
    (h : ∀ id ∈ ids, CandidateEntry snap w source id (entry id)) :
    Returns (fun fuel => rankIds exact fuel snap source w ids)
      (rankingOf w source (ids.filterMap entry)) :=
  (rankCandidate_foldlM h []).bind (Returns.pure _)

/-- Rankings of the same entries in another order are the same. -/
theorem rankingOf_congr {l l' : List RankEntry} (hperm : l.Perm l')
    (h : ∀ e ∈ l, e.cost.IsTotal) (hinj : ∀ a ∈ l, ∀ b ∈ l, a.id = b.id → a = b) :
    rankingOf w source l = rankingOf w source l' := by
  unfold rankingOf
  rw [rankSort_congr hperm h hinj, hperm.isEmpty_eq]

end Candidates

/-! ## The full ranking -/

/-- The other nodes of a type. -/
def othersOfType (snap : TopologySnapshot) (source : TopologyNodeId) (type : NodeType) :
    List TopologyNodeId :=
  (snap.nodes.entries.filter fun entry => !(entry.1 = source || entry.2.type ≠ type)).map Prod.fst

/-- All reachable nodes of a type but the source, by lowest total and then by id. -/
structure FullRanking (snap : TopologySnapshot) (w : CostWeights) (source : TopologyNodeId)
    (type : NodeType) (full : List RankEntry) : Prop where
  mem : ∀ id, id ∈ full.map RankEntry.id ↔ id ≠ source ∧
    (∃ n, snap.findNode id = some n ∧ n.type = type) ∧ ∃ hops, IsRoute snap false source hops id
  cost : ∀ e ∈ full, IsLowestTotal snap w source e.id e.cost
  increasing : full.Pairwise RankedBefore

/-- The candidates are the ids of a ranking, each once and in any order, and ids that are unknown,
unreachable or the source itself. -/
structure CandidatesOf (snap : TopologySnapshot) (source : TopologyNodeId) (full : List RankEntry)
    (candidates : List TopologyNodeId) : Prop where
  once : ∀ e ∈ full, candidates.count e.id = 1
  other : ∀ id ∈ candidates, id ∈ full.map RankEntry.id ∨ id = source ∨ ¬ snap.Present id ∨
    ¬ ∃ hops, IsRoute snap false source hops id

section Entries

variable {snap : TopologySnapshot} {w : CostWeights} {source : TopologyNodeId} {type : NodeType}
  {entry : TopologyNodeId → Option RankEntry} {ids : List TopologyNodeId}

theorem mem_othersOfType {id : TopologyNodeId} : id ∈ othersOfType snap source type ↔
    id ≠ source ∧ ∃ n, snap.findNode id = some n ∧ n.type = type := by
  simp only [othersOfType, List.mem_map, List.mem_filter, Prod.exists, TopologySnapshot.findNode,
    HashMap.find?_eq_some]
  constructor
  · rintro ⟨id', n, ⟨hmem, hkept⟩, rfl⟩
    simp only [Bool.not_eq_true', Bool.or_eq_false_iff, decide_eq_false_iff_not, not_not] at hkept
    exact ⟨hkept.1, n, hmem, hkept.2⟩
  · rintro ⟨hne, n, hmem, htype⟩
    exact ⟨id, n, ⟨hmem, by simp [hne, htype]⟩, rfl⟩

theorem mem_entries (h : ∀ id ∈ ids, CandidateEntry snap w source id (entry id)) {e : RankEntry} :
    e ∈ ids.filterMap entry ↔ e.id ∈ ids ∧ entry e.id = some e := by
  rw [List.mem_filterMap]
  constructor
  · rintro ⟨id, hid, he⟩
    obtain ⟨rfl, -⟩ := (h id hid).named e he
    exact ⟨hid, he⟩
  · rintro ⟨hid, he⟩
    exact ⟨e.id, hid, he⟩

/-- The ids of the entries are the candidates that have one. -/
theorem map_id_entries (h : ∀ id ∈ ids, CandidateEntry snap w source id (entry id)) :
    (ids.filterMap entry).map RankEntry.id = ids.filter fun id => (entry id).isSome := by
  induction ids with
  | nil => rfl
  | cons id ids ih =>
    have hrest := ih fun id' hid => h id' (List.mem_cons_of_mem _ hid)
    cases he : entry id with
    | none => rw [List.filterMap_cons_none he, List.filter_cons_of_neg (by simp [he]), hrest]
    | some e =>
      rw [List.filterMap_cons_some he, List.filter_cons_of_pos (by simp [he]), List.map_cons, hrest,
        ((h id (List.mem_cons_self ..)).named e he).1]

theorem entries_isTotal (hnuma : w.numaPenalty.Nonneg)
    (h : ∀ id ∈ ids, CandidateEntry snap w source id (entry id)) :
    ∀ e ∈ ids.filterMap entry, e.cost.IsTotal := by
  intro e he
  obtain ⟨hid, hentry⟩ := (mem_entries h).mp he
  exact ((h _ hid).named e hentry).2.isTotal hnuma

theorem entries_inj (h : ∀ id ∈ ids, CandidateEntry snap w source id (entry id)) :
    ∀ a ∈ ids.filterMap entry, ∀ b ∈ ids.filterMap entry, a.id = b.id → a = b := by
  intro a ha b hb hid
  have hentry := ((mem_entries h).mp ha).2
  rw [hid, ((mem_entries h).mp hb).2] at hentry
  exact (Option.some.inj hentry).symm

theorem entries_nodup (h : ∀ id ∈ ids, CandidateEntry snap w source id (entry id))
    (hnodup : (ids.filter fun id => (entry id).isSome).Nodup) : (ids.filterMap entry).Nodup := by
  refine List.Nodup.of_map RankEntry.id ?_
  rw [map_id_entries h]
  exact hnodup

theorem othersOfType_nodup : (othersOfType snap source type).Nodup :=
  snap.nodes.nodup.sublist (List.filter_sublist.map Prod.fst)

theorem entries_of_others (h : ∀ id, snap.Present id → CandidateEntry snap w source id (entry id)) :
    ∀ id ∈ othersOfType snap source type, CandidateEntry snap w source id (entry id) := by
  intro id hid
  obtain ⟨-, n, hn, -⟩ := mem_othersOfType.mp hid
  exact h id (TopologySnapshot.present_of_findNode hn)

/-- The candidates that are ranked at all. -/
theorem mem_ranked_candidates {candidates : List TopologyNodeId} {id : TopologyNodeId} :
    id ∈ candidates.filter (fun id => !(id = source || (snap.findNode id).isNone)) ↔
      id ∈ candidates ∧ id ≠ source ∧ snap.Present id := by
  simp [TopologySnapshot.Present]

/-- The entries of the nodes of a type, sorted, are the full ranking. -/
theorem fullRanking_of_entries (hnuma : w.numaPenalty.Nonneg)
    (h : ∀ id ∈ othersOfType snap source type, CandidateEntry snap w source id (entry id)) :
    FullRanking snap w source type
      (rankingOf w source ((othersOfType snap source type).filterMap entry)).ranked := by
  have hperm : ((rankingOf w source ((othersOfType snap source type).filterMap entry)).ranked).Perm
      ((othersOfType snap source type).filterMap entry) := List.perm_insertionSort _ _
  have hids := (hperm.map RankEntry.id).trans (List.Perm.of_eq (map_id_entries h))
  refine ⟨fun id => ?_, fun e he => ?_, ?_⟩
  · rw [hids.mem_iff, List.mem_filter, mem_othersOfType, and_assoc]
    refine and_congr_right fun hne => and_congr_right fun hn => ?_
    exact (h id (mem_othersOfType.mpr ⟨hne, hn⟩)).reached
  · obtain ⟨hid, hentry⟩ := (mem_entries h).mp (hperm.mem_iff.mp he)
    exact ((h _ hid).named e hentry).2
  · have htotal : ∀ e ∈ (rankingOf w source ((othersOfType snap source type).filterMap entry)).ranked,
        e.cost.IsTotal := fun e he => entries_isTotal hnuma h e (hperm.mem_iff.mp he)
    have hdistinct := List.pairwise_map.mp (hids.nodup_iff.mpr (othersOfType_nodup.filter _))
    exact ((rankSort_sorted (entries_isTotal hnuma h)).sorted.and hdistinct).imp_of_mem
      fun ha hb hab => rankedBefore_of_key (htotal _ ha) (htotal _ hb) hab.1 hab.2

/-- A list of candidates of a ranking has the same entries. -/
theorem candidates_entries_perm {candidates : List TopologyNodeId}
    (h : ∀ id, snap.Present id → CandidateEntry snap w source id (entry id))
    (hnuma : w.numaPenalty.Nonneg)
    (hcandidates : CandidatesOf snap source
      (rankingOf w source ((othersOfType snap source type).filterMap entry)).ranked candidates) :
    ((candidates.filter fun id => !(id = source || (snap.findNode id).isNone)).filterMap entry).Perm
      ((othersOfType snap source type).filterMap entry) := by
  have hothers : ∀ id ∈ othersOfType snap source type, CandidateEntry snap w source id (entry id) :=
    entries_of_others h
  have hranking := fullRanking_of_entries hnuma hothers
  generalize hfull : (rankingOf w source ((othersOfType snap source type).filterMap entry)).ranked =
    full at hcandidates hranking
  have hcand : ∀ id ∈ candidates.filter fun id => !(id = source || (snap.findNode id).isNone),
      CandidateEntry snap w source id (entry id) :=
    fun id hid => h id (mem_ranked_candidates.mp hid).2.2
  -- a candidate with an entry is reachable, so it is one of the ranking
  have hof : ∀ id ∈ candidates.filter fun id => !(id = source || (snap.findNode id).isNone),
      (entry id).isSome = true → id ∈ full.map RankEntry.id := by
    intro id hid hsome
    obtain ⟨hmem, hne, hpresent⟩ := mem_ranked_candidates.mp hid
    rcases hcandidates.other id hmem with hin | hsource | hunknown | hunreachable
    · exact hin
    · exact absurd hsource hne
    · exact absurd hpresent hunknown
    · exact absurd ((h id hpresent).reached.mp hsome) hunreachable
  have honce : ∀ id ∈ full.map RankEntry.id, candidates.count id = 1 := by
    intro id hid
    obtain ⟨e, he, rfl⟩ := List.mem_map.mp hid
    exact hcandidates.once e he
  -- neither list has an entry twice, so the members decide
  refine (List.perm_ext_iff_of_nodup (entries_nodup hcand ?_)
    (entries_nodup hothers (othersOfType_nodup.filter _))).mpr fun e => ?_
  · rw [List.nodup_iff_count_le_one]
    intro id
    by_cases hin : id ∈ (candidates.filter fun id =>
        !(id = source || (snap.findNode id).isNone)).filter fun id => (entry id).isSome
    · obtain ⟨hid, hsome⟩ := List.mem_filter.mp hin
      have hcount := honce id (hof id hid hsome)
      exact ((List.filter_sublist.trans List.filter_sublist).count_le id).trans hcount.le
    · rw [List.count_eq_zero_of_not_mem hin]
      exact Nat.zero_le 1
  · rw [mem_entries hcand, mem_entries hothers]
    refine and_congr_left fun hentry => ⟨fun hid => ?_, fun hid => ?_⟩
    · obtain ⟨hne, hn, -⟩ := (hranking.mem e.id).mp (hof e.id hid (by simp [hentry]))
      exact mem_othersOfType.mpr ⟨hne, hn⟩
    · obtain ⟨hne, n, hn, htype⟩ := mem_othersOfType.mp hid
      have hroute := (hothers e.id hid).reached.mp (by simp [hentry])
      have hin := (hranking.mem e.id).mpr ⟨hne, ⟨n, hn, htype⟩, hroute⟩
      have hcount := honce e.id hin
      exact mem_ranked_candidates.mpr ⟨List.count_pos_iff.mp (hcount.symm ▸ Nat.one_pos), hne,
        TopologySnapshot.present_of_findNode hn⟩

end Entries

/-- The result of a ranking with these entries. -/
def rankResult (w : CostWeights) (source : TopologyNodeId) (found : Bool) (ranked : List RankEntry) :
    RankResult where
  found := found
  source := source
  ranked := ranked
  costPolicyVersion := w.version

/-- **Exact top-k.** In exact arithmetic, on a snapshot without dangling edges, with nonnegative
weights and latencies, there is one full ranking of the nodes of a type. The overload for the type
returns its first entries up to the limit, in whatever order the nodes are iterated, and the overload
for a list returns it for every list of its ids, each once, and of ids that do not count. -/
theorem rankCandidates_topK {snap : TopologySnapshot} {w : CostWeights} {source : TopologyNodeId}
    (hd : snap.NoDanglingEdges) (hsrc : snap.Present source) (hw : w.Nonneg)
    (href : w.bandwidthRefBps.Pos)
    (hlat : ∀ e ∈ snap.edges, ∀ l, e.latencyNs = some l → l.Nonneg) (type : NodeType) :
    ∃ full, FullRanking snap w source type full ∧
      (∀ order k, Returns
        (fun fuel => rankCandidatesByType exact order fuel snap source type k w)
        (rankResult w source (!full.isEmpty) (if k = 0 then full else full.take k))) ∧
      ∀ candidates, CandidatesOf snap source full candidates →
        Returns (fun fuel => rankCandidates exact fuel snap source candidates w)
          (rankResult w source (!full.isEmpty) full) := by
  -- every known node has its entry, or none, whatever the order of the candidates
  have hall : ∀ id, ∃ entry, snap.Present id → CandidateEntry snap w source id entry := by
    intro id
    by_cases hid : snap.Present id
    · obtain ⟨entry, h⟩ := candidateEntry_exists hd hsrc hid hw href hlat
      exact ⟨entry, fun _ => h⟩
    · exact ⟨none, fun h => absurd h hid⟩
  choose entry hentry using hall
  have hothers : ∀ id ∈ othersOfType snap source type, CandidateEntry snap w source id (entry id) :=
    entries_of_others hentry
  have htotal := entries_isTotal hw.numaPenalty hothers
  obtain ⟨n, hn, -⟩ := hsrc.exists_node
  have hknown : (snap.findNode source).isNone = false := by simp [hn]
  have hempty : ((othersOfType snap source type).filterMap entry).isEmpty =
      (rankingOf w source ((othersOfType snap source type).filterMap entry)).ranked.isEmpty :=
    (List.perm_insertionSort _ _).isEmpty_eq.symm
  refine ⟨(rankingOf w source ((othersOfType snap source type).filterMap entry)).ranked,
    fullRanking_of_entries hw.numaPenalty hothers, fun order k => ?_,
    fun candidates hcandidates => ?_⟩
  · -- the nodes of the type, in the order of the iteration
    have hperm : (((snap.nodes.reorder order).entries.filter fun entry =>
        !(entry.1 = source || entry.2.type ≠ type)).map Prod.fst).Perm
        (othersOfType snap source type) := ((order.perm _ _).filter _).map _
    have hret := rankIds_filterMap fun id hid => hothers id (hperm.mem_iff.mp hid)
    rw [← rankingOf_congr (hperm.filterMap entry).symm htotal (entries_inj hothers)] at hret
    filter_upwards [hret] with fuel h
    simp only [rankCandidatesByType, hknown, Bool.false_eq_true, if_false, h, Outcome.ok_bind]
    -- cutting off at the limit, which zero turns off
    by_cases hcut : 0 < k ∧ k < (rankingOf w source
        ((othersOfType snap source type).filterMap entry)).ranked.length
    · rw [if_pos (by simpa using hcut), if_neg hcut.1.ne', ← hempty]
      rfl
    · rw [if_neg (by simpa using hcut), ← hempty]
      split_ifs with hzero
      · rfl
      · rw [List.take_of_length_le (by omega)]
        rfl
  · -- a list of candidates
    have hperm := candidates_entries_perm hentry hw.numaPenalty hcandidates
    have hcand : ∀ id ∈ candidates.filter fun id => !(id = source || (snap.findNode id).isNone),
        CandidateEntry snap w source id (entry id) :=
      fun id hid => hentry id (mem_ranked_candidates.mp hid).2.2
    have hret := rankIds_filterMap hcand
    rw [← rankingOf_congr hperm.symm htotal (entries_inj hothers)] at hret
    filter_upwards [hret] with fuel h
    simp only [rankCandidates, hknown, Bool.false_eq_true, if_false, h]
    rw [← hempty]
    rfl

/-- The accelerator of two joined nodes, ranked by type and from a list with an unknown id. -/
theorem rankCandidates_topK_pair :
    ∃ full, FullRanking pairSnapshot { latencyNsWeight := .fin (1 / 2000) } ⟨0, 1⟩ .accelerator full ∧
      (∀ order, Returns (fun fuel => rankCandidatesByType exact order fuel pairSnapshot ⟨0, 1⟩
          .accelerator 1 { latencyNsWeight := .fin (1 / 2000) })
        (rankResult { latencyNsWeight := .fin (1 / 2000) } ⟨0, 1⟩ (!full.isEmpty) (full.take 1))) ∧
      Returns (fun fuel => rankCandidates exact fuel pairSnapshot ⟨0, 1⟩ [⟨0, 9⟩, ⟨0, 2⟩]
          { latencyNsWeight := .fin (1 / 2000) })
        (rankResult { latencyNsWeight := .fin (1 / 2000) } ⟨0, 1⟩ (!full.isEmpty) full) := by
  have hd : pairSnapshot.NoDanglingEdges := by decide
  have hsrc : pairSnapshot.Present ⟨0, 1⟩ := by decide
  have hw : ({ latencyNsWeight := .fin (1 / 2000) } : CostWeights).Nonneg := by
    constructor <;> simp
  have hlat : ∀ e ∈ pairSnapshot.edges, ∀ l, e.latencyNs = some l → l.Nonneg := by
    simp [pairSnapshot]
  obtain ⟨full, hfull, htype, hlist⟩ :=
    rankCandidates_topK hd hsrc hw (by decide) hlat .accelerator
  -- the other node is reached by the only edge
  have hroute : ∃ hops, IsRoute pairSnapshot false ⟨0, 1⟩ hops ⟨0, 2⟩ :=
    ⟨_, .cons (i := 0) rfl (by simp [TopologyEdge.Usable]) (Or.inl ⟨rfl, rfl⟩) (.nil _)⟩
  have hmem : (⟨0, 2⟩ : TopologyNodeId) ∈ full.map RankEntry.id :=
    (hfull.mem _).mpr ⟨by decide, ⟨_, rfl, rfl⟩, hroute⟩
  refine ⟨full, hfull, fun order => htype order 1, hlist _ ⟨fun e he => ?_, fun id hid => ?_⟩⟩
  · obtain ⟨hne, ⟨n, hn, -⟩, -⟩ := (hfull.mem e.id).mp (List.mem_map_of_mem he)
    have hknown : e.id ∈ pairSnapshot.nodes.keys :=
      HashMap.mem_keys_of_mem (HashMap.find?_eq_some.mp hn)
    have hkeys : pairSnapshot.nodes.keys = [⟨0, 1⟩, ⟨0, 2⟩] := rfl
    rw [hkeys, List.mem_cons, List.mem_singleton] at hknown
    rw [hknown.resolve_left hne]
    decide
  · rcases List.mem_cons.mp hid with rfl | hid
    · exact Or.inr (Or.inr (Or.inl (by decide)))
    · rw [List.mem_singleton.mp hid]
      exact Or.inl hmem

end TopologyFabric

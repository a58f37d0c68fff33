import TopologyFabric.Library.Merging
import TopologyFabric.Query.TopK

/-!
# Rankings in Parts

A long list of candidates can be ranked in parts. Each part is ranked on its own, and merging the
rankings, or only their fronts, gives what one call for the whole list returns.

## Main result

- `rankCandidates_sharded`: the ranking of the whole list is the merge of those of its parts
-/

namespace TopologyFabric

open Library Filter

/-- Merge two rankings by the order of their entries. -/
def mergeRankings (a b : List RankEntry) : List RankEntry :=
  a.merge b fun x y => decide (rankBefore y x = false)

section Parts

variable {snap : TopologySnapshot} {w : CostWeights} {source : TopologyNodeId}
  {entry : TopologyNodeId → Option RankEntry}

/-- The candidates that are ranked, out of a list. -/
def rankable (snap : TopologySnapshot) (source : TopologyNodeId) (ids : List TopologyNodeId) :
    List TopologyNodeId :=
  ids.filter fun id => !(id = source || (snap.findNode id).isNone)

theorem candidateEntry_of_rankable
    (h : ∀ id, snap.Present id → CandidateEntry snap w source id (entry id))
    (ids : List TopologyNodeId) :
    ∀ id ∈ rankable snap source ids, CandidateEntry snap w source id (entry id) :=
  fun id hid => h id (mem_ranked_candidates.mp hid).2.2

/-- The entries of a list of candidates in their order. -/
def sortedEntries (snap : TopologySnapshot) (source : TopologyNodeId)
    (entry : TopologyNodeId → Option RankEntry) (ids : List TopologyNodeId) : List RankEntry :=
  ((rankable snap source ids).filterMap entry).insertionSort fun a b => rankBefore b a = false

theorem filter_entries {ids : List TopologyNodeId}
    (h : ∀ id ∈ ids, CandidateEntry snap w source id (entry id)) (p : TopologyNodeId → Bool) :
    ((ids.filterMap entry).filter fun e => p e.id) = (ids.filter p).filterMap entry := by
  rw [List.filter_filterMap, List.filterMap_filter]
  apply List.filterMap_congr
  intro id hid
  cases he : entry id with
  | none => simp
  | some e => simp [Option.filter, ((h id hid).named e he).1]

section Entries

variable (h : ∀ id, snap.Present id → CandidateEntry snap w source id (entry id))
  (hnuma : w.numaPenalty.Nonneg)
include h hnuma

theorem sortedEntries_sorted (ids : List TopologyNodeId) :
    SortedBy rankKey ((rankable snap source ids).filterMap entry)
      (sortedEntries snap source entry ids) :=
  rankSort_sorted (entries_isTotal hnuma (candidateEntry_of_rankable h ids))

theorem sortedEntries_isTotal (ids : List TopologyNodeId) :
    ∀ e ∈ sortedEntries snap source entry ids, e.cost.IsTotal := fun e he =>
  entries_isTotal hnuma (candidateEntry_of_rankable h ids) e
    ((sortedEntries_sorted h hnuma ids).perm.mem_iff.mp he)

omit hnuma in
/-- Entries with one key belong to one candidate. -/
theorem entries_keyInjOn (ids : List TopologyNodeId) :
    KeyInjOn rankKey ((rankable snap source ids).filterMap entry) :=
  fun a ha b hb hkey => entries_inj (candidateEntry_of_rankable h ids) a ha b hb
    (congrArg (fun k => (ofLex k).2) hkey)

/-- The entries of two parts, merged, are those of the whole. -/
theorem sortedEntries_append (xs ys : List TopologyNodeId) :
    sortedEntries snap source entry (xs ++ ys) =
      mergeRankings (sortedEntries snap source entry xs) (sortedEntries snap source entry ys) := by
  have hmerged := (sortedEntries_sorted h hnuma xs).merge (sortedEntries_sorted h hnuma ys)
    (r := fun x y => decide (rankBefore y x = false)) fun x hx y hy =>
      decide_eq_decide.mpr (rankBefore_eq_false_iff (sortedEntries_isTotal h hnuma xs x hx)
        (sortedEntries_isTotal h hnuma ys y hy))
  have hsplit : (rankable snap source (xs ++ ys)).filterMap entry =
      (rankable snap source xs).filterMap entry ++ (rankable snap source ys).filterMap entry := by
    simp [rankable]
  rw [← hsplit] at hmerged
  exact (sortedEntries_sorted h hnuma (xs ++ ys)).unique (entries_keyInjOn h (xs ++ ys))
    (.refl _) hmerged

/-- The entries of some candidates are those of all, less the entries of the others. -/
theorem sortedEntries_filter (p : TopologyNodeId → Bool) (ids : List TopologyNodeId) :
    sortedEntries snap source entry (ids.filter p) =
      (sortedEntries snap source entry ids).filter fun e => p e.id := by
  have hfiltered := (sortedEntries_sorted h hnuma ids).filter fun e => p e.id
  have hentries : ((rankable snap source ids).filterMap entry).filter (fun e => p e.id) =
      (rankable snap source (ids.filter p)).filterMap entry := by
    rw [rankable, rankable, List.filter_comm, ← rankable]
    exact filter_entries (candidateEntry_of_rankable h ids) p
  rw [hentries] at hfiltered
  exact (sortedEntries_sorted h hnuma (ids.filter p)).unique
    (entries_keyInjOn h (ids.filter p)) (.refl _) hfiltered

end Entries

/-- A list of candidates has its sorted entries as its ranking. -/
theorem rankCandidates_sortedEntries (hsrc : snap.Present source)
    (h : ∀ id, snap.Present id → CandidateEntry snap w source id (entry id))
    (ids : List TopologyNodeId) :
    Returns (fun fuel => rankCandidates exact fuel snap source ids w)
      (rankResult w source (!(sortedEntries snap source entry ids).isEmpty)
        (sortedEntries snap source entry ids)) := by
  obtain ⟨n, hn, -⟩ := hsrc.exists_node
  have hknown : (snap.findNode source).isNone = false := by simp [hn]
  have hempty : ((rankable snap source ids).filterMap entry).isEmpty =
      (sortedEntries snap source entry ids).isEmpty := (List.perm_insertionSort _ _).isEmpty_eq.symm
  filter_upwards [rankIds_filterMap (candidateEntry_of_rankable h ids)] with fuel hret
  simp only [rankCandidates, hknown, Bool.false_eq_true, if_false]
  rw [← hempty]
  exact hret

end Parts

/-- **Sharded rankings.** In exact arithmetic, on a snapshot without dangling edges, with nonnegative
weights and latencies and a positive reference bandwidth, two lists of candidates have rankings of
which the merge is returned for the two lists together. Its first `k` entries are those of the merge
of the first `k` entries of both. Dropping candidates from a list only drops their entries from its
ranking. -/
theorem rankCandidates_sharded {snap : TopologySnapshot} {w : CostWeights} {source : TopologyNodeId}
    (hd : snap.NoDanglingEdges) (hsrc : snap.Present source) (hw : w.Nonneg)
    (href : w.bandwidthRefBps.Pos)
    (hlat : ∀ e ∈ snap.edges, ∀ l, e.latencyNs = some l → l.Nonneg)
    (xs ys : List TopologyNodeId) :
    ∃ a b, Returns (fun fuel => rankCandidates exact fuel snap source xs w)
        (rankResult w source (!a.isEmpty) a) ∧
      Returns (fun fuel => rankCandidates exact fuel snap source ys w)
        (rankResult w source (!b.isEmpty) b) ∧
      Returns (fun fuel => rankCandidates exact fuel snap source (xs ++ ys) w)
        (rankResult w source (!(mergeRankings a b).isEmpty) (mergeRankings a b)) ∧
      (∀ k, (mergeRankings a b).take k = (mergeRankings (a.take k) (b.take k)).take k) ∧
      ∀ p : TopologyNodeId → Bool,
        Returns (fun fuel => rankCandidates exact fuel snap source (xs.filter p) w)
          (rankResult w source (a.any fun e => p e.id) (a.filter fun e => p e.id)) := by
  -- every known node has its entry, or none, in whichever list it is asked for
  have hall : ∀ id, ∃ entry, snap.Present id → CandidateEntry snap w source id entry := by
    intro id
    by_cases hid : snap.Present id
    · obtain ⟨entry, h⟩ := candidateEntry_exists hd hsrc hid hw href hlat
      exact ⟨entry, fun _ => h⟩
    · exact ⟨none, fun h => absurd h hid⟩
  choose entry hentry using hall
  have happend := sortedEntries_append hentry hw.numaPenalty xs ys
  refine ⟨_, _, rankCandidates_sortedEntries hsrc hentry xs,
    rankCandidates_sortedEntries hsrc hentry ys, ?_, fun k => take_merge k _ _, fun p => ?_⟩
  · rw [← happend]
    exact rankCandidates_sortedEntries hsrc hentry (xs ++ ys)
  · have hfiltered := rankCandidates_sortedEntries hsrc hentry (xs.filter p)
    rw [sortedEntries_filter hentry hw.numaPenalty] at hfiltered
    have hany : (!((sortedEntries snap source entry xs).filter fun e => p e.id).isEmpty) =
        (sortedEntries snap source entry xs).any fun e => p e.id := by
      rw [Bool.eq_iff_iff]
      simp
    rwa [hany] at hfiltered

/-- Two lists that share a candidate, and one with an unknown id. -/
theorem rankCandidates_sharded_pair :
    ∃ a b, Returns (fun fuel => rankCandidates exact fuel pairSnapshot ⟨0, 1⟩ [⟨0, 2⟩, ⟨0, 9⟩]
          { latencyNsWeight := .fin (1 / 2000) })
        (rankResult { latencyNsWeight := .fin (1 / 2000) } ⟨0, 1⟩ (!a.isEmpty) a) ∧
      Returns (fun fuel => rankCandidates exact fuel pairSnapshot ⟨0, 1⟩
          [⟨0, 2⟩, ⟨0, 9⟩, ⟨0, 1⟩, ⟨0, 2⟩] { latencyNsWeight := .fin (1 / 2000) })
        (rankResult { latencyNsWeight := .fin (1 / 2000) } ⟨0, 1⟩ (!(mergeRankings a b).isEmpty)
          (mergeRankings a b)) := by
  have hw : ({ latencyNsWeight := .fin (1 / 2000) } : CostWeights).Nonneg := by
    constructor <;> simp
  have hlat : ∀ e ∈ pairSnapshot.edges, ∀ l, e.latencyNs = some l → l.Nonneg := by
    simp [pairSnapshot]
  have hsrc : pairSnapshot.Present ⟨0, 1⟩ := by decide
  obtain ⟨a, b, ha, -, hab, -⟩ := rankCandidates_sharded (by decide) hsrc hw (by decide) hlat
    [⟨0, 2⟩, ⟨0, 9⟩] [⟨0, 1⟩, ⟨0, 2⟩]
  exact ⟨a, b, ha, hab⟩

end TopologyFabric

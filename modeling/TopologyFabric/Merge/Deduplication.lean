import TopologyFabric.Merge.Endpoints

/-!
# Edges with One Key

Of the contributed edges that resolve to one key, the merge keeps the first one, if it comes before
the edge bound. Which edge that is depends on the order of the providers alone: neither the
confidence of the edges is looked at, nor their direction, which is no part of the key.

## Main results

- `mem_mergedEdges`: the merged edges are the first ones with their keys
- `edgeAuthorityKept_iff`: when the merged edges have the most authoritative facts
- `relationshipsKept_iff`: when every contributed relationship is in the output
-/

namespace TopologyFabric

open Library

/-! ## The first edge with a key -/

section First

variable (order : IterationOrder) (bounds : Bounds) (contributions : List Contribution)

/-- The key that a contributed edge resolves to. -/
def resolvedKey (ce : ContributedEdge) : EdgeKey := (mergedEdge order bounds contributions ce).key

/-- A contributed edge that resolves to the key. -/
def ResolvesTo (key : EdgeKey) (ce : ContributedEdge) : Prop :=
  ce ∈ contributedEdges contributions ∧ Resolvable order bounds contributions ce ∧
    resolvedKey order bounds contributions ce = key

/-- The first contributed edge with its key, if fewer resolvable edges come before it than the edge
bound allows. -/
def FirstTaken (ce : ContributedEdge) : Prop :=
  ∃ pre post, contributedEdges contributions = pre ++ ce :: post ∧
    Resolvable order bounds contributions ce ∧
    (pre.filter fun ce => decide (Resolvable order bounds contributions ce)).length <
      bounds.maxEdges ∧
    ∀ ce' ∈ pre, Resolvable order bounds contributions ce' →
      resolvedKey order bounds contributions ce' ≠ resolvedKey order bounds contributions ce

variable {order bounds contributions}

/-- What comes first is there. -/
theorem FirstTaken.resolvesTo {ce : ContributedEdge} (h : FirstTaken order bounds contributions ce) :
    ResolvesTo order bounds contributions (resolvedKey order bounds contributions ce) ce := by
  obtain ⟨pre, post, hsplit, hres, -⟩ := h
  exact ⟨by rw [hsplit]; simp, hres, rfl⟩

/-- The merged edges are the first ones with their keys. -/
theorem mem_mergedEdges {e : TopologyEdge} :
    e ∈ (mergeContributions order contributions bounds).edges ↔
      ∃ ce, FirstTaken order bounds contributions ce ∧
        e = mergedEdge order bounds contributions ce := by
  -- an edge is kept when no edge before it has its key
  rw [mergeEdges_eq, mem_dedupEdges]
  constructor
  · rintro ⟨pre, post, hsplit, hfirst⟩
    obtain ⟨pre', rest, htaken, rfl, hrest⟩ := List.map_eq_append_iff.mp hsplit
    obtain ⟨ce, post', rfl, rfl, -⟩ := List.map_eq_cons_iff.mp hrest
    obtain ⟨pre, post, hcontributed, hres, rfl, hlen⟩ := take_filter_split_iff.mp ⟨post', htaken⟩
    refine ⟨ce, ⟨pre, post, hcontributed, of_decide_eq_true hres, hlen, ?_⟩, rfl⟩
    intro ce' hce' hres'
    exact hfirst _ (List.mem_map_of_mem (List.mem_filter.mpr ⟨hce', decide_eq_true hres'⟩))
  · rintro ⟨ce, ⟨pre, post, hcontributed, hres, hlen, hfirst⟩, rfl⟩
    obtain ⟨post', htaken⟩ := take_filter_split_iff.mpr
      ⟨pre, post, hcontributed, decide_eq_true hres, rfl, hlen⟩
    refine ⟨_, _, by rw [takenEdges, htaken, List.map_append, List.map_cons], ?_⟩
    intro e' he'
    obtain ⟨ce', hce', rfl⟩ := List.mem_map.mp he'
    obtain ⟨hce', hres'⟩ := List.mem_filter.mp hce'
    exact hfirst ce' hce' (of_decide_eq_true hres')

end First

/-! ## Authority -/

/-- The merged edge has the link facts of the contributed one. -/
structure CarriesFacts (e : TopologyEdge) (ce : ContributedEdge) : Prop where
  bandwidth : e.bandwidthBytesPerSec = ce.bandwidthBytesPerSec
  latency : e.latencyNs = ce.latencyNs
  width : e.width = ce.width
  pcieGeneration : e.pcieGeneration = ce.pcieGeneration
  provenance : e.provenance = ce.provenance
  confidence : e.confidence = ce.confidence

/-- Every merged edge has the facts of a contributed edge whose confidence is the highest among all
that resolve to its key. -/
def EdgeAuthorityKept (order : IterationOrder) (bounds : Bounds) (contributions : List Contribution) :
    Prop :=
  ∀ e ∈ (mergeContributions order contributions bounds).edges,
    ∃ ce, ResolvesTo order bounds contributions e.key ce ∧ CarriesFacts e ce ∧
      ∀ ce', ResolvesTo order bounds contributions e.key ce' →
        ConfidenceRanking.rank ce'.confidence ≤ ConfidenceRanking.rank ce.confidence

/-- No contributed edge has a higher confidence than the first one with its key, if that is within
the edge bound. -/
def FirstIsBest (order : IterationOrder) (bounds : Bounds) (contributions : List Contribution) :
    Prop :=
  ∀ ce, FirstTaken order bounds contributions ce →
    ∀ ce', ResolvesTo order bounds contributions (resolvedKey order bounds contributions ce) ce' →
      ConfidenceRanking.rank ce'.confidence ≤ ConfidenceRanking.rank ce.confidence

section Authority

variable {order : IterationOrder} {bounds : Bounds} {contributions : List Contribution}

/-- **When edge facts keep their authority.** -/
theorem edgeAuthorityKept_iff : EdgeAuthorityKept order bounds contributions ↔
    FirstIsBest order bounds contributions := by
  constructor
  · intro h ce hfirst ce' hce'
    obtain ⟨best, -, hfacts, hmax⟩ := h _ (mem_mergedEdges.mpr ⟨ce, hfirst, rfl⟩)
    -- the kept edge has the confidence of the first one
    have hconfidence : ce.confidence = best.confidence := hfacts.confidence
    rw [hconfidence]
    exact hmax ce' hce'
  · intro h e he
    obtain ⟨ce, hfirst, rfl⟩ := mem_mergedEdges.mp he
    exact ⟨ce, hfirst.resolvesTo, ⟨rfl, rfl, rfl, rfl, rfl, rfl⟩, h ce hfirst⟩

end Authority

/-- Two machines, and what a provider says about the links between them. -/
def linkedMachines (edges : List ContributedEdge) : Contribution where
  nodes := [{ ref := str "a", native := { machineName := str "a" } },
    { ref := str "b", native := { machineName := str "b" } }]
  edges := edges

/-- The link as the first provider has it. -/
def guessedEdge : ContributedEdge where
  fromRef := str "a"
  toRef := str "b"
  confidence := .low

/-- The link as the second provider has measured it. -/
def measuredEdge : ContributedEdge where
  fromRef := str "a"
  toRef := str "b"
  confidence := .authoritative
  latencyNs := some (.fin 1)

def remeasuredLink : List Contribution :=
  [linkedMachines [guessedEdge], { edges := [measuredEdge] }]

/-- The measurement is dropped. -/
theorem edgeAuthority_lost : ¬ EdgeAuthorityKept .insertion {} remeasuredLink := by
  intro h
  have hkept : mergedEdge .insertion {} remeasuredLink guessedEdge ∈
      (mergeContributions .insertion remeasuredLink {}).edges := by decide +kernel
  have hmeasured : ResolvesTo .insertion {} remeasuredLink
      (mergedEdge .insertion {} remeasuredLink guessedEdge).key measuredEdge :=
    ⟨by decide +kernel, by decide +kernel, by decide +kernel⟩
  obtain ⟨best, -, hfacts, hmax⟩ := h _ hkept
  have hlow : best.confidence = .low := hfacts.confidence.symm
  have hrank := hmax _ hmeasured
  rw [hlow] at hrank
  exact absurd hrank (by decide)

/-! ## Relationships -/

/-- The edges say the same: they have one type and direction and the same endpoints, in either
orientation if undirected. -/
def SameRelationship (e e' : TopologyEdge) : Prop :=
  e.type = e'.type ∧ e.direction = e'.direction ∧
    (e.source = e'.source ∧ e.target = e'.target ∨
      e.direction = .undirected ∧ e.source = e'.target ∧ e.target = e'.source)

instance (e e' : TopologyEdge) : Decidable (SameRelationship e e') :=
  inferInstanceAs (Decidable (_ ∧ _))

/-- The key tells everything about a relationship but the direction. -/
theorem sameRelationship_iff {e e' : TopologyEdge} :
    SameRelationship e e' ↔ e.key = e'.key ∧ e.direction = e'.direction := by
  unfold SameRelationship TopologyEdge.key
  constructor
  · rintro ⟨htype, hdirection, ⟨hsource, htarget⟩ | ⟨hundirected, hsource, htarget⟩⟩
    · exact ⟨by rw [htype, hdirection, hsource, htarget], hdirection⟩
    · refine ⟨?_, hdirection⟩
      have hundirected' := hdirection ▸ hundirected
      -- the ends are swapped in one of the two keys
      rcases lt_trichotomy e.source e.target with hlt | heq | hgt
      · rw [if_neg fun h => hlt.not_gt h.2, if_pos ⟨hundirected', hsource ▸ htarget ▸ hlt⟩,
          hsource, htarget, htype]
      · rw [← hsource, ← htarget, heq, htype]
        simp
      · rw [if_pos ⟨hundirected, hgt⟩, if_neg fun h => hgt.not_gt (hsource ▸ htarget ▸ h.2),
          hsource, htarget, htype]
  · rintro ⟨hkey, hdirection⟩
    rw [← hdirection] at hkey
    split_ifs at hkey with h h' h' <;> obtain ⟨hfirst, hsecond, htype⟩ := EdgeKey.mk.inj hkey
    · exact ⟨htype, hdirection, Or.inl ⟨hsecond, hfirst⟩⟩
    · exact ⟨htype, hdirection, Or.inr ⟨h.1, hsecond, hfirst⟩⟩
    · exact ⟨htype, hdirection, Or.inr ⟨h'.1, hfirst, hsecond⟩⟩
    · exact ⟨htype, hdirection, Or.inl ⟨hfirst, hsecond⟩⟩

/-- All edges are kept iff no two have one key. -/
theorem dedupEdges_eq_self_iff {l : List TopologyEdge} :
    dedupEdges l = l ↔ (l.map TopologyEdge.key).Nodup := by
  constructor
  · intro h
    rw [← h]
    exact nodup_dedupEdges l
  · intro h
    induction l using List.reverseRecOn with
    | nil => rfl
    | append_singleton l e ih =>
      rw [List.map_append, List.map_singleton, List.nodup_append] at h
      obtain ⟨hnodup, -, hdisjoint⟩ := h
      have hnew : e.key ∉ l.map TopologyEdge.key := fun hmem =>
        hdisjoint _ hmem _ (List.mem_singleton_self _) rfl
      rw [dedupEdges_concat, ih hnodup, if_neg hnew]

/-- Every contributed relationship is in the output, unless that is full, and none is twice. -/
structure RelationshipsKept (order : IterationOrder) (bounds : Bounds)
    (contributions : List Contribution) : Prop where
  represented : ∀ ce ∈ contributedEdges contributions, Resolvable order bounds contributions ce →
    (∃ e ∈ (mergeContributions order contributions bounds).edges,
      SameRelationship e (mergedEdge order bounds contributions ce)) ∨
    bounds.maxEdges ≤ (mergeContributions order contributions bounds).edges.length
  distinct : (mergeContributions order contributions bounds).edges.Pairwise fun e e' =>
    ¬ SameRelationship e e'

section Relationships

variable (order : IterationOrder) (bounds : Bounds) (contributions : List Contribution)

/-- There are as many resolvable edges as the edge bound allows, and the first ones up to the bound
have different keys. -/
def FilledByFirsts : Prop :=
  bounds.maxEdges ≤ (takenEdges order bounds contributions).length ∧
    ((takenEdges order bounds contributions).map (resolvedKey order bounds contributions)).Nodup

/-- The first edge with the key of each resolvable edge has the direction of that edge and comes
before the edge bound, unless different edges fill the bound. -/
def FirstsCover : Prop :=
  ∀ ce ∈ contributedEdges contributions, Resolvable order bounds contributions ce →
    (∃ first, FirstTaken order bounds contributions first ∧
      resolvedKey order bounds contributions first = resolvedKey order bounds contributions ce ∧
      first.direction = ce.direction) ∨
    FilledByFirsts order bounds contributions

variable {order bounds contributions}

/-- The output is full iff different edges fill the bound. -/
theorem maxEdges_le_length_iff :
    bounds.maxEdges ≤ (mergeContributions order contributions bounds).edges.length ↔
      FilledByFirsts order bounds contributions := by
  rw [mergeEdges_eq, FilledByFirsts]
  have htaken : (takenEdges order bounds contributions).length ≤ bounds.maxEdges :=
    List.length_take_le _ _
  have hkeys : (takenEdges order bounds contributions).map (resolvedKey order bounds contributions) =
      ((takenEdges order bounds contributions).map
        (mergedEdge order bounds contributions)).map TopologyEdge.key := by
    rw [List.map_map]
    rfl
  rw [hkeys, ← dedupEdges_eq_self_iff]
  have hsub := dedupEdges_sublist ((takenEdges order bounds contributions).map
    (mergedEdge order bounds contributions))
  have hlen := hsub.length_le
  rw [List.length_map] at hlen
  -- the edges that are taken are no more than the limit, and keeping the first of each key drops
  -- some
  constructor
  · intro h
    refine ⟨h.trans hlen, hsub.eq_of_length_le ?_⟩
    rw [List.length_map]
    exact htaken.trans h
  · rintro ⟨hfull, heq⟩
    rw [heq, List.length_map]
    exact hfull

/-- No relationship is in the output twice. -/
theorem mergedEdges_distinct : (mergeContributions order contributions bounds).edges.Pairwise
    fun e e' => ¬ SameRelationship e e' := by
  have hnodup : ((mergeContributions order contributions bounds).edges.map
      TopologyEdge.key).Nodup := by
    rw [mergeEdges_eq]
    exact nodup_dedupEdges _
  refine (List.pairwise_map.mp hnodup).imp ?_
  intro e e' hne hsame
  exact hne (sameRelationship_iff.mp hsame).1

/-- **When no relationship is lost.** -/
theorem relationshipsKept_iff : RelationshipsKept order bounds contributions ↔
    FirstsCover order bounds contributions := by
  -- an edge of the result stands for the first of the contributed edges with its key
  have hrepresented : ∀ ce, (∃ e ∈ (mergeContributions order contributions bounds).edges,
      SameRelationship e (mergedEdge order bounds contributions ce)) ↔
      ∃ first, FirstTaken order bounds contributions first ∧
        resolvedKey order bounds contributions first = resolvedKey order bounds contributions ce ∧
        first.direction = ce.direction := by
    intro ce
    constructor
    · rintro ⟨e, he, hsame⟩
      obtain ⟨first, hfirst, rfl⟩ := mem_mergedEdges.mp he
      exact ⟨first, hfirst, sameRelationship_iff.mp hsame⟩
    · rintro ⟨first, hfirst, hsame⟩
      exact ⟨_, mem_mergedEdges.mpr ⟨first, hfirst, rfl⟩, sameRelationship_iff.mpr hsame⟩
  constructor
  · intro h ce hce hres
    rw [← hrepresented, ← maxEdges_le_length_iff]
    exact h.represented ce hce hres
  · intro h
    refine ⟨fun ce hce hres => ?_, mergedEdges_distinct⟩
    rw [hrepresented, maxEdges_le_length_iff]
    exact h ce hce hres

end Relationships

def oneWay : ContributedEdge where
  fromRef := str "a"
  toRef := str "b"

def bothWays : ContributedEdge where
  fromRef := str "a"
  toRef := str "b"
  direction := .undirected

def wayBack : ContributedEdge where
  fromRef := str "b"
  toRef := str "a"

/-- The link in both directions is dropped for the link in one, and the way back for the same link
said twice. -/
theorem relationships_lost :
    ¬ RelationshipsKept .insertion {} [linkedMachines [oneWay, bothWays]] ∧
      ¬ RelationshipsKept .insertion { maxEdges := 2 }
        [linkedMachines [oneWay, oneWay, wayBack]] := by
  constructor
  · intro h
    have hkept := h.represented bothWays (by decide +kernel) (by decide +kernel)
    revert hkept
    decide +kernel
  · intro h
    have hkept := h.represented wayBack (by decide +kernel) (by decide +kernel)
    revert hkept
    decide +kernel

end TopologyFabric

import TopologyFabric.Merge.Merge

/-!
# Endpoints of Merged Edges

The merge keeps both bounds. Its edges join merged nodes as long as no edge names a group that was
dropped at the node bound: such a group is looked up with `operator[]`, so its refs resolve to the
null id instead of being unresolvable.

## Main results

- `mergeGroups_spec`: which groups get a node
- `refToId_find?`: what a ref resolves to
- `mergeEdges_eq`: the edges that the merge takes
- `mergeContributions_sound_iff`: exactly when the merged graph is closed
- `mergeContributions_unsound`: a contribution whose merged graph is not
-/

namespace TopologyFabric

open Library

/-! ## Which groups are dropped -/

/-- The distinct ids of the groups with the given keys. -/
def idsOf (keys : List Bytes) : Finset TopologyNodeId := (keys.map groupId).toFinset

/-- The keys of the groups that the contributions make. -/
def groupKeys (bounds : Bounds) (contributions : List Contribution) : List Bytes :=
  (ingest bounds contributions).1.keys

/-- The group with the key gets no node: the groups before it use all nodes that are allowed. -/
def GroupDropped (bounds : Bounds) (contributions : List Contribution) (key : Bytes) : Prop :=
  bounds.maxNodes ≤ (idsOf ((groupKeys bounds contributions).filter (· < key))).card

instance (bounds : Bounds) (contributions : List Contribution) (key : Bytes) :
    Decidable (GroupDropped bounds contributions key) :=
  inferInstanceAs (Decidable (_ ≤ _))

/-- The state after the groups with the keys `pre`, which come before all others. -/
structure GroupInv (bounds : Bounds) (pre : List Bytes) (s : GroupState) : Prop where
  room : (idsOf pre).card < bounds.maxNodes → s.nodes.keys.toFinset = idsOf pre
  full : bounds.maxNodes ≤ (idsOf pre).card → s.nodes.size = bounds.maxNodes
  ids : ∀ key, s.groupNodeId.find? key =
    if key ∈ pre ∧ (idsOf (pre.filter (· < key))).card < bounds.maxNodes then some (groupId key)
    else none
  present : ∀ key ∈ pre, (idsOf (pre.filter (· < key))).card < bounds.maxNodes →
    groupId key ∈ s.nodes.keys

theorem GroupInv.init (bounds : Bounds) (warnings : List Bytes) :
    GroupInv bounds [] { warnings := warnings } where
  room := fun _ => rfl
  full := by
    intro h
    have : bounds.maxNodes = 0 := by simpa [idsOf] using h
    rw [this]
    rfl
  ids := by
    intro key
    rw [if_neg (by simp)]
    rfl
  present := by simp

section GroupLoop

variable {bounds : Bounds} {pre : List Bytes} {s : GroupState} {key : Bytes}

private theorem filter_lt_snoc (hmax : ∀ k ∈ pre, k < key) {k : Bytes} (hk : k ∈ pre) :
    (pre ++ [key]).filter (· < k) = pre.filter (· < k) := by
  rw [List.filter_append]
  have : ¬ key < k := (hmax k hk).le.not_gt
  simp [this]

private theorem filter_lt_self (hmax : ∀ k ∈ pre, k < key) :
    (pre ++ [key]).filter (· < key) = pre := by
  rw [List.filter_append]
  have h : pre.filter (· < key) = pre := List.filter_eq_self.mpr fun k hk => by simpa using hmax k hk
  rw [h]
  simp

private theorem idsOf_snoc : idsOf (pre ++ [key]) = insert (groupId key) (idsOf pre) := by
  ext x
  simp [idsOf, eq_comm]

/-- Whether an earlier group has a node does not depend on the next one. -/
theorem kept_snoc_iff (hmax : ∀ k ∈ pre, k < key) {k : Bytes} (hk : k ≠ key) :
    (k ∈ pre ++ [key] ∧ (idsOf ((pre ++ [key]).filter (· < k))).card < bounds.maxNodes) ↔
      (k ∈ pre ∧ (idsOf (pre.filter (· < k))).card < bounds.maxNodes) := by
  constructor
  · rintro ⟨hmem, hcard⟩
    have hmem : k ∈ pre := by simpa [hk] using hmem
    exact ⟨hmem, by rwa [filter_lt_snoc hmax hmem] at hcard⟩
  · rintro ⟨hmem, hcard⟩
    exact ⟨List.mem_append_left _ hmem, by rwa [filter_lt_snoc hmax hmem]⟩

/-- Where there is room, the group gets a node. -/
theorem GroupInv.step_room (I : GroupInv bounds pre s) (hmax : ∀ k ∈ pre, k < key)
    (hroom : (idsOf pre).card < bounds.maxNodes) (members : List Member) :
    GroupInv bounds (pre ++ [key]) (mergeStep bounds s (key, members)) := by
  have hnew : key ∉ pre := fun h => lt_irrefl _ (hmax key h)
  have hkeys := I.room hroom
  have hsize : s.nodes.size < bounds.maxNodes := by
    rw [HashMap.size_eq_card_keys, hkeys]
    exact hroom
  -- the identifier of the group may be there already, then the node is dropped
  have hkeys' : (s.nodes.emplace (groupId key)
      (mergeGroup key (sortMembers members)).1).keys.toFinset = idsOf (pre ++ [key]) := by
    rw [HashMap.keys_emplace, idsOf_snoc, ← hkeys]
    split_ifs with h
    · exact (Finset.insert_eq_of_mem (List.mem_toFinset.mpr h)).symm
    · ext x
      simp
  rw [mergeStep_of_lt hsize]
  refine ⟨fun _ => hkeys', fun hfull => ?_, fun k => ?_, fun k hk hcard => ?_⟩
  · have hle : (idsOf (pre ++ [key])).card ≤ (idsOf pre).card + 1 := by
      rw [idsOf_snoc]
      exact Finset.card_insert_le _ _
    rw [HashMap.size_eq_card_keys, hkeys']
    omega
  · rw [HashMap.find?_emplace, I.ids key, I.ids k]
    by_cases hk : k = key
    · subst hk
      have hself : ((pre ++ [k]).filter (· < k)) = pre := filter_lt_self hmax
      simp [hnew, hself, hroom]
    · rw [if_neg hk]
      simp only [kept_snoc_iff hmax hk]
  · rw [← List.mem_toFinset, hkeys', idsOf]
    exact List.mem_toFinset.mpr (List.mem_map_of_mem hk)

/-- Where the nodes that are allowed are used up, the group is dropped with a warning. -/
theorem GroupInv.step_full (I : GroupInv bounds pre s) (hmax : ∀ k ∈ pre, k < key)
    (hfull : bounds.maxNodes ≤ (idsOf pre).card) (members : List Member) :
    GroupInv bounds (pre ++ [key]) (mergeStep bounds s (key, members)) := by
  have hnew : key ∉ pre := fun h => lt_irrefl _ (hmax key h)
  have hroom := not_lt.mpr hfull
  have hsize := I.full hfull
  have hsub : idsOf pre ⊆ idsOf (pre ++ [key]) := by
    rw [idsOf_snoc]
    exact Finset.subset_insert _ _
  have hfull' := hfull.trans (Finset.card_le_card hsub)
  -- a full merge drops the group
  rw [mergeStep_of_le hsize.ge]
  refine ⟨fun h => absurd hfull' (not_le.mpr h), fun _ => hsize, fun k => ?_, fun k hk hcard => ?_⟩
  · show s.groupNodeId.find? k = _
    rw [I.ids k]
    by_cases hk : k = key
    · subst hk
      have hself : ((pre ++ [k]).filter (· < k)) = pre := filter_lt_self hmax
      rw [if_neg (fun h => hnew h.1), hself, if_neg (fun h => hroom h.2)]
    · simp only [kept_snoc_iff hmax hk]
  · show groupId k ∈ s.nodes.keys
    by_cases hk' : k = key
    · subst hk'
      rw [filter_lt_self hmax] at hcard
      exact absurd hcard hroom
    · obtain ⟨hmem, hcard⟩ := (kept_snoc_iff hmax hk').mp ⟨hk, hcard⟩
      exact I.present k hmem hcard

/-- One group keeps the invariant: it gets a node iff there is room. -/
theorem GroupInv.step (I : GroupInv bounds pre s) (hmax : ∀ k ∈ pre, k < key)
    (members : List Member) : GroupInv bounds (pre ++ [key]) (mergeStep bounds s (key, members)) := by
  by_cases hroom : (idsOf pre).card < bounds.maxNodes
  · exact I.step_room hmax hroom members
  · exact I.step_full hmax (not_lt.mp hroom) members

theorem GroupInv.run {gs : List (Bytes × List Member)} (I : GroupInv bounds pre s)
    (hsorted : (pre ++ gs.map Prod.fst).Pairwise (· < ·)) :
    GroupInv bounds (pre ++ gs.map Prod.fst) (gs.foldl (mergeStep bounds) s) := by
  induction gs generalizing pre s with
  | nil => simpa using I
  | cons g gs ih =>
    have hmax : ∀ k ∈ pre, k < g.1 := fun k hk =>
      (List.pairwise_append.mp hsorted).2.2 k hk g.1 (by simp)
    have hassoc : pre ++ (g :: gs).map Prod.fst = (pre ++ [g.1]) ++ gs.map Prod.fst := by simp
    rw [hassoc] at hsorted ⊢
    exact ih (I.step hmax g.2) hsorted

end GroupLoop

section Spec

variable (order : IterationOrder) (bounds : Bounds) (contributions : List Contribution)

theorem orderedGroups_keys (groups : Groups) :
    ((orderedGroups order groups).map Prod.fst).Pairwise (· < ·) ∧
      ∀ key, key ∈ (orderedGroups order groups).map Prod.fst ↔ key ∈ groups.keys := by
  have hperm : (orderedGroups order groups).Perm groups.entries :=
    (List.perm_insertionSort _ _).trans (order.perm _ _)
  constructor
  · have hnd : ((orderedGroups order groups).map Prod.fst).Nodup :=
      (hperm.map Prod.fst).nodup_iff.mpr groups.nodup
    -- the order is strict because no two groups have one key
    have hle : ((orderedGroups order groups).map Prod.fst).Pairwise (· ≤ ·) := by
      rw [List.pairwise_map]
      have : IsTrans (Bytes × List Member) (fun a b => a.1 ≤ b.1) := ⟨fun _ _ _ => le_trans⟩
      have : Std.Total (fun a b : Bytes × List Member => a.1 ≤ b.1) := ⟨fun a b => le_total _ _⟩
      exact List.pairwise_insertionSort _ _
    exact (hle.and hnd).imp fun h => lt_of_le_of_ne h.1 h.2
  · intro key
    exact (hperm.map Prod.fst).mem_iff

/-- The final state of the loop over the groups. -/
def groupsMerged : GroupState :=
  mergeGroups order bounds (ingest bounds contributions).1 (ingest bounds contributions).2

/-- Which groups get a node, and that it is a node of the merged graph. -/
theorem mergeGroups_spec :
    (∀ key, (groupsMerged order bounds contributions).groupNodeId.find? key =
      if key ∈ groupKeys bounds contributions ∧ ¬ GroupDropped bounds contributions key then
        some (groupId key) else none) ∧
    (∀ key ∈ groupKeys bounds contributions, ¬ GroupDropped bounds contributions key →
      groupId key ∈ (groupsMerged order bounds contributions).nodes.keys) ∧
    (groupsMerged order bounds contributions).nodes.size ≤ bounds.maxNodes := by
  obtain ⟨hsorted, hmem⟩ := orderedGroups_keys order (ingest bounds contributions).1
  have I := (GroupInv.init bounds (ingest bounds contributions).2).run (by simpa using hsorted)
  rw [List.nil_append] at I
  have hids : ∀ key, idsOf (((orderedGroups order (ingest bounds contributions).1).map
      Prod.fst).filter (· < key)) = idsOf ((groupKeys bounds contributions).filter (· < key)) := by
    intro key
    ext x
    simp only [idsOf, List.mem_toFinset, List.mem_map, List.mem_filter]
    constructor
    · rintro ⟨k, ⟨hk, hlt⟩, rfl⟩
      exact ⟨k, ⟨(hmem k).mp (List.mem_map.mpr hk), hlt⟩, rfl⟩
    · rintro ⟨k, ⟨hk, hlt⟩, rfl⟩
      exact ⟨k, ⟨List.mem_map.mp ((hmem k).mpr hk), hlt⟩, rfl⟩
  -- the loop runs over the sorted groups, which have the keys of the table
  refine ⟨fun key => ?_, fun key hkey hdrop => ?_, ?_⟩
  · rw [groupsMerged, mergeGroups, I.ids key]
    simp only [GroupDropped, not_le, hids, hmem]
    rfl
  · refine I.present key ((hmem key).mpr hkey) ?_
    rw [hids]
    exact not_le.mp hdrop
  · rw [groupsMerged, mergeGroups]
    by_cases hroom : (idsOf ((orderedGroups order (ingest bounds contributions).1).map
        Prod.fst)).card < bounds.maxNodes
    · rw [HashMap.size_eq_card_keys, I.room hroom]
      exact hroom.le
    · exact (I.full (not_lt.mp hroom)).le

/-! ## What refs name -/

/-- The group that a ref names: a group with a node by its key, else the first group that declares
the ref. -/
def refGroup (ref : Bytes) : Option Bytes :=
  if ref ∈ groupKeys bounds contributions ∧ ¬ GroupDropped bounds contributions ref then some ref
  else ((refMap order (ingest bounds contributions).1).find?
    fun e => decide (e.ref = ref)).map RefEntry.key

/-- What the merge resolves refs with. -/
def mergedRefs : HashMap Bytes TopologyNodeId :=
  refToId order (ingest bounds contributions).1 (groupsMerged order bounds contributions).groupNodeId

/-- A ref resolves to the node of the group it names, and to the null id if that was dropped. -/
theorem refToId_find? (ref : Bytes) :
    (mergedRefs order bounds contributions).find? ref =
      (refGroup order bounds contributions ref).map fun key =>
        if GroupDropped bounds contributions key then kNullNodeId else groupId key := by
  obtain ⟨hids, -, -⟩ := mergeGroups_spec order bounds contributions
  have hkeys : ∀ e ∈ refMap order (ingest bounds contributions).1,
      e.key ∈ groupKeys bounds contributions := by
    intro e he
    obtain ⟨g, hg, he⟩ := List.mem_flatMap.mp he
    obtain ⟨m, _, rfl⟩ := List.mem_map.mp he
    exact HashMap.mem_keys_of_mem (HashMap.mem_reorder.mp hg)
  rw [mergedRefs, refToId, HashMap.find?_foldl_emplace, HashMap.find?_foldl_emplace]
  have hfirst : ((HashMap.empty : HashMap Bytes TopologyNodeId).find? ref).or
      ((((groupsMerged order bounds contributions).groupNodeId.reorder order).entries.find?
        fun e => decide (e.1 = ref)).map Prod.snd) =
      (groupsMerged order bounds contributions).groupNodeId.find? ref := by
    have hreorder :=
      HashMap.find?_reorder (groupsMerged order bounds contributions).groupNodeId order ref
    rw [← hreorder]
    rfl
  -- the keys of the groups come first and hide the refs with their names
  rw [hfirst, hids ref]
  unfold refGroup
  split_ifs with h
  · simp [h.2]
  · rw [Option.none_or, Option.map_map]
    cases hfind : (refMap order (ingest bounds contributions).1).find?
        fun e => decide (e.ref = ref) with
    | none => rfl
    | some e =>
      have hkey := hkeys e (List.mem_of_find?_eq_some hfind)
      simp only [Option.map_some, Function.comp, hids e.key, hkey, true_and]
      by_cases hdrop : GroupDropped bounds contributions e.key
      · simp [hdrop]
      · simp [hdrop]

theorem refGroup_mem {ref key : Bytes} (h : refGroup order bounds contributions ref = some key) :
    key ∈ groupKeys bounds contributions := by
  unfold refGroup at h
  split_ifs at h with hkept
  · exact Option.some.inj h ▸ hkept.1
  · obtain ⟨e, he, rfl⟩ := Option.map_eq_some_iff.mp h
    obtain ⟨g, hg, hmem⟩ := List.mem_flatMap.mp (List.mem_of_find?_eq_some he)
    obtain ⟨m, _, rfl⟩ := List.mem_map.mp hmem
    exact HashMap.mem_keys_of_mem (HashMap.mem_reorder.mp hg)

/-! ## Which edges are taken -/

/-- An element among the first `n` with a property has fewer than `n` of them before it. -/
theorem take_filter_split_iff {α : Type} {p : α → Bool} {l : List α} {n : ℕ} {pre : List α} {a : α} :
    (∃ post, (l.filter p).take n = pre ++ a :: post) ↔
      ∃ pre' post, l = pre' ++ a :: post ∧ p a = true ∧ pre'.filter p = pre ∧ pre.length < n := by
  constructor
  · rintro ⟨post, htake⟩
    have hlen : pre.length < n := by
      have := congrArg List.length htake
      simp only [List.length_take, List.length_append, List.length_cons] at this
      omega
    -- what was cut off is put back behind
    have hfilter : l.filter p = pre ++ a :: (post ++ (l.filter p).drop n) := by
      rw [← List.cons_append, ← List.append_assoc, ← htake, List.take_append_drop]
    obtain ⟨l₁, l₂, rfl, rfl, hrest⟩ := List.filter_eq_append_iff.mp hfilter
    obtain ⟨l₃, l₄, rfl, hnot, ha, -⟩ := List.filter_eq_cons_iff.mp hrest
    refine ⟨l₁ ++ l₃, l₄, by rw [List.append_assoc], ha, ?_, hlen⟩
    rw [List.filter_append, List.filter_eq_nil_iff.mpr hnot, List.append_nil]
  · rintro ⟨pre', post, rfl, ha, rfl, hlen⟩
    obtain ⟨k, hk⟩ : ∃ k, n - (pre'.filter p).length = k + 1 := ⟨_, (Nat.succ_pred_eq_of_pos
      (Nat.sub_pos_of_lt hlen)).symm⟩
    refine ⟨(post.filter p).take k, ?_⟩
    rw [List.filter_append, List.filter_cons_of_pos ha, List.take_append, hk, List.take_succ_cons,
      List.take_of_length_le hlen.le]

/-- Both refs of the edge name groups. -/
def Resolvable (ce : ContributedEdge) : Prop :=
  (refGroup order bounds contributions ce.fromRef).isSome = true ∧
    (refGroup order bounds contributions ce.toRef).isSome = true

instance (ce : ContributedEdge) : Decidable (Resolvable order bounds contributions ce) :=
  inferInstanceAs (Decidable (_ ∧ _))

/-- A ref of the edge names a group that got no node. -/
def NamesDropped (ce : ContributedEdge) : Prop :=
  ∃ key, (refGroup order bounds contributions ce.fromRef = some key ∨
    refGroup order bounds contributions ce.toRef = some key) ∧
      GroupDropped bounds contributions key

/-- All contributed edges in the order in which they are read. -/
def contributedEdges : List ContributedEdge := contributions.flatMap Contribution.edges

/-- The edges that the merge takes: the resolvable ones up to the edge bound. -/
def takenEdges : List ContributedEdge :=
  ((contributedEdges contributions).filter fun ce =>
    decide (Resolvable order bounds contributions ce)).take bounds.maxEdges

/-- The merged edge that a taken edge becomes. -/
def mergedEdge (ce : ContributedEdge) : TopologyEdge :=
  makeEdge ce (((mergedRefs order bounds contributions).find? ce.fromRef).getD kNullNodeId)
    (((mergedRefs order bounds contributions).find? ce.toRef).getD kNullNodeId)

theorem resolvable_iff (ce : ContributedEdge) :
    Resolvable order bounds contributions ce ↔
      ((mergedRefs order bounds contributions).find? ce.fromRef).isSome = true ∧
        ((mergedRefs order bounds contributions).find? ce.toRef).isSome = true := by
  rw [refToId_find?, refToId_find?, Option.isSome_map, Option.isSome_map, Resolvable]

/-- The edges of one contribution: the resolvable ones, as far as the bound allows. -/
theorem resolveEdges_eq (l : List ContributedEdge) (edges : List TopologyEdge)
    (warnings : List Bytes) :
    (resolveEdges bounds (mergedRefs order bounds contributions) l (edges, warnings)).1 =
      edges ++ ((l.filter fun ce => decide (Resolvable order bounds contributions ce)).take
        (bounds.maxEdges - edges.length)).map (mergedEdge order bounds contributions) := by
  induction l generalizing edges warnings with
  | nil => simp [resolveEdges]
  | cons ce l ih =>
    have hres := resolvable_iff order bounds contributions ce
    unfold resolveEdges
    cases hsource : (mergedRefs order bounds contributions).find? ce.fromRef with
    | none =>
      -- an edge that is skipped takes no room
      have hno : ¬ Resolvable order bounds contributions ce := by
        rw [hres, hsource]
        simp
      rw [List.filter_cons_of_neg (by simpa using hno)]
      exact ih _ _
    | some source =>
      cases htarget : (mergedRefs order bounds contributions).find? ce.toRef with
      | none =>
        have hno : ¬ Resolvable order bounds contributions ce := by
          rw [hres, htarget]
          simp
        rw [List.filter_cons_of_neg (by simpa using hno)]
        exact ih _ _
      | some target =>
        have hyes : Resolvable order bounds contributions ce := by
          rw [hres, hsource, htarget]
          simp
        rw [List.filter_cons_of_pos (by simpa using hyes)]
        simp only
        split_ifs with hfull
        · have : bounds.maxEdges - edges.length = 0 := by omega
          simp [this]
        · obtain ⟨n, hn⟩ : ∃ n, bounds.maxEdges - edges.length = n + 1 :=
            ⟨bounds.maxEdges - edges.length - 1, by omega⟩
          have hn' : bounds.maxEdges - (edges.length + 1) = n := by omega
          rw [ih, List.length_append, List.length_singleton, hn', hn, List.take_succ_cons,
            List.map_cons, List.append_assoc]
          simp [mergedEdge, hsource, htarget]

/-- The edges of all contributions before identical ones are removed. -/
theorem mergeEdges_eq :
    (mergeContributions order contributions bounds).edges =
      dedupEdges ((takenEdges order bounds contributions).map
        (mergedEdge order bounds contributions)) := by
  -- the loop stops taking edges when the bound is reached, so it takes the first that are resolved
  have hfold : ∀ (cs : List Contribution) (acc : List TopologyEdge × List Bytes),
      (cs.foldl (fun acc c =>
        resolveEdges bounds (mergedRefs order bounds contributions) c.edges acc) acc).1 =
      acc.1 ++ (((cs.flatMap Contribution.edges).filter fun ce =>
        decide (Resolvable order bounds contributions ce)).take
          (bounds.maxEdges - acc.1.length)).map (mergedEdge order bounds contributions) := by
    intro cs
    induction cs with
    | nil => intro acc; simp
    | cons c cs ih =>
      rintro ⟨edges, warnings⟩
      rw [List.foldl_cons, ih, resolveEdges_eq, List.flatMap_cons, List.filter_append,
        List.take_append, List.map_append, List.append_assoc]
      congr 4
      simp only [List.length_append, List.length_map, List.length_take]
      omega
  have h := hfold contributions ([], (groupsMerged order bounds contributions).warnings)
  rw [List.nil_append, List.length_nil, Nat.sub_zero] at h
  exact congrArg dedupEdges h

end Spec

/-! ## Deduplication -/

/-- The last edge of a list is kept unless an edge with its key has been kept before. -/
theorem dedupEdges_concat (l : List TopologyEdge) (e : TopologyEdge) :
    dedupEdges (l ++ [e]) = if e.key ∈ (dedupEdges l).map TopologyEdge.key then dedupEdges l
      else dedupEdges l ++ [e] := by
  -- the set of the keys seen shows the edges kept
  have hseen : ∀ (l : List TopologyEdge) (k : EdgeKey),
      k ∈ (l.foldl (fun s e => if e.key ∈ s.1 then s else (e.key :: s.1, s.2 ++ [e]))
        (([] : List EdgeKey), [])).1 ↔ k ∈ (dedupEdges l).map TopologyEdge.key := by
    intro l k
    unfold dedupEdges
    induction l using List.reverseRecOn with
    | nil => simp
    | append_singleton l e ih =>
      rw [List.foldl_append, List.foldl_cons, List.foldl_nil]
      split_ifs
      · exact ih
      · rw [List.mem_cons, ih, List.map_append, List.mem_append, or_comm]
        simp
  simp only [← hseen]
  unfold dedupEdges
  rw [List.foldl_append, List.foldl_cons, List.foldl_nil]
  split_ifs <;> rfl

/-- One edge is kept for every key. -/
theorem mem_map_key_dedupEdges {l : List TopologyEdge} {k : EdgeKey} :
    k ∈ (dedupEdges l).map TopologyEdge.key ↔ k ∈ l.map TopologyEdge.key := by
  induction l using List.reverseRecOn with
  | nil => rfl
  | append_singleton l e ih =>
    rw [dedupEdges_concat, List.map_append, List.mem_append, List.map_singleton,
      List.mem_singleton, ← ih]
    split_ifs with hkey
    · exact ⟨Or.inl, fun h => h.elim id fun h => h ▸ hkey⟩
    · rw [List.map_append, List.mem_append, List.map_singleton, List.mem_singleton]

theorem nodup_dedupEdges (l : List TopologyEdge) :
    ((dedupEdges l).map TopologyEdge.key).Nodup := by
  induction l using List.reverseRecOn with
  | nil => exact List.nodup_nil
  | append_singleton l e ih =>
    rw [dedupEdges_concat]
    split_ifs with hkey
    · exact ih
    · rw [List.map_append, List.map_singleton]
      exact ih.append (List.nodup_singleton _) (by simpa using hkey)

theorem dedupEdges_sublist (l : List TopologyEdge) : (dedupEdges l).Sublist l := by
  induction l using List.reverseRecOn with
  | nil => exact List.Sublist.refl _
  | append_singleton l e ih =>
    rw [dedupEdges_concat]
    split_ifs
    · exact ih.trans (List.sublist_append_left _ _)
    · exact ih.append (List.Sublist.refl _)

/-- The edges that are kept are the first ones with their keys. -/
theorem mem_dedupEdges {l : List TopologyEdge} {e : TopologyEdge} : e ∈ dedupEdges l ↔
    ∃ pre post, l = pre ++ e :: post ∧ ∀ e' ∈ pre, e'.key ≠ e.key := by
  induction l using List.reverseRecOn with
  | nil => simp [dedupEdges]
  | append_singleton l x ih =>
    -- the last edge is kept if its key is new
    have hkept : e ∈ dedupEdges (l ++ [x]) ↔ e ∈ dedupEdges l ∨
        x.key ∉ l.map TopologyEdge.key ∧ e = x := by
      simp only [dedupEdges_concat, mem_map_key_dedupEdges]
      split_ifs with hkey <;> simp [hkey]
    rw [hkept, ih]
    constructor
    · rintro (⟨pre, post, rfl, hpre⟩ | ⟨hkey, rfl⟩)
      · exact ⟨pre, post ++ [x], by simp, hpre⟩
      · exact ⟨l, [], rfl, fun e' he' heq => hkey (List.mem_map.mpr ⟨e', he', heq⟩)⟩
    · rintro ⟨pre, post, hsplit, hpre⟩
      rcases List.eq_nil_or_concat post with rfl | ⟨post, y, rfl⟩
      · obtain ⟨rfl, hx⟩ := List.append_inj' hsplit rfl
        obtain rfl := List.singleton_inj.mp hx
        refine Or.inr ⟨fun h => ?_, rfl⟩
        obtain ⟨e', he', heq⟩ := List.mem_map.mp h
        exact hpre e' he' heq
      · rw [List.concat_eq_append, ← List.cons_append, ← List.append_assoc] at hsplit
        obtain ⟨rfl, -⟩ := List.append_inj' hsplit rfl
        exact Or.inl ⟨pre, post, rfl, hpre⟩

/-! ## Soundness of the merged graph -/

/-- What the merge promises: both bounds hold, the edges join merged nodes, and no edge that names
a dropped group is taken. -/
structure MergeSound (order : IterationOrder) (contributions : List Contribution)
    (bounds : Bounds) : Prop where
  nodes_le : (mergeContributions order contributions bounds).nodes.size ≤ bounds.maxNodes
  edges_le : (mergeContributions order contributions bounds).edges.length ≤ bounds.maxEdges
  endpoints : ∀ e ∈ (mergeContributions order contributions bounds).edges,
    e.source ∈ (mergeContributions order contributions bounds).nodes.keys ∧
      e.target ∈ (mergeContributions order contributions bounds).nodes.keys
  dropped : ∀ ce ∈ takenEdges order bounds contributions,
    ¬ NamesDropped order bounds contributions ce

/-- Every resolvable edge that names a dropped group comes after as many resolvable edges as the
edge bound allows. -/
def DroppedComeLate (order : IterationOrder) (contributions : List Contribution)
    (bounds : Bounds) : Prop :=
  ∀ pre ce post, contributedEdges contributions = pre ++ ce :: post →
    Resolvable order bounds contributions ce → NamesDropped order bounds contributions ce →
    bounds.maxEdges ≤
      (pre.filter fun ce => decide (Resolvable order bounds contributions ce)).length

section Soundness

variable {order : IterationOrder} {bounds : Bounds} {contributions : List Contribution}

/-- The bounds hold for every input. -/
theorem mergeContributions_bounds :
    (mergeContributions order contributions bounds).nodes.size ≤ bounds.maxNodes ∧
      (mergeContributions order contributions bounds).edges.length ≤ bounds.maxEdges := by
  refine ⟨(mergeGroups_spec order bounds contributions).2.2, ?_⟩
  rw [mergeEdges_eq]
  refine (dedupEdges_sublist _).length_le.trans ?_
  rw [List.length_map]
  exact List.length_take_le _ _

/-- The merged nodes are filed under their ids. -/
theorem mergeContributions_keyed :
    ∀ e ∈ (mergeContributions order contributions bounds).nodes.entries, e.2.id = e.1 := by
  have hfold : ∀ (gs : List (Bytes × List Member)) (s : GroupState),
      (∀ e ∈ s.nodes.entries, e.2.id = e.1) →
      ∀ e ∈ (gs.foldl (mergeStep bounds) s).nodes.entries, e.2.id = e.1 := by
    intro gs
    induction gs with
    | nil => exact fun s hs => hs
    | cons g gs ih =>
      intro s hs
      refine ih _ fun e he => ?_
      unfold mergeStep at he
      simp only at he
      split at he
      · exact hs e he
      · rcases HashMap.mem_entries_emplace.mp he with he | ⟨-, rfl⟩
        · exact hs e he
        · rfl
  exact hfold _ _ fun e he => absurd he List.not_mem_nil

/-- An edge that is taken and names no dropped group joins merged nodes. -/
theorem mergedEdge_endpoints {ce : ContributedEdge}
    (htaken : ce ∈ takenEdges order bounds contributions)
    (hnot : ¬ NamesDropped order bounds contributions ce) :
    (mergedEdge order bounds contributions ce).source ∈
        (mergeContributions order contributions bounds).nodes.keys ∧
      (mergedEdge order bounds contributions ce).target ∈
        (mergeContributions order contributions bounds).nodes.keys := by
  have hres : Resolvable order bounds contributions ce := by
    simpa using (List.mem_filter.mp (List.mem_of_mem_take htaken)).2
  -- a reference resolves to the node of its group, which is there unless it was dropped
  have hend : ∀ ref key, refGroup order bounds contributions ref = some key →
      ¬ GroupDropped bounds contributions key →
      ((mergedRefs order bounds contributions).find? ref).getD kNullNodeId ∈
        (mergeContributions order contributions bounds).nodes.keys := by
    intro ref key href hdrop
    rw [refToId_find?, href, Option.map_some, if_neg hdrop, Option.getD_some]
    exact (mergeGroups_spec order bounds contributions).2.1 key
      (refGroup_mem order bounds contributions href) hdrop
  obtain ⟨source, hsource⟩ := Option.isSome_iff_exists.mp hres.1
  obtain ⟨target, htarget⟩ := Option.isSome_iff_exists.mp hres.2
  exact ⟨hend _ source hsource fun h => hnot ⟨source, Or.inl hsource, h⟩,
    hend _ target htarget fun h => hnot ⟨target, Or.inr htarget, h⟩⟩

/-- Taking no edge that names a dropped group is a condition on the order of the edges. -/
theorem not_namesDropped_iff :
    (∀ ce ∈ takenEdges order bounds contributions, ¬ NamesDropped order bounds contributions ce) ↔
      DroppedComeLate order contributions bounds := by
  constructor
  · intro h pre ce post hsplit hres hnames
    by_contra hlate
    obtain ⟨post', htaken⟩ := take_filter_split_iff.mpr
      ⟨pre, post, hsplit, decide_eq_true hres, rfl, not_le.mp hlate⟩
    refine h ce ?_ hnames
    rw [takenEdges, htaken]
    simp
  · intro h ce htaken hnames
    obtain ⟨pre', post', hsplit'⟩ := List.append_of_mem htaken
    obtain ⟨pre, post, hsplit, hres, rfl, hlen⟩ := take_filter_split_iff.mp ⟨post', hsplit'⟩
    exact absurd (h pre ce post hsplit (of_decide_eq_true hres) hnames) (not_le.mpr hlen)

/-- **When the merged graph is closed**: the merge keeps its promise iff every resolvable edge
that names a dropped group comes too late to be taken. -/
theorem mergeContributions_sound_iff :
    MergeSound order contributions bounds ↔ DroppedComeLate order contributions bounds := by
  rw [← not_namesDropped_iff]
  constructor
  · intro h
    exact h.dropped
  · intro h
    refine ⟨mergeContributions_bounds.1, mergeContributions_bounds.2, fun e he => ?_, h⟩
    rw [mergeEdges_eq] at he
    obtain ⟨ce, hce, rfl⟩ := List.mem_map.mp ((dedupEdges_sublist _).subset he)
    exact mergedEdge_endpoints hce (h ce hce)

end Soundness

/-- Two machines and an edge between them, where one node is allowed. -/
def overflowContribution : Contribution where
  nodes := [{ ref := str "a", native := { machineName := str "a" } },
    { ref := str "b", native := { machineName := str "b" } }]
  edges := [{ fromRef := str "a", toRef := str "b" }]

/-- The second machine gets no node, and the edge to it is kept with a null end. -/
theorem mergeContributions_unsound :
    ¬ MergeSound IterationOrder.insertion [overflowContribution] { maxNodes := 1 } := by
  intro h
  have hends := h.endpoints
  revert hends
  decide +kernel

end TopologyFabric

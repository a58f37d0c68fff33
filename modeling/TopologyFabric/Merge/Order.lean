import TopologyFabric.Merge.Groups

/-!
# Iteration Order and the Merge

The groups are sorted before they are merged, so the nodes do not depend on the order in which hash
maps are iterated. The refs do: the first group that declares a ref is the first one in iteration
order, not in the order of the contributions.

## Main results

- `ingest_groups`: ingestion groups some of the contributed nodes
- `mergeContributions_eq`: the merge depends on the order through the refs only
- `mergeContributions_deterministic_iff`: when the merge is deterministic
- `mergeContributions_nondeterministic`: two groups that declare one ref
-/

namespace TopologyFabric

open Library

/-! ## The members that are ingested -/

/-- The contributed nodes that get into a group. -/
def ingestedMembers (bounds : Bounds) (contributions : List Contribution) : List Member :=
  (ingest bounds contributions).1.entries.flatMap Prod.snd

section Ingested

variable {bounds : Bounds} {contributions : List Contribution}

theorem ingestNodes_groups (bounds : Bounds) (ci idx : ℕ) (nodes : List ContributedNode)
    (ms : List Member) (warnings : List Bytes) : ∃ l, l.Sublist (nodeMembers ci idx nodes) ∧
      (ingestNodes bounds ci idx nodes (groupBy Member.key ms, warnings)).1 =
        groupBy Member.key (ms ++ l) := by
  induction nodes generalizing idx ms with
  | nil => exact ⟨[], List.Sublist.refl _, by simp [ingestNodes]⟩
  | cons cn nodes ih =>
    have hone : (groupBy Member.key ms).upsert (groupKey cn) [] (· ++ [⟨cn, ci, idx⟩]) =
        groupBy Member.key (ms ++ [⟨cn, ci, idx⟩]) :=
      (groupBy_concat Member.key ms ⟨cn, ci, idx⟩).symm
    rw [nodeMembers_cons, ingestNodes]
    simp only [hone]
    split_ifs
    · exact ⟨[⟨cn, ci, idx⟩], by simp, rfl⟩
    · obtain ⟨l, hl, heq⟩ := ih (idx + 1) (ms ++ [⟨cn, ci, idx⟩])
      exact ⟨⟨cn, ci, idx⟩ :: l, hl.cons_cons _, by rw [heq, List.append_assoc]; rfl⟩

/-- Ingestion groups some of the contributed nodes by their key. -/
theorem ingest_groups (bounds : Bounds) (contributions : List Contribution) :
    ∃ l, l.Sublist (contributedMembers contributions) ∧
      (ingest bounds contributions).1 = groupBy Member.key l := by
  -- the contributions one by one, with the members so far
  have hfold : ∀ (cs : List Contribution) (ci : ℕ) (ms : List Member) (warnings : List Bytes),
      ∃ l, l.Sublist (membersFrom ci cs) ∧
        ((cs.zipIdx ci).foldl (fun s c => ingestNodes bounds c.2 0 c.1.nodes s)
          (groupBy Member.key ms, warnings)).1 = groupBy Member.key (ms ++ l) := by
    intro cs
    induction cs with
    | nil => exact fun ci ms warnings => ⟨[], List.Sublist.refl _, by simp⟩
    | cons c cs ih =>
      intro ci ms warnings
      obtain ⟨l, hl, heq⟩ := ingestNodes_groups bounds ci 0 c.nodes ms warnings
      obtain ⟨l', hl', heq'⟩ := ih (ci + 1) (ms ++ l)
        (ingestNodes bounds ci 0 c.nodes (groupBy Member.key ms, warnings)).2
      refine ⟨l ++ l', ?_, ?_⟩
      · rw [membersFrom_cons]
        exact hl.append hl'
      · rw [List.zipIdx_cons, List.foldl_cons, ← List.append_assoc, ← heq', ← heq]
  exact hfold contributions 0 [] []

/-- A member of a group has the key of the group. -/
theorem key_of_mem_group {g : Bytes × List Member}
    (hg : g ∈ (ingest bounds contributions).1.entries) {m : Member} (hm : m ∈ g.2) :
    m.key = g.1 := by
  obtain ⟨l, -, hl⟩ := ingest_groups bounds contributions
  rw [hl] at hg
  obtain ⟨-, hmembers⟩ := (mem_groupBy Member.key).mp (show (g.1, g.2) ∈ _ from hg)
  rw [hmembers] at hm
  exact of_decide_eq_true (List.mem_filter.mp hm).2

theorem ingestedMembers_subset {m : Member} (hm : m ∈ ingestedMembers bounds contributions) :
    m ∈ contributedMembers contributions := by
  obtain ⟨l, hsub, hl⟩ := ingest_groups bounds contributions
  obtain ⟨g, hg, hm⟩ := List.mem_flatMap.mp hm
  rw [hl] at hg
  obtain ⟨-, hmembers⟩ := (mem_groupBy Member.key).mp (show (g.1, g.2) ∈ _ from hg)
  rw [hmembers] at hm
  exact hsub.subset (List.mem_filter.mp hm).1

/-- The ref table is made of the refs of the ingested members. -/
theorem mem_refMap {order : IterationOrder} {e : RefEntry} :
    e ∈ refMap order (ingest bounds contributions).1 ↔
      ∃ m ∈ ingestedMembers bounds contributions, e = ⟨m.ci, m.node.ref, m.key⟩ := by
  simp only [refMap, ingestedMembers, List.mem_flatMap, List.mem_map, HashMap.mem_reorder]
  constructor
  · rintro ⟨g, hg, m, hm, rfl⟩
    exact ⟨m, ⟨g, hg, hm⟩, by rw [key_of_mem_group hg hm]⟩
  · rintro ⟨m, ⟨g, hg, hm⟩, rfl⟩
    exact ⟨g, hg, m, hm, by rw [key_of_mem_group hg hm]⟩

/-! ### Within the node bound -/

theorem mem_groupKeys_within (h : WithinNodes bounds contributions) {key : Bytes} :
    key ∈ groupKeys bounds contributions ↔ key ∈ contributedKeys contributions := by
  rw [groupKeys, ingest_eq_groupBy h, mem_keys_groupBy]
  rfl

theorem mem_ingestedMembers_within (h : WithinNodes bounds contributions) {m : Member} :
    m ∈ ingestedMembers bounds contributions ↔ m ∈ contributedMembers contributions := by
  refine ⟨ingestedMembers_subset, fun hm => ?_⟩
  rw [ingestedMembers, ingest_eq_groupBy h]
  refine List.mem_flatMap.mpr ⟨(m.key, groupMembers contributions m.key), ?_, ?_⟩
  · exact (mem_groupBy Member.key).mpr ⟨List.mem_map_of_mem hm, rfl⟩
  · exact mem_groupMembers.mpr ⟨hm, rfl⟩

/-- Within the node bound no group is dropped. -/
theorem not_groupDropped (h : WithinNodes bounds contributions) {key : Bytes}
    (hkey : key ∈ contributedKeys contributions) : ¬ GroupDropped bounds contributions key := by
  -- the groups in front are fewer than all groups, for this one is not in front of itself
  have hlt : ((groupKeys bounds contributions).filter (· < key)).toFinset.card <
      (contributedKeys contributions).toFinset.card := by
    refine Finset.card_lt_card ⟨fun k hk => ?_, fun hsub => ?_⟩
    · have hk := (List.mem_filter.mp (List.mem_toFinset.mp hk)).1
      exact List.mem_toFinset.mpr ((mem_groupKeys_within h).mp hk)
    · have hself := hsub (List.mem_toFinset.mpr hkey)
      exact absurd (List.mem_filter.mp (List.mem_toFinset.mp hself)).2 (by simp)
  -- two groups may share an identifier, but never the other way
  have hids : (idsOf ((groupKeys bounds contributions).filter (· < key))).card ≤
      ((groupKeys bounds contributions).filter (· < key)).toFinset.card := by
    have himage : idsOf ((groupKeys bounds contributions).filter (· < key)) =
        ((groupKeys bounds contributions).filter (· < key)).toFinset.image groupId := by
      ext id
      simp [idsOf]
    rw [himage]
    exact Finset.card_image_le
  exact not_le.mpr (lt_of_le_of_lt hids (lt_of_lt_of_le hlt h))

end Ingested

/-! ## What a ref resolves to -/

/-- What is recorded for a group: its id, or the null id if it was dropped. -/
def recordedId (bounds : Bounds) (contributions : List Contribution) (key : Bytes) :
    TopologyNodeId :=
  if GroupDropped bounds contributions key then kNullNodeId else groupId key

/-- The ref is the key of a group with a node. -/
def NamesGroup (bounds : Bounds) (contributions : List Contribution) (ref : Bytes) : Prop :=
  ref ∈ groupKeys bounds contributions ∧ ¬ GroupDropped bounds contributions ref

instance (bounds : Bounds) (contributions : List Contribution) (ref : Bytes) :
    Decidable (NamesGroup bounds contributions ref) := inferInstanceAs (Decidable (_ ∧ _))

/-- `m` is the first ingested node, in contribution order, that declares the ref. -/
def FirstDeclarer (bounds : Bounds) (contributions : List Contribution) (ref : Bytes)
    (m : Member) : Prop :=
  IsFirst ReadBefore (ingestedMembers bounds contributions) (fun m => m.node.ref = ref) m

section Resolve

variable {order order' : IterationOrder} {bounds : Bounds} {contributions : List Contribution}
  {ref : Bytes}

theorem refGroup_of_names (h : NamesGroup bounds contributions ref) :
    refGroup order bounds contributions ref = some ref := if_pos h

theorem refGroup_of_not_names (h : ¬ NamesGroup bounds contributions ref) :
    refGroup order bounds contributions ref =
      ((refMap order (ingest bounds contributions).1).find? fun e => decide (e.ref = ref)).map
        RefEntry.key := if_neg h

/-- A ref that is the key of a group with a node resolves to that node. -/
theorem find?_mergedRefs_of_names (h : NamesGroup bounds contributions ref) :
    (mergedRefs order bounds contributions).find? ref = some (groupId ref) := by
  rw [refToId_find?, refGroup_of_names h, Option.map_some, if_neg h.2]

/-- Any other ref resolves to a group that declares it, if there is one. -/
theorem find?_mergedRefs_of_not_names (order : IterationOrder)
    (h : ¬ NamesGroup bounds contributions ref) :
    (∃ m ∈ ingestedMembers bounds contributions, m.node.ref = ref ∧
      (mergedRefs order bounds contributions).find? ref =
        some (recordedId bounds contributions m.key)) ∨
    ((∀ m ∈ ingestedMembers bounds contributions, m.node.ref ≠ ref) ∧
      (mergedRefs order bounds contributions).find? ref = none) := by
  rw [refToId_find?, refGroup_of_not_names h]
  cases hfind : (refMap order (ingest bounds contributions).1).find?
      fun e => decide (e.ref = ref) with
  | some e =>
    obtain ⟨m, hm, rfl⟩ := mem_refMap.mp (List.mem_of_find?_eq_some hfind)
    have href := List.find?_some hfind
    exact Or.inl ⟨m, hm, by simpa using href, rfl⟩
  | none =>
    refine Or.inr ⟨fun m hm href => ?_, rfl⟩
    exact List.find?_eq_none.mp hfind _ (mem_refMap.mpr ⟨m, hm, rfl⟩) (decide_eq_true href)

/-- In some iteration order the group of a given member comes first. -/
theorem exists_order_first {m : Member} (hm : m ∈ ingestedMembers bounds contributions)
    (h : ¬ NamesGroup bounds contributions m.node.ref) : ∃ order : IterationOrder,
      (mergedRefs order bounds contributions).find? m.node.ref =
        some (recordedId bounds contributions m.key) := by
  obtain ⟨g, hg, hmg⟩ := List.mem_flatMap.mp hm
  obtain ⟨order, gs, hentries⟩ := HashMap.exists_reorder_cons _ hg
  refine ⟨order, ?_⟩
  rw [refToId_find?, refGroup_of_not_names h, refMap, hentries, List.flatMap_cons]
  have hfind : ∃ e, (g.2.map fun m => (⟨m.ci, m.node.ref, g.1⟩ : RefEntry)).find?
      (fun e => decide (e.ref = m.node.ref)) = some e := by
    rw [← Option.isSome_iff_exists, List.find?_isSome]
    exact ⟨_, List.mem_map_of_mem hmg, by simp⟩
  obtain ⟨e, he⟩ := hfind
  obtain ⟨m', -, rfl⟩ := List.mem_map.mp (List.mem_of_find?_eq_some he)
  rw [List.find?_append, he, Option.some_or, Option.map_some, Option.map_some,
    key_of_mem_group hg hmg]
  rfl

/-- A ref that some node declares has a first declarer. -/
theorem exists_firstDeclarer {m : Member} (hm : m ∈ ingestedMembers bounds contributions)
    (href : m.node.ref = ref) : ∃ m, FirstDeclarer bounds contributions ref m := by
  classical
  -- the contributed nodes are listed in contribution order, so the search finds the first one
  cases hfind : (contributedMembers contributions).find? fun m =>
      decide (m ∈ ingestedMembers bounds contributions ∧ m.node.ref = ref) with
  | none =>
    exact absurd (decide_eq_true (⟨hm, href⟩ : _ ∧ _))
      (List.find?_eq_none.mp hfind m (ingestedMembers_subset hm))
  | some m' =>
    have hfirst := isFirst_of_find? (membersFrom_positions 0 contributions) hfind
    have hholds := of_decide_eq_true hfirst.holds
    refine ⟨m', hholds.1, hholds.2, fun b hb hbref => ?_⟩
    exact hfirst.first b (ingestedMembers_subset hb) (decide_eq_true ⟨hb, hbref⟩)

/-! ## The order matters through the refs only -/

theorem resolveEdges_congr {ids ids' : HashMap Bytes TopologyNodeId}
    (h : ∀ ref, ids.find? ref = ids'.find? ref) (l : List ContributedEdge)
    (s : List TopologyEdge × List Bytes) :
    resolveEdges bounds ids l s = resolveEdges bounds ids' l s := by
  induction l generalizing s with
  | nil => rfl
  | cons ce l ih =>
    obtain ⟨edges, warnings⟩ := s
    simp only [resolveEdges, h, ih]

theorem groupsMerged_congr :
    groupsMerged order bounds contributions = groupsMerged order' bounds contributions := by
  rw [groupsMerged, groupsMerged, mergeGroups, mergeGroups, orderedGroups_congr]

/-- The resolved edges with the warnings of the merge. -/
def resolvedEdges (order : IterationOrder) (bounds : Bounds) (contributions : List Contribution) :
    List TopologyEdge × List Bytes :=
  contributions.foldl (fun acc c =>
    resolveEdges bounds (mergedRefs order bounds contributions) c.edges acc)
    ([], (groupsMerged order bounds contributions).warnings)

/-- The parts of a merged graph. -/
theorem mergeContributions_parts (order : IterationOrder) (bounds : Bounds)
    (contributions : List Contribution) : mergeContributions order contributions bounds =
      { nodes := (groupsMerged order bounds contributions).nodes
        edges := dedupEdges (resolvedEdges order bounds contributions).1
        warnings := (resolvedEdges order bounds contributions).2
        conflicts := (groupsMerged order bounds contributions).conflicts
        mergedCount := (contributions.map fun c => c.nodes.length).sum } := rfl

/-- Two orders in which all refs resolve to the same ids give the same merged graph. -/
theorem mergeContributions_eq (h : ∀ ref, (mergedRefs order bounds contributions).find? ref =
      (mergedRefs order' bounds contributions).find? ref) :
    mergeContributions order contributions bounds =
      mergeContributions order' contributions bounds := by
  have hgroups : groupsMerged order bounds contributions =
      groupsMerged order' bounds contributions := groupsMerged_congr
  have hedges : resolvedEdges order bounds contributions =
      resolvedEdges order' bounds contributions := by
    rw [resolvedEdges, resolvedEdges, hgroups]
    simp only [resolveEdges_congr h]
  rw [mergeContributions_parts, mergeContributions_parts, hgroups, hedges]

end Resolve

/-! ## Determinism -/

/-- The merge gives the same result in all iteration orders, and a ref that nodes of two groups
declare resolves to the group of its first declarer. -/
structure MergeDeterministic (bounds : Bounds) (contributions : List Contribution) : Prop where
  result : ∀ order order' : IterationOrder, mergeContributions order contributions bounds =
    mergeContributions order' contributions bounds
  refs : ∀ (order : IterationOrder) (ref : Bytes) (m : Member),
    FirstDeclarer bounds contributions ref m →
    (∃ m' ∈ ingestedMembers bounds contributions, m'.node.ref = ref ∧ m'.key ≠ m.key) →
    (mergedRefs order bounds contributions).find? ref =
      some (recordedId bounds contributions m.key)

/-- If nodes of two groups declare a ref, then for the group of the first declarer the same id is
recorded as for the group that the ref is the key of, or else as for the other group. -/
def RefsUnambiguous (bounds : Bounds) (contributions : List Contribution) : Prop :=
  ∀ (ref : Bytes) (m m' : Member), FirstDeclarer bounds contributions ref m →
    m' ∈ ingestedMembers bounds contributions → m'.node.ref = ref → m'.key ≠ m.key →
      recordedId bounds contributions m.key =
        if NamesGroup bounds contributions ref then groupId ref
        else recordedId bounds contributions m'.key

section Determinism

variable {bounds : Bounds} {contributions : List Contribution}

/-- Where refs are unambiguous, every order resolves a ref as its first declarer says. -/
theorem find?_mergedRefs_of_unambiguous (h : RefsUnambiguous bounds contributions)
    (order : IterationOrder) {ref : Bytes} (hnames : ¬ NamesGroup bounds contributions ref)
    {m : Member} (hfirst : FirstDeclarer bounds contributions ref m) :
    (mergedRefs order bounds contributions).find? ref =
      some (recordedId bounds contributions m.key) := by
  rcases find?_mergedRefs_of_not_names order hnames with
    ⟨m', hm', href, hfind⟩ | ⟨hnone, -⟩
  · rw [hfind]
    by_cases hkey : m'.key = m.key
    · rw [hkey]
    · rw [h ref m m' hfirst hm' href hkey, if_neg hnames]
  · exact absurd hfirst.holds (hnone m hfirst.mem)

/-- **When the merge is deterministic**: iff the groups that declare one ref agree on it. -/
theorem mergeContributions_deterministic_iff :
    MergeDeterministic bounds contributions ↔ RefsUnambiguous bounds contributions := by
  constructor
  · intro h ref m m' hfirst hm' href hkey
    split_ifs with hnames
    · have hfind := h.refs IterationOrder.insertion ref m hfirst ⟨m', hm', href, hkey⟩
      rw [find?_mergedRefs_of_names hnames, Option.some.injEq] at hfind
      exact hfind.symm
    · -- an order in which the other group comes first
      obtain ⟨order, horder⟩ := exists_order_first hm' (href ▸ hnames)
      have hfind := h.refs order ref m hfirst ⟨m', hm', href, hkey⟩
      rw [href, hfind, Option.some.injEq] at horder
      exact horder
  · intro h
    refine ⟨fun order order' => mergeContributions_eq fun ref => ?_, ?_⟩
    · by_cases hnames : NamesGroup bounds contributions ref
      · rw [find?_mergedRefs_of_names hnames, find?_mergedRefs_of_names hnames]
      · rcases find?_mergedRefs_of_not_names order hnames with
          ⟨m, hm, href, -⟩ | ⟨hnone, hfind⟩
        · obtain ⟨m, hfirst⟩ := exists_firstDeclarer hm href
          rw [find?_mergedRefs_of_unambiguous h order hnames hfirst,
            find?_mergedRefs_of_unambiguous h order' hnames hfirst]
        · rcases find?_mergedRefs_of_not_names order' hnames with
            ⟨m, hm, href, -⟩ | ⟨-, hfind'⟩
          · exact absurd href (hnone m hm)
          · rw [hfind, hfind']
    · rintro order ref m hfirst ⟨m', hm', href, hkey⟩
      by_cases hnames : NamesGroup bounds contributions ref
      · rw [find?_mergedRefs_of_names hnames, h ref m m' hfirst hm' href hkey, if_pos hnames]
      · exact find?_mergedRefs_of_unambiguous h order hnames hfirst

end Determinism

/-- Two machines with one ref, and an edge from it. -/
def ambiguousRef : List Contribution :=
  [{ nodes := [{ ref := str "x", native := { machineName := str "a" } }] },
    { nodes := [{ ref := str "x", native := { machineName := str "b" } }]
      edges := [{ fromRef := str "x", toRef := str "machine:a" }] }]

/-- Iteration from the second entry on. -/
def rotated : IterationOrder := ⟨fun _ l => l.rotate 1, fun _ l => List.rotate_perm l 1⟩

/-- The edge starts at the one machine or at the other. -/
theorem mergeContributions_nondeterministic :
    Set.InjOn groupId {key | key ∈ contributedKeys ambiguousRef} ∧
      (mergeContributions IterationOrder.insertion ambiguousRef {}).edges ≠
        (mergeContributions rotated ambiguousRef {}).edges := by
  have hdistinct : ∀ a ∈ contributedKeys ambiguousRef, ∀ b ∈ contributedKeys ambiguousRef,
      groupId a = groupId b → a = b := by
    decide +kernel
  exact ⟨fun a ha b hb => hdistinct a ha b hb, by decide +kernel⟩

end TopologyFabric

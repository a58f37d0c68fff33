import TopologyFabric.Merge.Order

/-!
# Contributions That Are Absent

A contribution without nodes and edges changes nothing in the merge but the positions of the
contributions after it. Positions only break ties, so moving all later contributions by one place
changes no result.

## Main results

- `mergeGroup_relabel`: the node of a group does not depend on the numbers of the contributions
- `mergeContributions_absent`: a contribution without nodes and edges can be left out
-/

namespace TopologyFabric

open Library

/-! ## Renumbering contributions -/

/-- The same node in the contribution with another number. -/
def Member.relabel (f : ℕ → ℕ) (m : Member) : Member := { m with ci := f m.ci }

/-- The groups differ in the numbers of the contributions only. -/
def Relabelled (f : ℕ → ℕ) (groups groups' : Groups) : Prop :=
  groups'.entries = groups.entries.map fun g => (g.1, g.2.map (Member.relabel f))

section Relabel

variable {f : ℕ → ℕ} {groups groups' : Groups} {bounds : Bounds} {order order' : IterationOrder}

theorem Relabelled.keys (h : Relabelled f groups groups') : groups'.keys = groups.keys := by
  rw [HashMap.keys, h, List.map_map]
  rfl

theorem Relabelled.size (h : Relabelled f groups groups') : groups'.size = groups.size := by
  rw [HashMap.size, h, List.length_map, HashMap.size]

/-- A node goes to the same group under its new number. -/
theorem Relabelled.upsert (h : Relabelled f groups groups') (key : Bytes) (m : Member) :
    Relabelled f (groups.upsert key [] (· ++ [m]))
      (groups'.upsert key [] (· ++ [m.relabel f])) := by
  rw [Relabelled, HashMap.entries_upsert, HashMap.entries_upsert, h.keys]
  split_ifs
  · rw [h, List.map_map, List.map_map]
    refine List.map_congr_left fun g _ => ?_
    by_cases hg : g.1 = key <;> simp [hg]
  · rw [h]
    simp

/-- Reading the nodes of a contribution under a new number. -/
theorem ingestNodes_relabel (bounds : Bounds) (ci idx : ℕ) (nodes : List ContributedNode)
    (warnings : List Bytes)
    (h : Relabelled f groups groups') :
    Relabelled f (ingestNodes bounds ci idx nodes (groups, warnings)).1
        (ingestNodes bounds (f ci) idx nodes (groups', warnings)).1 ∧
      (ingestNodes bounds (f ci) idx nodes (groups', warnings)).2 =
        (ingestNodes bounds ci idx nodes (groups, warnings)).2 := by
  induction nodes generalizing idx groups groups' with
  | nil => exact ⟨h, rfl⟩
  | cons cn nodes ih =>
    have hstep := h.upsert (groupKey cn) ⟨cn, ci, idx⟩
    have hsize := hstep.size
    simp only [Member.relabel] at hsize hstep
    rw [ingestNodes, ingestNodes]
    simp only [hsize]
    split_ifs
    · exact ⟨hstep, rfl⟩
    · exact ih (idx + 1) hstep

theorem ingest_relabel (l : List (Contribution × ℕ)) {s s' : Groups × List Bytes}
    (hgroups : Relabelled f s.1 s'.1) (hwarnings : s'.2 = s.2) :
    Relabelled f (l.foldl (fun s c => ingestNodes bounds c.2 0 c.1.nodes s) s).1
        ((l.map fun c => (c.1, f c.2)).foldl
          (fun s c => ingestNodes bounds c.2 0 c.1.nodes s) s').1 ∧
      ((l.map fun c => (c.1, f c.2)).foldl
          (fun s c => ingestNodes bounds c.2 0 c.1.nodes s) s').2 =
        (l.foldl (fun s c => ingestNodes bounds c.2 0 c.1.nodes s) s).2 := by
  induction l generalizing s s' with
  | nil => exact ⟨hgroups, hwarnings⟩
  | cons c l ih =>
    obtain ⟨groups, warnings⟩ := s
    obtain ⟨groups', warnings'⟩ := s'
    obtain rfl : warnings' = warnings := hwarnings
    -- the position of a contribution is kept with its members, and nothing else is done with it
    obtain ⟨hstep, hwarn⟩ := ingestNodes_relabel bounds c.2 0 c.1.nodes warnings' hgroups
    exact ih hstep hwarn

/-! ## The groups after renumbering -/

theorem sortMembers_relabel (hf : StrictMono f) (members : List Member) :
    sortMembers (members.map (Member.relabel f)) = (sortMembers members).map (Member.relabel f) := by
  have hbefore : ∀ a b : Member,
      memberBefore (b.relabel f) (a.relabel f) = memberBefore b a := by
    intro a b
    rw [Bool.eq_iff_iff, memberBefore_iff, memberBefore_iff]
    simp only [Precedes, ReadBefore, Member.relabel, hf.lt_iff_lt, hf.injective.eq_iff]
  refine (List.map_insertionSort _ _ _ _ fun a _ b _ => ?_).symm
  rw [hbefore]

/-- The node of a group and its conflicts depend on the members' nodes and their order only. -/
theorem mergeGroup_relabel (key : Bytes) (members : List Member) :
    mergeGroup key (members.map (Member.relabel f)) = mergeGroup key members := by
  simp only [mergeGroup, resolvedType, mergedName, mergeNative, mergeProperties, List.foldl_map,
    List.map_map, List.head?_map, Option.map_map, List.find?_map, List.any_map, List.length_map]
  rfl

theorem mergeStep_relabel (hf : StrictMono f) (s : GroupState) (g : Bytes × List Member) :
    mergeStep bounds s (g.1, g.2.map (Member.relabel f)) = mergeStep bounds s g := by
  simp only [mergeStep, sortMembers_relabel hf, mergeGroup_relabel]

theorem mergeGroups_relabel (hf : StrictMono f) (h : Relabelled f groups groups')
    (warnings : List Bytes) :
    mergeGroups order' bounds groups' warnings = mergeGroups order bounds groups warnings := by
  have hkeys := (orderedGroups_keys order groups).1
  rw [List.pairwise_map] at hkeys
  have hordered : orderedGroups order' groups' =
      (orderedGroups order groups).map fun g => (g.1, g.2.map (Member.relabel f)) := by
    refine orderedGroups_unique ?_ ?_
    · rw [h]
      exact orderedGroups_perm.map _
    · exact List.pairwise_map.mpr hkeys
  rw [mergeGroups, mergeGroups, hordered, List.foldl_map]
  simp only [mergeStep_relabel hf]

/-- With maps iterated in the same way, the refs resolve to the same ids. -/
theorem refToId_relabel (horder : order.Agree order') (h : Relabelled f groups groups')
    (ids : HashMap Bytes TopologyNodeId) : refToId order' groups' ids = refToId order groups ids := by
  have hrefs : refMap order' groups' =
      (refMap order groups).map fun e => { e with ci := f e.ci } := by
    rw [refMap, HashMap.entries_reorder_map horder h, refMap, List.flatMap_map, List.map_flatMap]
    refine List.flatMap_congr fun g _ => ?_
    simp only [List.map_map]
    rfl
  rw [refToId, refToId, hrefs, List.foldl_map, HashMap.reorder_congr horder]

end Relabel

/-! ## A contribution without nodes and edges -/

/-- The numbers of the contributions once one has been inserted at position `n`. -/
def insertAt (n ci : ℕ) : ℕ := if ci < n then ci else ci + 1

theorem insertAt_strictMono (n : ℕ) : StrictMono (insertAt n) := by
  intro a b hab
  unfold insertAt
  split_ifs <;> omega

section Absent

variable {order order' : IterationOrder} {bounds : Bounds} {pre post : List Contribution}
  {c : Contribution}

/-- Reading the contributions with an empty one among them. -/
theorem ingest_absent (bounds : Bounds) (pre post : List Contribution) (hnodes : c.nodes = []) :
    Relabelled (insertAt pre.length) (ingest bounds (pre ++ post)).1
        (ingest bounds (pre ++ c :: post)).1 ∧
      (ingest bounds (pre ++ c :: post)).2 = (ingest bounds (pre ++ post)).2 := by
  -- the contributions behind the absent one are counted one further
  have hpre : (pre.zipIdx 0).map (fun c => (c.1, insertAt pre.length c.2)) = pre.zipIdx 0 := by
    refine (List.map_congr_left fun p hmem => ?_).trans (List.map_id _)
    have hlt : p.2 < pre.length := by simpa using List.snd_lt_of_mem_zipIdx hmem
    simp [insertAt, hlt]
  have hpost : (post.zipIdx pre.length).map (fun c => (c.1, insertAt pre.length c.2)) =
      post.zipIdx (pre.length + 1) := by
    rw [List.zipIdx_succ]
    refine List.map_congr_left fun p hmem => ?_
    have hle : pre.length ≤ p.2 := List.le_snd_of_mem_zipIdx hmem
    simp [insertAt, hle.not_gt]
  -- with the positions moved, the absent one is not read at all
  have hread : ingest bounds (pre ++ c :: post) =
      (((pre ++ post).zipIdx 0).map fun c => (c.1, insertAt pre.length c.2)).foldl
        (fun s c => ingestNodes bounds c.2 0 c.1.nodes s) (HashMap.empty, []) := by
    rw [List.zipIdx_append, List.map_append, Nat.zero_add, hpre, hpost, ingest, List.zipIdx_append,
      List.zipIdx_cons, Nat.zero_add, List.foldl_append, List.foldl_cons, List.foldl_append]
    simp only [hnodes]
    rfl
  rw [hread]
  exact ingest_relabel _ rfl rfl

/-- **A contribution without nodes and edges can be left out** wherever it stands, with maps
iterated in the same way. -/
theorem mergeContributions_absent (horder : order.Agree order') (hnodes : c.nodes = [])
    (hedges : c.edges = []) : mergeContributions order' (pre ++ c :: post) bounds =
      mergeContributions order (pre ++ post) bounds := by
  obtain ⟨hgroups, hwarnings⟩ := ingest_absent bounds pre post hnodes
  have hmerged : groupsMerged order' bounds (pre ++ c :: post) =
      groupsMerged order bounds (pre ++ post) := by
    rw [groupsMerged, hwarnings]
    exact mergeGroups_relabel (insertAt_strictMono _) hgroups _
  have hrefs : mergedRefs order' bounds (pre ++ c :: post) =
      mergedRefs order bounds (pre ++ post) := by
    rw [mergedRefs, hmerged]
    exact refToId_relabel horder hgroups _
  have hresolved : resolvedEdges order' bounds (pre ++ c :: post) =
      resolvedEdges order bounds (pre ++ post) := by
    rw [resolvedEdges, hmerged, hrefs, List.foldl_append, List.foldl_cons, hedges, resolvedEdges,
      List.foldl_append]
    rfl
  rw [mergeContributions_parts, mergeContributions_parts, hmerged, hresolved]
  simp [hnodes]

end Absent

end TopologyFabric

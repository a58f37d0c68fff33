import TopologyFabric.Merge.Resources

/-!
# Provider Order and the Merge

The members of a group are put in order before anything is read off them, by confidence and, among
equals, by position. Another order of the providers, or of the nodes that one provider reports,
changes the positions only. So it can change what is decided by position, and nothing else.

## Main results

- `groupMembers_perm`: the reported nodes of a group, in another order
- `sortMembers_untied`: different confidences leave one way to sort
- `mergeContributions_reordered`: what the order of the providers cannot change
-/

namespace TopologyFabric

open Library

/-! ## Another order -/

/-- The contributions in another order, each with its nodes in another order. -/
def Reordered (contributions contributions' : List Contribution) : Prop :=
  ∃ shuffled, contributions.Perm shuffled ∧
    List.Forall₂ (fun c c' => c.nodes.Perm c'.nodes) shuffled contributions'

theorem map_node_nodeMembers (ci idx : ℕ) (nodes : List ContributedNode) :
    (nodeMembers ci idx nodes).map Member.node = nodes := by
  induction nodes generalizing idx with
  | nil => rfl
  | cons cn nodes ih => rw [nodeMembers_cons, List.map_cons, ih]

/-- Without their positions, the contributed nodes are the nodes of the contributions. -/
theorem map_node_membersFrom (ci : ℕ) (contributions : List Contribution) :
    (membersFrom ci contributions).map Member.node = contributions.flatMap Contribution.nodes := by
  induction contributions generalizing ci with
  | nil => rfl
  | cons c contributions ih =>
    rw [membersFrom_cons, List.map_append, ih, map_node_nodeMembers, List.flatMap_cons]

theorem map_node_groupMembers (contributions : List Contribution) (key : Bytes) :
    (groupMembers contributions key).map Member.node =
      (contributions.flatMap Contribution.nodes).filter fun n => decide (groupKey n = key) := by
  rw [← map_node_membersFrom 0 contributions, List.filter_map]
  rfl

theorem contributedKeys_eq (contributions : List Contribution) :
    contributedKeys contributions = (contributions.flatMap Contribution.nodes).map groupKey := by
  rw [← map_node_membersFrom 0 contributions, List.map_map]
  rfl

section Reordered

variable {contributions contributions' : List Contribution}

/-- The same nodes are reported. -/
theorem Reordered.nodes_perm (h : Reordered contributions contributions') :
    (contributions.flatMap Contribution.nodes).Perm
      (contributions'.flatMap Contribution.nodes) := by
  obtain ⟨shuffled, hperm, hinner⟩ := h
  refine (hperm.flatMap_right _).trans ?_
  clear hperm
  induction hinner with
  | nil => exact List.Perm.refl _
  | cons hnodes _ ih => exact hnodes.append ih

/-- A group has the same members, in another order. -/
theorem Reordered.groupMembers_perm (h : Reordered contributions contributions') (key : Bytes) :
    ((groupMembers contributions key).map Member.node).Perm
      ((groupMembers contributions' key).map Member.node) := by
  rw [map_node_groupMembers, map_node_groupMembers]
  exact h.nodes_perm.filter _

theorem Reordered.keys_perm (h : Reordered contributions contributions') :
    (contributedKeys contributions).Perm (contributedKeys contributions') := by
  rw [contributedKeys_eq, contributedKeys_eq]
  exact h.nodes_perm.map groupKey

theorem Reordered.withinNodes (h : Reordered contributions contributions') {bounds : Bounds}
    (hnodes : WithinNodes bounds contributions) : WithinNodes bounds contributions' := by
  unfold WithinNodes at hnodes ⊢
  rwa [← List.toFinset_eq_of_perm _ _ h.keys_perm]

end Reordered

/-! ## What ties can change -/

/-- Two nodes that differ at most in what is decided among equals. -/
structure SameUpToTies (n n' : TopologyNode) : Prop where
  id : n.id = n'.id
  capabilities : n.capabilities = n'.capabilities
  confidence : n.confidence = n'.confidence
  synthetic : n.synthetic = n'.synthetic
  typeRank : typeRank n.type = typeRank n'.type

theorem ConfidenceRanking.rank_injective : Function.Injective rank := by
  intro a b h
  cases a <;> cases b <;> first | rfl | exact absurd h (by decide)

/-- The facts of a group do not depend on the order of its members. -/
theorem GroupFacts.sameUpToTies {key : Bytes} {members members' : List Member}
    {n n' : TopologyNode} (h : GroupFacts key members n) (h' : GroupFacts key members' n')
    (hperm : (members.map Member.node).Perm (members'.map Member.node)) : SameUpToTies n n' := by
  have hex : ∀ p : ContributedNode → Prop,
      (∃ m ∈ members, p m.node) ↔ ∃ m ∈ members', p m.node := by
    intro p
    have hmem : (∃ cn ∈ members.map Member.node, p cn) ↔
        ∃ cn ∈ members'.map Member.node, p cn := by
      simp only [hperm.mem_iff]
    simpa using hmem
  have hall : ∀ p : ContributedNode → Prop,
      (∀ m ∈ members, p m.node) ↔ ∀ m ∈ members', p m.node := by
    intro p
    have hmem : (∀ cn ∈ members.map Member.node, p cn) ↔
        ∀ cn ∈ members'.map Member.node, p cn := by
      simp only [hperm.mem_iff]
    simpa using hmem
  refine ⟨h.id.trans h'.id.symm, ?_, ?_, ?_, ?_⟩
  · apply UInt64.toNat.inj
    apply Nat.eq_of_testBit_eq
    intro i
    rw [Bool.eq_iff_iff, h.capabilities, h'.capabilities]
    exact hex fun cn => cn.capabilities.toNat.testBit i = true
  · -- each confidence is that of a member, and no member has a higher one
    apply ConfidenceRanking.rank_injective
    obtain ⟨m, hm, hconf⟩ := h.confidence_mem
    obtain ⟨m', hm', hconf'⟩ := h'.confidence_mem
    have hle := (hall fun cn => ConfidenceRanking.rank cn.provenance.confidence ≤
      ConfidenceRanking.rank n.confidence).mp h.confidence_max m' hm'
    have hle' := (hall fun cn => ConfidenceRanking.rank cn.provenance.confidence ≤
      ConfidenceRanking.rank n'.confidence).mpr h'.confidence_max m hm
    rw [← hconf'] at hle
    rw [← hconf] at hle'
    exact hle'.antisymm hle
  · rw [Bool.eq_iff_iff, h.synthetic, h'.synthetic]
    exact hex fun cn => cn.synthetic = true
  · obtain ⟨m, hfirst, htype⟩ := h.type
    obtain ⟨m', hfirst', htype'⟩ := h'.type
    have hle := (hall fun cn => typeRank cn.type ≤ typeRank m.node.type).mp hfirst.holds
      m' hfirst'.mem
    have hle' := (hall fun cn => typeRank cn.type ≤ typeRank m'.node.type).mpr hfirst'.holds
      m hfirst.mem
    rw [htype, htype']
    exact hle'.antisymm hle

/-! ## Groups without ties -/

/-- No two members of the group have one confidence. -/
def Untied (contributions : List Contribution) (key : Bytes) : Prop :=
  ((groupMembers contributions key).map fun m => m.node.provenance.confidence).Nodup

/-- There is one way to sort members of different confidences. -/
theorem sortMembers_untied {members members' : List Member}
    (hpositions : members.Pairwise ReadBefore) (hpositions' : members'.Pairwise ReadBefore)
    (hperm : (members.map Member.node).Perm (members'.map Member.node))
    (huntied : (members.map fun m => m.node.provenance.confidence).Nodup) :
    (sortMembers members).map Member.node = (sortMembers members').map Member.node := by
  have hsort := (sortMembers_perm members).map Member.node
  have hsort' := (sortMembers_perm members').map Member.node
  let key : ContributedNode → ℕ := fun cn => ConfidenceRanking.rank cn.provenance.confidence
  -- the best go first, and no two are equally good
  have hdecreasing : ∀ ms : List Member, ms.Pairwise ReadBefore →
      ((sortMembers ms).map Member.node).Perm (members.map Member.node) →
      ((sortMembers ms).map Member.node).Pairwise fun a b => key b < key a := by
    intro ms hms hmsperm
    have hnodup : (((sortMembers ms).map Member.node).map key).Nodup := by
      rw [(hmsperm.map key).nodup_iff, List.map_map]
      have hranks := huntied.map ConfidenceRanking.rank_injective
      rwa [List.map_map] at hranks
    have hle : ((sortMembers ms).map Member.node).Pairwise fun a b => key b ≤ key a := by
      rw [List.pairwise_map]
      refine (sortMembers_sorted hms).imp fun {a b} h => ?_
      rcases h with h | ⟨h, -⟩
      · exact h.le
      · exact h.ge
    have hne : ((sortMembers ms).map Member.node).Pairwise fun a b => key a ≠ key b :=
      List.pairwise_map.mp hnodup
    exact (hle.and hne).imp fun h => lt_of_le_of_ne h.1 h.2.symm
  refine List.Perm.eq_of_pairwise ?_ (hdecreasing members hpositions hsort)
    (hdecreasing members' hpositions' (hsort'.trans hperm.symm))
    (hsort.trans (hperm.trans hsort'.symm))
  intro a b _ _ hab hba
  exact absurd hab hba.not_gt

/-- What is merged are the nodes, wherever they stand. -/
theorem mergeGroup_congr (key : Bytes) {members members' : List Member}
    (h : members.map Member.node = members'.map Member.node) :
    mergeGroup key members = mergeGroup key members' := by
  have hnodes : ∀ ms : List Member, mergeGroup key ms =
      mergeGroup key ((ms.map Member.node).map fun cn => ⟨cn, 0, 0⟩) := by
    intro ms
    simp only [mergeGroup, resolvedType, mergedName, mergeProperties, mergeNative, List.foldl_map,
      List.find?_map, List.head?_map, List.map_map, List.any_map, List.length_map,
      Option.map_map, Function.comp_def]
    rfl
  rw [hnodes members, hnodes members', h]

/-! ## The merge -/

/-- What two merges of the same reports in different orders have in common. -/
structure OrderIndependent (contributions : List Contribution) (graph graph' : MergedGraph) :
    Prop where
  ids : ∀ id, id ∈ graph.nodes.keys ↔ id ∈ graph'.nodes.keys
  kept : ∀ id n n', graph.nodes.find? id = some n → graph'.nodes.find? id = some n' →
    SameUpToTies n n'
  untied : ∀ key ∈ contributedKeys contributions, Untied contributions key →
    ∃ n, graph.nodes.find? (groupId key) = some n ∧ graph'.nodes.find? (groupId key) = some n

/-- **The merge does not depend on the order of the providers**, up to ties: with room for all keys
and distinct ids, another order of the contributions and of the nodes in each of them leaves the ids,
the capabilities, the confidences, the synthetic flags and the type ranks, and every node whose
members have different confidences. -/
theorem mergeContributions_reordered {order order' : IterationOrder} {bounds : Bounds}
    {contributions contributions' : List Contribution}
    (hreordered : Reordered contributions contributions')
    (hnodes : WithinNodes bounds contributions)
    (hinj : Set.InjOn groupId {key | key ∈ contributedKeys contributions}) :
    OrderIndependent contributions (mergeContributions order contributions bounds)
      (mergeContributions order' contributions' bounds) := by
  have hkeys : ∀ key, key ∈ contributedKeys contributions ↔ key ∈ contributedKeys contributions' :=
    fun key => hreordered.keys_perm.mem_iff
  have hnodes' : WithinNodes bounds contributions' := hreordered.withinNodes hnodes
  have hinj' : Set.InjOn groupId {key | key ∈ contributedKeys contributions'} := by
    simpa only [hkeys] using hinj
  -- the node of a key before and after
  have hfind : ∀ key ∈ contributedKeys contributions,
      (mergeContributions order contributions bounds).nodes.find? (groupId key) =
        some (groupNode (key, groupMembers contributions key)) ∧
      (mergeContributions order' contributions' bounds).nodes.find? (groupId key) =
        some (groupNode (key, groupMembers contributions' key)) :=
    fun key hkey =>
      ⟨find?_mergedNodes hnodes hinj hkey, find?_mergedNodes hnodes' hinj' ((hkeys key).mp hkey)⟩
  refine ⟨fun id => ?_, fun id n n' hn hn' => ?_, fun key hkey huntied => ?_⟩
  · rw [mem_keys_mergedNodes hnodes hinj, mem_keys_mergedNodes hnodes' hinj']
    simp only [hkeys]
  · have hid : id ∈ (mergeContributions order contributions bounds).nodes.keys :=
      HashMap.mem_keys_of_mem (HashMap.find?_eq_some.mp hn)
    obtain ⟨key, hkey, rfl⟩ := (mem_keys_mergedNodes hnodes hinj).mp hid
    obtain ⟨hfind, hfind'⟩ := hfind key hkey
    obtain rfl := Option.some.inj (hn.symm.trans hfind)
    obtain rfl := Option.some.inj (hn'.symm.trans hfind')
    have hfacts : GroupFacts key (groupMembers contributions key) _ :=
      mergeGroup_facts (mem_contributedKeys.mp hkey) (groupMembers_positions contributions key)
    have hfacts' : GroupFacts key (groupMembers contributions' key) _ :=
      mergeGroup_facts (mem_contributedKeys.mp ((hkeys key).mp hkey))
        (groupMembers_positions contributions' key)
    exact hfacts.sameUpToTies hfacts' (hreordered.groupMembers_perm key)
  · obtain ⟨hfind, hfind'⟩ := hfind key hkey
    refine ⟨_, hfind, hfind'.trans ?_⟩
    have hsorted := sortMembers_untied (groupMembers_positions contributions key)
      (groupMembers_positions contributions' key) (hreordered.groupMembers_perm key) huntied
    exact congrArg (fun g => some g.1) (mergeGroup_congr key hsorted.symm)

/-- The reports of `sharedDevice` in another order. -/
def sharedDeviceReordered : List Contribution :=
  [{ nodes := [{ ref := str "host", native := { machineName := str "host" } }, slotNode] },
    { nodes := [gpuNode] }]

theorem mergeContributions_reordered_shared :
    OrderIndependent sharedDevice (mergeContributions IterationOrder.insertion sharedDevice {})
      (mergeContributions IterationOrder.insertion sharedDeviceReordered {}) := by
  have hdistinct : ∀ a ∈ contributedKeys sharedDevice, ∀ b ∈ contributedKeys sharedDevice,
      groupId a = groupId b → a = b := by
    decide +kernel
  have hreordered : Reordered sharedDevice sharedDeviceReordered := by
    refine ⟨sharedDevice.reverse, (List.reverse_perm _).symm, ?_⟩
    exact .cons (List.Perm.swap _ _ []) (.cons (List.Perm.refl _) .nil)
  exact mergeContributions_reordered hreordered (by decide +kernel)
    fun a ha b hb => hdistinct a ha b hb

end TopologyFabric

import TopologyFabric.Merge.Endpoints
import TopologyFabric.Library.GroupBy

/-!
# The Groups of a Merge

With no more distinct keys than nodes allowed, the ingestion reads every contributed node, and every
group becomes a node. The members of a group are then all contributed nodes with its key, and the
facts of its node are looked up in the order of the members: by confidence, then by position.

## Main results

- `ingest_eq_groupBy`: within the node bound, ingestion is grouping by key
- `orderedGroups_congr`: the sorted groups do not depend on the iteration order
- `groupsMerged_within`: within the node bound, every group gets its node
- `sortMembers_sorted`: the members of a group, best first
-/

namespace TopologyFabric

open Library

/-! ## Contributed nodes -/

/-- The nodes of one contribution from position `idx` on. -/
def nodeMembers (ci idx : ℕ) (nodes : List ContributedNode) : List Member :=
  (nodes.zipIdx idx).map fun n => ⟨n.1, ci, n.2⟩

/-- The nodes of contributions that are numbered from `ci` on. -/
def membersFrom (ci : ℕ) (contributions : List Contribution) : List Member :=
  (contributions.zipIdx ci).flatMap fun c => nodeMembers c.2 0 c.1.nodes

/-- All contributed nodes with their positions, in the order in which they are read. -/
def contributedMembers (contributions : List Contribution) : List Member :=
  membersFrom 0 contributions

/-- The key of a member. -/
def Member.key (m : Member) : Bytes := groupKey m.node

/-- The members of the group with a key, in the order in which they are read. -/
def groupMembers (contributions : List Contribution) (key : Bytes) : List Member :=
  (contributedMembers contributions).filter fun m => decide (m.key = key)

/-- The keys of the contributed nodes, with repetitions. -/
def contributedKeys (contributions : List Contribution) : List Bytes :=
  (contributedMembers contributions).map Member.key

/-- There are at most as many distinct keys as nodes are allowed. -/
def WithinNodes (bounds : Bounds) (contributions : List Contribution) : Prop :=
  (contributedKeys contributions).toFinset.card ≤ bounds.maxNodes

instance (bounds : Bounds) (contributions : List Contribution) :
    Decidable (WithinNodes bounds contributions) := inferInstanceAs (Decidable (_ ≤ _))

theorem mem_groupMembers {contributions : List Contribution} {key : Bytes} {m : Member} :
    m ∈ groupMembers contributions key ↔ m ∈ contributedMembers contributions ∧ m.key = key := by
  simp [groupMembers]

theorem mem_contributedKeys {contributions : List Contribution} {key : Bytes} :
    key ∈ contributedKeys contributions ↔ groupMembers contributions key ≠ [] := by
  rw [contributedKeys, List.mem_map, groupMembers, ne_eq, List.filter_eq_nil_iff]
  simp

/-! ## Positions -/

theorem nodeMembers_cons (ci idx : ℕ) (cn : ContributedNode) (nodes : List ContributedNode) :
    nodeMembers ci idx (cn :: nodes) = ⟨cn, ci, idx⟩ :: nodeMembers ci (idx + 1) nodes := by
  rw [nodeMembers, List.zipIdx_cons, List.map_cons]
  rfl

theorem membersFrom_cons (ci : ℕ) (c : Contribution) (cs : List Contribution) :
    membersFrom ci (c :: cs) = nodeMembers ci 0 c.nodes ++ membersFrom (ci + 1) cs := by
  rw [membersFrom, List.zipIdx_cons, List.flatMap_cons]
  rfl

theorem nodeMembers_position {ci idx : ℕ} {nodes : List ContributedNode} {m : Member}
    (h : m ∈ nodeMembers ci idx nodes) : m.ci = ci ∧ idx ≤ m.idx := by
  obtain ⟨p, hp, rfl⟩ := List.mem_map.mp h
  exact ⟨rfl, List.le_snd_of_mem_zipIdx hp⟩

theorem membersFrom_position {ci : ℕ} {cs : List Contribution} {m : Member}
    (h : m ∈ membersFrom ci cs) : ci ≤ m.ci := by
  obtain ⟨c, hc, hm⟩ := List.mem_flatMap.mp h
  rw [(nodeMembers_position hm).1]
  exact List.le_snd_of_mem_zipIdx hc

/-- The position of `a` is before that of `b`. -/
def ReadBefore (a b : Member) : Prop := a.ci < b.ci ∨ a.ci = b.ci ∧ a.idx < b.idx

theorem nodeMembers_positions (ci idx : ℕ) (nodes : List ContributedNode) :
    (nodeMembers ci idx nodes).Pairwise ReadBefore := by
  induction nodes generalizing idx with
  | nil => exact List.Pairwise.nil
  | cons cn nodes ih =>
    rw [nodeMembers_cons]
    refine List.pairwise_cons.mpr ⟨fun m hm => Or.inr ?_, ih (idx + 1)⟩
    obtain ⟨hci, hidx⟩ := nodeMembers_position hm
    exact ⟨hci.symm, hidx⟩

theorem membersFrom_positions (ci : ℕ) (cs : List Contribution) :
    (membersFrom ci cs).Pairwise ReadBefore := by
  induction cs generalizing ci with
  | nil => exact List.Pairwise.nil
  | cons c cs ih =>
    rw [membersFrom_cons]
    refine List.pairwise_append.mpr ⟨nodeMembers_positions ci 0 c.nodes, ih (ci + 1), ?_⟩
    intro a ha b hb
    have hb' := membersFrom_position hb
    exact Or.inl (by rw [(nodeMembers_position ha).1]; exact hb')

/-- No two members of a group have one position. -/
theorem groupMembers_positions (contributions : List Contribution) (key : Bytes) :
    (groupMembers contributions key).Pairwise ReadBefore :=
  (membersFrom_positions 0 contributions).filter _

/-! ## Best first -/

/-- `a` is more authoritative than `b`: by confidence, then by contribution, then by position. -/
def Precedes (a b : Member) : Prop :=
  ConfidenceRanking.rank b.node.provenance.confidence <
      ConfidenceRanking.rank a.node.provenance.confidence ∨
    ConfidenceRanking.rank a.node.provenance.confidence =
        ConfidenceRanking.rank b.node.provenance.confidence ∧ ReadBefore a b

theorem memberBefore_iff {a b : Member} : memberBefore a b = true ↔ Precedes a b := by
  unfold memberBefore Precedes ReadBefore
  simp only
  -- by confidence, then by contribution, then by index
  split_ifs with hconf hci
  · simp only [decide_eq_true_eq]
    constructor
    · exact Or.inl
    · rintro (h | ⟨h, -⟩)
      · exact h
      · exact absurd h hconf
  · simp only [decide_eq_true_eq]
    have hconf := not_not.mp hconf
    constructor
    · exact fun h => Or.inr ⟨hconf, Or.inl h⟩
    · rintro (h | ⟨-, h | ⟨h, -⟩⟩)
      · exact absurd h (by omega)
      · exact h
      · exact absurd h hci
  · simp only [decide_eq_true_eq]
    have hconf := not_not.mp hconf
    have hci := not_not.mp hci
    constructor
    · exact fun h => Or.inr ⟨hconf, Or.inr ⟨hci, h⟩⟩
    · rintro (h | ⟨-, h | ⟨-, h⟩⟩)
      · exact absurd h (by omega)
      · exact absurd h (by omega)
      · exact h

theorem sortMembers_perm (members : List Member) : (sortMembers members).Perm members :=
  List.perm_insertionSort _ _

/-- The members of a group, best first. -/
theorem sortMembers_sorted {members : List Member} (hpositions : members.Pairwise ReadBefore) :
    (sortMembers members).Pairwise Precedes := by
  have hnot : ∀ a b : Member, memberBefore b a = false ↔ ¬ Precedes b a := by
    intro a b
    rw [← memberBefore_iff, Bool.not_eq_true]
  have htrans : IsTrans Member fun a b => memberBefore b a = false := ⟨fun a b c hab hbc => by
    simp only [hnot, Precedes, ReadBefore] at hab hbc ⊢
    omega⟩
  have htotal : Std.Total fun a b : Member => memberBefore b a = false := ⟨fun a b => by
    simp only [hnot, Precedes, ReadBefore]
    omega⟩
  have hsorted : (sortMembers members).Pairwise fun a b => memberBefore b a = false :=
    List.pairwise_insertionSort _ _
  -- two members never have the same position
  have hapart : (sortMembers members).Pairwise fun a b => a.ci ≠ b.ci ∨ a.idx ≠ b.idx := by
    refine ((sortMembers_perm members).pairwise_iff ?_).mpr (hpositions.imp fun h => by
      unfold ReadBefore at h
      omega)
    intro a b h
    exact h.imp Ne.symm Ne.symm
  refine (hsorted.and hapart).imp fun {a b} h => ?_
  obtain ⟨hle, hne⟩ := h
  rw [hnot] at hle
  unfold Precedes ReadBefore at hle ⊢
  omega

/-! ## Ingestion -/

theorem size_groupBy {α K : Type} [DecidableEq K] (key : α → K) (l : List α) :
    (groupBy key l).size = (l.map key).toFinset.card := by
  rw [HashMap.size_eq_card_keys]
  congr 1
  ext k
  rw [List.mem_toFinset, List.mem_toFinset, mem_keys_groupBy]

theorem card_keys_append_left (ms ms' : List Member) :
    (ms.map Member.key).toFinset.card ≤ ((ms ++ ms').map Member.key).toFinset.card := by
  refine Finset.card_le_card fun k hk => ?_
  rw [List.mem_toFinset] at hk ⊢
  rw [List.map_append]
  exact List.mem_append_left _ hk

/-- Reading the nodes of one contribution adds them to their groups. -/
theorem ingestNodes_within {bounds : Bounds} {ci idx : ℕ} {nodes : List ContributedNode}
    {ms : List Member} {warnings : List Bytes}
    (hroom : ((ms ++ nodeMembers ci idx nodes).map Member.key).toFinset.card ≤ bounds.maxNodes) :
    ingestNodes bounds ci idx nodes (groupBy Member.key ms, warnings) =
      (groupBy Member.key (ms ++ nodeMembers ci idx nodes), warnings) := by
  induction nodes generalizing idx ms with
  | nil => simp [ingestNodes, nodeMembers]
  | cons cn nodes ih =>
    have hassoc : ms ++ nodeMembers ci idx (cn :: nodes) =
        (ms ++ [⟨cn, ci, idx⟩]) ++ nodeMembers ci (idx + 1) nodes := by
      rw [nodeMembers_cons, List.append_assoc, List.singleton_append]
    rw [hassoc] at hroom ⊢
    -- there is room for the group of this node
    have hsize : (groupBy Member.key (ms ++ [⟨cn, ci, idx⟩])).size ≤ bounds.maxNodes := by
      rw [size_groupBy]
      exact (card_keys_append_left _ _).trans hroom
    rw [groupBy_concat] at hsize
    rw [ingestNodes, if_neg (by exact not_lt.mpr hsize), ← ih hroom, groupBy_concat]
    rfl

/-- **Ingestion groups by key**: within the node bound every contributed node gets into its
group. -/
theorem ingest_eq_groupBy {bounds : Bounds} {contributions : List Contribution}
    (hnodes : WithinNodes bounds contributions) :
    ingest bounds contributions = (groupBy Member.key (contributedMembers contributions), []) := by
  -- with room for all keys the loop leaves no node out
  have hfold : ∀ (ci : ℕ) (cs : List Contribution) (ms : List Member),
      ((ms ++ membersFrom ci cs).map Member.key).toFinset.card ≤ bounds.maxNodes →
      (cs.zipIdx ci).foldl (fun s c => ingestNodes bounds c.2 0 c.1.nodes s)
        (groupBy Member.key ms, []) = (groupBy Member.key (ms ++ membersFrom ci cs), []) := by
    intro ci cs
    induction cs generalizing ci with
    | nil => intro ms _; simp [membersFrom]
    | cons c cs ih =>
      intro ms hroom
      rw [membersFrom_cons, ← List.append_assoc] at hroom ⊢
      have hfirst := (card_keys_append_left _ _).trans hroom
      rw [List.zipIdx_cons, List.foldl_cons, ingestNodes_within hfirst, ih (ci + 1) _ hroom]
  exact hfold 0 contributions [] hnodes

/-! ## The sorted groups -/

section Ordered

variable {order order' : IterationOrder} {groups : Groups}

theorem orderedGroups_perm : (orderedGroups order groups).Perm groups.entries :=
  (List.perm_insertionSort _ _).trans (order.perm _ _)

/-- There is only one way to sort groups by key. -/
theorem orderedGroups_unique {gs : List (Bytes × List Member)} (hperm : gs.Perm groups.entries)
    (hsorted : gs.Pairwise fun a b => a.1 < b.1) : orderedGroups order groups = gs := by
  have hkeys := (orderedGroups_keys order groups).1
  rw [List.pairwise_map] at hkeys
  refine List.Perm.eq_of_pairwise (fun a b _ _ hab hba => absurd hab hba.not_gt) hkeys hsorted ?_
  exact orderedGroups_perm.trans hperm.symm

/-- The groups sorted by key are the same in every iteration order. -/
theorem orderedGroups_congr : orderedGroups order groups = orderedGroups order' groups := by
  have hkeys := (orderedGroups_keys order' groups).1
  rw [List.pairwise_map] at hkeys
  exact orderedGroups_unique orderedGroups_perm hkeys

/-- The groups that are merged are those of the contributed nodes. -/
theorem mem_orderedGroups {contributions : List Contribution} {key : Bytes}
    {members : List Member} :
    (key, members) ∈ orderedGroups order (groupBy Member.key (contributedMembers contributions)) ↔
      key ∈ contributedKeys contributions ∧ members = groupMembers contributions key := by
  rw [orderedGroups_perm.mem_iff, mem_groupBy]
  rfl

end Ordered

/-! ## The nodes of the groups -/

/-- The node of a group. -/
def groupNode (g : Bytes × List Member) : TopologyNode := (mergeGroup g.1 (sortMembers g.2)).1

/-- The nodes of the groups; of groups with one id the first one counts. -/
def groupNodes (gs : List (Bytes × List Member)) : NodeMap :=
  gs.foldl (fun m g => m.emplace (groupId g.1) (groupNode g)) HashMap.empty

/-- The sorted groups of the contributions. -/
def contributedGroups (order : IterationOrder) (contributions : List Contribution) :
    List (Bytes × List Member) :=
  orderedGroups order (groupBy Member.key (contributedMembers contributions))

section Nodes

variable {order : IterationOrder} {bounds : Bounds} {contributions : List Contribution}

/-- As long as there is room for all groups, the loop drops none. -/
theorem mergeStep_run {gs : List (Bytes × List Member)} {s : GroupState}
    (hroom : s.nodes.size + gs.length ≤ bounds.maxNodes) :
    gs.foldl (mergeStep bounds) s =
      { nodes := gs.foldl (fun m g => m.emplace (groupId g.1) (groupNode g)) s.nodes
        groupNodeId := gs.foldl (fun m g => m.emplace g.1 (groupId g.1)) s.groupNodeId
        warnings := s.warnings
        conflicts := s.conflicts ++ gs.flatMap fun g => (mergeGroup g.1 (sortMembers g.2)).2 } := by
  induction gs generalizing s with
  | nil => simp
  | cons g gs ih =>
    rw [List.length_cons] at hroom
    have hsize := HashMap.size_emplace_le s.nodes (groupId g.1) (groupNode g)
    rw [List.foldl_cons, mergeStep_of_lt (by omega), ih]
    · simp [groupNode]
    · rw [groupNode] at hsize
      simp only
      omega

/-- **Every group gets its node** within the node bound, and the merge warns about no group. -/
theorem groupsMerged_within (hnodes : WithinNodes bounds contributions) :
    groupsMerged order bounds contributions =
      { nodes := groupNodes (contributedGroups order contributions)
        groupNodeId := (contributedGroups order contributions).foldl
          (fun m g => m.emplace g.1 (groupId g.1)) HashMap.empty
        warnings := []
        conflicts := (contributedGroups order contributions).flatMap fun g =>
          (mergeGroup g.1 (sortMembers g.2)).2 } := by
  have hsize : (contributedGroups order contributions).length ≤ bounds.maxNodes := by
    rw [contributedGroups, orderedGroups_perm.length_eq]
    exact (size_groupBy Member.key (contributedMembers contributions)).le.trans hnodes
  rw [groupsMerged, ingest_eq_groupBy hnodes, mergeGroups]
  refine (mergeStep_run ?_).trans rfl
  rw [show HashMap.size (HashMap.empty : NodeMap) = 0 from rfl, Nat.zero_add]
  exact hsize

/-- The merged nodes are those of the groups; of groups with one id that with the least key. -/
theorem mem_mergedNodes (hnodes : WithinNodes bounds contributions) {id : TopologyNodeId}
    {n : TopologyNode} : (id, n) ∈ (mergeContributions order contributions bounds).nodes.entries ↔
      ∃ key, IsLeast {k | k ∈ contributedKeys contributions ∧ groupId k = id} key ∧
        n = groupNode (key, groupMembers contributions key) := by
  have hmerged : (mergeContributions order contributions bounds).nodes =
      groupNodes (contributedGroups order contributions) :=
    congrArg GroupState.nodes (groupsMerged_within hnodes)
  have hkeys := (orderedGroups_keys order
    (groupBy Member.key (contributedMembers contributions))).1
  rw [List.pairwise_map] at hkeys
  rw [hmerged, ← HashMap.find?_eq_some, groupNodes, HashMap.find?_foldl_emplace]
  simp only [show (HashMap.empty : NodeMap).find? id = none from rfl, Option.none_or,
    Option.map_eq_some_iff, List.find?_eq_some_iff_append]
  constructor
  · rintro ⟨⟨key, members⟩, ⟨hid, pre, post, hsplit, hpre⟩, rfl⟩
    have hmem : (key, members) ∈ contributedGroups order contributions := by
      rw [hsplit]
      simp
    obtain ⟨hkey, rfl⟩ := mem_orderedGroups.mp hmem
    refine ⟨key, ⟨⟨hkey, of_decide_eq_true hid⟩, ?_⟩, rfl⟩
    rintro k ⟨hk, hkid⟩
    have hk' : (k, groupMembers contributions k) ∈ contributedGroups order contributions :=
      mem_orderedGroups.mpr ⟨hk, rfl⟩
    rw [contributedGroups] at hsplit
    rw [contributedGroups, hsplit] at hk'
    rw [hsplit] at hkeys
    -- no group before it has the id, and the groups after it have greater keys
    rcases List.mem_append.mp hk' with h | h
    · exact absurd hkid (by simpa using hpre _ h)
    · rcases List.mem_cons.mp h with h | h
      · exact (congrArg Prod.fst h).ge
      · exact ((List.pairwise_cons.mp (List.pairwise_append.mp hkeys).2.1).1 _ h).le
  · rintro ⟨key, ⟨⟨hkey, hid⟩, hleast⟩, rfl⟩
    have hmem : (key, groupMembers contributions key) ∈ contributedGroups order contributions :=
      mem_orderedGroups.mpr ⟨hkey, rfl⟩
    obtain ⟨pre, post, hsplit⟩ := List.append_of_mem hmem
    refine ⟨(key, groupMembers contributions key), ⟨decide_eq_true hid, pre, post, hsplit, ?_⟩, rfl⟩
    rintro ⟨k, members⟩ hk
    have hk' : (k, members) ∈ contributedGroups order contributions := by
      rw [hsplit]
      exact List.mem_append_left _ hk
    rw [contributedGroups] at hsplit
    rw [hsplit] at hkeys
    -- a group before it has a smaller key, so another id
    have hlt := (List.pairwise_append.mp hkeys).2.2 _ hk _ (List.mem_cons_self ..)
    simp only [Bool.not_eq_eq_eq_not, Bool.not_true, decide_eq_false_iff_not]
    intro hkid
    exact absurd (hleast ⟨(mem_orderedGroups.mp hk').1, hkid⟩) hlt.not_ge

/-- With distinct ids every group has its node. -/
theorem find?_mergedNodes (hnodes : WithinNodes bounds contributions)
    (hinj : Set.InjOn groupId {k | k ∈ contributedKeys contributions}) {key : Bytes}
    (hkey : key ∈ contributedKeys contributions) :
    (mergeContributions order contributions bounds).nodes.find? (groupId key) =
      some (groupNode (key, groupMembers contributions key)) := by
  rw [HashMap.find?_eq_some, mem_mergedNodes hnodes]
  refine ⟨key, ⟨⟨hkey, rfl⟩, ?_⟩, rfl⟩
  rintro k ⟨hk, hid⟩
  exact (hinj hk hkey hid).ge

/-- The merged ids are those of the keys. -/
theorem mem_keys_mergedNodes (hnodes : WithinNodes bounds contributions)
    (hinj : Set.InjOn groupId {k | k ∈ contributedKeys contributions}) {id : TopologyNodeId} :
    id ∈ (mergeContributions order contributions bounds).nodes.keys ↔
      ∃ key ∈ contributedKeys contributions, groupId key = id := by
  constructor
  · intro hid
    obtain ⟨⟨id', n⟩, hmem, rfl⟩ := List.mem_map.mp hid
    obtain ⟨key, hleast, -⟩ := (mem_mergedNodes hnodes).mp hmem
    exact ⟨key, hleast.1⟩
  · rintro ⟨key, hkey, rfl⟩
    exact HashMap.mem_keys_of_mem (HashMap.find?_eq_some.mp (find?_mergedNodes hnodes hinj hkey))

end Nodes

end TopologyFabric

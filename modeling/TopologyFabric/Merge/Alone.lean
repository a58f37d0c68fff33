import TopologyFabric.Merge.Conflicts
import TopologyFabric.Merge.Repeated

/-!
# Containment Through the Merge

Where refs are unambiguous, what providers say about the containment of their resources can be read
off the merged graph. A resource that only one provider reports, once, passes through the merge as
it is.

## Main results

- `find?_mergedNode`, `mergedNode_alone`: the merged node of a contributed one
- `mergedNode_type_mem`, `mergedNode_number`: what it says
- `NamesOnly.find?_refs`, `ref_cases`: which refs lead there
- `OnlyParent.merged`, `NoParent.merged`: the CONTAINS parents in the merged graph
-/

namespace TopologyFabric

open Library

/-- All contributed nodes. -/
def reportedNodes (contributions : List Contribution) : List ContributedNode :=
  contributions.flatMap Contribution.nodes

/-- The node is the only contributed one with its key. -/
def Alone (contributions : List Contribution) (n : ContributedNode) : Prop :=
  (reportedNodes contributions).filter (fun n' => decide (groupKey n' = groupKey n)) = [n]

/-- The ids of different groups are different, and none is the null id. -/
structure DistinctIds (contributions : List Contribution) : Prop where
  injective : Set.InjOn groupId {key | key ∈ contributedKeys contributions}
  nonnull : ∀ key ∈ contributedKeys contributions, groupId key ≠ kNullNodeId

/-- The id of the node that a contributed one becomes. -/
def ContributedNode.id (n : ContributedNode) : TopologyNodeId := groupId (groupKey n)

/-- The node that a contributed one becomes, with what others report of the resource. -/
def mergedNode (contributions : List Contribution) (n : ContributedNode) : TopologyNode :=
  groupNode (groupKey n, groupMembers contributions (groupKey n))

/-- The node of a group with one member. -/
def mergedAlone (n : ContributedNode) : TopologyNode := (mergeGroup (groupKey n) [⟨n, 0, 0⟩]).1

@[simp] theorem mergedNode_id (contributions : List Contribution) (n : ContributedNode) :
    (mergedNode contributions n).id = n.id := rfl

@[simp] theorem mergedAlone_id (n : ContributedNode) : (mergedAlone n).id = n.id := rfl

@[simp] theorem mergedAlone_type (n : ContributedNode) : (mergedAlone n).type = n.type :=
  ite_self n.type

section Nodes

variable {order : IterationOrder} {bounds : Bounds} {contributions : List Contribution}
  {n : ContributedNode}

theorem mem_contributedKeys_iff {key : Bytes} :
    key ∈ contributedKeys contributions ↔ ∃ n ∈ reportedNodes contributions, groupKey n = key := by
  rw [contributedKeys_eq, List.mem_map]
  rfl

theorem Alone.mem (h : Alone contributions n) : n ∈ reportedNodes contributions := by
  have hmem : n ∈ (reportedNodes contributions).filter
      fun n' => decide (groupKey n' = groupKey n) := by
    rw [h]
    exact List.mem_singleton_self n
  exact (List.mem_filter.mp hmem).1

/-- **The merged node** of a contributed one is found under its id. -/
theorem find?_mergedNode (hn : n ∈ reportedNodes contributions)
    (hnodes : WithinNodes bounds contributions) (hids : DistinctIds contributions) :
    (mergeContributions order contributions bounds).nodes.find? n.id =
      some (mergedNode contributions n) :=
  find?_mergedNodes hnodes hids.injective (mem_contributedKeys_iff.mpr ⟨n, hn, rfl⟩)

/-- What members of one group say, whatever their positions, makes the merged node. -/
theorem mergedNode_eq {l : List ContributedNode}
    (hgroup : (sortMembers (groupMembers contributions (groupKey n))).map Member.node = l) :
    mergedNode contributions n =
      (mergeGroup (groupKey n) (l.map fun n => (⟨n, 0, 0⟩ : Member))).1 := by
  refine congrArg Prod.fst (mergeGroup_congr (groupKey n) ?_)
  rw [hgroup, List.map_map]
  exact (List.map_id l).symm

/-- **The merged node of a node that is alone.** -/
theorem mergedNode_alone (h : Alone contributions n) :
    mergedNode contributions n = mergedAlone n := by
  have hmembers : (groupMembers contributions (groupKey n)).map Member.node = [n] :=
    (map_node_groupMembers contributions (groupKey n)).trans h
  have hperm := (sortMembers_perm (groupMembers contributions (groupKey n))).map Member.node
  rw [hmembers] at hperm
  exact mergedNode_eq (List.perm_singleton.mp hperm)

/-- The members of the group of a node are the reported nodes with its key. -/
theorem mem_group_iff {n' : ContributedNode} :
    (∃ m ∈ groupMembers contributions (groupKey n), m.node = n') ↔
      n' ∈ reportedNodes contributions ∧ groupKey n' = groupKey n := by
  rw [← List.mem_map, map_node_groupMembers, List.mem_filter, decide_eq_true_eq]
  rfl

theorem groupMembers_ne_nil (hn : n ∈ reportedNodes contributions) :
    groupMembers contributions (groupKey n) ≠ [] := by
  obtain ⟨m, hm, -⟩ := mem_group_iff.mpr ⟨hn, rfl⟩
  exact List.ne_nil_of_mem hm

/-- The merged type is one that is reported. -/
theorem mergedNode_type_mem (hn : n ∈ reportedNodes contributions) :
    ∃ n' ∈ reportedNodes contributions, groupKey n' = groupKey n ∧
      (mergedNode contributions n).type = n'.type := by
  obtain ⟨m, hfirst, htype⟩ := (mergeGroup_facts (groupMembers_ne_nil hn)
    (groupMembers_positions contributions (groupKey n))).type
  obtain ⟨hmem, hkey⟩ := mem_group_iff.mp ⟨m, hfirst.mem, rfl⟩
  exact ⟨m.node, hmem, hkey, htype⟩

/-- A number that nobody reports is not known. -/
theorem mergedNode_number {field : NativeIdentity → Option UInt32}
    (hfield : field ∈ NativeIdentity.numbers) (hn : n ∈ reportedNodes contributions)
    (hnone : ∀ n' ∈ reportedNodes contributions, groupKey n' = groupKey n →
      field n'.native = none) : field (mergedNode contributions n).native = none := by
  have hauth : AuthorityKept (groupMembers contributions (groupKey n))
      (mergedNode contributions n) :=
    groupNode_authority (groupMembers_ne_nil hn) (groupMembers_positions contributions (groupKey n))
  refine (hauth.numbers field hfield).unknown.mpr fun m hm => ?_
  obtain ⟨hmem, hkey⟩ := mem_group_iff.mp ⟨m, hm, rfl⟩
  exact hnone m.node hmem hkey

end Nodes

/-! ## Refs -/

/-- The ref names the node and nothing else: only nodes of its group declare the ref, and no other
group has it as its key. -/
structure NamesOnly (contributions : List Contribution) (ref : Bytes) (n : ContributedNode) :
    Prop where
  mem : n ∈ reportedNodes contributions
  declared : n.ref = ref
  only : ∀ n' ∈ reportedNodes contributions, n'.ref = ref → groupKey n' = groupKey n
  key : ∀ n' ∈ reportedNodes contributions, groupKey n' = ref → groupKey n' = groupKey n

section Refs

variable {order : IterationOrder} {bounds : Bounds} {contributions : List Contribution}
  {n : ContributedNode} {ref : Bytes}

theorem Declares.exists_node {key : Bytes} (h : Declares contributions ref key) :
    ∃ n ∈ reportedNodes contributions, n.ref = ref ∧ groupKey n = key := by
  obtain ⟨m, hm, href⟩ := h
  have hnode : m.node ∈ (groupMembers contributions key).map Member.node :=
    List.mem_map_of_mem hm
  rw [map_node_groupMembers] at hnode
  exact ⟨m.node, (List.mem_filter.mp hnode).1, href,
    of_decide_eq_true (List.mem_filter.mp hnode).2⟩

/-- **A ref that names one node** leads to it. -/
theorem NamesOnly.find?_refs (h : NamesOnly contributions ref n)
    (hnodes : WithinNodes bounds contributions) :
    (mergedRefs order bounds contributions).find? ref = some n.id := by
  rw [find?_mergedRefs hnodes]
  by_cases hkey : ref ∈ contributedKeys contributions
  · obtain ⟨n', hn', href⟩ := mem_contributedKeys_iff.mp hkey
    rw [leadingGroup_of_key hkey, Option.map_some, ContributedNode.id, ← h.key n' hn' href, href]
  · -- some group declares it, and that can only be the group of the node
    obtain ⟨m, hm, hnode⟩ := exists_groupMember h.mem rfl
    have hsome : (leadingGroup order contributions ref).isSome = true :=
      leadingGroup_isSome (mem_groupMembers.mp hm).1 (hnode ▸ h.declared)
    obtain ⟨key, hlead⟩ := Option.isSome_iff_exists.mp hsome
    have hfind := hlead
    rw [leadingGroup_of_not_key hkey] at hfind
    have hdeclares : Declares contributions ref key := by simpa using List.find?_some hfind
    obtain ⟨n', hn', href, rfl⟩ := hdeclares.exists_node
    rw [hlead, Option.map_some, ContributedNode.id, h.only n' hn' href]

/-- The refs that lead to a node: those that its group declares, and its key. -/
theorem ref_cases (hn : n ∈ reportedNodes contributions) (hnodes : WithinNodes bounds contributions)
    (hids : DistinctIds contributions)
    (hfind : (mergedRefs order bounds contributions).find? ref = some n.id) :
    (∃ n' ∈ reportedNodes contributions, groupKey n' = groupKey n ∧ n'.ref = ref) ∨
      ref = groupKey n := by
  have hmem : groupKey n ∈ contributedKeys contributions :=
    mem_contributedKeys_iff.mpr ⟨n, hn, rfl⟩
  rw [find?_mergedRefs hnodes] at hfind
  obtain ⟨key, hlead, hid⟩ := Option.map_eq_some_iff.mp hfind
  by_cases hkey : ref ∈ contributedKeys contributions
  · rw [leadingGroup_of_key hkey] at hlead
    obtain rfl := Option.some.inj hlead
    exact Or.inr (hids.injective hkey hmem hid)
  · rw [leadingGroup_of_not_key hkey] at hlead
    have hdeclares : Declares contributions ref key := by simpa using List.find?_some hlead
    have hsame : key = groupKey n := by
      apply hids.injective _ hmem hid
      exact mem_iteratedKeys.mp (List.mem_of_find?_eq_some hlead)
    obtain ⟨n', hn', href, hkey'⟩ := hdeclares.exists_node
    exact Or.inl ⟨n', hn', hkey'.trans hsame, href⟩

end Refs

/-! ## A region of the reports -/

/-- The nodes `l` keep apart from each other, by key and by ref, and no ref of them is one of the
`others`; only a node's own key may be its ref. -/
structure Region (contributions : List Contribution) (l others : List ContributedNode) : Prop where
  split : (reportedNodes contributions).Perm (l ++ others)
  keys : (l.map groupKey).Nodup
  refs : (l.map ContributedNode.ref).Nodup
  cross : ∀ n ∈ l, ∀ n' ∈ l, groupKey n' = n.ref → n' = n
  apart : ∀ n' ∈ others, ∀ n ∈ l, groupKey n' ≠ n.ref ∧ n'.ref ≠ n.ref

section InRegion

variable {contributions : List Contribution} {l others : List ContributedNode}
  {n m : ContributedNode}

/-- In a list with distinct images, one element has the image of a given one. -/
theorem filter_eq_singleton {α β : Type} [DecidableEq β] {f : α → β} {l : List α}
    (hnodup : (l.map f).Nodup) {a : α} (ha : a ∈ l) :
    l.filter (fun b => decide (f b = f a)) = [a] := by
  have hperm : (l.filter fun b => decide (f b = f a)).Perm [a] := by
    apply (List.perm_ext_iff_of_nodup (hnodup.of_map.filter _) (List.nodup_singleton a)).mpr
    intro b
    rw [List.mem_filter, List.mem_singleton, decide_eq_true_eq]
    constructor
    · rintro ⟨hb, hf⟩
      exact List.inj_on_of_nodup_map hnodup hb ha hf
    · rintro rfl
      exact ⟨ha, rfl⟩
  exact List.perm_singleton.mp hperm

theorem Region.mem (h : Region contributions l others) (hn : n ∈ l) :
    n ∈ reportedNodes contributions :=
  h.split.mem_iff.mpr (List.mem_append_left _ hn)

/-- **A node of a region is alone**, if the others leave its key alone. -/
theorem Region.alone (h : Region contributions l others) (hn : n ∈ l)
    (hkeys : ∀ n' ∈ others, groupKey n' ≠ groupKey n) : Alone contributions n := by
  have hnone : others.filter (fun n' => decide (groupKey n' = groupKey n)) = [] :=
    List.filter_eq_nil_iff.mpr fun n' hn' => by simpa using hkeys n' hn'
  have hperm := h.split.filter fun n' => decide (groupKey n' = groupKey n)
  rw [List.filter_append, filter_eq_singleton h.keys hn, hnone, List.append_nil] at hperm
  exact List.perm_singleton.mp hperm

/-- **The refs of a region** name its nodes. -/
theorem Region.named (h : Region contributions l others) (hn : n ∈ l) :
    NamesOnly contributions n.ref n where
  mem := h.mem hn
  declared := rfl
  only n' hn' href := by
    rcases List.mem_append.mp (h.split.mem_iff.mp hn') with hin | hout
    · rw [List.inj_on_of_nodup_map h.refs hin hn href]
    · exact absurd href (h.apart n' hout n hn).2
  key n' hn' hkey := by
    rcases List.mem_append.mp (h.split.mem_iff.mp hn') with hin | hout
    · rw [h.cross n hn n' hin hkey]
    · exact absurd hkey (h.apart n' hout n hn).1

end InRegion

/-! ## Parents -/

/-- The contributed CONTAINS edges are directed. -/
def ContainsDirected (contributions : List Contribution) : Prop :=
  ∀ ce ∈ contributedEdges contributions, ce.type = .contains → ce.direction = .directed

/-- The edge leads to the group of the node, by a ref that the group declares or by its key. -/
def ContributedEdge.LeadsInto (ce : ContributedEdge) (contributions : List Contribution)
    (n : ContributedNode) : Prop :=
  ce.type = .contains ∧
    ((∃ n' ∈ reportedNodes contributions, groupKey n' = groupKey n ∧ n'.ref = ce.toRef) ∨
      ce.toRef = groupKey n)

/-- The node `p` contains the node `n`, and nothing else does: an edge between their refs is
contributed, and every CONTAINS edge that leads to `n` comes from the ref of `p`. -/
structure OnlyParent (contributions : List Contribution) (n p : ContributedNode) : Prop where
  named : NamesOnly contributions n.ref n
  parent : NamesOnly contributions p.ref p
  contained : ∃ ce ∈ contributedEdges contributions,
    ce.type = .contains ∧ ce.fromRef = p.ref ∧ ce.toRef = n.ref
  only : ∀ ce ∈ contributedEdges contributions, ce.LeadsInto contributions n → ce.fromRef = p.ref

/-- Nothing contains the node. -/
structure NoParent (contributions : List Contribution) (n : ContributedNode) : Prop where
  mem : n ∈ reportedNodes contributions
  none : ∀ ce ∈ contributedEdges contributions, ¬ ce.LeadsInto contributions n

section Parents

variable {order : IterationOrder} {bounds : Bounds} {contributions : List Contribution}
  {n p : ContributedNode}

/-- **An edge to a ref of a region** leads to the node of that ref only. -/
theorem Region.leadsInto {l others : List ContributedNode} {m : ContributedNode}
    (h : Region contributions l others) (hn : n ∈ l) (hm : m ∈ l) {ce : ContributedEdge}
    (hleads : ce.LeadsInto contributions n) (hto : ce.toRef = m.ref) : m = n := by
  rcases hleads.2 with ⟨n', hn', hkey, href⟩ | hkey
  · rcases List.mem_append.mp (h.split.mem_iff.mp hn') with hin | hout
    · have hsame : n' = m := List.inj_on_of_nodup_map h.refs hin hm (href.trans hto)
      exact List.inj_on_of_nodup_map h.keys hm hn (hsame ▸ hkey)
    · exact absurd (href.trans hto) (h.apart n' hout m hm).2
  · exact (h.cross m hm n hn (hkey.symm.trans hto)).symm

/-- A merged edge that ends at a node leads there by a ref. -/
theorem ref_of_target (hn : n ∈ reportedNodes contributions)
    (hnodes : WithinNodes bounds contributions) (hids : DistinctIds contributions)
    {ce : ContributedEdge} (htarget : (mergedEdge order bounds contributions ce).target = n.id) :
    (∃ n' ∈ reportedNodes contributions, groupKey n' = groupKey n ∧ n'.ref = ce.toRef) ∨
      ce.toRef = groupKey n := by
  have hget : ((mergedRefs order bounds contributions).find? ce.toRef).getD kNullNodeId = n.id :=
    htarget
  cases hfind : (mergedRefs order bounds contributions).find? ce.toRef with
  | none =>
    rw [hfind, Option.getD_none] at hget
    have hkey : groupKey n ∈ contributedKeys contributions :=
      mem_contributedKeys_iff.mpr ⟨n, hn, rfl⟩
    exact absurd hget.symm (hids.nonnull _ hkey)
  | some id =>
    rw [hfind, Option.getD_some] at hget
    exact ref_cases hn hnodes hids (hfind.trans (congrArg some hget))

/-- A merged edge is made of a contributed one. -/
theorem exists_mergedEdge {e : TopologyEdge}
    (he : e ∈ (mergeContributions order contributions bounds).edges) :
    ∃ ce ∈ contributedEdges contributions, e = mergedEdge order bounds contributions ce := by
  rw [mergeEdges_eq] at he
  obtain ⟨ce, hce, rfl⟩ := List.mem_map.mp ((dedupEdges_sublist _).subset he)
  exact ⟨ce, (List.mem_filter.mp (List.mem_of_mem_take hce)).1, rfl⟩

theorem NoParent.merged (h : NoParent contributions n) (hnodes : WithinNodes bounds contributions)
    (hids : DistinctIds contributions) {e : TopologyEdge}
    (he : e ∈ (mergeContributions order contributions bounds).edges) (htype : e.type = .contains) :
    e.target ≠ n.id := by
  intro htarget
  obtain ⟨ce, hce, rfl⟩ := exists_mergedEdge he
  exact h.none ce hce ⟨htype, ref_of_target h.mem hnodes hids htarget⟩

/-- **The parents in the merged graph** of a node with one parent. -/
theorem OnlyParent.merged (h : OnlyParent contributions n p)
    (hnodes : WithinNodes bounds contributions) (hids : DistinctIds contributions)
    (hdirected : ContainsDirected contributions)
    (hroom : (contributedEdges contributions).length ≤ bounds.maxEdges) :
    (∀ e ∈ (mergeContributions order contributions bounds).edges, e.type = .contains →
        e.target = n.id → e.source = p.id) ∧
      ∃ e ∈ (mergeContributions order contributions bounds).edges, e.type = .contains ∧
        e.target = n.id ∧ e.source = p.id := by
  have hparent : (mergedRefs order bounds contributions).find? p.ref = some p.id :=
    h.parent.find?_refs hnodes
  have hnamed : (mergedRefs order bounds contributions).find? n.ref = some n.id :=
    h.named.find?_refs hnodes
  constructor
  · intro e he htype htarget
    obtain ⟨ce, hce, rfl⟩ := exists_mergedEdge he
    have hfrom := h.only ce hce ⟨htype, ref_of_target h.named.mem hnodes hids htarget⟩
    show ((mergedRefs order bounds contributions).find? ce.fromRef).getD kNullNodeId = p.id
    rw [hfrom, hparent, Option.getD_some]
  · obtain ⟨ce, hce, htype, hfrom, hto⟩ := h.contained
    have hsource : (mergedEdge order bounds contributions ce).source = p.id := by
      show ((mergedRefs order bounds contributions).find? ce.fromRef).getD kNullNodeId = p.id
      rw [hfrom, hparent, Option.getD_some]
    have htarget : (mergedEdge order bounds contributions ce).target = n.id := by
      show ((mergedRefs order bounds contributions).find? ce.toRef).getD kNullNodeId = n.id
      rw [hto, hnamed, Option.getD_some]
    have hresolvable : Resolvable order bounds contributions ce := by
      rw [resolvable_iff, hfrom, hto, hparent, hnamed]
      exact ⟨rfl, rfl⟩
    -- an edge with its key is kept, and it is directed as well
    have hkey : (mergedEdge order bounds contributions ce).key ∈
        ((mergeContributions order contributions bounds).edges).map TopologyEdge.key := by
      rw [mergeEdges_eq, mem_map_key_dedupEdges, takenEdges_of_room hroom]
      exact List.mem_map_of_mem (List.mem_map_of_mem
        (List.mem_filter.mpr ⟨hce, decide_eq_true hresolvable⟩))
    obtain ⟨e, he, hsame⟩ := List.mem_map.mp hkey
    have hdir : ∀ ce ∈ contributedEdges contributions, ce.type = .contains →
        (mergedEdge order bounds contributions ce).key =
          ⟨(mergedEdge order bounds contributions ce).source,
            (mergedEdge order bounds contributions ce).target, .contains⟩ := by
      intro ce hce htype
      have hnot : ¬ ((mergedEdge order bounds contributions ce).direction = .undirected ∧
          (mergedEdge order bounds contributions ce).target <
            (mergedEdge order bounds contributions ce).source) := by
        rintro ⟨hundirected, -⟩
        have hdirection : (mergedEdge order bounds contributions ce).direction = .directed :=
          hdirected ce hce htype
        rw [hdirection] at hundirected
        cases hundirected
      rw [TopologyEdge.key, if_neg hnot]
      congr 1
    obtain ⟨ce', hce', rfl⟩ := exists_mergedEdge he
    have htype' : ce'.type = .contains := by
      have hparts := congrArg EdgeKey.type hsame
      rw [hdir ce hce htype, TopologyEdge.key] at hparts
      split_ifs at hparts <;> exact hparts
    rw [hdir ce' hce' htype', hdir ce hce htype, hsource, htarget] at hsame
    exact ⟨_, he, htype', (EdgeKey.mk.inj hsame).2.1, (EdgeKey.mk.inj hsame).1⟩

end Parents

end TopologyFabric

import TopologyFabric.Merge.ProviderOrder
import TopologyFabric.Merge.Order
import Mathlib.Data.List.Find

/-!
# Refs of Several Providers

The refs of all providers and the keys of all groups share one table, in which the keys come first
and then the groups in iteration order. So a ref leads to the node that its own provider declares
with it only if no other group gets in before.

## Main results

- `find?_mergedRefs`: what a ref leads to
- `refs_local_iff`: when an edge joins the nodes that its own provider means
- `refs_not_local`: an edge between the nodes of other providers
-/

namespace TopologyFabric

open Library

/-! ## What a ref leads to -/

/-- A node of the group declares the ref. -/
def Declares (contributions : List Contribution) (ref key : Bytes) : Prop :=
  ∃ m ∈ groupMembers contributions key, m.node.ref = ref

instance (contributions : List Contribution) (ref key : Bytes) :
    Decidable (Declares contributions ref key) :=
  inferInstanceAs (Decidable (∃ m ∈ groupMembers contributions key, m.node.ref = ref))

/-- The keys of the groups in iteration order. -/
def iteratedKeys (order : IterationOrder) (contributions : List Contribution) : List Bytes :=
  ((groupBy Member.key (contributedMembers contributions)).reorder order).keys

/-- The group that comes first in the table for a ref: the one with the ref as its key, else the
first one in iteration order that declares it. -/
def leadingGroup (order : IterationOrder) (contributions : List Contribution) (ref : Bytes) :
    Option Bytes :=
  if (contributedKeys contributions).contains ref then some ref
  else (iteratedKeys order contributions).find? fun key => decide (Declares contributions ref key)

section Leads

variable {order : IterationOrder} {bounds : Bounds} {contributions : List Contribution}
  {ref : Bytes}

theorem leadingGroup_of_key (h : ref ∈ contributedKeys contributions) :
    leadingGroup order contributions ref = some ref :=
  if_pos (List.contains_iff_mem.mpr h)

theorem leadingGroup_of_not_key (h : ref ∉ contributedKeys contributions) :
    leadingGroup order contributions ref =
      (iteratedKeys order contributions).find? fun key =>
        decide (Declares contributions ref key) :=
  if_neg fun hcontains => h (List.contains_iff_mem.mp hcontains)

/-- The first entry for a ref is made by the first group that declares it. -/
theorem find?_refMap (groups : List (Bytes × List Member)) :
    ((groups.flatMap fun g => g.2.map fun m => (⟨m.ci, m.node.ref, g.1⟩ : RefEntry)).find?
        fun e => decide (e.ref = ref)).map RefEntry.key =
      (groups.find? fun g => decide (∃ m ∈ g.2, m.node.ref = ref)).map Prod.fst := by
  induction groups with
  | nil => rfl
  | cons g groups ih =>
    rw [List.flatMap_cons, List.find?_append, List.find?_cons]
    by_cases hdeclares : ∃ m ∈ g.2, m.node.ref = ref
    · obtain ⟨m, hm, href⟩ := hdeclares
      -- the first group that declares the ref
      have hsome : ((g.2.map fun m => (⟨m.ci, m.node.ref, g.1⟩ : RefEntry)).find?
          fun e => decide (e.ref = ref)).isSome = true :=
        List.find?_isSome.mpr ⟨_, List.mem_map_of_mem hm, decide_eq_true href⟩
      obtain ⟨e, he⟩ := Option.isSome_iff_exists.mp hsome
      obtain ⟨m', -, rfl⟩ := List.mem_map.mp (List.mem_of_find?_eq_some he)
      have hg : decide (∃ m ∈ g.2, m.node.ref = ref) = true := decide_eq_true ⟨m, hm, href⟩
      simp only [he, hg, Option.some_or, Option.map_some]
    · have hnone : (g.2.map fun m => (⟨m.ci, m.node.ref, g.1⟩ : RefEntry)).find?
          (fun e => decide (e.ref = ref)) = none := by
        rw [List.find?_eq_none]
        intro e he href
        obtain ⟨m, hm, rfl⟩ := List.mem_map.mp he
        exact hdeclares ⟨m, hm, of_decide_eq_true href⟩
      rw [hnone, Option.none_or, ih, decide_eq_false hdeclares]

/-- Within the node bound, a ref leads to the node of its leading group. -/
theorem find?_mergedRefs (hnodes : WithinNodes bounds contributions) :
    (mergedRefs order bounds contributions).find? ref =
      (leadingGroup order contributions ref).map groupId := by
  have hkeys : ∀ key, (refGroup order bounds contributions ref = some key →
      ¬ GroupDropped bounds contributions key) := fun key h =>
    not_groupDropped hnodes ((mem_groupKeys_within hnodes).mp (refGroup_mem _ _ _ h))
  have hgroup : refGroup order bounds contributions ref =
      leadingGroup order contributions ref := by
    -- a ref that is itself a key is resolved first
    by_cases hkey : ref ∈ contributedKeys contributions
    · rw [leadingGroup_of_key hkey]
      exact refGroup_of_names
        ⟨(mem_groupKeys_within hnodes).mpr hkey, not_groupDropped hnodes hkey⟩
    · rw [leadingGroup_of_not_key hkey,
        refGroup_of_not_names fun h => hkey ((mem_groupKeys_within hnodes).mp h.1), refMap,
        find?_refMap, ingest_eq_groupBy hnodes, iteratedKeys, HashMap.keys, List.find?_map]
      refine congrArg (Option.map Prod.fst) (List.find?_congr fun g hg => ?_)
      obtain ⟨-, hmembers⟩ :=
        (mem_groupBy Member.key).mp (HashMap.mem_reorder.mp (show (g.1, g.2) ∈ _ from hg))
      rw [hmembers]
      rfl
  rw [refToId_find?, hgroup]
  cases hlead : leadingGroup order contributions ref with
  | none => rw [Option.map_none, Option.map_none]
  | some key =>
    rw [Option.map_some, Option.map_some, if_neg (hkeys key (hgroup.trans hlead))]

theorem mem_iteratedKeys {key : Bytes} :
    key ∈ iteratedKeys order contributions ↔ key ∈ contributedKeys contributions := by
  rw [iteratedKeys, HashMap.mem_keys_reorder, mem_keys_groupBy]
  rfl

/-- A ref that is declared leads to a group. -/
theorem leadingGroup_isSome {m : Member} (hm : m ∈ contributedMembers contributions)
    (href : m.node.ref = ref) : (leadingGroup order contributions ref).isSome = true := by
  by_cases hkey : ref ∈ contributedKeys contributions
  · rw [leadingGroup_of_key hkey]
    rfl
  · rw [leadingGroup_of_not_key hkey]
    refine List.find?_isSome.mpr ⟨m.key, mem_iteratedKeys.mpr (List.mem_map_of_mem hm), ?_⟩
    exact decide_eq_true ⟨m, mem_groupMembers.mpr ⟨hm, rfl⟩, href⟩

end Leads

/-! ## Edges between nodes of one provider -/

/-- The contribution has exactly one node with the ref. -/
def DeclaredOnce (c : Contribution) (ref : Bytes) (n : ContributedNode) : Prop :=
  (c.nodes.filter fun n => decide (n.ref = ref)) = [n]

/-- The edge becomes one between the nodes of the groups that the nodes were put into. -/
def JoinsGroupsOf (order : IterationOrder) (bounds : Bounds) (contributions : List Contribution)
    (ce : ContributedEdge) (n₁ n₂ : ContributedNode) : Prop :=
  (mergedEdge order bounds contributions ce).source = groupId (groupKey n₁) ∧
    (mergedEdge order bounds contributions ce).target = groupId (groupKey n₂)

/-- The group that comes first for the ref is that of the node, or one with the same id. -/
def LeadsTo (order : IterationOrder) (contributions : List Contribution) (ref : Bytes)
    (n : ContributedNode) : Prop :=
  ∀ key ∈ leadingGroup order contributions ref, groupId key = groupId (groupKey n)

/-- The ref is the key of the node's group, or it is the key of no group and no other group declares
it; groups with one id count as one. -/
def OwnRef (contributions : List Contribution) (ref : Bytes) (n : ContributedNode) : Prop :=
  (ref ∈ contributedKeys contributions → groupId ref = groupId (groupKey n)) ∧
    (ref ∉ contributedKeys contributions → ∀ key ∈ contributedKeys contributions,
      Declares contributions ref key → groupId key = groupId (groupKey n))

section Local

variable {bounds : Bounds} {contributions : List Contribution} {ref : Bytes} {c : Contribution}
  {n : ContributedNode}

/-- A node that is declared is contributed. -/
theorem DeclaredOnce.exists_member (h : DeclaredOnce c ref n) (hc : c ∈ contributions) :
    ∃ m ∈ contributedMembers contributions, m.node = n ∧ m.node.ref = ref := by
  have hn : n ∈ c.nodes ∧ n.ref = ref := by
    have hmem : n ∈ c.nodes.filter fun n => decide (n.ref = ref) := h ▸ List.mem_singleton_self n
    exact ⟨(List.mem_filter.mp hmem).1, of_decide_eq_true (List.mem_filter.mp hmem).2⟩
  have hnode : n ∈ (contributedMembers contributions).map Member.node := by
    rw [contributedMembers, map_node_membersFrom]
    exact List.mem_flatMap.mpr ⟨c, hc, hn.1⟩
  obtain ⟨m, hm, rfl⟩ := List.mem_map.mp hnode
  exact ⟨m, hm, rfl, hn.2⟩

/-- The end of an edge at a declared ref. -/
theorem mergedRef_eq_iff (hnodes : WithinNodes bounds contributions) (order : IterationOrder)
    (h : DeclaredOnce c ref n) (hc : c ∈ contributions) :
    ((mergedRefs order bounds contributions).find? ref).getD kNullNodeId = groupId (groupKey n) ↔
      LeadsTo order contributions ref n := by
  obtain ⟨m, hm, -, href⟩ := h.exists_member hc
  have hlead : (leadingGroup order contributions ref).isSome = true := leadingGroup_isSome hm href
  obtain ⟨key, hkey⟩ := Option.isSome_iff_exists.mp hlead
  rw [find?_mergedRefs hnodes, hkey, Option.map_some, Option.getD_some, LeadsTo, hkey]
  exact ⟨fun h k hk => Option.some.inj hk ▸ h, fun h => h key rfl⟩

/-- In every iteration order the ref leads to the group of the node. -/
theorem forall_leadsTo_iff : (∀ order, LeadsTo order contributions ref n) ↔
    OwnRef contributions ref n := by
  unfold LeadsTo OwnRef
  by_cases hkey : ref ∈ contributedKeys contributions
  · simp only [leadingGroup_of_key hkey, hkey, not_true_eq_false, true_imp_iff, false_imp_iff,
      and_true]
    exact ⟨fun h => h .insertion ref rfl, fun h _ key hk => Option.some.inj hk ▸ h⟩
  · simp only [leadingGroup_of_not_key hkey, hkey, not_false_eq_true, true_imp_iff, false_imp_iff,
      true_and]
    constructor
    · intro h key hmem hdeclares
      -- an iteration order in which the group comes first
      have hgroup : (key, groupMembers contributions key) ∈
          (groupBy Member.key (contributedMembers contributions)).entries :=
        (mem_groupBy Member.key).mpr ⟨hmem, rfl⟩
      obtain ⟨order, gs, hentries⟩ := HashMap.exists_reorder_cons _ hgroup
      refine h order key ?_
      rw [iteratedKeys, HashMap.keys, hentries, List.map_cons]
      exact List.find?_cons_of_pos (decide_eq_true hdeclares)
    · intro h order key hfind
      have hsome := Option.mem_def.mp hfind
      have hdeclares := List.find?_some hsome
      exact h key (mem_iteratedKeys.mp (List.mem_of_find?_eq_some hsome)) (of_decide_eq_true hdeclares)

/-- Whatever its own provider declares can be resolved, so the edge is taken. -/
theorem mem_takenEdges_of_declared (hnodes : WithinNodes bounds contributions)
    (hedges : (contributedEdges contributions).length ≤ bounds.maxEdges) (order : IterationOrder)
    (hc : c ∈ contributions) {ce : ContributedEdge} (hce : ce ∈ c.edges) {n₁ n₂ : ContributedNode}
    (h₁ : DeclaredOnce c ce.fromRef n₁) (h₂ : DeclaredOnce c ce.toRef n₂) :
    ce ∈ takenEdges order bounds contributions := by
  have hres : Resolvable order bounds contributions ce := by
    rw [resolvable_iff, find?_mergedRefs hnodes, find?_mergedRefs hnodes, Option.isSome_map,
      Option.isSome_map]
    obtain ⟨m₁, hm₁, -, href₁⟩ := h₁.exists_member hc
    obtain ⟨m₂, hm₂, -, href₂⟩ := h₂.exists_member hc
    exact ⟨leadingGroup_isSome hm₁ href₁, leadingGroup_isSome hm₂ href₂⟩
  rw [takenEdges, List.take_of_length_le ((List.length_filter_le _ _).trans hedges)]
  exact List.mem_filter.mpr ⟨List.mem_flatMap.mpr ⟨c, hc, hce⟩, decide_eq_true hres⟩

/-- **When refs are local to their provider.** Take an edge of a contribution whose two refs are each
declared by one node of that contribution. It is always taken, and it joins the nodes of the groups
of these two nodes iff both refs lead there; in all iteration orders iff no other group gets in
before. -/
theorem refs_local_iff (hnodes : WithinNodes bounds contributions)
    (hedges : (contributedEdges contributions).length ≤ bounds.maxEdges) (hc : c ∈ contributions)
    {ce : ContributedEdge} (hce : ce ∈ c.edges) {n₁ n₂ : ContributedNode}
    (h₁ : DeclaredOnce c ce.fromRef n₁) (h₂ : DeclaredOnce c ce.toRef n₂) :
    (∀ order, ce ∈ takenEdges order bounds contributions ∧
      (JoinsGroupsOf order bounds contributions ce n₁ n₂ ↔
        LeadsTo order contributions ce.fromRef n₁ ∧ LeadsTo order contributions ce.toRef n₂)) ∧
    ((∀ order, JoinsGroupsOf order bounds contributions ce n₁ n₂) ↔
      OwnRef contributions ce.fromRef n₁ ∧ OwnRef contributions ce.toRef n₂) := by
  have hjoins : ∀ order, JoinsGroupsOf order bounds contributions ce n₁ n₂ ↔
      LeadsTo order contributions ce.fromRef n₁ ∧ LeadsTo order contributions ce.toRef n₂ :=
    fun order => and_congr (mergedRef_eq_iff hnodes order h₁ hc) (mergedRef_eq_iff hnodes order h₂ hc)
  refine ⟨fun order =>
    ⟨mem_takenEdges_of_declared hnodes hedges order hc hce h₁ h₂, hjoins order⟩, ?_⟩
  rw [← forall_leadsTo_iff, ← forall_leadsTo_iff, ← forall_and]
  exact forall_congr' hjoins

end Local

/-- The machine `x` of the second provider. -/
def ownMachine : ContributedNode := { ref := str "x", native := { machineName := str "b" } }

/-- Another machine of the second provider. -/
def attachedMachine : ContributedNode := { ref := str "y", native := { machineName := str "c" } }

/-- The edge between them. -/
def localEdge : ContributedEdge := { fromRef := str "x", toRef := str "y" }

/-- The second provider. -/
def ownContribution : Contribution :=
  { nodes := [ownMachine, attachedMachine], edges := [localEdge] }

/-- The first provider has a machine `x` as well. -/
def sharedRef : List Contribution :=
  [{ nodes := [{ ref := str "x", native := { machineName := str "a" } }] }, ownContribution]

theorem refs_local_iff_shared :
    (∀ order, localEdge ∈ takenEdges order {} sharedRef ∧
      (JoinsGroupsOf order {} sharedRef localEdge ownMachine attachedMachine ↔
        LeadsTo order sharedRef localEdge.fromRef ownMachine ∧
          LeadsTo order sharedRef localEdge.toRef attachedMachine)) ∧
    ((∀ order, JoinsGroupsOf order {} sharedRef localEdge ownMachine attachedMachine) ↔
      OwnRef sharedRef localEdge.fromRef ownMachine ∧
        OwnRef sharedRef localEdge.toRef attachedMachine) :=
  refs_local_iff (c := ownContribution) (by decide +kernel) (by decide +kernel) (by decide +kernel)
    (List.mem_singleton_self _) (by unfold DeclaredOnce; decide +kernel)
    (by unfold DeclaredOnce; decide +kernel)

/-- The edge of the second provider starts at the machine of the first one. -/
theorem refs_not_local : WithinNodes {} sharedRef ∧
    (contributedEdges sharedRef).length ≤ ({} : Bounds).maxEdges ∧
    ownContribution ∈ sharedRef ∧ localEdge ∈ ownContribution.edges ∧
    DeclaredOnce ownContribution localEdge.fromRef ownMachine ∧
    DeclaredOnce ownContribution localEdge.toRef attachedMachine ∧
    ¬ JoinsGroupsOf .insertion {} sharedRef localEdge ownMachine attachedMachine := by
  refine ⟨by decide +kernel, by decide +kernel, by decide +kernel, List.mem_singleton_self _, ?_,
    ?_, ?_⟩
  · unfold DeclaredOnce
    decide +kernel
  · unfold DeclaredOnce
    decide +kernel
  · unfold JoinsGroupsOf
    decide +kernel

end TopologyFabric

import TopologyFabric.Merge.Groups

/-!
# Resources Survive the Merge

Within the node bound the merge loses and duplicates no resource: the merged nodes are in bijection
with the groups, and what a node says of its group is what the members say together.

## Main results

- `mergeGroup_facts`: the facts of the node of a group
- `mergeContributions_resources`: the merged nodes are the groups
-/

namespace TopologyFabric

open Library

/-! ## What the members say together -/

/-- The facts of the node of the group with the given key and members. -/
structure GroupFacts (key : Bytes) (members : List Member) (n : TopologyNode) : Prop where
  id : n.id = groupId key
  capabilities : ∀ i, n.capabilities.toNat.testBit i = true ↔
    ∃ m ∈ members, m.node.capabilities.toNat.testBit i = true
  confidence_mem : ∃ m ∈ members, n.confidence = m.node.provenance.confidence
  confidence_max : ∀ m ∈ members, ConfidenceRanking.rank m.node.provenance.confidence ≤
    ConfidenceRanking.rank n.confidence
  synthetic : n.synthetic = true ↔ ∃ m ∈ members, m.node.synthetic = true
  type : ∃ m, IsFirst Precedes members
      (fun m => ∀ m' ∈ members, typeRank m'.node.type ≤ typeRank m.node.type) m ∧
    n.type = m.node.type

/-- Capabilities are collected bit by bit. -/
theorem testBit_capabilities (members : List Member) (caps : UInt64) (i : ℕ) :
    (members.foldl (fun caps m => caps ||| m.node.capabilities) caps).toNat.testBit i = true ↔
      caps.toNat.testBit i = true ∨
        ∃ m ∈ members, m.node.capabilities.toNat.testBit i = true := by
  induction members generalizing caps with
  | nil => simp
  | cons m members ih =>
    rw [List.foldl_cons, ih, UInt64.toNat_or, Nat.testBit_or, Bool.or_eq_true,
      List.exists_mem_cons_iff, or_assoc]

theorem ConfidenceRanking.rank_maximum (a b : Confidence) :
    rank (maximum a b) = max (rank a) (rank b) := by
  unfold maximum
  split_ifs with h
  · exact (max_eq_left h).symm
  · exact (max_eq_right (not_le.mp h).le).symm

/-- The confidence of a group is one of its members', or the start. -/
theorem confidence_foldl (members : List Member) (c : Confidence) :
    let res := members.foldl
      (fun conf m => ConfidenceRanking.maximum conf m.node.provenance.confidence) c
    (res = c ∨ ∃ m ∈ members, res = m.node.provenance.confidence) ∧
      ConfidenceRanking.rank c ≤ ConfidenceRanking.rank res ∧
        ∀ m ∈ members, ConfidenceRanking.rank m.node.provenance.confidence ≤
          ConfidenceRanking.rank res := by
  induction members generalizing c with
  | nil => exact ⟨Or.inl rfl, le_rfl, by simp⟩
  | cons m members ih =>
    -- the loop over the rest starts with the maximum of the first two
    obtain ⟨hmem, hstart, hall⟩ := ih (ConfidenceRanking.maximum c m.node.provenance.confidence)
    rw [ConfidenceRanking.rank_maximum] at hstart
    simp only [List.foldl_cons]
    refine ⟨?_, (le_max_left _ _).trans hstart, ?_⟩
    · rcases hmem with hmem | ⟨m', hm', hmem⟩
      · rw [hmem, ConfidenceRanking.maximum]
        split_ifs
        · exact Or.inl rfl
        · exact Or.inr ⟨m, List.mem_cons_self .., rfl⟩
      · exact Or.inr ⟨m', List.mem_cons_of_mem _ hm', hmem⟩
    · exact List.forall_mem_cons.mpr ⟨(le_max_right _ _).trans hstart, hall⟩

/-- A group has the confidence of one of its members, and no member has a better one. -/
theorem confidence_foldl_unknown {members : List Member} (hne : members ≠ []) :
    let res := members.foldl
      (fun conf m => ConfidenceRanking.maximum conf m.node.provenance.confidence) .unknown
    (∃ m ∈ members, res = m.node.provenance.confidence) ∧
      ∀ m ∈ members, ConfidenceRanking.rank m.node.provenance.confidence ≤
        ConfidenceRanking.rank res := by
  obtain ⟨hmem, -, hall⟩ := confidence_foldl members .unknown
  refine ⟨?_, hall⟩
  rcases hmem with hmem | hmem
  · -- then every member has the lowest confidence there is
    obtain ⟨m, hm⟩ := List.exists_mem_of_ne_nil members hne
    refine ⟨m, hm, ?_⟩
    have hle := hall m hm
    rw [hmem] at hle ⊢
    cases hconf : m.node.provenance.confidence with
    | unknown => rfl
    | _ => rw [hconf] at hle; exact absurd hle (by decide)
  · exact hmem

/-- The type of a group is that of the first member whose type ranks highest. -/
theorem resolvedType_first {members : List Member} (hne : members ≠ [])
    (hsorted : members.Pairwise Precedes) :
    ∃ m, IsFirst Precedes members
        (fun m => ∀ m' ∈ members, typeRank m'.node.type ≤ typeRank m.node.type) m ∧
      resolvedType members = m.node.type := by
  obtain ⟨c, members, rfl⟩ := List.exists_cons_of_ne_nil hne
  simp only [resolvedType, betterType, decide_eq_true_eq]
  exact foldl_argmax typeRank (fun m : Member => m.node.type) hsorted

/-- **The node of a group** says what the members say together. -/
theorem mergeGroup_facts {key : Bytes} {members : List Member} (hne : members ≠ [])
    (hpositions : members.Pairwise ReadBefore) :
    GroupFacts key members (groupNode (key, members)) := by
  have hperm := sortMembers_perm members
  have hne' : sortMembers members ≠ [] := fun h => hne (by simpa [h] using hperm)
  obtain ⟨hmem, hmax⟩ := confidence_foldl_unknown hne'
  obtain ⟨m, hfirst, htype⟩ := resolvedType_first hne' (sortMembers_sorted hpositions)
  refine ⟨rfl, fun i => ?_, ?_, ?_, ?_, m, ?_, htype⟩
  · refine (testBit_capabilities (sortMembers members) 0 i).trans ?_
    simp [hperm.mem_iff]
  · obtain ⟨m, hm, hconf⟩ := hmem
    exact ⟨m, hperm.mem_iff.mp hm, hconf⟩
  · exact fun m hm => hmax m (hperm.mem_iff.mpr hm)
  · show (sortMembers members).any _ = true ↔ _
    simp [hperm.mem_iff]
  · exact (hfirst.of_perm hperm).congr fun b _ => by simp only [hperm.mem_iff]

/-! ## No resource is lost or duplicated -/

/-- The merged node ids and the keys of the contributed nodes are in bijection, every contributed
node is counted, and the node of a group says what its members say together. -/
structure ResourcesKept (order : IterationOrder) (contributions : List Contribution)
    (bounds : Bounds) : Prop where
  bijective : Set.BijOn groupId {key | key ∈ contributedKeys contributions}
    {id | id ∈ (mergeContributions order contributions bounds).nodes.keys}
  counted : (mergeContributions order contributions bounds).mergedCount =
    (contributedMembers contributions).length
  facts : ∀ key ∈ contributedKeys contributions, ∃ n,
    (mergeContributions order contributions bounds).nodes.find? (groupId key) = some n ∧
      GroupFacts key (groupMembers contributions key) n

theorem length_membersFrom (ci : ℕ) (contributions : List Contribution) :
    (membersFrom ci contributions).length = (contributions.map fun c => c.nodes.length).sum := by
  induction contributions generalizing ci with
  | nil => rfl
  | cons c contributions ih =>
    rw [membersFrom_cons, List.length_append, ih, List.map_cons, List.sum_cons]
    simp [nodeMembers]

/-- **No resource is lost or duplicated**: with room for all keys and distinct ids, the merged nodes
are the groups of the contributed nodes. -/
theorem mergeContributions_resources {order : IterationOrder} {bounds : Bounds}
    {contributions : List Contribution} (hnodes : WithinNodes bounds contributions)
    (hinj : Set.InjOn groupId {key | key ∈ contributedKeys contributions}) :
    ResourcesKept order contributions bounds := by
  refine ⟨⟨fun key hkey => ?_, hinj, fun id hid => ?_⟩, ?_, fun key hkey => ?_⟩
  · exact (mem_keys_mergedNodes hnodes hinj).mpr ⟨key, hkey, rfl⟩
  · obtain ⟨key, hkey, hid⟩ := (mem_keys_mergedNodes hnodes hinj).mp hid
    exact ⟨key, hkey, hid⟩
  · exact (length_membersFrom 0 contributions).symm
  · refine ⟨_, find?_mergedNodes hnodes hinj hkey, ?_⟩
    exact mergeGroup_facts (mem_contributedKeys.mp hkey) (groupMembers_positions _ _)

/-- The accelerator in slot 1 as one provider reports it. -/
def gpuNode : ContributedNode where
  ref := str "gpu"
  type := .accelerator
  native := { pciBus := some 1, pciDevice := some 0, pciFunction := some 0 }
  capabilities := 1
  provenance := { confidence := .high }

/-- The PCI device in slot 1 as another provider reports it. -/
def slotNode : ContributedNode where
  ref := str "slot"
  type := .pciDevice
  native := { pciBus := some 1, pciDevice := some 0, pciFunction := some 0 }
  capabilities := 2
  synthetic := true

/-- Two providers report one PCI device, and the second one also a machine. -/
def sharedDevice : List Contribution :=
  [{ nodes := [gpuNode] },
    { nodes := [slotNode, { ref := str "host", native := { machineName := str "host" } }] }]

theorem mergeContributions_resources_shared :
    ResourcesKept IterationOrder.insertion sharedDevice {} := by
  have hdistinct : ∀ a ∈ contributedKeys sharedDevice, ∀ b ∈ contributedKeys sharedDevice,
      groupId a = groupId b → a = b := by
    decide +kernel
  exact mergeContributions_resources (by decide +kernel) fun a ha b hb => hdistinct a ha b hb

end TopologyFabric

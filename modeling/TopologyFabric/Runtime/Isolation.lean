import TopologyFabric.Merge.Absent
import TopologyFabric.Merge.Resources
import TopologyFabric.Runtime.Warnings

/-!
# Isolation of Provider Faults

A provider that throws contributes nothing, and the merge, the attachment to the machine and the
build go on as if it had not been registered: only the versions in the metadata and the flag for a
partial discovery tell that it was.

## Main results

- `gather_absent`: a contribution without data changes nothing in the gathered graph
- `discover_isolated`: the nodes and edges without the provider that threw
-/

namespace TopologyFabric

open Library

/-- A provider that threw changes neither the nodes nor the edges that are gathered. -/
theorem gather_absent {order order' : IterationOrder} (horder : order.Agree order')
    (bounds : Bounds) (pre post : List ProviderResult) (what : Bytes) :
    (gather order' bounds (pre ++ .threw what :: post)).nodes =
        (gather order bounds (pre ++ post)).nodes ∧
      (gather order' bounds (pre ++ .threw what :: post)).edges =
        (gather order bounds (pre ++ post)).edges := by
  -- a provider that threw stands for an empty contribution
  have hmerged : mergeContributions order'
      ((pre ++ .threw what :: post).map ProviderResult.contribution) bounds =
        mergeContributions order ((pre ++ post).map ProviderResult.contribution) bounds := by
    rw [List.map_append, List.map_cons, List.map_append]
    exact mergeContributions_absent horder rfl rfl
  have hnodes : (gather order' bounds (pre ++ .threw what :: post)).nodes =
      (gather order bounds (pre ++ post)).nodes := by
    show (mergeContributions order' _ bounds).nodes.reorder order' = _
    rw [hmerged, HashMap.reorder_congr horder]
    rfl
  refine ⟨hnodes, ?_⟩
  show attachToMachine (gather order' bounds (pre ++ .threw what :: post)).nodes
    (mergeContributions order' _ bounds).edges = _
  rw [hnodes, hmerged]
  rfl

/-- **Provider faults are isolated.** With maps iterated in the same way, a call in which a provider
throws publishes the nodes and edges of a call without that provider, and says that the discovery
was partial. -/
theorem discover_isolated {bounds : Bounds} {pre post : List ProviderResult} {what : Bytes}
    {current current' : Option TopologySnapshot} {counter counter' : ℕ} {inp inp' : CallInputs}
    {snap snap' : TopologySnapshot} (horder : inp.order.Agree inp'.order)
    (hwithout : inp.results = pre ++ post) (hwith : inp'.results = pre ++ .threw what :: post)
    (h : discover bounds current counter inp = .ok snap)
    (h' : discover bounds current' counter' inp' = .ok snap') :
    snap'.nodes.entries.Perm snap.nodes.entries ∧ snap'.edges = snap.edges ∧
      snap'.metadata.partialDiscovery = true := by
  obtain ⟨hnodes, hedges⟩ := gather_absent horder bounds pre post what
  rw [← hwithout, ← hwith] at hnodes hedges
  -- both calls build the snapshot from the same nodes and edges
  have hsame : graphBuilder bounds (gather inp'.order bounds inp'.results) =
      graphBuilder bounds (gather inp.order bounds inp.results) := by
    rw [graphBuilder, graphBuilder, hnodes, hedges]
  obtain ⟨hperm, hlist⟩ := discover_hasGraph h
  obtain ⟨hperm', hlist'⟩ := discover_hasGraph h'
  rw [hsame] at hperm' hlist'
  refine ⟨hperm'.trans hperm.symm, hlist'.trans hlist.symm, ?_⟩
  rw [discover_partialDiscovery h', hwith]
  exact ⟨.threw what, by simp, trivial⟩

/-- A provider of two devices, with and without another one that throws before it. -/
theorem discover_isolated_pair : ∃ snap snap',
    discover {} none 0 ⟨.insertion, sharedDevice.map .returned, ⟨kNullNodeId, 0, .insertion⟩,
      ⟨kNullNodeId, 0, .insertion⟩⟩ = .ok snap ∧
    discover {} none 0 ⟨.insertion, .threw (str "no driver") :: sharedDevice.map .returned,
      ⟨kNullNodeId, 0, .insertion⟩, ⟨kNullNodeId, 0, .insertion⟩⟩ = .ok snap' ∧
    snap'.nodes.entries.Perm snap.nodes.entries ∧ snap'.edges = snap.edges ∧
      snap'.metadata.partialDiscovery = true := by
  obtain ⟨snap, hsnap⟩ := discover_returns {} none 0 ⟨.insertion, sharedDevice.map .returned,
    ⟨kNullNodeId, 0, .insertion⟩, ⟨kNullNodeId, 0, .insertion⟩⟩
  obtain ⟨snap', hsnap'⟩ := discover_returns {} none 0
    ⟨.insertion, .threw (str "no driver") :: sharedDevice.map .returned,
      ⟨kNullNodeId, 0, .insertion⟩, ⟨kNullNodeId, 0, .insertion⟩⟩
  have hwithout : sharedDevice.map ProviderResult.returned =
    [] ++ sharedDevice.map ProviderResult.returned := rfl
  exact ⟨snap, snap', hsnap, hsnap',
    discover_isolated IterationOrder.agree_insertion hwithout rfl hsnap hsnap'⟩

end TopologyFabric

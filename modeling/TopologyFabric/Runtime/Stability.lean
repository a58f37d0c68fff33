import TopologyFabric.Diff.Laws
import TopologyFabric.Merge.Resources
import TopologyFabric.Runtime.Warnings

/-!
# Stability of the Generation

When the providers say the same twice, the second call publishes the same graph, and the comparison
of a snapshot with itself is immaterial if its parallel edges agree. The merge leaves one edge of
each key. The attachment to the machine can add a second one: an undirected containment edge from
a resource to the machine does not make the machine its parent, but it can have the key of the edge
that does.

## Main results

- `graphBuilder_edges`: the edges that are published
- `parallelEdgesAgree_published`: when the published edges with one key agree
- `discover_stable_iff`: when the generation stays the same on the same contributions
- `discover_unstable`: contributions for which it does not
-/

namespace TopologyFabric

open Library

/-! ## The published edges -/

/-- The id of the machine, or the null id. -/
def machineIdOf (nodes : NodeMap) : TopologyNodeId :=
  ((findMachine nodes).map Prod.fst).getD kNullNodeId

/-- A containment or attachment edge leads to the node. -/
def HasParent (edges : List TopologyEdge) (id : TopologyNodeId) : Prop :=
  ∃ e ∈ edges, (e.type = .contains ∨ e.type = .attachedTo) ∧ e.target = id

instance (edges : List TopologyEdge) (id : TopologyNodeId) : Decidable (HasParent edges id) :=
  inferInstanceAs (Decidable (∃ e ∈ edges, _))

/-- The resources without a parent, which are placed under the machine if there is one. -/
def attachedIds (nodes : NodeMap) (edges : List TopologyEdge) : List TopologyNodeId :=
  if machineIdOf nodes = kNullNodeId then []
  else (nodes.entries.filter fun e => decide (e.1 ≠ machineIdOf nodes ∧
    isResource e.2.type = true ∧ ¬ HasParent edges e.1)).map Prod.fst

section Attach

variable {nodes : NodeMap} {edges : List TopologyEdge}

/-- Collecting the edges to the resources without a parent one after the other. -/
private theorem foldl_attach (machine : TopologyNodeId) (l : List (TopologyNodeId × TopologyNode))
    (acc : List TopologyEdge) :
    l.foldl (fun acc (id, n) =>
      if id ≠ machine ∧ isResource n.type = true ∧
          id ∉ (edges.filter fun e => decide (e.type = .contains ∨ e.type = .attachedTo)).map
            TopologyEdge.target then
        acc ++ [machineAttachEdge machine id]
      else acc) acc =
    acc ++ ((l.filter fun e => decide (e.1 ≠ machine ∧ isResource e.2.type = true ∧
      ¬ HasParent edges e.1)).map Prod.fst).map (machineAttachEdge machine) := by
  -- the set of the targets of containment
  have hparent : ∀ id, id ∈ (edges.filter fun e =>
      decide (e.type = .contains ∨ e.type = .attachedTo)).map TopologyEdge.target ↔
        HasParent edges id := by
    intro id
    simp only [HasParent, List.mem_map, List.mem_filter, decide_eq_true_eq, and_assoc]
  induction l generalizing acc with
  | nil => simp
  | cons e l ih =>
    rw [List.foldl_cons, ih]
    simp only [hparent]
    by_cases h : e.1 ≠ machine ∧ isResource e.2.type = true ∧ ¬ HasParent edges e.1
    · rw [if_pos h, List.filter_cons_of_pos (by simpa using h)]
      simp
    · rw [if_neg h, List.filter_cons_of_neg (by simpa using h)]

/-- The machine gets one edge to each resource without a parent. -/
theorem attachToMachine_eq (nodes : NodeMap) (edges : List TopologyEdge) :
    attachToMachine nodes edges =
      edges ++ (attachedIds nodes edges).map (machineAttachEdge (machineIdOf nodes)) := by
  unfold attachToMachine attachedIds
  simp only [show ((findMachine nodes).map Prod.fst).getD kNullNodeId = machineIdOf nodes from rfl]
  split_ifs with h
  · simp
  · exact foldl_attach (machineIdOf nodes) nodes.entries edges

theorem nodup_attachedIds : (attachedIds nodes edges).Nodup := by
  unfold attachedIds
  split_ifs
  · exact List.nodup_nil
  · exact nodes.nodup.sublist (List.filter_sublist.map _)

theorem not_hasParent_of_attached {id : TopologyNodeId} (h : id ∈ attachedIds nodes edges) :
    id ≠ machineIdOf nodes ∧ ¬ HasParent edges id := by
  unfold attachedIds at h
  split_ifs at h
  · exact absurd h List.not_mem_nil
  · obtain ⟨e, he, rfl⟩ := List.mem_map.mp h
    have he := of_decide_eq_true (List.mem_filter.mp he).2
    exact ⟨he.1, he.2.2⟩

end Attach

/-- The edges that are published: those of the gathered graph, as far as there is room. -/
theorem graphBuilder_edges (bounds : Bounds) (g : Gathered) :
    (graphBuilder bounds g).edges = g.edges.take bounds.maxEdges := by
  obtain ⟨hedges, hbounds⟩ := SnapshotBuilder.foldl_addNode_rest Prod.snd g.nodes.entries
    (SnapshotBuilder.new bounds)
  have htaken : (g.nodes.entries.foldl (fun b e => (b.addNode e.2).2)
      (SnapshotBuilder.new bounds)).taken = false :=
    SnapshotBuilder.foldl_addNode_taken Prod.snd _ _
  rw [graphBuilder, SnapshotBuilder.foldl_addEdge_edges _ _ htaken, hedges, hbounds]
  rfl

/-! ## Parallel edges -/

/-- In a list with distinct keys, only an edge and itself are parallel. -/
private theorem eq_of_key {l : List TopologyEdge} (h : (l.map TopologyEdge.key).Nodup)
    {e e' : TopologyEdge} (he : e ∈ l) (he' : e' ∈ l) (hkey : e.key = e'.key) : e = e' :=
  List.inj_on_of_nodup_map h he he' hkey

/-- Two lists with distinct keys each: the parallel edges are one of each list. -/
theorem parallelEdgesAgree_append {l l' : List TopologyEdge}
    (hl : (l.map TopologyEdge.key).Nodup) (hl' : (l'.map TopologyEdge.key).Nodup)
    (hself : ∀ e ∈ l ++ l', linkChanged e e = false) :
    ParallelEdgesAgree (l ++ l') ↔
      ∀ e ∈ l, ∀ e' ∈ l', e.key = e'.key → linkChanged e e' = false := by
  constructor
  · intro h e he e' he'
    exact h e (List.mem_append_left _ he) e' (List.mem_append_right _ he')
  · intro h e he e' he' hkey
    rcases List.mem_append.mp he with hmem | hmem <;> rcases List.mem_append.mp he' with hmem' | hmem'
    · exact eq_of_key hl hmem hmem' hkey ▸ hself e he
    · exact h e hmem e' hmem' hkey
    · exact linkChanged_symm (h e' hmem' e hmem hkey.symm)
    · exact eq_of_key hl' hmem hmem' hkey ▸ hself e he

/-! ## When an attachment repeats an edge -/

/-- An undirected containment edge from the resource to the machine, which is kept in the order of
the ids: it has the key of the edge that places the resource under the machine. -/
structure Reversed (machineId id : TopologyNodeId) (e : TopologyEdge) : Prop where
  type : e.type = .contains
  direction : e.direction = .undirected
  source : e.source = id
  target : e.target = machineId
  order : machineId < id

theorem key_machineAttachEdge (machineId id : TopologyNodeId) :
    (machineAttachEdge machineId id).key = ⟨machineId, id, .contains⟩ :=
  if_neg fun h => absurd h.1 (by simp [machineAttachEdge])

/-- An edge that repeats an attachment is reversed: any other edge with its key would have made the
machine a parent. -/
theorem key_eq_attach_iff {nodes : NodeMap} {edges : List TopologyEdge} {id : TopologyNodeId}
    (hid : id ∈ attachedIds nodes edges) {e : TopologyEdge} (he : e ∈ edges) :
    e.key = (machineAttachEdge (machineIdOf nodes) id).key ↔ Reversed (machineIdOf nodes) id e := by
  obtain ⟨hne, hparent⟩ := not_hasParent_of_attached hid
  rw [key_machineAttachEdge]
  constructor
  · intro hkey
    unfold TopologyEdge.key at hkey
    split_ifs at hkey with h
    · obtain ⟨htarget, hsource, htype⟩ := EdgeKey.mk.inj hkey
      exact ⟨htype, h.1, hsource, htarget, hsource ▸ htarget ▸ h.2⟩
    · obtain ⟨-, htarget, htype⟩ := EdgeKey.mk.inj hkey
      exact absurd ⟨e, he, Or.inl htype, htarget⟩ hparent
  · intro h
    rw [TopologyEdge.key, if_pos ⟨h.direction, by rw [h.source, h.target]; exact h.order⟩,
      h.source, h.target, h.type]

/-- The edge says nothing about the link. -/
def NoLinkFacts (e : TopologyEdge) : Prop :=
  e.bandwidthBytesPerSec = none ∧ e.latencyNs = none ∧ e.width = none ∧ e.pcieGeneration = none

theorem linkChanged_attach {machineId id : TopologyNodeId} {e : TopologyEdge}
    (haccessible : e.accessible = true) :
    linkChanged e (machineAttachEdge machineId id) = false ↔ NoLinkFacts e := by
  have hnone : ∀ x : Option Double, optionalNe Double.ne x none = false ↔ x = none := by
    intro x
    cases x <;> simp [optionalNe]
  rw [linkChanged_eq_false]
  simp only [machineAttachEdge, hnone, haccessible, and_true, NoLinkFacts]

/-! ## The contributions of two calls -/

/-- The bandwidths and latencies of the contributed edges are numbers. -/
def ExactFacts (contributions : List Contribution) : Prop :=
  ∀ ce ∈ contributedEdges contributions,
    ce.bandwidthBytesPerSec ≠ some .nan ∧ ce.latencyNs ≠ some .nan

instance (contributions : List Contribution) : Decidable (ExactFacts contributions) :=
  inferInstanceAs (Decidable (∀ ce ∈ contributedEdges contributions, _))

/-- No resource that is placed under the machine has an undirected containment edge to the machine
with facts about the link, in the merged graph and as far as there is room for the placement. -/
def NoReversedLink (order : IterationOrder) (bounds : Bounds) (contributions : List Contribution) :
    Prop :=
  let merged := mergeContributions order contributions bounds
  let nodes := merged.nodes.reorder order
  ∀ id ∈ (attachedIds nodes merged.edges).take (bounds.maxEdges - merged.edges.length),
    ∀ e ∈ merged.edges, Reversed (machineIdOf nodes) id e → NoLinkFacts e

section Merged

variable {order : IterationOrder} {bounds : Bounds} {contributions : List Contribution}

/-- A merged edge has the facts of a contributed one, and is accessible. -/
theorem exists_contributedEdge {e : TopologyEdge}
    (he : e ∈ (mergeContributions order contributions bounds).edges) :
    ∃ ce ∈ contributedEdges contributions, e = mergedEdge order bounds contributions ce := by
  rw [mergeEdges_eq] at he
  obtain ⟨ce, hce, rfl⟩ := List.mem_map.mp ((dedupEdges_sublist _).subset he)
  exact ⟨ce, (List.mem_filter.mp (List.mem_of_mem_take hce)).1, rfl⟩

theorem linkChanged_self_merged (hfacts : ExactFacts contributions) {e : TopologyEdge}
    (he : e ∈ (mergeContributions order contributions bounds).edges) :
    linkChanged e e = false := by
  have hexact : ∀ x : Option Double, x ≠ some .nan → optionalNe Double.ne x x = false := by
    intro x hx
    cases x with
    | none => rfl
    | some d => exact Double.ne_self.mpr fun h => hx (by rw [h])
  obtain ⟨ce, hce, rfl⟩ := exists_contributedEdge he
  obtain ⟨hbandwidth, hlatency⟩ := hfacts ce hce
  exact linkChanged_eq_false.mpr ⟨hexact _ hbandwidth, hexact _ hlatency, rfl, rfl, rfl⟩

/-- **The published edges with one key agree** iff no attachment repeats an edge with link facts. -/
theorem parallelEdgesAgree_published (results : List ProviderResult)
    (hfacts : ExactFacts (results.map ProviderResult.contribution)) :
    ParallelEdgesAgree (graphBuilder bounds (gather order bounds results)).edges ↔
      NoReversedLink order bounds (results.map ProviderResult.contribution) := by
  have hbound : (mergeContributions order (results.map ProviderResult.contribution)
      bounds).edges.length ≤ bounds.maxEdges := mergeContributions_bounds.2
  have hkeys : ((mergeContributions order (results.map ProviderResult.contribution)
      bounds).edges.map TopologyEdge.key).Nodup := by
    rw [mergeEdges_eq]
    exact nodup_dedupEdges _
  have hpublished : (graphBuilder bounds (gather order bounds results)).edges =
      (mergeContributions order (results.map ProviderResult.contribution) bounds).edges ++
        ((attachedIds ((mergeContributions order (results.map ProviderResult.contribution)
          bounds).nodes.reorder order) (mergeContributions order
            (results.map ProviderResult.contribution) bounds).edges).take (bounds.maxEdges -
              (mergeContributions order (results.map ProviderResult.contribution)
                bounds).edges.length)).map (machineAttachEdge (machineIdOf
                  ((mergeContributions order (results.map ProviderResult.contribution)
                    bounds).nodes.reorder order))) := by
    rw [graphBuilder_edges, gather, attachToMachine_eq, List.take_append,
      List.take_of_length_le hbound, ← List.map_take]
  -- neither the merged edges nor the attachments have a key twice, so only the two can meet
  rw [hpublished, NoReversedLink]
  generalize hmerged : mergeContributions order (results.map ProviderResult.contribution) bounds =
    merged at hkeys
  have hself : ∀ e ∈ merged.edges, linkChanged e e = false := fun e he =>
    linkChanged_self_merged hfacts (hmerged ▸ he)
  have haccessible : ∀ e ∈ merged.edges, e.accessible = true := by
    intro e he
    obtain ⟨ce, -, rfl⟩ := exists_contributedEdge (hmerged ▸ he)
    rfl
  have hattach : ∀ (ids : List TopologyNodeId), ids.Nodup →
      ((ids.map (machineAttachEdge (machineIdOf (merged.nodes.reorder order)))).map
        TopologyEdge.key).Nodup := by
    intro ids hids
    rw [List.map_map]
    refine hids.map fun a b hab => ?_
    simp only [Function.comp, key_machineAttachEdge] at hab
    exact (EdgeKey.mk.inj hab).2.1
  rw [parallelEdgesAgree_append hkeys (hattach _ (nodup_attachedIds.sublist (List.take_sublist ..)))]
  · rw [forall₂_comm]
    simp only [List.forall_mem_map]
    refine forall₂_congr fun id hid => forall₂_congr fun e he => ?_
    rw [key_eq_attach_iff (List.mem_of_mem_take hid) he, linkChanged_attach (haccessible e he)]
  · intro e he
    rcases List.mem_append.mp he with he | he
    · exact hself e he
    · obtain ⟨id, -, rfl⟩ := List.mem_map.mp he
      exact (linkChanged_attach rfl).mpr ⟨rfl, rfl, rfl, rfl⟩

end Merged

/-! ## Two calls -/

/-- **When the generation is stable**: if the providers return the same in two consecutive calls,
which iterate the maps in one order, since both fill them in the same way, the second call keeps the
generation iff no attachment repeats an edge with link facts. -/
theorem discover_stable_iff {bounds : Bounds} {order : IterationOrder}
    {results : List ProviderResult} {current : Option TopologySnapshot} {counter counter' : ℕ}
    {p f p' f' : BuildInputs} {a b : TopologySnapshot}
    (hfacts : ExactFacts (results.map ProviderResult.contribution))
    (h : discover bounds current counter ⟨order, results, p, f⟩ = .ok a)
    (h' : discover bounds (some a) counter' ⟨order, results, p', f'⟩ = .ok b) :
    b.metadata.generation = a.metadata.generation ↔
      NoReversedLink order bounds (results.map ProviderResult.contribution) := by
  obtain ⟨hnodes, hedges⟩ := discover_hasGraph h
  obtain ⟨hnodes', hedges'⟩ := discover_hasGraph h'
  have hgeneration : b.metadata.generation = decideGeneration a b := discover_generation h'
  -- the second snapshot has the graph of the first, so it is compared with itself
  have hself : (compareSnapshots a b).materialChange = (compareSnapshots a a).materialChange :=
    materialChange_congr (hnodes'.trans hnodes.symm) (hedges'.trans hedges.symm)
  rw [← parallelEdgesAgree_published results hfacts, ← hedges, ← immaterial_self_iff,
    ← materialChange_eq_false_iff, ← hself, hgeneration, decideGeneration]
  cases (compareSnapshots a b).materialChange <;> simp

/-- A machine, a device, and an undirected containment edge from the device to the machine with
the given width. -/
def reversedLink (width : Option Int32) : List Contribution :=
  [{ nodes := [{ ref := str "host", type := .machine, native := { machineName := str "a" } },
      gpuNode]
     edges := [{ fromRef := str "gpu", toRef := str "host", type := .contains,
                 direction := .undirected, width := width }] }]

/-- What the environment supplies to the builds does not matter. -/
def fixedInputs : BuildInputs := ⟨kNullNodeId, 0, .insertion⟩

/-- Without a width the generation stays. -/
theorem discover_stable_iff_plain : ∃ a b,
    discover {} none 0 ⟨.insertion, (reversedLink none).map .returned, fixedInputs,
      fixedInputs⟩ = .ok a ∧
    discover {} (some a) 1 ⟨.insertion, (reversedLink none).map .returned, fixedInputs,
      fixedInputs⟩ = .ok b ∧
    (b.metadata.generation = a.metadata.generation ↔
      NoReversedLink .insertion {} (((reversedLink none).map .returned).map
        ProviderResult.contribution)) := by
  obtain ⟨a, ha⟩ := discover_returns {} none 0
    ⟨.insertion, (reversedLink none).map .returned, fixedInputs, fixedInputs⟩
  obtain ⟨b, hb⟩ := discover_returns {} (some a) 1
    ⟨.insertion, (reversedLink none).map .returned, fixedInputs, fixedInputs⟩
  exact ⟨a, b, ha, hb, discover_stable_iff (by decide) ha hb⟩

/-- With a width the second call publishes the next generation. -/
theorem discover_unstable : ExactFacts (reversedLink (some 8)) ∧ ∃ a b,
    discover {} none 0 ⟨.insertion, (reversedLink (some 8)).map .returned, fixedInputs,
      fixedInputs⟩ = .ok a ∧
    discover {} (some a) 1 ⟨.insertion, (reversedLink (some 8)).map .returned, fixedInputs,
      fixedInputs⟩ = .ok b ∧
    b.metadata.generation ≠ a.metadata.generation := by
  refine ⟨by decide, ?_⟩
  obtain ⟨a, ha⟩ := discover_returns {} none 0
    ⟨.insertion, (reversedLink (some 8)).map .returned, fixedInputs, fixedInputs⟩
  obtain ⟨b, hb⟩ := discover_returns {} (some a) 1
    ⟨.insertion, (reversedLink (some 8)).map .returned, fixedInputs, fixedInputs⟩
  refine ⟨a, b, ha, hb, ?_⟩
  -- two calls with the same contributions
  have hrun : (match discover {} none 0
      ⟨.insertion, (reversedLink (some 8)).map .returned, fixedInputs, fixedInputs⟩ with
    | .ok a =>
      match discover {} (some a) 1
        ⟨.insertion, (reversedLink (some 8)).map .returned, fixedInputs, fixedInputs⟩ with
      | .ok b => decide (b.metadata.generation ≠ a.metadata.generation)
      | _ => false
    | _ => false) = true := by decide +kernel
  rw [ha] at hrun
  simp only at hrun
  rw [hb] at hrun
  exact of_decide_eq_true hrun

end TopologyFabric

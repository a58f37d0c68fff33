import TopologyFabric.Core.Validation
import TopologyFabric.Library.Attach
import TopologyFabric.Query.ShortestPath
import TopologyFabric.Runtime.Stability

/-!
# The Machine-Attach Pass

The pass places every listed resource without a parent under the machine, so that the graph becomes
connected and stays valid. The rule is local. A resource whose parent is of a type that is not
listed, such as a bridge, keeps that parent and may stay apart from the machine; and a resource
without a parent that contains the machine is placed under it all the same.

## Main results

- `resourcesAttached_iff`: the pass on a graph within the bounds
- `discover_attaches_iff`: when the pass does what it is for
- `discover_attaches_fails`: a device under a bridge stays apart
-/

namespace TopologyFabric

open Library Relation

/-! ## Links -/

/-- An edge that paths may use joins the two nodes. -/
def Adjacent (edges : List TopologyEdge) (a b : TopologyNodeId) : Prop :=
  ∃ e ∈ edges, e.Usable false ∧ e.Joins a b

/-- Edges that paths may use join the two nodes, one after the other. -/
def Linked (edges : List TopologyEdge) (a b : TopologyNodeId) : Prop :=
  ReflTransGen (Adjacent edges) a b

/-- Routes are links. -/
theorem exists_route_iff_linked {snap : TopologySnapshot} {a b : TopologyNodeId} :
    (∃ hops, IsRoute snap false a hops b) ↔ Linked snap.edges a b := by
  constructor
  · rintro ⟨hops, hroute⟩
    induction hroute with
    | nil a => exact .refl
    | cons he hu hj _ ih => exact ih.head ⟨_, List.mem_of_getElem? he, hu, hj⟩
  · intro hlinked
    induction hlinked using ReflTransGen.head_induction_on with
    | refl => exact ⟨[], .nil b⟩
    | head hstep _ ih =>
      obtain ⟨e, he, hu, hj⟩ := hstep
      obtain ⟨i, hi⟩ := List.mem_iff_getElem?.mp he
      obtain ⟨hops, hroute⟩ := ih
      exact ⟨_, .cons hi hu hj hroute⟩

/-- The ids that occur in edges. -/
def edgeEndpoints (edges : List TopologyEdge) : List TopologyNodeId :=
  edges.flatMap fun e => [e.source, e.target]

theorem Linked.mem_edgeEndpoints {edges : List TopologyEdge} {a b : TopologyNodeId}
    (h : Linked edges a b) (ha : a ∈ edgeEndpoints edges) : b ∈ edgeEndpoints edges := by
  induction h with
  | refl => exact ha
  | tail _ hstep _ =>
    obtain ⟨e, he, -, hjoins⟩ := hstep
    refine List.mem_flatMap.mpr ⟨e, he, ?_⟩
    rcases hjoins with ⟨-, rfl⟩ | ⟨rfl, -⟩
    · exact List.mem_cons_of_mem _ (List.mem_singleton_self _)
    · exact List.mem_cons_self ..

/-! ## What the pass is for -/

/-- The node has a type that the pass places under the machine. -/
def IsResource (nodes : NodeMap) (id : TopologyNodeId) : Prop :=
  ∃ n, nodes.find? id = some n ∧ isResource n.type = true

def IsMachine (nodes : NodeMap) (id : TopologyNodeId) : Prop :=
  ∃ n, nodes.find? id = some n ∧ n.type = .machine

/-- `shortest_path` finds a path from the node to a machine. -/
def JoinedToMachine (fl : Rounding) (snap : TopologySnapshot) (id : TopologyNodeId) : Prop :=
  ∃ machine, IsMachine snap.nodes machine ∧
    ∃ p, Returns (fun fuel => shortestPath fl fuel snap id machine false) p ∧ p.found = true

/-- In every snapshot of the gathered graph the resources are joined to a machine, and the graph is
valid. -/
structure ResourcesAttached (fl : Rounding) (bounds : Bounds) (g : Gathered) : Prop where
  joined : ∀ counter generation inp snap,
    buildSnapshot bounds g counter generation inp = .ok snap →
      ∀ id, IsResource snap.nodes id → JoinedToMachine fl snap id
  valid : ∀ order, (validate order g.nodes g.edges).ok = true

/-! ## When it is met -/

/-- A resource without a parent, where there is a machine to place it under; a machine with the null
id does not count as one. -/
def Placed (nodes : NodeMap) (edges : List TopologyEdge) (id : TopologyNodeId) : Prop :=
  machineIdOf nodes ≠ kNullNodeId ∧ IsResource nodes id ∧ ¬ HasParent edges id

/-- Before the pass, every resource is linked with a machine or with a resource that has no parent,
and no resource without a parent contains the machine. -/
structure Attachable (nodes : NodeMap) (edges : List TopologyEdge) : Prop where
  linked : ∀ id, IsResource nodes id → ∃ root, Linked edges id root ∧
    (IsMachine nodes root ∨ Placed nodes edges root)
  apart : ∀ id, Placed nodes edges id → ¬ ReflTransGen (Contains edges) id (machineIdOf nodes)

section Pass

variable {nodes : NodeMap} {edges : List TopologyEdge}

/-- The machine that the pass uses, if there is one, is a machine. -/
theorem isMachine_machineIdOf (h : ∃ e ∈ nodes.entries, e.2.type = .machine) :
    IsMachine nodes (machineIdOf nodes) := by
  obtain ⟨e, he, htype⟩ := h
  have hsome : (findMachine nodes).isSome = true := by
    rw [findMachine, List.find?_isSome]
    exact ⟨e, he, decide_eq_true htype⟩
  obtain ⟨⟨id, n⟩, hfind⟩ := Option.isSome_iff_exists.mp hsome
  rw [machineIdOf, hfind]
  rw [findMachine] at hfind
  have hn := List.find?_some hfind
  exact ⟨n, HashMap.find?_eq_some.mpr (List.mem_of_find?_eq_some hfind), of_decide_eq_true hn⟩

theorem IsResource.ne_machine {id machine : TopologyNodeId} (h : IsResource nodes id)
    (hmachine : IsMachine nodes machine) : id ≠ machine := by
  rintro rfl
  obtain ⟨n, hn, hresource⟩ := h
  obtain ⟨n', hn', htype⟩ := hmachine
  obtain rfl := Option.some.inj (hn.symm.trans hn')
  rw [htype] at hresource
  exact absurd hresource (by decide)

/-- The pass adds an edge from the machine to every resource without a parent. -/
theorem mem_attachToMachine (h : ∃ e ∈ nodes.entries, e.2.type = .machine) {e : TopologyEdge} :
    e ∈ attachToMachine nodes edges ↔ e ∈ edges ∨
      ∃ id, Placed nodes edges id ∧ e = machineAttachEdge (machineIdOf nodes) id := by
  have hids : ∀ id, id ∈ attachedIds nodes edges ↔ Placed nodes edges id := by
    intro id
    unfold attachedIds Placed
    split_ifs with hnull
    · simp [hnull]
    · simp only [List.mem_map, List.mem_filter, decide_eq_true_eq]
      constructor
      · rintro ⟨⟨id, n⟩, ⟨hmem, -, hresource, hparent⟩, rfl⟩
        exact ⟨hnull, ⟨n, HashMap.find?_eq_some.mpr hmem, hresource⟩, hparent⟩
      · rintro ⟨-, hresource, hparent⟩
        have hne := hresource.ne_machine (isMachine_machineIdOf h)
        obtain ⟨n, hn, hresource⟩ := hresource
        exact ⟨(id, n), ⟨HashMap.find?_eq_some.mp hn, hne, hresource, hparent⟩, rfl⟩
  rw [attachToMachine_eq, List.mem_append, List.mem_map]
  simp only [hids, eq_comm]

/-- Containment after the pass. -/
theorem contains_attachToMachine (h : ∃ e ∈ nodes.entries, e.2.type = .machine) :
    Contains (attachToMachine nodes edges) =
      Attach (Contains edges) (machineIdOf nodes) (Placed nodes edges) := by
  funext a b
  simp only [Contains, mem_attachToMachine h, Attach, eq_iff_iff]
  constructor
  · rintro ⟨e, he | ⟨id, hid, rfl⟩, htype, rfl, rfl⟩
    · exact Or.inl ⟨e, he, htype, rfl, rfl⟩
    · exact Or.inr ⟨rfl, hid⟩
  · rintro (⟨e, he, htype, rfl, rfl⟩ | ⟨rfl, hid⟩)
    · exact ⟨e, Or.inl he, htype, rfl, rfl⟩
    · exact ⟨_, Or.inr ⟨b, hid, rfl⟩, rfl, rfl, rfl⟩

/-- Adjacency after the pass. -/
theorem adjacent_attachToMachine (h : ∃ e ∈ nodes.entries, e.2.type = .machine)
    (a b : TopologyNodeId) : Adjacent (attachToMachine nodes edges) a b ↔
      Adjacent edges a b ∨ a = machineIdOf nodes ∧ Placed nodes edges b ∨
        Placed nodes edges a ∧ b = machineIdOf nodes := by
  simp only [Adjacent, mem_attachToMachine h]
  constructor
  · rintro ⟨e, he | ⟨id, hid, rfl⟩, husable, hjoins⟩
    · exact Or.inl ⟨e, he, husable, hjoins⟩
    · rcases hjoins with ⟨rfl, rfl⟩ | ⟨rfl, rfl⟩
      · exact Or.inr (Or.inl ⟨rfl, hid⟩)
      · exact Or.inr (Or.inr ⟨hid, rfl⟩)
  · have husable : ∀ id, (machineAttachEdge (machineIdOf nodes) id).Usable false := by
      rintro id (htype | htype) <;> cases htype
    rintro (⟨e, he, husable, hjoins⟩ | ⟨rfl, hid⟩ | ⟨hid, rfl⟩)
    · exact ⟨e, Or.inl he, husable, hjoins⟩
    · exact ⟨_, Or.inr ⟨b, hid, rfl⟩, husable b, Or.inl ⟨rfl, rfl⟩⟩
    · exact ⟨_, Or.inr ⟨a, hid, rfl⟩, husable a, Or.inr ⟨rfl, rfl⟩⟩

/-- **Validity after the pass**: there is a new cycle iff a resource without a parent contains the
machine. -/
theorem graphValid_attachToMachine (h : ∃ e ∈ nodes.entries, e.2.type = .machine)
    (hvalid : GraphValid nodes edges) : GraphValid nodes (attachToMachine nodes edges) ↔
      ∀ id, Placed nodes edges id → ¬ ReflTransGen (Contains edges) id (machineIdOf nodes) := by
  have hcycle := acyclic_attach_iff (m := machineIdOf nodes) (p := Placed nodes edges)
    hvalid.acyclic
  rw [← contains_attachToMachine h] at hcycle
  constructor
  · intro hafter
    exact hcycle.mp hafter.acyclic
  · intro hapart
    have hkeys : ∀ {id n}, nodes.find? id = some n → id ∈ nodes.keys :=
      fun hn => HashMap.mem_keys_of_mem (HashMap.find?_eq_some.mp hn)
    -- the new edges lead from the machine to nodes of the graph
    refine ⟨fun e he => ?_, hvalid.identity, fun e he htype => ?_, hcycle.mpr hapart⟩
    · rcases (mem_attachToMachine h).mp he with he | ⟨id, ⟨-, ⟨n, hn, -⟩, -⟩, rfl⟩
      · exact hvalid.endpoints e he
      · obtain ⟨n', hn', -⟩ := isMachine_machineIdOf h
        exact ⟨hkeys hn', hkeys hn⟩
    · rcases (mem_attachToMachine h).mp he with he | ⟨id, ⟨-, hid, -⟩, rfl⟩
      · exact hvalid.noSelf e he htype
      · exact (hid.ne_machine (isMachine_machineIdOf h)).symm

/-- **Connection after the pass**: what is linked with a machine. -/
theorem linked_attachToMachine (h : ∃ e ∈ nodes.entries, e.2.type = .machine)
    (id : TopologyNodeId) :
    (∃ machine, Linked (attachToMachine nodes edges) id machine ∧ IsMachine nodes machine) ↔
      ∃ root, Linked edges id root ∧ (IsMachine nodes root ∨ Placed nodes edges root) :=
  exists_link_attach_iff (adjacent_attachToMachine h) (isMachine_machineIdOf h)

end Pass

/-! ## Snapshots of the gathered graph -/

section Snapshot

variable {bounds : Bounds} {g : Gathered}

/-- Within the node bound the builder holds the gathered nodes. -/
theorem graphBuilder_entries (hkeyed : ∀ e ∈ g.nodes.entries, e.2.id = e.1)
    (hnodes : g.nodes.size ≤ bounds.maxNodes) :
    (graphBuilder bounds g).nodes.entries = g.nodes.entries := by
  have hentries := SnapshotBuilder.foldl_addNode_entries (g.nodes.entries.map Prod.snd)
    (SnapshotBuilder.new bounds) rfl (by rw [ids_of_keyed hkeyed]; exact g.nodes.nodup)
    (by rw [List.length_map]; exact (Nat.zero_add _).trans_le hnodes)
  -- the nodes are keyed by their identifiers
  have hsame : (g.nodes.entries.map Prod.snd).map (fun n => (n.id, n)) = g.nodes.entries := by
    rw [List.map_map, List.map_congr_left (g := id) fun e he => ?_, List.map_id]
    exact Prod.ext (hkeyed e he) rfl
  rw [List.foldl_map, hsame] at hentries
  rw [graphBuilder, SnapshotBuilder.foldl_addEdge_nodes, hentries]
  rfl

/-- Within the bounds a snapshot holds the whole gathered graph. -/
theorem buildSnapshot_whole (hkeyed : ∀ e ∈ g.nodes.entries, e.2.id = e.1)
    (hnodes : g.nodes.size ≤ bounds.maxNodes) (hedges : g.edges.length ≤ bounds.maxEdges)
    {counter generation : ℕ} {inp : BuildInputs} {snap : TopologySnapshot}
    (h : buildSnapshot bounds g counter generation inp = .ok snap) :
    (∀ id, snap.nodes.find? id = g.nodes.find? id) ∧ snap.edges = g.edges := by
  obtain ⟨hsnapNodes, hsnapEdges, -, -⟩ := SnapshotBuilder.take_eq_ok h
  constructor
  · intro id
    rw [hsnapNodes, HashMap.find?_reorder]
    apply Option.ext
    intro n
    rw [HashMap.find?_eq_some, HashMap.find?_eq_some]
    show (id, n) ∈ (graphBuilder bounds g).nodes.entries ↔ _
    rw [graphBuilder_entries hkeyed hnodes]
  · rw [hsnapEdges]
    exact (graphBuilder_edges bounds g).trans (List.take_of_length_le hedges)

/-- In a snapshot of a valid graph, `shortest_path` finds a path to a machine iff the node is linked
with one. -/
theorem joinedToMachine_iff (fl : Rounding) {snap : TopologySnapshot}
    (hdangling : snap.NoDanglingEdges) {id : TopologyNodeId} (hid : snap.Present id) :
    JoinedToMachine fl snap id ↔
      ∃ machine, Linked snap.edges id machine ∧ IsMachine snap.nodes machine := by
  -- no edge dangles, so the search from a node of the snapshot answers
  have hanswer : ∀ machine, ∃ p, Returns (fun fuel => shortestPath fl fuel snap id machine false) p ∧
      PathAnswer snap false id machine p :=
    fun machine => shortestPath_answers fl false fun hsrc hdst _ =>
      ⟨fun hops hfirst hop hhop => by
        obtain ⟨e, he, hj⟩ := (isRoute_iff_isWalk.mpr hfirst.isWalk).edge_of_mem hop hhop
        exact hdangling.joins he hj, hdangling.parents_present id .contains⟩
  constructor
  · rintro ⟨machine, hmachine, p, hp, hfound⟩
    obtain ⟨p', hp', hans⟩ := hanswer machine
    obtain rfl := hp.unique hp'
    obtain ⟨-, -, hroute⟩ := hans.found.mp hfound
    exact ⟨machine, exists_route_iff_linked.mp hroute, hmachine⟩
  · rintro ⟨machine, hlinked, hmachine⟩
    obtain ⟨p, hp, hans⟩ := hanswer machine
    have hpresent : snap.Present machine := by
      obtain ⟨n, hn, -⟩ := hmachine
      exact Option.isSome_iff_exists.mpr ⟨n, hn⟩
    exact ⟨machine, hmachine, p, hp,
      hans.found.mpr ⟨hid, hpresent, exists_route_iff_linked.mpr hlinked⟩⟩

/-- **What the pass does** to a graph within the bounds. -/
theorem resourcesAttached_iff (fl : Rounding) {edges : List TopologyEdge}
    (hkeyed : ∀ e ∈ g.nodes.entries, e.2.id = e.1) (hnodes : g.nodes.size ≤ bounds.maxNodes)
    (hpass : g.edges = attachToMachine g.nodes edges) (hedges : g.edges.length ≤ bounds.maxEdges)
    (hmachine : ∃ e ∈ g.nodes.entries, e.2.type = .machine) (hvalid : GraphValid g.nodes edges) :
    ResourcesAttached fl bounds g ↔ Attachable g.nodes edges := by
  have hapart := graphValid_attachToMachine hmachine hvalid
  rw [← hpass] at hapart
  have hlinked : ∀ id,
      (∃ machine, Linked (attachToMachine g.nodes edges) id machine ∧ IsMachine g.nodes machine) ↔
        ∃ root, Linked edges id root ∧ (IsMachine g.nodes root ∨ Placed g.nodes edges root) :=
    linked_attachToMachine hmachine
  rw [← hpass] at hlinked
  -- the question whether a resource is joined is the same in every snapshot of a valid graph
  have hjoined : GraphValid g.nodes g.edges → ∀ {counter generation inp snap},
      buildSnapshot bounds g counter generation inp = .ok snap → ∀ id, IsResource g.nodes id →
        (JoinedToMachine fl snap id ↔ ∃ root, Linked edges id root ∧
          (IsMachine g.nodes root ∨ Placed g.nodes edges root)) := by
    intro hafter counter generation inp snap hsnap id hid
    obtain ⟨hfind, hsame⟩ := buildSnapshot_whole hkeyed hnodes hedges hsnap
    have hpresent : ∀ id, id ∈ g.nodes.keys → snap.Present id := by
      intro id hid
      rw [TopologySnapshot.Present, TopologySnapshot.findNode, hfind]
      exact HashMap.contains_iff.mpr hid
    have hdangling : snap.NoDanglingEdges := by
      intro e he
      rw [hsame] at he
      exact (hafter.endpoints e he).imp (hpresent _) (hpresent _)
    obtain ⟨n, hn, -⟩ := hid
    rw [joinedToMachine_iff fl hdangling
      (hpresent id (HashMap.mem_keys_of_mem (HashMap.find?_eq_some.mp hn))), ← hlinked, hsame]
    simp only [IsMachine, hfind]
  constructor
  · intro h
    have hafter : GraphValid g.nodes g.edges :=
      (validate_accepts_iff IterationOrder.insertion _ _).mp (h.valid _)
    refine ⟨fun id hid => ?_, hapart.mp hafter⟩
    obtain ⟨snap, hsnap⟩ := buildSnapshot_returns bounds g 0 0
      ⟨kNullNodeId, 0, IterationOrder.insertion⟩
    have hid' : IsResource snap.nodes id := by
      simpa only [IsResource, (buildSnapshot_whole hkeyed hnodes hedges hsnap).1] using hid
    exact (hjoined hafter hsnap id hid).mp (h.joined _ _ _ _ hsnap id hid')
  · intro h
    have hafter : GraphValid g.nodes g.edges := hapart.mpr h.apart
    refine ⟨fun counter generation inp snap hsnap id hid => ?_,
      fun order => (validate_accepts_iff order _ _).mpr hafter⟩
    have hid' : IsResource g.nodes id := by
      simpa only [IsResource, (buildSnapshot_whole hkeyed hnodes hedges hsnap).1] using hid
    exact (hjoined hafter hsnap id hid').mpr (h.linked id hid')

end Snapshot

/-! ## Discovery -/

/-- The pass runs on the merged edges. -/
theorem gather_edges (order : IterationOrder) (bounds : Bounds) (results : List ProviderResult) :
    (gather order bounds results).edges = attachToMachine (gather order bounds results).nodes
      (mergeContributions order (results.map ProviderResult.contribution) bounds).edges := rfl

/-- **When the pass does what it is for**: for a merged graph that is valid and has a machine, as
long as the edge bound is not reached, every listed resource is joined to a machine afterwards and
the graph is still valid, iff every resource was linked with a machine or with a resource without a
parent, and no resource without a parent contains the machine. -/
theorem discover_attaches_iff (fl : Rounding) {order order' : IterationOrder} {bounds : Bounds}
    {results : List ProviderResult}
    (hmachine : ∃ e ∈ (gather order bounds results).nodes.entries, e.2.type = .machine)
    (hvalid : (validate order' (gather order bounds results).nodes (mergeContributions order
      (results.map ProviderResult.contribution) bounds).edges).ok = true)
    (hroom : (gather order bounds results).edges.length ≤ bounds.maxEdges) :
    ResourcesAttached fl bounds (gather order bounds results) ↔
      Attachable (gather order bounds results).nodes (mergeContributions order
        (results.map ProviderResult.contribution) bounds).edges := by
  have hkeyed : ∀ e ∈ (gather order bounds results).nodes.entries, e.2.id = e.1 :=
    fun e he => mergeContributions_keyed e (HashMap.mem_reorder.mp he)
  -- what was merged within the bounds is built without a drop
  have hnodes : (gather order bounds results).nodes.size ≤ bounds.maxNodes := by
    have hbounds : (mergeContributions order (results.map ProviderResult.contribution)
        bounds).nodes.size ≤ bounds.maxNodes := mergeContributions_bounds.1
    exact (order.perm _ _).length_eq.trans_le hbounds
  exact resourcesAttached_iff fl hkeyed hnodes (gather_edges order bounds results) hroom hmachine
    ((validate_accepts_iff order' _ _).mp hvalid)

/-- A machine, and a PCI device that nobody has placed. -/
def rootlessDevice : List ProviderResult :=
  [.returned
    { nodes :=
        [{ ref := str "host", type := .machine, native := { machineName := str "host" } },
          { ref := str "device", type := .pciDevice
            native := { pciBus := some 1, pciDevice := some 0, pciFunction := some 0 } }] }]

theorem discover_attaches_rootless :
    ResourcesAttached binary64 {} (gather IterationOrder.insertion {} rootlessDevice) := by
  have hmachine : ∃ e ∈ (gather IterationOrder.insertion {} rootlessDevice).nodes.entries,
      e.2.type = .machine := by
    decide +kernel
  have hvalid : (validate IterationOrder.insertion
      (gather IterationOrder.insertion {} rootlessDevice).nodes
      (mergeContributions IterationOrder.insertion (rootlessDevice.map ProviderResult.contribution)
        {}).edges).ok = true := by
    decide +kernel
  have hedges : (mergeContributions IterationOrder.insertion
      (rootlessDevice.map ProviderResult.contribution) {}).edges = [] := by
    decide +kernel
  have hid : machineIdOf (gather IterationOrder.insertion {} rootlessDevice).nodes ≠
      kNullNodeId := by
    decide +kernel
  have hroom : (gather IterationOrder.insertion {} rootlessDevice).edges.length ≤
      ({} : Bounds).maxEdges := by
    decide +kernel
  apply (discover_attaches_iff binary64 hmachine hvalid hroom).mpr
  rw [hedges]
  generalize (gather IterationOrder.insertion {} rootlessDevice).nodes = nodes at *
  refine ⟨fun id hresource => ⟨id, .refl, Or.inr ⟨hid, hresource, ?_⟩⟩, ?_⟩
  · rintro ⟨e, he, -⟩
    exact absurd he List.not_mem_nil
  · rintro id ⟨-, hresource, -⟩ hpath
    -- without edges the device leads nowhere
    obtain rfl | ⟨b, ⟨e, he, -⟩, -⟩ := ReflTransGen.cases_head hpath
    · exact hresource.ne_machine (isMachine_machineIdOf hmachine) rfl
    · exact absurd he List.not_mem_nil

/-- A machine, and a bridge with a PCI device behind it. -/
def bridgedDevice : List ProviderResult :=
  [.returned
    { nodes :=
        [{ ref := str "host", type := .machine, native := { machineName := str "host" } },
          { ref := str "bridge", type := .pciBridge
            native := { pciBus := some 0, pciDevice := some 1, pciFunction := some 0 } },
          { ref := str "device", type := .pciDevice
            native := { pciBus := some 1, pciDevice := some 0, pciFunction := some 0 } }]
      edges := [{ fromRef := str "bridge", toRef := str "device", type := .contains }] }]

/-- The edges that the merge leaves of `bridgedDevice`. -/
def bridgedEdges : List TopologyEdge :=
  (mergeContributions IterationOrder.insertion (bridgedDevice.map ProviderResult.contribution)
    {}).edges

/-- The bridge has no parent, but it is not of a listed type; the device has the bridge. -/
theorem discover_attaches_fails :
    (∃ e ∈ (gather IterationOrder.insertion {} bridgedDevice).nodes.entries,
      e.2.type = .machine) ∧
    (∀ order, (validate order (gather IterationOrder.insertion {} bridgedDevice).nodes
      bridgedEdges).ok = true) ∧
    (gather IterationOrder.insertion {} bridgedDevice).edges.length < ({} : Bounds).maxEdges ∧
    ∀ fl, ¬ ResourcesAttached fl {} (gather IterationOrder.insertion {} bridgedDevice) := by
  have hmachine : ∃ e ∈ (gather IterationOrder.insertion {} bridgedDevice).nodes.entries,
      e.2.type = .machine := by
    decide +kernel
  have hvalid : GraphValid (gather IterationOrder.insertion {} bridgedDevice).nodes
      bridgedEdges := by
    rw [← validate_accepts_iff IterationOrder.insertion]
    decide +kernel
  have hroom : (gather IterationOrder.insertion {} bridgedDevice).edges.length <
      ({} : Bounds).maxEdges := by
    decide +kernel
  refine ⟨hmachine, fun order => (validate_accepts_iff order _ _).mpr hvalid, hroom,
    fun fl hattached => ?_⟩
  have hattachable : Attachable (gather IterationOrder.insertion {} bridgedDevice).nodes
      bridgedEdges := (resourcesAttached_iff fl (by decide +kernel) (by decide +kernel)
    (gather_edges _ _ _) hroom.le hmachine hvalid).mp hattached
  -- the bridge and the device are the only nodes with edges
  have hdevice : ∃ e ∈ (gather IterationOrder.insertion {} bridgedDevice).nodes.entries,
      isResource e.2.type = true ∧ e.1 ∈ edgeEndpoints bridgedEdges := by
    decide +kernel
  have hends : ∀ e ∈ (gather IterationOrder.insertion {} bridgedDevice).nodes.entries,
      e.1 ∈ edgeEndpoints bridgedEdges → e.2.type ≠ .machine ∧
        (isResource e.2.type = true → HasParent bridgedEdges e.1) := by
    decide +kernel
  obtain ⟨⟨id, n⟩, hmem, hresource, hid⟩ := hdevice
  obtain ⟨root, hlinked, hroot⟩ := hattachable.linked id
    ⟨n, HashMap.find?_eq_some.mpr hmem, hresource⟩
  have hrootEnd := hlinked.mem_edgeEndpoints hid
  rcases hroot with ⟨n', hn', htype⟩ | ⟨-, ⟨n', hn', htype⟩, hparent⟩
  · exact (hends _ (HashMap.find?_eq_some.mp hn') hrootEnd).1 htype
  · exact hparent ((hends _ (HashMap.find?_eq_some.mp hn') hrootEnd).2 htype)

end TopologyFabric

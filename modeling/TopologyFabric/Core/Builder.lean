import TopologyFabric.Core.Snapshot

/-!
# Runs of a Snapshot Builder

What a snapshot holds after any sequence of calls of a `SnapshotBuilder`: the first node offered with
each id as long as there was room, the first edges, and an adjacency list per node that names every
edge end at it. The builder is used up by `take`.

## Main results

- `run_nodes`, `run_edges`: the nodes and edges that a run of calls keeps
- `buildAdjacency_eq`: adjacency lists are the edge ends in edge order
- `builder_correct`: the snapshot that is taken after a run, and the builder after that
-/

namespace TopologyFabric

open Library

/-! ## Calls -/

/-- A call that fills a builder. -/
inductive BuilderCall where
  | addNode (n : TopologyNode)
  | addEdge (e : TopologyEdge)
  | setMetadata (metadata : SnapshotMetadata)
  | setValidation (val : ValidationResult)

def BuilderCall.apply (b : SnapshotBuilder) : BuilderCall → SnapshotBuilder
  | .addNode n => (b.addNode n).2
  | .addEdge e => (b.addEdge e).2
  | .setMetadata metadata => b.setMetadata metadata
  | .setValidation val => b.setValidation val

namespace SnapshotBuilder

/-- A new builder after a run of calls. -/
def run (bounds : Bounds) (calls : List BuilderCall) : SnapshotBuilder :=
  calls.foldl BuilderCall.apply (new bounds)

theorem keyed_empty : ∀ e ∈ (HashMap.empty : NodeMap).entries, e.2.id = e.1 := by
  simp [HashMap.empty]

/-- The builder after `take`, which has moved the nodes, the edges and the metadata out. -/
def moved (b : SnapshotBuilder) : SnapshotBuilder :=
  { b with
    nodes := HashMap.empty, keyed := keyed_empty, edges := [], metadata := {}
    taken := true }

end SnapshotBuilder

/-- The node that a call offers. -/
def BuilderCall.node? : BuilderCall → Option TopologyNode
  | .addNode n => some n
  | _ => none

/-- The edge that a call offers. -/
def BuilderCall.edge? : BuilderCall → Option TopologyEdge
  | .addEdge e => some e
  | _ => none

def offeredNodes (calls : List BuilderCall) : List TopologyNode := calls.filterMap BuilderCall.node?

def offeredEdges (calls : List BuilderCall) : List TopologyEdge := calls.filterMap BuilderCall.edge?

/-- The number of different ids among nodes. -/
def distinctIds (nodes : List TopologyNode) : ℕ := (nodes.map TopologyNode.id).toFinset.card

/-- The records of an edge at a node; a self-loop has two. -/
def edgeEnds (u : TopologyNodeId) (p : TopologyEdge × ℕ) : List EdgeRef :=
  (if p.1.source = u then [⟨p.1.target, p.2⟩] else []) ++
    if p.1.target = u then [⟨p.1.source, p.2⟩] else []

/-! ## What a run keeps -/

section Run

open SnapshotBuilder

variable {bounds : Bounds}

theorem run_concat (calls : List BuilderCall) (c : BuilderCall) :
    run bounds (calls ++ [c]) = c.apply (run bounds calls) := by
  rw [run, List.foldl_append]
  rfl

/-- A list of nodes offers these nodes and no edge, and the other way around. -/
theorem offered_addNode (nodes : List TopologyNode) :
    offeredNodes (nodes.map .addNode) = nodes ∧ offeredEdges (nodes.map .addNode) = [] := by
  rw [offeredNodes, offeredEdges, List.filterMap_map, List.filterMap_map]
  exact ⟨List.filterMap_some, List.filterMap_eq_nil_iff.mpr fun _ _ => rfl⟩

theorem offered_addEdge (edges : List TopologyEdge) :
    offeredNodes (edges.map .addEdge) = [] ∧ offeredEdges (edges.map .addEdge) = edges := by
  rw [offeredNodes, offeredEdges, List.filterMap_map, List.filterMap_map]
  exact ⟨List.filterMap_eq_nil_iff.mpr fun _ _ => rfl, List.filterMap_some⟩

theorem offered_append (calls calls' : List BuilderCall) :
    offeredNodes (calls ++ calls') = offeredNodes calls ++ offeredNodes calls' ∧
      offeredEdges (calls ++ calls') = offeredEdges calls ++ offeredEdges calls' :=
  ⟨List.filterMap_append, List.filterMap_append⟩

theorem offeredNodes_concat (calls : List BuilderCall) (c : BuilderCall) :
    offeredNodes (calls ++ [c]) = offeredNodes calls ++ c.node?.toList := by
  rw [offeredNodes, List.filterMap_append, List.filterMap_cons]
  cases c.node? <;> rfl

theorem offeredEdges_concat (calls : List BuilderCall) (c : BuilderCall) :
    offeredEdges (calls ++ [c]) = offeredEdges calls ++ c.edge?.toList := by
  rw [offeredEdges, List.filterMap_append, List.filterMap_cons]
  cases c.edge? <;> rfl

/-- Only `add_node` changes the nodes. -/
theorem apply_nodes {c : BuilderCall} (h : c.node? = none) (b : SnapshotBuilder) :
    (c.apply b).nodes = b.nodes ∧ (c.apply b).bounds = b.bounds ∧ (c.apply b).taken = b.taken := by
  cases c with
  | addNode n => cases h
  | addEdge e =>
    rw [BuilderCall.apply, addEdge]
    split_ifs <;> exact ⟨rfl, rfl, rfl⟩
  | setMetadata metadata => exact ⟨rfl, rfl, rfl⟩
  | setValidation val => exact ⟨rfl, rfl, rfl⟩

/-- Only `add_edge` changes the edges. -/
theorem apply_edges {c : BuilderCall} (h : c.edge? = none) (b : SnapshotBuilder) :
    (c.apply b).edges = b.edges := by
  cases c with
  | addNode n =>
    rw [BuilderCall.apply, addNode]
    split_ifs <;> rfl
  | addEdge e => cases h
  | setMetadata metadata => rfl
  | setValidation val => rfl

theorem distinctIds_le_length (nodes : List TopologyNode) : distinctIds nodes ≤ nodes.length := by
  have hle := List.toFinset_card_le (nodes.map TopologyNode.id)
  rwa [List.length_map] at hle

theorem distinctIds_concat (nodes : List TopologyNode) (n : TopologyNode) :
    distinctIds (nodes ++ [n]) =
      if n.id ∈ nodes.map TopologyNode.id then distinctIds nodes else distinctIds nodes + 1 := by
  have hset : (nodes.map TopologyNode.id ++ [n.id]).toFinset =
      insert n.id (nodes.map TopologyNode.id).toFinset := by
    ext id
    simp
  rw [distinctIds, List.map_append, List.map_singleton, hset]
  split
  · rename_i h
    rw [Finset.insert_eq_of_mem (List.mem_toFinset.mpr h)]
    rfl
  · rename_i h
    rw [Finset.card_insert_of_notMem (mt List.mem_toFinset.mp h)]
    rfl

/-- The builder is open, and it holds some of the offered ids: all of them until it is full. -/
structure Filling (bounds : Bounds) (nodes : List TopologyNode) (b : SnapshotBuilder) : Prop where
  isOpen : b.taken = false
  sameBounds : b.bounds = bounds
  size : b.nodes.size = min bounds.maxNodes (distinctIds nodes)
  offered : ∀ id ∈ b.nodes.keys, id ∈ nodes.map TopologyNode.id

theorem Filling.mem_keys {nodes : List TopologyNode} {b : SnapshotBuilder}
    (h : Filling bounds nodes b) (hroom : b.nodes.size < bounds.maxNodes) (id : TopologyNodeId) :
    id ∈ b.nodes.keys ↔ id ∈ nodes.map TopologyNode.id := by
  refine ⟨h.offered id, fun hid => ?_⟩
  -- as many ids are held as have been offered
  have hcard : (nodes.map TopologyNode.id).toFinset.card ≤ b.nodes.keys.toFinset.card := by
    rw [h.size] at hroom
    rw [← HashMap.size_eq_card_keys, h.size]
    exact le_min ((min_lt_iff.mp hroom).resolve_left (lt_irrefl _)).le le_rfl
  have hsub : b.nodes.keys.toFinset ⊆ (nodes.map TopologyNode.id).toFinset := by
    intro x hx
    exact List.mem_toFinset.mpr (h.offered x (List.mem_toFinset.mp hx))
  rw [← List.mem_toFinset, Finset.eq_of_subset_of_card_le hsub hcard, List.mem_toFinset]
  exact hid

/-- What offering a node does to an open builder. -/
theorem addNode_nodes {b : SnapshotBuilder} (hopen : b.taken = false) (n : TopologyNode) :
    (b.addNode n).2.nodes =
      if b.nodes.size < b.bounds.maxNodes ∧ n.id ∉ b.nodes.keys then b.nodes.emplace n.id n
      else b.nodes := by
  by_cases hroom : b.nodes.size < b.bounds.maxNodes
  · by_cases hmem : n.id ∈ b.nodes.keys
    · have hcontains := HashMap.contains_iff.mpr hmem
      simp [addNode, hopen, not_le.mpr hroom, hcontains, hmem]
    · rw [(addNode_new hopen hmem hroom).1, if_pos ⟨hroom, hmem⟩]
  · simp [addNode, hopen, not_lt.mp hroom, hroom]

theorem Filling.addNode {nodes : List TopologyNode} {b : SnapshotBuilder}
    (h : Filling bounds nodes b) (n : TopologyNode) :
    Filling bounds (nodes ++ [n]) (b.addNode n).2 := by
  have hbounds : (b.addNode n).2.bounds = b.bounds := by
    rw [SnapshotBuilder.addNode]
    split_ifs <;> rfl
  have hnodes := addNode_nodes h.isOpen n
  rw [h.sameBounds] at hnodes
  refine ⟨(addNode_taken b n).trans h.isOpen, hbounds.trans h.sameBounds, ?_, ?_⟩
  · rw [hnodes, distinctIds_concat]
    by_cases hroom : b.nodes.size < bounds.maxNodes
    · have hkeys := h.mem_keys hroom n.id
      have hsize := h.size
      by_cases hmem : n.id ∈ b.nodes.keys
      · -- the id was offered before
        rw [if_neg fun hand => hand.2 hmem, if_pos (hkeys.mp hmem)]
        exact hsize
      · have hnew : (b.nodes.emplace n.id n).size = b.nodes.size + 1 := by
          simp [HashMap.emplace, hmem, HashMap.size]
        rw [if_pos ⟨hroom, hmem⟩, if_neg (mt hkeys.mpr hmem), hnew]
        omega
    · have hfull : bounds.maxNodes ≤ distinctIds nodes := by
        have hsize := h.size
        omega
      rw [if_neg fun hand => hroom hand.1, h.size]
      split <;> omega
  · intro id hid
    rw [hnodes] at hid
    rw [List.map_append, List.mem_append]
    split at hid
    · rename_i hand
      rw [HashMap.keys_emplace, if_neg hand.2, List.mem_append, List.mem_singleton] at hid
      rcases hid with hid | rfl
      · exact Or.inl (h.offered id hid)
      · exact Or.inr (List.mem_singleton_self _)
    · exact Or.inl (h.offered id hid)

theorem run_filling (calls : List BuilderCall) :
    Filling bounds (offeredNodes calls) (run bounds calls) := by
  induction calls using List.reverseRecOn with
  | nil => exact ⟨rfl, rfl, (Nat.min_zero _).symm, fun id hid => by cases hid⟩
  | append_singleton calls c ih =>
    rw [run_concat, offeredNodes_concat]
    cases hc : c.node? with
    | none =>
      -- every other call leaves the nodes as they are
      obtain ⟨hnodes, hbounds, htaken⟩ := apply_nodes hc (run bounds calls)
      rw [Option.toList_none, List.append_nil]
      refine ⟨htaken.trans ih.isOpen, hbounds.trans ih.sameBounds, ?_, ?_⟩
      · rw [hnodes]
        exact ih.size
      · rw [hnodes]
        exact ih.offered
    | some n =>
      obtain rfl : c = .addNode n := by
        cases c <;> cases hc
        rfl
      exact ih.addNode n

/-- The node is the first one offered with the id, and there was room for it: the ids offered before
did not fill the builder. -/
def FirstOffered (bounds : Bounds) (nodes : List TopologyNode) (id : TopologyNodeId)
    (n : TopologyNode) : Prop :=
  ∃ pre post, nodes = pre ++ n :: post ∧ n.id = id ∧ id ∉ pre.map TopologyNode.id ∧
    distinctIds pre < bounds.maxNodes

theorem firstOffered_concat {nodes : List TopologyNode} {m n : TopologyNode}
    {id : TopologyNodeId} :
    FirstOffered bounds (nodes ++ [m]) id n ↔ FirstOffered bounds nodes id n ∨
      n = m ∧ m.id = id ∧ id ∉ nodes.map TopologyNode.id ∧ distinctIds nodes < bounds.maxNodes := by
  constructor
  · rintro ⟨pre, post, heq, hid, hnew, hroom⟩
    rcases List.eq_nil_or_concat post with rfl | ⟨post, last, rfl⟩
    · obtain ⟨rfl, hn⟩ := List.append_inj' heq rfl
      obtain rfl := (List.cons.inj hn).1
      exact Or.inr ⟨rfl, hid, hnew, hroom⟩
    · rw [List.concat_eq_append, ← List.cons_append, ← List.append_assoc] at heq
      exact Or.inl ⟨pre, post, (List.append_inj' heq rfl).1, hid, hnew, hroom⟩
  · rintro (⟨pre, post, rfl, hid, hnew, hroom⟩ | ⟨rfl, hid, hnew, hroom⟩)
    · exact ⟨pre, post ++ [m], by simp, hid, hnew, hroom⟩
    · exact ⟨nodes, [], rfl, hid, hnew, hroom⟩

/-- **The nodes of a run**: each id has the first node offered with it while there was room. -/
theorem run_nodes (calls : List BuilderCall) (id : TopologyNodeId) (n : TopologyNode) :
    (run bounds calls).nodes.find? id = some n ↔
      FirstOffered bounds (offeredNodes calls) id n := by
  induction calls using List.reverseRecOn generalizing n with
  | nil =>
    constructor
    · intro h
      cases h
    · rintro ⟨pre, post, heq, -⟩
      exact absurd heq.symm (List.append_ne_nil_of_right_ne_nil _ (List.cons_ne_nil _ _))
  | append_singleton calls c ih =>
    rw [run_concat, offeredNodes_concat]
    cases hc : c.node? with
    | none =>
      rw [Option.toList_none, List.append_nil, (apply_nodes hc _).1]
      exact ih n
    | some m =>
      obtain rfl : c = .addNode m := by
        cases c <;> cases hc
        rfl
      have hfilling := @run_filling bounds calls
      have hnodes := addNode_nodes hfilling.isOpen m
      rw [hfilling.sameBounds] at hnodes
      rw [BuilderCall.apply, hnodes, Option.toList_some, firstOffered_concat, ← ih]
      by_cases hroom : (run bounds calls).nodes.size < bounds.maxNodes
      · -- while there is room the builder has exactly the ids that were offered
        have hdistinct : distinctIds (offeredNodes calls) < bounds.maxNodes := by
          have hsize := hfilling.size
          omega
        have hkeys := hfilling.mem_keys hroom m.id
        by_cases hmem : m.id ∈ (run bounds calls).nodes.keys
        · rw [if_neg fun hand => hand.2 hmem]
          refine ⟨Or.inl, fun hor => hor.resolve_right ?_⟩
          rintro ⟨-, rfl, hnew, -⟩
          exact hnew (hkeys.mp hmem)
        · rw [if_pos ⟨hroom, hmem⟩, HashMap.find?_emplace]
          have hnone := HashMap.find?_eq_none.mpr hmem
          by_cases hid : id = m.id
          · subst hid
            rw [if_pos rfl, hnone, Option.getD_none]
            constructor
            · intro h
              obtain rfl := Option.some.inj h
              exact Or.inr ⟨rfl, rfl, mt hkeys.mpr hmem, hdistinct⟩
            · rintro (h | ⟨rfl, -⟩)
              · cases h
              · rfl
          · rw [if_neg hid]
            exact ⟨Or.inl, fun hor => hor.resolve_right fun hand => hid hand.2.1.symm⟩
      · -- a full builder takes nothing, and an offer that comes now does not count
        have hfull : ¬ distinctIds (offeredNodes calls) < bounds.maxNodes := by
          have hsize := hfilling.size
          omega
        rw [if_neg fun hand => hroom hand.1]
        exact ⟨Or.inl, fun hor => hor.resolve_right fun hand => hfull hand.2.2.2⟩

/-- **The edges of a run**: the first ones that are offered. -/
theorem run_edges (calls : List BuilderCall) :
    (run bounds calls).edges = (offeredEdges calls).take bounds.maxEdges := by
  induction calls using List.reverseRecOn with
  | nil => exact List.take_nil.symm
  | append_singleton calls c ih =>
    rw [run_concat, offeredEdges_concat]
    cases hc : c.edge? with
    | none => rw [Option.toList_none, List.append_nil, apply_edges hc, ih]
    | some e =>
      obtain rfl : c = .addEdge e := by
        cases c <;> cases hc
        rfl
      have hfilling := @run_filling bounds calls
      have hlength : (run bounds calls).edges.length =
          min bounds.maxEdges (offeredEdges calls).length := by
        rw [ih, List.length_take]
      rw [BuilderCall.apply, addEdge, hfilling.isOpen, hfilling.sameBounds, Option.toList_some]
      simp only [Bool.false_eq_true, if_false]
      -- an edge is dropped when the builder is full
      by_cases hfull : bounds.maxEdges ≤ (run bounds calls).edges.length
      · have hpast : bounds.maxEdges ≤ (offeredEdges calls).length := by omega
        rw [if_pos hfull, List.take_append_of_le_length hpast]
        exact ih
      · have hshort : (offeredEdges calls).length < bounds.maxEdges := by omega
        rw [if_neg hfull, ih, List.take_of_length_le hshort.le, List.take_of_length_le]
        rw [List.length_append, List.length_singleton]
        exact hshort

end Run

/-! ## Adjacency -/

theorem pushRef_eq (adj : TopologyNodeId → List EdgeRef) (id u : TopologyNodeId) (ref : EdgeRef) :
    pushRef adj id ref u = adj u ++ if id = u then [ref] else [] := by
  unfold pushRef
  split
  · rename_i h
    rw [h, Function.update_self]
  · rename_i h
    rw [Function.update_of_ne (Ne.symm h), List.append_nil]

/-- **Adjacency lists** name the edge ends at a node in edge order. -/
theorem buildAdjacency_eq (edges : List TopologyEdge) (u : TopologyNodeId) :
    buildAdjacency edges u = edges.zipIdx.flatMap (edgeEnds u) := by
  have hfold : ∀ (l : List (TopologyEdge × ℕ)) (adj : TopologyNodeId → List EdgeRef),
      l.foldl (fun adj p => pushRef (pushRef adj p.1.source ⟨p.1.target, p.2⟩)
        p.1.target ⟨p.1.source, p.2⟩) adj u = adj u ++ l.flatMap (edgeEnds u) := by
    intro l
    induction l with
    | nil => intro adj; exact (List.append_nil _).symm
    | cons p l ih =>
      intro adj
      rw [List.foldl_cons, ih, pushRef_eq, pushRef_eq, List.flatMap_cons, edgeEnds]
      simp only [List.append_assoc]
  exact hfold edges.zipIdx fun _ => []

/-! ## The snapshot of a run -/

/-- The snapshot holds what the run of calls has offered. -/
structure SnapshotOf (bounds : Bounds) (calls : List BuilderCall) (snap : TopologySnapshot) :
    Prop where
  nodes : ∀ id n, snap.findNode id = some n ↔ FirstOffered bounds (offeredNodes calls) id n
  edges : snap.edges = (offeredEdges calls).take bounds.maxEdges
  adjacency : ∀ u, snap.adjacency u = snap.edges.zipIdx.flatMap (edgeEnds u)

/-- The builder refuses all that is offered, and it does not give a second snapshot. -/
structure SnapshotBuilder.Closed (b : SnapshotBuilder) : Prop where
  addNode : ∀ n, b.addNode n = (false, b)
  addEdge : ∀ e, b.addEdge e = (false, b)
  take : ∀ order, b.take order =
    throwTopologyError .internal (str "SnapshotBuilder::take() called twice")

theorem SnapshotBuilder.closed_of_taken {b : SnapshotBuilder} (h : b.taken = true) : b.Closed where
  addNode n := by rw [SnapshotBuilder.addNode, if_pos h]
  addEdge e := by rw [SnapshotBuilder.addEdge, if_pos h]
  take order := by rw [SnapshotBuilder.take, if_pos h]

theorem taken_of_calls {b : SnapshotBuilder} (h : b.taken = true) (later : List BuilderCall) :
    (later.foldl BuilderCall.apply b).taken = true := by
  induction later generalizing b with
  | nil => exact h
  | cons c later ih =>
    apply ih
    cases c with
    | addNode n => exact (SnapshotBuilder.addNode_taken b n).trans h
    | addEdge e => exact (SnapshotBuilder.addEdge_taken b e).trans h
    | setMetadata metadata => exact h
    | setValidation val => exact h

/-- **What a builder builds.** After any run of calls the builder holds as many nodes as different
ids have been offered, up to its bound; the snapshot that is taken holds the nodes that came first
while there was room, the first edges, and the adjacency of these edges. After that the builder
refuses everything, whatever else is called. -/
theorem builder_correct (bounds : Bounds) (calls : List BuilderCall) (order : IterationOrder) :
    (∀ pre, pre <+: calls → (SnapshotBuilder.run bounds pre).nodes.size =
      min bounds.maxNodes (distinctIds (offeredNodes pre))) ∧
    ∃ snap, (SnapshotBuilder.run bounds calls).take order = .ok snap ∧
      SnapshotOf bounds calls snap ∧ ∀ later : List BuilderCall,
        (later.foldl BuilderCall.apply (SnapshotBuilder.run bounds calls).moved).Closed := by
  refine ⟨fun pre _ => (run_filling pre).size, ?_⟩
  -- a builder that no call has taken from is open
  obtain ⟨snap, hsnap⟩ := SnapshotBuilder.take_returns (@run_filling bounds calls).isOpen
    order
  obtain ⟨hnodes, hedges, -, -⟩ := SnapshotBuilder.take_eq_ok hsnap
  refine ⟨snap, hsnap, ⟨?_, ?_, ?_⟩, ?_⟩
  · intro id n
    rw [TopologySnapshot.findNode, hnodes, HashMap.find?_reorder, run_nodes]
  · rw [hedges, run_edges]
  · intro u
    rw [TopologySnapshot.adjacency, snap.adjacencyBuilt, buildAdjacency_eq]
  · intro later
    exact SnapshotBuilder.closed_of_taken (taken_of_calls rfl later)

end TopologyFabric

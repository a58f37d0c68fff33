import TopologyFabric.Core.Validation
import TopologyFabric.Diff.EventOrder
import TopologyFabric.Library.Introsort

/-!
# When the Events Are in a Canonical Order

`std::sort` makes one list of one list, but the events are found in the order in which the nodes are
iterated and the edges are stored. The list of events can therefore change with this order only if
some loop finds events of two nodes, or of two edges, and a changed link ties with a changed property
`edge.link`. Then a sort that is not stable can tell the orders apart.

## Main results

- `OrderShows.exists_rearranged`, `foundEvents_eq_of_not_shows`: when the events are found in another
  order
- `events_canonical_iff`: when the list of events is the same in every order of nodes and edges
- `events_order_open`: a sort of common libraries for which it is not
-/

namespace TopologyFabric

open Library

/-! ## Loops -/

section Loops

variable {α β : Type} {l l' : List α} {f : α → List β}

/-- A loop that finds one and the same list wherever it finds anything. -/
theorem flatMap_eq_of_perm (hperm : l.Perm l')
    (h : ∀ x ∈ l, ∀ y ∈ l, f x ≠ [] → f y ≠ [] → f x = f y) : l.flatMap f = l'.flatMap f := by
  induction hperm with
  | nil => rfl
  | cons a _ ih =>
    rw [List.flatMap_cons, List.flatMap_cons]
    exact congrArg _ (ih fun x hx y hy =>
      h x (List.mem_cons_of_mem _ hx) y (List.mem_cons_of_mem _ hy))
  | swap a b l =>
    simp only [List.flatMap_cons]
    by_cases ha : f a = []
    · simp [ha]
    by_cases hb : f b = []
    · simp [hb]
    rw [h a (by simp) b (by simp) ha hb]
  | trans hperm _ ih ih' =>
    refine (ih h).trans (ih' fun x hx y hy => ?_)
    exact h x (hperm.mem_iff.mpr hx) y (hperm.mem_iff.mpr hy)

/-- Of two elements of which different things are found, each can come first. -/
theorem exists_perm_flatMap_ne {x y : α} (hx : x ∈ l) (hy : y ∈ l) (hfx : f x ≠ [])
    (hfy : f y ≠ []) (hne : (f x).head? ≠ (f y).head?) :
    ∃ l' : List α, l'.Perm l ∧ l'.flatMap f ≠ l.flatMap f := by
  have hfirst : ∀ {z}, z ∈ l → f z ≠ [] →
      ∃ l' : List α, l'.Perm l ∧ (l'.flatMap f).head? = (f z).head? := by
    intro z hz hfz
    obtain ⟨s, t, rfl⟩ := List.append_of_mem hz
    refine ⟨z :: (s ++ t), List.perm_middle.symm, ?_⟩
    rw [List.flatMap_cons, List.head?_append_of_ne_nil _ hfz]
  obtain ⟨lx, hlx, hheadx⟩ := hfirst hx hfx
  obtain ⟨ly, hly, hheady⟩ := hfirst hy hfy
  by_cases hsame : lx.flatMap f = l.flatMap f
  · refine ⟨ly, hly, fun hsame' => hne ?_⟩
    rw [← hheadx, ← hheady, hsame, hsame']
  · exact ⟨lx, hlx, hsame⟩

theorem filterMap_eq_of_perm {g : α → Option β} (hperm : l.Perm l')
    (h : ∀ x ∈ l, ∀ y ∈ l, ∀ u v, g x = some u → g y = some v → u = v) :
    l.filterMap g = l'.filterMap g := by
  rw [List.filterMap_eq_flatMap_toList, List.filterMap_eq_flatMap_toList]
  refine flatMap_eq_of_perm hperm fun x hx y hy hgx hgy => ?_
  cases hu : g x with
  | none => simp [hu] at hgx
  | some u =>
    cases hv : g y with
    | none => simp [hv] at hgy
    | some v => rw [h x hx y hy u v hu hv]

theorem exists_perm_filterMap_ne {g : α → Option β} {x y : α} {u v : β} (hx : x ∈ l) (hy : y ∈ l)
    (hu : g x = some u) (hv : g y = some v) (hne : u ≠ v) :
    ∃ l' : List α, l'.Perm l ∧ l'.filterMap g ≠ l.filterMap g := by
  simp only [List.filterMap_eq_flatMap_toList]
  refine exists_perm_flatMap_ne hx hy ?_ ?_ ?_
  · simp [hu]
  · simp [hv]
  · simpa [hu, hv] using hne

end Loops

/-! ## The order of nodes and edges -/

/-- The snapshot with its nodes iterated in another order. Its edges can be stored in another order
when no two of them share a key. -/
structure Rearranged (s s' : TopologySnapshot) : Prop where
  nodes : s.nodes.entries.Perm s'.nodes.entries
  edges : s.edges.Perm s'.edges
  distinct : s.edges = s'.edges ∨ (s.edges.map TopologyEdge.key).Nodup

theorem Rearranged.refl (s : TopologySnapshot) : Rearranged s s := ⟨.refl _, .refl _, Or.inl rfl⟩

/-- The first edge with a key stays the first. -/
theorem Rearranged.find?_key {s s' : TopologySnapshot} (h : Rearranged s s') (k : EdgeKey) :
    (s.edges.find? fun ae => ae.key = k) = s'.edges.find? fun ae => ae.key = k := by
  rcases h.distinct with hsame | hdistinct
  · rw [hsame]
  · have hdistinct' : (s'.edges.map TopologyEdge.key).Nodup :=
      (h.edges.map TopologyEdge.key).nodup_iff.mp hdistinct
    apply Option.ext
    intro e
    rw [find?_key_eq_some hdistinct, find?_key_eq_some hdistinct', h.edges.mem_iff]

/-- The nodes of a snapshot can be iterated in any order. -/
theorem exists_rearranged_nodes (s : TopologySnapshot) {l : List (TopologyNodeId × TopologyNode)}
    (h : l.Perm s.nodes.entries) : ∃ s', Rearranged s s' ∧ s'.nodes.entries = l :=
  ⟨{ s with
      nodes := ⟨l, (h.map Prod.fst).nodup_iff.mpr s.nodes.nodup⟩
      keyed := fun e he => s.keyed e (h.mem_iff.mp he) },
    ⟨h.symm, .refl _, Or.inl rfl⟩, rfl⟩

/-- Edges with keys of their own can be stored in any order. -/
theorem exists_rearranged_edges (s : TopologySnapshot)
    (hdistinct : (s.edges.map TopologyEdge.key).Nodup) {l : List TopologyEdge}
    (h : l.Perm s.edges) : ∃ s', Rearranged s s' ∧ s'.edges = l :=
  ⟨{ s with edges := l, adjacencyMap := _, adjacencyBuilt := rfl },
    ⟨.refl _, h.symm, Or.inr hdistinct⟩, rfl⟩

/-- The events in the order in which `compare_snapshots` finds them. -/
def foundEvents (a b : TopologySnapshot) : List DiffEvent :=
  diffEvents a.nodes b.nodes a.edges b.edges

section Segments

variable {a a' b b' : TopologySnapshot} (ha : Rearranged a a') (hb : Rearranged b b')
include ha hb

theorem foundEvents_perm : (foundEvents a b).Perm (foundEvents a' b') :=
  diffEvents_perm ha.nodes hb.nodes ha.edges hb.edges ha.find?_key

/-- Events that are found in the same order are found in it by each of the loops. -/
theorem loops_eq_of_foundEvents (h : foundEvents a b = foundEvents a' b') :
    nodeAddedEvents a.nodes b.nodes = nodeAddedEvents a'.nodes b'.nodes ∧
      nodeRemovedEvents a.nodes b.nodes = nodeRemovedEvents a'.nodes b'.nodes ∧
      b.nodes.entries.flatMap (nodeChangedEvents a.nodes) =
        b'.nodes.entries.flatMap (nodeChangedEvents a'.nodes) ∧
      edgesMissingFrom .edgeAdded a.edges b.edges = edgesMissingFrom .edgeAdded a'.edges b'.edges ∧
      edgesMissingFrom .edgeRemoved b.edges a.edges =
        edgesMissingFrom .edgeRemoved b'.edges a'.edges ∧
      linkChangedEvents a.edges b.edges = linkChangedEvents a'.edges b'.edges := by
  -- the loops find as many events as before
  obtain ⟨h, hlinks⟩ := List.append_inj' h (linkChangedEvents_perm hb.edges ha.find?_key).length_eq
  obtain ⟨h, hremoved⟩ := List.append_inj' h
    (edgesMissingFrom_perm hb.edges ha.edges _).length_eq
  obtain ⟨h, hadded⟩ := List.append_inj' h (edgesMissingFrom_perm ha.edges hb.edges _).length_eq
  obtain ⟨h, hchanged⟩ := List.append_inj' h (changedEvents_perm ha.nodes hb.nodes).length_eq
  obtain ⟨hnew, hgone⟩ := List.append_inj' h (nodeRemovedEvents_perm ha.nodes hb.nodes).length_eq
  exact ⟨hnew, hgone, hchanged, hadded, hremoved, hlinks⟩

end Segments

/-! ## When the order shows -/

/-- A difference between two versions of a node. -/
def NodeDiffers (na nb : TopologyNode) : Prop :=
  na.capabilities ≠ nb.capabilities ∨ localityChanged na nb = true ∨
    na.provenance.provider ≠ nb.provenance.provider ∨
    ∃ k v, nb.properties.find? k = some v ∧
      ((na.properties.find? k).any fun va => va.equal v) = false

/-- Two nodes of which a loop finds something. -/
def TwoNodes (p : TopologyNodeId → Prop) : Prop := ∃ id id', id ≠ id' ∧ p id ∧ p id'

/-- Two edges, of edges with keys of their own, of which a loop finds different things. -/
def TwoEdges {α : Type} (edges : List TopologyEdge) (p : TopologyEdge → Prop)
    (shown : TopologyEdge → α) : Prop :=
  (edges.map TopologyEdge.key).Nodup ∧
    ∃ e ∈ edges, ∃ e' ∈ edges, shown e ≠ shown e' ∧ p e ∧ p e'

/-- The order of nodes and edges shows in the order in which events are found: two nodes are new, or
gone, or differ, or two edges with keys of their own are new, or gone, or have changed links. -/
inductive OrderShows (a b : TopologySnapshot) : Prop where
  | nodesAdded : TwoNodes (fun id => id ∈ b.nodes.keys ∧ id ∉ a.nodes.keys) → OrderShows a b
  | nodesRemoved : TwoNodes (fun id => id ∈ a.nodes.keys ∧ id ∉ b.nodes.keys) → OrderShows a b
  | nodesChanged : TwoNodes (fun id => ∃ na nb, a.nodes.find? id = some na ∧
      b.nodes.find? id = some nb ∧ NodeDiffers na nb) → OrderShows a b
  | edgesAdded : TwoEdges b.edges (fun e => e.key ∉ a.edges.map TopologyEdge.key)
      (fun e => (e.source, e.target, e.type)) → OrderShows a b
  | edgesRemoved : TwoEdges a.edges (fun e => e.key ∉ b.edges.map TopologyEdge.key)
      (fun e => (e.source, e.target, e.type)) → OrderShows a b
  | linksChanged : TwoEdges b.edges
      (fun e => ((a.edges.find? fun ae => ae.key = e.key).any fun ea => linkChanged ea e) = true)
      (fun e => (e.source, e.target)) → OrderShows a b

theorem nodeChangedEvents_ne_nil {A : NodeMap} {id : TopologyNodeId} {nb : TopologyNode} :
    nodeChangedEvents A (id, nb) ≠ [] ↔ ∃ na, A.find? id = some na ∧ NodeDiffers na nb := by
  cases hna : A.find? id with
  | none => simp [nodeChangedEvents, hna]
  | some na =>
    simp only [nodeChangedEvents, hna, NodeDiffers, Option.some.injEq, exists_eq_left', ne_eq,
      List.append_eq_nil_iff, List.filterMap_eq_nil_iff, not_and_or, not_forall, or_assoc,
      OrderedMap.find?_eq_some, Prod.exists]
    simp

section Shows

variable {a b : TopologySnapshot}

/-- What is found of a changed node names it and is not about an edge. -/
theorem of_mem_nodeChangedEvents {A : NodeMap} {e : TopologyNodeId × TopologyNode} {ev : DiffEvent}
    (h : ev ∈ nodeChangedEvents A e) : ev.node = e.1 ∧ ev.onEdge = false := by
  obtain ⟨id, nb⟩ := e
  cases hna : A.find? id with
  | none => simp [nodeChangedEvents, hna] at h
  | some na =>
    simp only [nodeChangedEvents, hna, List.mem_append] at h
    rcases h with ((h | h) | h) | h
    · split_ifs at h
      · rw [List.mem_singleton.mp h]
        exact ⟨rfl, rfl⟩
      · exact absurd h List.not_mem_nil
    · split_ifs at h
      · rw [List.mem_singleton.mp h]
        exact ⟨rfl, rfl⟩
      · exact absurd h List.not_mem_nil
    · split_ifs at h
      · rw [List.mem_singleton.mp h]
        exact ⟨rfl, rfl⟩
      · exact absurd h List.not_mem_nil
    · obtain ⟨p, -, hp⟩ := List.mem_filterMap.mp h
      split_ifs at hp
      rw [← Option.some.inj hp]
      exact ⟨rfl, rfl⟩

/-- Of two nodes of which a loop finds something, each can come first. -/
theorem exists_rearranged_loop (s : TopologySnapshot)
    {f : TopologyNodeId × TopologyNode → List DiffEvent} {x y : TopologyNodeId × TopologyNode}
    (hx : x ∈ s.nodes.entries) (hy : y ∈ s.nodes.entries) (hfx : f x ≠ []) (hfy : f y ≠ [])
    (hne : (f x).head? ≠ (f y).head?) :
    ∃ s', Rearranged s s' ∧ s'.nodes.entries.flatMap f ≠ s.nodes.entries.flatMap f := by
  obtain ⟨l, hperm, hdiff⟩ := exists_perm_flatMap_ne hx hy hfx hfy hne
  obtain ⟨s', hs', rfl⟩ := exists_rearranged_nodes s hperm
  exact ⟨s', hs', hdiff⟩

theorem exists_rearranged_nodeLoop (s : TopologySnapshot)
    {g : TopologyNodeId × TopologyNode → Option DiffEvent} {x y : TopologyNodeId × TopologyNode}
    {u v : DiffEvent} (hx : x ∈ s.nodes.entries) (hy : y ∈ s.nodes.entries) (hu : g x = some u)
    (hv : g y = some v) (hne : u ≠ v) :
    ∃ s', Rearranged s s' ∧ s'.nodes.entries.filterMap g ≠ s.nodes.entries.filterMap g := by
  obtain ⟨l, hperm, hdiff⟩ := exists_perm_filterMap_ne hx hy hu hv hne
  obtain ⟨s', hs', rfl⟩ := exists_rearranged_nodes s hperm
  exact ⟨s', hs', hdiff⟩

theorem exists_rearranged_edgeLoop (s : TopologySnapshot)
    (hdistinct : (s.edges.map TopologyEdge.key).Nodup) {g : TopologyEdge → Option DiffEvent}
    {x y : TopologyEdge} {u v : DiffEvent} (hx : x ∈ s.edges) (hy : y ∈ s.edges)
    (hu : g x = some u) (hv : g y = some v) (hne : u ≠ v) :
    ∃ s', Rearranged s s' ∧ s'.edges.filterMap g ≠ s.edges.filterMap g := by
  obtain ⟨l, hperm, hdiff⟩ := exists_perm_filterMap_ne hx hy hu hv hne
  obtain ⟨s', hs', rfl⟩ := exists_rearranged_edges s hdistinct hperm
  exact ⟨s', hs', hdiff⟩

theorem edgeEvent_ne {kind : DiffEventKind} {e e' : TopologyEdge}
    (h : (e.source, e.target, e.type) ≠ (e'.source, e'.target, e'.type)) :
    edgeEvent kind e.type.toString e ≠ edgeEvent kind e'.type.toString e' := by
  intro hsame
  have htype : e.type.toString = e'.type.toString := congrArg DiffEvent.key hsame
  have hsource : e.source = e'.source := congrArg DiffEvent.node hsame
  have htarget : e.target = e'.target := congrArg DiffEvent.node2 hsame
  have hinj := Function.LeftInverse.injective EdgeType.fromString_toString htype
  exact h (by rw [hsource, htarget, hinj])

/-- Where the order shows, there are two orders in which the events are found differently. -/
theorem OrderShows.exists_rearranged (h : OrderShows a b) :
    ∃ a' b', Rearranged a a' ∧ Rearranged b b' ∧ foundEvents a' b' ≠ foundEvents a b := by
  have hra := Rearranged.refl a
  have hrb := Rearranged.refl b
  cases h with
  | nodesAdded h =>
    obtain ⟨x, y, hne, ⟨hx, hx'⟩, hy, hy'⟩ := h
    obtain ⟨n, hn⟩ := HashMap.mem_keys_iff.mp hx
    obtain ⟨m, hm⟩ := HashMap.mem_keys_iff.mp hy
    obtain ⟨b', hb, hdiff⟩ : ∃ b', Rearranged b b' ∧
        nodeAddedEvents a.nodes b'.nodes ≠ nodeAddedEvents a.nodes b.nodes :=
      exists_rearranged_nodeLoop b (HashMap.find?_eq_some.mp hn) (HashMap.find?_eq_some.mp hm)
        (if_neg (mt HashMap.contains_iff.mp hx')) (if_neg (mt HashMap.contains_iff.mp hy'))
        fun hsame => hne (congrArg DiffEvent.node hsame)
    exact ⟨a, b', hra, hb, fun hsame => hdiff (loops_eq_of_foundEvents hra hb hsame.symm).1.symm⟩
  | nodesRemoved h =>
    obtain ⟨x, y, hne, ⟨hx, hx'⟩, hy, hy'⟩ := h
    obtain ⟨n, hn⟩ := HashMap.mem_keys_iff.mp hx
    obtain ⟨m, hm⟩ := HashMap.mem_keys_iff.mp hy
    obtain ⟨a', ha, hdiff⟩ : ∃ a', Rearranged a a' ∧
        nodeRemovedEvents a'.nodes b.nodes ≠ nodeRemovedEvents a.nodes b.nodes :=
      exists_rearranged_nodeLoop a (HashMap.find?_eq_some.mp hn) (HashMap.find?_eq_some.mp hm)
        (if_neg (mt HashMap.contains_iff.mp hx')) (if_neg (mt HashMap.contains_iff.mp hy'))
        fun hsame => hne (congrArg DiffEvent.node hsame)
    exact ⟨a', b, ha, hrb, fun hsame =>
      hdiff (loops_eq_of_foundEvents ha hrb hsame.symm).2.1.symm⟩
  | nodesChanged h =>
    obtain ⟨x, y, hne, ⟨na, nb, hna, hnb, hx⟩, ma, mb, hma, hmb, hy⟩ := h
    obtain ⟨b', hb, hdiff⟩ : ∃ b', Rearranged b b' ∧
        b'.nodes.entries.flatMap (nodeChangedEvents a.nodes) ≠
          b.nodes.entries.flatMap (nodeChangedEvents a.nodes) := by
      have hfx := nodeChangedEvents_ne_nil.mpr ⟨na, hna, hx⟩
      have hfy := nodeChangedEvents_ne_nil.mpr ⟨ma, hma, hy⟩
      refine exists_rearranged_loop b (HashMap.find?_eq_some.mp hnb)
        (HashMap.find?_eq_some.mp hmb) hfx hfy fun hhead => hne ?_
      obtain ⟨ev, hev⟩ := Option.ne_none_iff_exists'.mp (mt List.head?_eq_none_iff.mp hfx)
      have hxev := (of_mem_nodeChangedEvents (List.mem_of_mem_head? hev)).1
      have hyev := (of_mem_nodeChangedEvents (List.mem_of_mem_head? (hhead.symm.trans hev))).1
      exact hxev.symm.trans hyev
    exact ⟨a, b', hra, hb, fun hsame =>
      hdiff (loops_eq_of_foundEvents hra hb hsame.symm).2.2.1.symm⟩
  | edgesAdded h =>
    obtain ⟨hdistinct, x, hx, y, hy, hne, hpx, hpy⟩ := h
    obtain ⟨b', hb, hdiff⟩ : ∃ b', Rearranged b b' ∧ edgesMissingFrom .edgeAdded a.edges b'.edges ≠
        edgesMissingFrom .edgeAdded a.edges b.edges :=
      exists_rearranged_edgeLoop b hdistinct hx hy (if_neg hpx) (if_neg hpy) (edgeEvent_ne hne)
    exact ⟨a, b', hra, hb, fun hsame =>
      hdiff (loops_eq_of_foundEvents hra hb hsame.symm).2.2.2.1.symm⟩
  | edgesRemoved h =>
    obtain ⟨hdistinct, x, hx, y, hy, hne, hpx, hpy⟩ := h
    obtain ⟨a', ha, hdiff⟩ : ∃ a', Rearranged a a' ∧
        edgesMissingFrom .edgeRemoved b.edges a'.edges ≠
          edgesMissingFrom .edgeRemoved b.edges a.edges :=
      exists_rearranged_edgeLoop a hdistinct hx hy (if_neg hpx) (if_neg hpy) (edgeEvent_ne hne)
    exact ⟨a', b, ha, hrb, fun hsame =>
      hdiff (loops_eq_of_foundEvents ha hrb hsame.symm).2.2.2.2.1.symm⟩
  | linksChanged h =>
    obtain ⟨hdistinct, x, hx, y, hy, hne, hpx, hpy⟩ := h
    obtain ⟨b', hb, hdiff⟩ : ∃ b', Rearranged b b' ∧
        linkChangedEvents a.edges b'.edges ≠ linkChangedEvents a.edges b.edges := by
      refine exists_rearranged_edgeLoop b hdistinct hx hy (if_pos hpx) (if_pos hpy) fun hsame => ?_
      have hsource : x.source = y.source := congrArg DiffEvent.node hsame
      have htarget : x.target = y.target := congrArg DiffEvent.node2 hsame
      exact hne (Prod.ext hsource htarget)
    exact ⟨a, b', hra, hb, fun hsame =>
      hdiff (loops_eq_of_foundEvents hra hb hsame.symm).2.2.2.2.2.symm⟩

variable {a' b' : TopologySnapshot}

/-- One node has one entry. -/
theorem entry_eq {m : NodeMap} {x y : TopologyNodeId × TopologyNode} (hx : x ∈ m.entries)
    (hy : y ∈ m.entries) (h : x.1 = y.1) : x = y := by
  have hfind := HashMap.find?_eq_some.mpr hx
  rw [h, HashMap.find?_eq_some.mpr hy] at hfind
  exact Prod.ext h (Option.some.inj hfind).symm

/-- A loop over edges finds its events in one order if edges with keys of their own show no other. -/
theorem edgeLoop_eq {α : Type} {s s' : TopologySnapshot} (hs : Rearranged s s')
    {g : TopologyEdge → Option DiffEvent} {p : TopologyEdge → Prop} {shown : TopologyEdge → α}
    (hnot : ¬ TwoEdges s.edges p shown) (hp : ∀ e u, g e = some u → p e)
    (hshown : ∀ e e', shown e = shown e' → ∀ u v, g e = some u → g e' = some v → u = v) :
    s.edges.filterMap g = s'.edges.filterMap g := by
  rcases hs.distinct with hsame | hdistinct
  · rw [hsame]
  · refine filterMap_eq_of_perm hs.edges fun x hx y hy u v hu hv => ?_
    refine hshown x y ?_ u v hu hv
    by_contra hne
    exact hnot ⟨hdistinct, x, hx, y, hy, hne, hp x u hu, hp y v hv⟩

/-- A loop over nodes finds its events in one order if there are no two nodes of which it finds
any. -/
theorem nodeLoop_eq {s s' : TopologySnapshot} (hs : Rearranged s s')
    {f : TopologyNodeId × TopologyNode → List DiffEvent} {p : TopologyNodeId → Prop}
    (hnot : ¬ TwoNodes p) (hp : ∀ e ∈ s.nodes.entries, f e ≠ [] → p e.1) :
    s.nodes.entries.flatMap f = s'.nodes.entries.flatMap f := by
  refine flatMap_eq_of_perm hs.nodes fun x hx y hy hfx hfy => ?_
  have hid : x.1 = y.1 := by
    by_contra hne
    exact hnot ⟨x.1, y.1, hne, hp x hx hfx, hp y hy hfy⟩
  rw [entry_eq hx hy hid]

theorem edgesMissingFrom_eq {kind : DiffEventKind} {s s' : TopologySnapshot}
    {other other' : List TopologyEdge} (hs : Rearranged s s') (hother : other.Perm other')
    (hnot : ¬ TwoEdges s.edges (fun e => e.key ∉ other.map TopologyEdge.key)
      fun e => (e.source, e.target, e.type)) :
    edgesMissingFrom kind other s.edges = edgesMissingFrom kind other' s'.edges := by
  simp only [edgesMissingFrom, ← (hother.map TopologyEdge.key).mem_iff]
  refine edgeLoop_eq hs hnot (fun e u hu => ?_) ?_
  · split_ifs at hu with hmem
    exact hmem
  · intro e e' hshown u v hu hv
    split_ifs at hu hv
    rw [← Option.some.inj hu, ← Option.some.inj hv]
    simp only [Prod.mk.injEq] at hshown
    simp [edgeEvent, hshown]

/-- Where the order does not show, the events are found in the same order in every order. -/
theorem foundEvents_eq_of_not_shows (h : ¬ OrderShows a b) (ha : Rearranged a a')
    (hb : Rearranged b b') : foundEvents a b = foundEvents a' b' := by
  have hadded : nodeAddedEvents a.nodes b.nodes = nodeAddedEvents a'.nodes b'.nodes := by
    simp only [nodeAddedEvents, ← HashMap.contains_perm ha.nodes,
      List.filterMap_eq_flatMap_toList]
    refine nodeLoop_eq hb (fun htwo => h (.nodesAdded htwo)) fun e he hfe => ?_
    refine ⟨HashMap.mem_keys_of_mem he, fun hmem => hfe ?_⟩
    rw [HashMap.contains_iff.mpr hmem]
    rfl
  have hremoved : nodeRemovedEvents a.nodes b.nodes = nodeRemovedEvents a'.nodes b'.nodes := by
    simp only [nodeRemovedEvents, ← HashMap.contains_perm hb.nodes,
      List.filterMap_eq_flatMap_toList]
    refine nodeLoop_eq ha (fun htwo => h (.nodesRemoved htwo)) fun e he hfe => ?_
    refine ⟨HashMap.mem_keys_of_mem he, fun hmem => hfe ?_⟩
    rw [HashMap.contains_iff.mpr hmem]
    rfl
  have hchanged : b.nodes.entries.flatMap (nodeChangedEvents a.nodes) =
      b'.nodes.entries.flatMap (nodeChangedEvents a'.nodes) := by
    have hevents : nodeChangedEvents a.nodes = nodeChangedEvents a'.nodes := by
      funext e
      simp only [nodeChangedEvents, HashMap.find?_perm ha.nodes]
    rw [← hevents]
    refine nodeLoop_eq hb (fun htwo => h (.nodesChanged htwo)) fun e he hfe => ?_
    obtain ⟨na, hna, hdiffers⟩ := nodeChangedEvents_ne_nil.mp hfe
    exact ⟨na, e.2, hna, HashMap.find?_eq_some.mpr he, hdiffers⟩
  have hnew : edgesMissingFrom .edgeAdded a.edges b.edges =
      edgesMissingFrom .edgeAdded a'.edges b'.edges :=
    edgesMissingFrom_eq hb ha.edges fun htwo => h (.edgesAdded htwo)
  have hgone : edgesMissingFrom .edgeRemoved b.edges a.edges =
      edgesMissingFrom .edgeRemoved b'.edges a'.edges :=
    edgesMissingFrom_eq ha hb.edges fun htwo => h (.edgesRemoved htwo)
  have hlinks : linkChangedEvents a.edges b.edges = linkChangedEvents a'.edges b'.edges := by
    simp only [linkChangedEvents, ← ha.find?_key]
    refine edgeLoop_eq hb (fun htwo => h (.linksChanged htwo)) (fun e u hu => ?_) ?_
    · split_ifs at hu with hmem
      exact hmem
    · intro e e' hshown u v hu hv
      split_ifs at hu hv
      rw [← Option.some.inj hu, ← Option.some.inj hv]
      simp only [Prod.mk.injEq] at hshown
      simp [edgeEvent, hshown]
  rw [foundEvents, foundEvents, diffEvents, diffEvents, hadded, hremoved, hchanged, hnew, hgone,
    hlinks]

end Shows

/-! ## Sorting the events -/

section Sorting

variable {a a' b b' : TopologySnapshot} {n : ℕ} {sort : List DiffEvent → List DiffEvent}

/-- The events of all loops but the last. -/
def eventsBesideLinks (a b : TopologySnapshot) : List DiffEvent :=
  nodeAddedEvents a.nodes b.nodes ++ nodeRemovedEvents a.nodes b.nodes ++
    b.nodes.entries.flatMap (nodeChangedEvents a.nodes) ++
    edgesMissingFrom .edgeAdded a.edges b.edges ++ edgesMissingFrom .edgeRemoved b.edges a.edges

theorem foundEvents_split (a b : TopologySnapshot) :
    foundEvents a b = eventsBesideLinks a b ++ linkChangedEvents a.edges b.edges := rfl

/-- Beside the links the changed properties are those of nodes. -/
theorem onEdge_besideLinks {e : DiffEvent} (h : e ∈ eventsBesideLinks a b)
    (hkind : e.kind = .propertyChanged) : e.onEdge = false := by
  simp only [eventsBesideLinks, List.mem_append] at h
  rcases h with (((h | h) | h) | h) | h
  · obtain ⟨⟨id, m⟩, -, hp⟩ := List.mem_filterMap.mp h
    dsimp only at hp
    split_ifs at hp
    rw [← Option.some.inj hp]
  · obtain ⟨⟨id, m⟩, -, hp⟩ := List.mem_filterMap.mp h
    dsimp only at hp
    split_ifs at hp
    rw [← Option.some.inj hp]
  · obtain ⟨p, -, hp⟩ := List.mem_flatMap.mp h
    exact (of_mem_nodeChangedEvents hp).2
  · obtain ⟨p, -, hp⟩ := List.mem_filterMap.mp h
    split_ifs at hp
    rw [← Option.some.inj hp] at hkind
    cases hkind
  · obtain ⟨p, -, hp⟩ := List.mem_filterMap.mp h
    split_ifs at hp
    rw [← Option.some.inj hp] at hkind
    cases hkind

theorem keyInjOn_besideLinks (a b : TopologySnapshot) :
    KeyInjOn eventKey (eventsBesideLinks a b) := by
  intro x hx y hy hkey
  have hkind : x.kind = y.kind := (eventKey_inj.mp hkey).1
  have hx' : x ∈ foundEvents a b := List.mem_append_left _ hx
  have hy' : y ∈ foundEvents a b := List.mem_append_left _ hy
  refine eq_of_eventKey hx' hy' hkey ?_
  by_cases hproperty : x.kind = .propertyChanged
  · rw [onEdge_besideLinks hx hproperty, onEdge_besideLinks hy (hkind ▸ hproperty)]
  · rw [(reported_of_mem hx').onEdge_eq hproperty,
      (reported_of_mem hy').onEdge_eq (hkind ▸ hproperty), hkind]

theorem onEdge_links {EA EB : List TopologyEdge} {e : DiffEvent}
    (h : e ∈ linkChangedEvents EA EB) : e.onEdge = true := by
  obtain ⟨p, -, hp⟩ := List.mem_filterMap.mp h
  split_ifs at hp
  rw [← Option.some.inj hp]
  rfl

theorem keyInjOn_links (a b : TopologySnapshot) :
    KeyInjOn eventKey (linkChangedEvents a.edges b.edges) := by
  intro x hx y hy hkey
  have hx' : x ∈ foundEvents a b := List.mem_append_right _ hx
  have hy' : y ∈ foundEvents a b := List.mem_append_right _ hy
  exact eq_of_eventKey hx' hy' hkey ((onEdge_links hx).trans (onEdge_links hy).symm)

/-- Elements with equal keys that are equal stand in one order in every order. -/
theorem filter_eq_of_perm {l l' : List DiffEvent} (hperm : l.Perm l') (h : KeyInjOn eventKey l)
    (k : ℕ ×ₗ TopologyNodeId ×ₗ TopologyNodeId ×ₗ Bytes ×ₗ Bytes) :
    l.filter (fun e => eventKey e = k) = l'.filter fun e => eventKey e = k := by
  rw [← List.filterMap_eq_filter]
  refine filterMap_eq_of_perm hperm fun x hx y hy u v hu hv => ?_
  obtain ⟨rfl, hxk⟩ := Option.guard_eq_some_iff.mp hu
  obtain ⟨rfl, hyk⟩ := Option.guard_eq_some_iff.mp hv
  exact h _ hx _ hy ((of_decide_eq_true hxk).trans (of_decide_eq_true hyk).symm)

/-- Events that tie are found in one order: the property of a node before the link. -/
theorem filter_foundEvents (ha : Rearranged a a') (hb : Rearranged b b')
    (k : ℕ ×ₗ TopologyNodeId ×ₗ TopologyNodeId ×ₗ Bytes ×ₗ Bytes) :
    (foundEvents a b).filter (fun e => eventKey e = k) =
      (foundEvents a' b').filter fun e => eventKey e = k := by
  have hbeside : (eventsBesideLinks a b).Perm (eventsBesideLinks a' b') :=
    ((((nodeAddedEvents_perm ha.nodes hb.nodes).append
      (nodeRemovedEvents_perm ha.nodes hb.nodes)).append
      (changedEvents_perm ha.nodes hb.nodes)).append
      (edgesMissingFrom_perm ha.edges hb.edges _)).append
      (edgesMissingFrom_perm hb.edges ha.edges _)
  have hlinks := linkChangedEvents_perm hb.edges ha.find?_key
  rw [foundEvents_split, foundEvents_split, List.filter_append, List.filter_append,
    filter_eq_of_perm hbeside (keyInjOn_besideLinks a b),
    filter_eq_of_perm hlinks (keyInjOn_links a b)]

/-- With this sort the list of events is the same in every order of nodes and edges. -/
def SameInEveryOrder (sort : List DiffEvent → List DiffEvent) (a b : TopologySnapshot) : Prop :=
  ∀ a' b', Rearranged a a' → Rearranged b b' → sort (foundEvents a' b') = sort (foundEvents a b)

/-- A sort that is stable on so many events makes one list of them. -/
theorem sameInEveryOrder_of_short (hsort : IsSort eventKey n sort)
    (hlen : (foundEvents a b).length ≤ n) : SameInEveryOrder sort a b := by
  intro a' b' ha hb
  have hlen' : (foundEvents a' b').length ≤ n := by
    rw [← (foundEvents_perm ha hb).length_eq]
    exact hlen
  apply (hsort.sorts _).eq_of_filter (hsort.sorts _)
  intro k
  rw [hsort.stable _ hlen', hsort.stable _ hlen, filter_foundEvents ha hb]

end Sorting

/-- **When the events are in a canonical order.** For a sort that is stable on up to `n` elements,
whichever it is, the list of events is the same in every order of nodes and edges, unless there are
more than `n` events, a changed link ties with a changed property `edge.link`, and the order of the
nodes or edges shows. -/
theorem events_canonical_iff (n : ℕ) (a b : TopologySnapshot) :
    (∃ sort, IsSort eventKey n sort ∧ (compareSnapshots a b).events = sort (foundEvents a b)) ∧
      ((∀ sort, IsSort eventKey n sort → SameInEveryOrder sort a b) ↔
        ¬ (n < (foundEvents a b).length ∧ LinkTie a.nodes b.nodes a.edges b.edges ∧
          OrderShows a b)) := by
  have hinsertion := IsSort.insertionSort (r := fun x y => eventBefore y x = false)
    (fun _ _ => eventBefore_eq_false_iff) n
  refine ⟨⟨_, hinsertion, rfl⟩, ?_⟩
  constructor
  · -- a sort that tells two orders apart
    rintro h ⟨hlen, htie, hshows⟩
    obtain ⟨a', b', ha, hb, hne⟩ := hshows.exists_rearranged
    obtain ⟨sort, hsort, hdiff⟩ := IsSort.exists_ne hlen (foundEvents_perm ha hb).symm hne
      fun hinj => keyInjOn_iff.mp hinj htie
    exact hdiff (h sort hsort a' b' ha hb)
  · intro h sort hsort
    by_cases hlen : n < (foundEvents a b).length
    swap
    · exact sameInEveryOrder_of_short hsort (not_lt.mp hlen)
    intro a' b' ha hb
    by_cases htie : LinkTie a.nodes b.nodes a.edges b.edges
    · rw [foundEvents_eq_of_not_shows (fun hshows => h ⟨hlen, htie, hshows⟩) ha hb]
    · have hperm := foundEvents_perm ha hb
      exact ((hsort.sorts _).unique (keyInjOn_iff.mpr htie) hperm (hsort.sorts _)).symm

/-- The machine, with the null identifier, and devices with a property `edge.link`. -/
def bankEntries (value : Int64) (ids : List UInt64) : List (TopologyNodeId × TopologyNode) :=
  (kNullNodeId, { id := kNullNodeId, type := .machine }) :: ids.map fun i =>
    (⟨0, i⟩, { id := ⟨0, i⟩, type := .pciDevice,
               properties := OrderedMap.empty.insert (str "edge.link") (.int value) })

/-- Such a machine with a link from the first device to it. -/
def deviceBank (ids : List UInt64) (hids : (kNullNodeId :: ids.map (TopologyNodeId.mk 0)).Nodup)
    (width : Int32) (value : Int64) : TopologySnapshot where
  nodes := ⟨bankEntries value ids, by simpa [bankEntries, Function.comp_def] using hids⟩
  keyed := by
    intro e he
    rcases List.mem_cons.mp he with rfl | he
    · rfl
    · obtain ⟨i, -, rfl⟩ := List.mem_map.mp he
      rfl
  edges := [{ source := ⟨0, 1⟩, target := kNullNodeId, width := some width }]
  adjacencyMap := _
  adjacencyBuilt := rfl
  metadata := {}
  validation := {}
  bounds := {}

/-- Sixteen devices. -/
def bankIds : List UInt64 := [1, 2, 3, 4, 5, 6, 7, 8, 9, 10, 11, 12, 13, 14, 15, 16]

theorem nodup_bankIds : (kNullNodeId :: bankIds.map (TopologyNodeId.mk 0)).Nodup := by decide

theorem nodup_bankIds_reverse :
    (kNullNodeId :: bankIds.reverse.map (TopologyNodeId.mk 0)).Nodup := by decide

theorem rearranged_deviceBank (width : Int32) (value : Int64) :
    Rearranged (deviceBank bankIds nodup_bankIds width value)
      (deviceBank bankIds.reverse nodup_bankIds_reverse width value) :=
  ⟨((List.reverse_perm _).symm.map _).cons _, .refl _, Or.inl rfl⟩

/-- Introsort lists the property of the first device before its link when the devices come in
ascending order, and after it when they come in descending order. -/
theorem events_order_open : IsSort eventKey 16 (introsort eventBefore) ∧
    ∃ a b, (∀ order, (validate order a.nodes a.edges).ok = true) ∧
      (∀ order, (validate order b.nodes b.edges).ok = true) ∧
      ¬ SameInEveryOrder (introsort eventBefore) a b := by
  refine ⟨isSort_introsort fun _ _ => eventBefore_eq_false_iff,
    deviceBank bankIds nodup_bankIds 8 1, deviceBank bankIds nodup_bankIds 16 2, ?_, ?_, ?_⟩
  · exact fun order => (validate_accepts_iff order _ _).mpr
      ((validate_accepts_iff .insertion _ _).mp (by decide +kernel))
  · exact fun order => (validate_accepts_iff order _ _).mpr
      ((validate_accepts_iff .insertion _ _).mp (by decide +kernel))
  · intro hsame
    have hlists := hsame _ _ (rearranged_deviceBank 8 1) (rearranged_deviceBank 16 2)
    revert hlists
    decide +kernel

end TopologyFabric

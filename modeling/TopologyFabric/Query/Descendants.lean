import TopologyFabric.Query.Ancestors

/-!
# Descendants and Siblings

`descendants` goes the edges of a type along, as `ancestors` goes them back. `siblings` goes back
one edge and along one edge.

## Main results

- `descendants_returns`: the descendants are the nodes that children lead to
- `mem_siblings`: the siblings are the other children of the parents
- `kinship_correct`: ancestors, descendants and siblings of every snapshot
-/

namespace TopologyFabric

open Library Filter

/-! ## The code -/

def children (snap : TopologySnapshot) (id : TopologyNodeId) (type : EdgeType) :
    List TopologyNodeId :=
  (snap.edges.filter fun e => decide (type = e.type) && decide (e.source = id)).map
    TopologyEdge.target

/-- One round of the search for descendants: the child is looked at as the parent is in the search
for ancestors. -/
def descendantRound (snap : TopologySnapshot) (type : EdgeType) (s : Closure.State TopologyNodeId) :
    Run (Closure.State TopologyNodeId ⊕ List TopologyNodeId) :=
  match s.queue with
  | [] => .ok (.inr s.out)
  | cur :: rest => .ok (.inl ((children snap cur type).foldl Closure.meet { s with queue := rest }))

/-- Everything below a node, in the order in which it is found. -/
def descendants (fuel : ℕ) (snap : TopologySnapshot) (id : TopologyNodeId) (type : EdgeType) :
    Run (List TopologyNodeId) :=
  loop (descendantRound snap type) fuel { queue := [id], visited := ∅, out := [] }

/-- What `siblings` has found. -/
structure SiblingSearch where
  seen : Finset TopologyNodeId
  out : List TopologyNodeId

/-- Look at one child of a parent of `id`. -/
def siblingVisit (id : TopologyNodeId) (s : SiblingSearch) (c : TopologyNodeId) : SiblingSearch :=
  if c ≠ id ∧ c ∉ s.seen then { seen := insert c s.seen, out := s.out ++ [c] } else s

/-- The other children of a node's parents. -/
def siblings (snap : TopologySnapshot) (id : TopologyNodeId) (type : EdgeType) :
    List TopologyNodeId :=
  ((parents snap id type).foldl
    (fun s p => (children snap p type).foldl (siblingVisit id) s) { seen := ∅, out := [] }).out

/-! ## Steps -/

/-- A step from the target of an edge of the type to its source. -/
def UpStep (snap : TopologySnapshot) (type : EdgeType) (a b : TopologyNodeId) : Prop :=
  ∃ e ∈ snap.edges, e.type = type ∧ e.target = a ∧ e.source = b

/-- A step from the source of an edge of the type to its target. -/
def DownStep (snap : TopologySnapshot) (type : EdgeType) (a b : TopologyNodeId) : Prop :=
  ∃ e ∈ snap.edges, e.type = type ∧ e.source = a ∧ e.target = b

section Steps

variable {snap : TopologySnapshot} {type : EdgeType} {a b id : TopologyNodeId}

theorem mem_children : b ∈ children snap a type ↔ DownStep snap type a b := by
  simp only [children, DownStep, List.mem_map, List.mem_filter, Bool.and_eq_true,
    decide_eq_true_eq]
  constructor
  · rintro ⟨e, ⟨he, htype, hsource⟩, htarget⟩
    exact ⟨e, he, htype.symm, hsource, htarget⟩
  · rintro ⟨e, he, htype, hsource, htarget⟩
    exact ⟨e, ⟨he, htype.symm, hsource⟩, htarget⟩

theorem mem_parents_iff_upStep : b ∈ parents snap a type ↔ UpStep snap type a b := mem_parents

/-- Children and parents list the same edges from both ends. -/
theorem mem_children_iff_mem_parents : b ∈ children snap a type ↔ a ∈ parents snap b type := by
  rw [mem_children, mem_parents_iff_upStep]
  exact exists_congr fun e => and_congr_right fun _ => and_congr_right fun _ => and_comm

theorem leads_parents_iff :
    Closure.Leads (fun cur => parents snap cur type) a b ↔
      Relation.TransGen (UpStep snap type) a b := by
  have hstep : (fun x y => y ∈ parents snap x type) = UpStep snap type := by
    funext x y
    exact propext mem_parents_iff_upStep
  rw [Closure.Leads, ← hstep]

theorem leads_children_iff :
    Closure.Leads (fun cur => children snap cur type) a b ↔
      Relation.TransGen (DownStep snap type) a b := by
  have hstep : (fun x y => y ∈ children snap x type) = DownStep snap type := by
    funext x y
    exact propext mem_children
  rw [Closure.Leads, ← hstep]

end Steps

/-! ## Descendants -/

section Descendants

variable {snap : TopologySnapshot}

theorem descendantRound_eq (type : EdgeType) (s : Closure.State TopologyNodeId) :
    descendantRound snap type s = .ok (Closure.step (fun cur => children snap cur type) s) := by
  unfold descendantRound Closure.step
  cases s.queue with
  | nil => rfl
  | cons cur rest => rfl

/-- `descendants` returns, on any snapshot, the nodes that children lead to. -/
theorem descendants_returns (snap : TopologySnapshot) (id : TopologyNodeId) (type : EdgeType) :
    ∃ below, Returns (fun fuel => descendants fuel snap id type) below ∧ below.Nodup ∧
      ∀ v, v ∈ below ↔ Closure.Leads (fun cur => children snap cur type) id v := by
  have hchildren : ∀ v, ∀ x ∈ children snap v type,
      x ∈ (snap.edges.map TopologyEdge.target).toFinset := by
    intro v x hx
    obtain ⟨e, he, -, -, rfl⟩ := mem_children.mp hx
    exact List.mem_toFinset.mpr (List.mem_map_of_mem he)
  obtain ⟨below, ⟨hnodup, hmem⟩, hret⟩ :=
    Closure.closure_correct (descendantRound_eq type) hchildren id
  exact ⟨below, hret, hnodup, hmem⟩

end Descendants

/-! ## Siblings -/

section Siblings

variable {snap : TopologySnapshot} {type : EdgeType} {id x : TopologyNodeId}

/-- What the search has put out after the children `l`: each once, and never the node itself. -/
structure SiblingsOf (id : TopologyNodeId) (l : List TopologyNodeId) (s : SiblingSearch) : Prop where
  nodup : s.out.Nodup
  out : ∀ v, v ∈ s.out ↔ v ∈ s.seen
  seen : ∀ v, v ∈ s.seen ↔ v ≠ id ∧ v ∈ l

/-- Looking at one more child. -/
theorem SiblingsOf.visit {l : List TopologyNodeId} {s : SiblingSearch} (h : SiblingsOf id l s)
    (c : TopologyNodeId) : SiblingsOf id (l ++ [c]) (siblingVisit id s c) := by
  unfold siblingVisit
  by_cases hnew : c ≠ id ∧ c ∉ s.seen
  · rw [if_pos hnew]
    obtain ⟨hne, hseen⟩ := hnew
    refine ⟨?_, fun v => ?_, fun v => ?_⟩
    · have hout : c ∉ s.out := fun hmem => hseen ((h.out c).mp hmem)
      exact List.nodup_append.mpr ⟨h.nodup, List.nodup_singleton c, fun a ha b hb hab =>
        hout (by rwa [← List.mem_singleton.mp hb, ← hab])⟩
    · rw [List.mem_append, List.mem_singleton, Finset.mem_insert, h.out v]
      exact or_comm
    · rw [Finset.mem_insert, List.mem_append, List.mem_singleton, h.seen v]
      constructor
      · rintro (rfl | ⟨hv, hmem⟩)
        · exact ⟨hne, Or.inr rfl⟩
        · exact ⟨hv, Or.inl hmem⟩
      · rintro ⟨hv, hmem | rfl⟩
        · exact Or.inr ⟨hv, hmem⟩
        · exact Or.inl rfl
  · rw [if_neg hnew]
    refine ⟨h.nodup, h.out, fun v => ?_⟩
    rw [List.mem_append, List.mem_singleton, h.seen v]
    -- a child that is passed over is the node itself or was seen before
    constructor
    · exact fun hv => ⟨hv.1, Or.inl hv.2⟩
    · rintro ⟨hv, hmem | rfl⟩
      · exact ⟨hv, hmem⟩
      · exact (h.seen v).mp (not_not.mp fun hseen => hnew ⟨hv, hseen⟩)

theorem SiblingsOf.scan {l : List TopologyNodeId} {s : SiblingSearch} (h : SiblingsOf id l s)
    (cs : List TopologyNodeId) : SiblingsOf id (l ++ cs) (cs.foldl (siblingVisit id) s) := by
  induction cs generalizing l s with
  | nil => rwa [List.append_nil]
  | cons c cs ih =>
    have hrest := ih (h.visit c)
    rwa [List.append_assoc, List.singleton_append] at hrest

/-- The two loops of `siblings` go through the children of all parents. -/
theorem siblingsOf_siblings (snap : TopologySnapshot) (id : TopologyNodeId) (type : EdgeType) :
    ∃ s, SiblingsOf id ((parents snap id type).flatMap fun p => children snap p type) s ∧
      siblings snap id type = s.out := by
  have hstart : SiblingsOf id [] { seen := ∅, out := [] } :=
    ⟨List.nodup_nil, fun v => by simp, fun v => by simp⟩
  exact ⟨_, hstart.scan _, congrArg SiblingSearch.out List.foldl_flatMap.symm⟩

/-- The siblings are the other children of the parents, each once. -/
theorem mem_siblings :
    x ∈ siblings snap id type ↔ x ≠ id ∧ ∃ p, UpStep snap type id p ∧ DownStep snap type p x := by
  obtain ⟨s, hs, heq⟩ := siblingsOf_siblings snap id type
  rw [heq, hs.out x, hs.seen x, List.mem_flatMap]
  simp only [mem_children, mem_parents_iff_upStep]

theorem nodup_siblings : (siblings snap id type).Nodup := by
  obtain ⟨s, hs, heq⟩ := siblingsOf_siblings snap id type
  rw [heq]
  exact hs.nodup

/-- Going up from one node and down to the other is the same way from both. -/
theorem mem_siblings_comm {y : TopologyNodeId} :
    x ∈ siblings snap y type ↔ y ∈ siblings snap x type := by
  rw [mem_siblings, mem_siblings, ne_comm]
  apply and_congr_right
  intro _
  apply exists_congr
  intro p
  rw [← mem_parents_iff_upStep, ← mem_children_iff_mem_parents, mem_children, and_comm,
    ← mem_children, mem_children_iff_mem_parents, mem_parents_iff_upStep]

end Siblings

/-! ## Main Result -/

/-- **Kinship.** On every snapshot, with cycles, parallel edges and edges to nodes that are not
there, `ancestors` and `descendants` return, each once, the nodes that one or more steps up and down
the edges of the type reach; they are dual, and `siblings` is symmetric. -/
theorem kinship_correct (snap : TopologySnapshot) (type : EdgeType) :
    ∃ above below : TopologyNodeId → List TopologyNodeId,
      (∀ id, Returns (fun fuel => ancestors fuel snap id type) (above id) ∧ (above id).Nodup ∧
        ∀ v, v ∈ above id ↔ Relation.TransGen (UpStep snap type) id v) ∧
      (∀ id, Returns (fun fuel => descendants fuel snap id type) (below id) ∧ (below id).Nodup ∧
        ∀ v, v ∈ below id ↔ Relation.TransGen (DownStep snap type) id v) ∧
      (∀ x y, x ∈ above y ↔ y ∈ below x) ∧
      ∀ x y, x ∈ siblings snap y type ↔ y ∈ siblings snap x type := by
  choose above habove using fun id => ancestors_returns snap id type
  choose below hbelow using fun id => descendants_returns snap id type
  refine ⟨above, below, fun id => ?_, fun id => ?_, fun x y => ?_, fun x y => mem_siblings_comm⟩
  · obtain ⟨hret, hnodup, hmem⟩ := habove id
    exact ⟨hret, hnodup, fun v => (hmem v).trans leads_parents_iff⟩
  · obtain ⟨hret, hnodup, hmem⟩ := hbelow id
    exact ⟨hret, hnodup, fun v => (hmem v).trans leads_children_iff⟩
  · rw [(habove y).2.2 x, (hbelow x).2.2 y]
    exact Closure.leads_swap fun a b => mem_children_iff_mem_parents.symm

end TopologyFabric

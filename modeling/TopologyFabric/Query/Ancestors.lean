import TopologyFabric.Core.Validation
import TopologyFabric.Query.Route
import TopologyFabric.Library.Closure

/-!
# Roots and Ancestors

`ancestors` collects everything above a node. `root_ancestor` goes up the first parents only, so it
misses a root that is above another parent.

## Main results

- `ancestors_returns`: the ancestors are the nodes that parents lead to
- `rootAncestor_returns`: the root is the first one of its type among the first parents
- `rootAncestor_agrees_iff`: when the root is found iff there is one above
- `rootAncestor_misses`: two parents, the second below a PCI root
-/

namespace TopologyFabric

open Library Filter

/-! ## Ancestors -/

/-- The state of the search. -/
abbrev AncestorSearch := Closure.State TopologyNodeId

/-- Look at one parent. -/
def ancestorVisit (s : AncestorSearch) (p : TopologyNodeId) : AncestorSearch :=
  if p ∈ s.visited then s
  else { queue := s.queue ++ [p], visited := insert p s.visited, out := s.out ++ [p] }

/-- One round of the search. -/
def ancestorRound (snap : TopologySnapshot) (type : EdgeType) (s : AncestorSearch) :
    Run (AncestorSearch ⊕ List TopologyNodeId) :=
  match s.queue with
  | [] => .ok (.inr s.out)
  | cur :: rest => .ok (.inl ((parents snap cur type).foldl ancestorVisit { s with queue := rest }))

/-- Everything above a node, in the order in which it is found. -/
def ancestors (fuel : ℕ) (snap : TopologySnapshot) (id : TopologyNodeId) (type : EdgeType) :
    Run (List TopologyNodeId) :=
  loop (ancestorRound snap type) fuel { queue := [id], visited := ∅, out := [] }

section Ancestors

variable {snap : TopologySnapshot}

theorem ancestorRound_eq (type : EdgeType) (s : AncestorSearch) :
    ancestorRound snap type s = .ok (Closure.step (fun cur => parents snap cur type) s) := by
  unfold ancestorRound Closure.step
  cases s.queue with
  | nil => rfl
  | cons cur rest => rfl

/-- `ancestors` returns, on any snapshot, the nodes that parents lead to. -/
theorem ancestors_returns (snap : TopologySnapshot) (id : TopologyNodeId) (type : EdgeType) :
    ∃ above, Returns (fun fuel => ancestors fuel snap id type) above ∧ above.Nodup ∧
      ∀ v, v ∈ above ↔ Closure.Leads (fun cur => parents snap cur type) id v := by
  have hparents : ∀ v, ∀ x ∈ parents snap v type,
      x ∈ (snap.edges.map TopologyEdge.source).toFinset := by
    intro v x hx
    obtain ⟨e, he, -, -, rfl⟩ := mem_parents.mp hx
    exact List.mem_toFinset.mpr (List.mem_map_of_mem he)
  obtain ⟨above, ⟨hnodup, hmem⟩, hret⟩ :=
    Closure.closure_correct (ancestorRound_eq type) hparents id
  exact ⟨above, hret, hnodup, hmem⟩

end Ancestors

/-! ## The first parents -/

/-- `FirstParents snap a b`: from `a` the first CONTAINS parents lead to `b`, over nodes of the
snapshot that do not have the null id. -/
inductive FirstParents (snap : TopologySnapshot) : TopologyNodeId → TopologyNodeId → Prop where
  | here {a : TopologyNodeId} : a ≠ kNullNodeId → snap.Present a → FirstParents snap a a
  | up {a p b : TopologyNodeId} : a ≠ kNullNodeId → snap.Present a →
      (parents snap a .contains).head? = some p → FirstParents snap p b → FirstParents snap a b

/-- The snapshot has the node, with the type. -/
def TopologySnapshot.HasType (snap : TopologySnapshot) (id : TopologyNodeId) (type : NodeType) :
    Prop :=
  ∃ n, snap.findNode id = some n ∧ n.type = type

section FirstParents

variable {snap : TopologySnapshot} {id a b : TopologyNodeId} {type : NodeType}

theorem FirstParents.start (h : FirstParents snap a b) : a ≠ kNullNodeId ∧ snap.Present a := by
  cases h with
  | here hne hpresent => exact ⟨hne, hpresent⟩
  | up hne hpresent _ _ => exact ⟨hne, hpresent⟩

/-- The first parents are ancestors. -/
theorem FirstParents.leads (h : FirstParents snap a b) :
    b = a ∨ Closure.Leads (fun cur => parents snap cur .contains) a b := by
  induction h with
  | here _ _ => exact Or.inl rfl
  | up _ _ hparent _ ih =>
    have hmem := List.mem_of_mem_head? hparent
    rcases ih with rfl | hleads
    · exact Or.inr (.single hmem)
    · exact Or.inr (.head hmem hleads)

/-! ## The walk up -/

/-- What is known at `cur` with the nodes seen before: none of them has the type, each is followed by
its first parent, and the walk from `id` goes on at `cur`. -/
structure WalkUp (snap : TopologySnapshot) (type : NodeType) (id cur : TopologyNodeId)
    (seen : List TopologyNodeId) : Prop where
  typed : ∀ a ∈ seen, ¬ snap.HasType a type
  followed : ∀ a ∈ seen, ∀ p, (parents snap a .contains).head? = some p → p = cur ∨ p ∈ seen
  back : ∀ b, FirstParents snap cur b → FirstParents snap id b
  onward : ∀ b, FirstParents snap id b → snap.HasType b type → FirstParents snap cur b

/-- What the answer says about the first parents. -/
def RootAnswer (snap : TopologySnapshot) (type : NodeType) (id r : TopologyNodeId) : Prop :=
  (r ≠ kNullNodeId ∧ FirstParents snap id r ∧ snap.HasType r type) ∨
    (r = kNullNodeId ∧ ∀ b, FirstParents snap id b → ¬ snap.HasType b type)

/-- A round leaves the walk with its answer or goes on at the first parent. -/
theorem ancestorStep_cases {seen : List TopologyNodeId}
    {t : TopologyNodeId × List TopologyNodeId ⊕ TopologyNodeId}
    (h : ancestorStep snap type (a, seen) = .ok t) :
    (t = .inr kNullNodeId ∧ (a = kNullNodeId ∨ ¬ snap.Present a)) ∨
      (a ≠ kNullNodeId ∧ snap.Present a ∧
        ((t = .inr a ∧ snap.HasType a type) ∨
          (¬ snap.HasType a type ∧
            ((t = .inr kNullNodeId ∧ (a ∈ seen ∨ (parents snap a .contains).head? = none)) ∨
              ∃ p, a ∉ seen ∧ (parents snap a .contains).head? = some p ∧
                t = .inl (p, a :: seen))))) := by
  unfold ancestorStep at h
  simp only at h
  -- the branches of the loop in the order of the code
  by_cases hmissing : a = kNullNodeId ∨ (snap.findNode a).isNone = true
  · rw [if_pos hmissing] at h
    refine Or.inl ⟨(Outcome.ok.inj h).symm, hmissing.imp id fun hnone => ?_⟩
    simpa [TopologySnapshot.Present] using hnone
  rw [if_neg hmissing] at h
  obtain ⟨hne, hpresent⟩ := not_or.mp hmissing
  obtain ⟨n, hn, h⟩ := Outcome.bind_eq_ok.mp h
  have hfind := TopologySnapshot.node_eq_ok.mp hn
  refine Or.inr ⟨hne, TopologySnapshot.present_of_findNode hfind, ?_⟩
  have htype : snap.HasType a type ↔ n.type = type := by
    simp [TopologySnapshot.HasType, hfind]
  rw [htype]
  by_cases hroot : n.type = type
  · rw [if_pos hroot] at h
    exact Or.inl ⟨(Outcome.ok.inj h).symm, hroot⟩
  rw [if_neg hroot] at h
  refine Or.inr ⟨hroot, ?_⟩
  by_cases hseen : a ∈ seen
  · simp only [if_pos hseen] at h
    exact Or.inl ⟨(Outcome.ok.inj h).symm, Or.inl hseen⟩
  · simp only [if_neg hseen] at h
    -- the first parent is the next node
    cases hparents : parents snap a .contains with
    | nil =>
      simp only [hparents] at h
      exact Or.inl ⟨(Outcome.ok.inj h).symm, Or.inr rfl⟩
    | cons p ps =>
      simp only [hparents] at h
      exact Or.inr ⟨p, hseen, rfl, (Outcome.ok.inj h).symm⟩

/-- A node that was seen before starts a circle of seen nodes. -/
theorem WalkUp.circle {seen : List TopologyNodeId} (hwalk : WalkUp snap type id a seen)
    (ha : a ∈ seen) (h : FirstParents snap a b) : b ∈ seen := by
  have hclosed : ∀ c d, FirstParents snap c d → c ∈ seen → d ∈ seen := by
    intro c d h
    induction h with
    | here _ _ => exact fun hc => hc
    | up _ _ hparent _ ih =>
      intro hc
      rcases hwalk.followed _ hc _ hparent with rfl | hmem
      · exact ih ha
      · exact ih hmem
  exact hclosed a b h ha

/-- A round that goes on keeps what is known. -/
theorem WalkUp.step {s s' : TopologyNodeId × List TopologyNodeId}
    (hwalk : WalkUp snap type id s.1 s.2) (hstep : ancestorStep snap type s = .ok (.inl s')) :
    WalkUp snap type id s'.1 s'.2 := by
  obtain ⟨cur, seen⟩ := s
  rcases ancestorStep_cases hstep with ⟨h, -⟩ | ⟨hne, hpresent, ⟨h, -⟩ | ⟨htype, ⟨h, -⟩ |
    ⟨p, -, hparent, h⟩⟩⟩
  · cases h
  · cases h
  · cases h
  obtain rfl := Sum.inl.inj h
  refine ⟨fun a ha => ?_, fun a ha q hq => ?_, fun b hb => ?_, fun b hb hbtype => ?_⟩
  · rcases List.mem_cons.mp ha with rfl | ha
    · exact htype
    · exact hwalk.typed a ha
  · rcases List.mem_cons.mp ha with rfl | ha
    · exact Or.inl (Option.some.inj (hq.symm.trans hparent))
    · rcases hwalk.followed a ha q hq with rfl | hmem
      · exact Or.inr (List.mem_cons_self ..)
      · exact Or.inr (List.mem_cons_of_mem _ hmem)
  · exact hwalk.back b (.up hne hpresent hparent hb)
  · -- `cur` does not have the type, so the walk goes on at its first parent
    cases hwalk.onward b hb hbtype with
    | here _ _ => exact absurd hbtype htype
    | up _ _ hparent' hrest =>
      obtain rfl := Option.some.inj (hparent.symm.trans hparent')
      exact hrest

/-- A round that leaves the walk has the answer. -/
theorem WalkUp.exit {s : TopologyNodeId × List TopologyNodeId} {r : TopologyNodeId}
    (hwalk : WalkUp snap type id s.1 s.2) (hstep : ancestorStep snap type s = .ok (.inr r)) :
    RootAnswer snap type id r := by
  obtain ⟨cur, seen⟩ := s
  rcases ancestorStep_cases hstep with ⟨h, hstop⟩ | ⟨hne, hpresent, ⟨h, htype⟩ | ⟨htype, ⟨h, hstop⟩ |
    ⟨p, -, -, h⟩⟩⟩
  · -- the null id or a missing node: nothing starts there
    refine Or.inr ⟨Sum.inr.inj h, fun b hb hbtype => ?_⟩
    obtain ⟨hne, hpresent⟩ := (hwalk.onward b hb hbtype).start
    exact hstop.elim hne fun hmissing => hmissing hpresent
  · obtain rfl := Sum.inr.inj h
    exact Or.inl ⟨hne, hwalk.back _ (.here hne hpresent), htype⟩
  · refine Or.inr ⟨Sum.inr.inj h, fun b hb hbtype => ?_⟩
    have honward := hwalk.onward b hb hbtype
    rcases hstop with hseen | hnone
    · -- the walk has come back to a node, and no node of the circle has the type
      exact hwalk.typed b (hwalk.circle hseen honward) hbtype
    · cases honward with
      | here _ _ => exact htype hbtype
      | up _ _ hparent _ => simp [hnone] at hparent
  · cases h

theorem rootAncestor_returns (snap : TopologySnapshot) (id : TopologyNodeId) (type : NodeType) :
    ∃ r, Returns (fun fuel => rootAncestor fuel snap id type) r ∧ RootAnswer snap type id r := by
  obtain ⟨r, hret⟩ := @rootAncestor_finishes snap id type
  obtain ⟨fuel, hfuel⟩ := hret.exists
  refine ⟨r, hret, ?_⟩
  have hinit : WalkUp snap type id id [] := ⟨by simp, by simp, fun b hb => hb, fun b hb _ => hb⟩
  have hround : ∀ s : TopologyNodeId × List TopologyNodeId, WalkUp snap type id s.1 s.2 →
      ∀ s', ancestorStep snap type s = .ok (.inl s') → WalkUp snap type id s'.1 s'.2 :=
    fun _ hwalk _ hstep => hwalk.step hstep
  exact loop_partial hround (fun _ hwalk _ hstep => hwalk.exit hstep) fuel (id, []) hinit r hfuel

/-- With at most one parent each, the first parents are all that is above. -/
theorem firstParents_of_leads (hd : snap.NoDanglingEdges) (hnull : ¬ snap.Present kNullNodeId)
    (hone : ∀ v, (parents snap v .contains).length ≤ 1) (hpresent : snap.Present a)
    (h : b = a ∨ Closure.Leads (fun cur => parents snap cur .contains) a b) :
    FirstParents snap a b := by
  have hne : ∀ {v}, snap.Present v → v ≠ kNullNodeId := by
    rintro v hv rfl
    exact hnull hv
  -- a node has at most one parent, which is the first
  have hfirst : ∀ {v p}, p ∈ parents snap v .contains →
      (parents snap v .contains).head? = some p := by
    intro v p hp
    cases hl : parents snap v .contains with
    | nil => simp [hl] at hp
    | cons q l =>
      have hlength := hone v
      rw [hl] at hp hlength
      have hnil : l = [] := List.eq_nil_of_length_eq_zero (by simpa using hlength)
      subst hnil
      rw [List.mem_singleton.mp hp]
      rfl
  rcases h with rfl | hleads
  · exact .here (hne hpresent) hpresent
  · induction hleads using Relation.TransGen.head_induction_on with
    | single hp =>
      have hb := hd.parents_present _ .contains _ hp
      exact .up (hne hpresent) hpresent (hfirst hp) (.here (hne hb) hb)
    | head hp _ ih =>
      exact .up (hne hpresent) hpresent (hfirst hp) (ih (hd.parents_present _ .contains _ hp))

end FirstParents

/-! ## Agreement -/

/-- The root is there iff the node or something above it has the type, and then it is one of
these. -/
def RootAgrees (snap : TopologySnapshot) (id : TopologyNodeId) (type : NodeType)
    (above : List TopologyNodeId) (r : TopologyNodeId) : Prop :=
  (r ≠ kNullNodeId ↔ ∃ x, (x = id ∨ x ∈ above) ∧ snap.HasType x type) ∧
    (r ≠ kNullNodeId → (r = id ∨ r ∈ above) ∧ snap.HasType r type)

/-- **When roots and ancestors agree.** On any snapshot both queries return. They agree iff, where
anything above the node has the type, one of its first parents has it. With at most one parent each,
no dangling edge and no node with the null id they always agree. -/
theorem rootAncestor_agrees_iff (snap : TopologySnapshot) (id : TopologyNodeId) (type : NodeType) :
    ∃ r above, Returns (fun fuel => rootAncestor fuel snap id type) r ∧
      Returns (fun fuel => ancestors fuel snap id .contains) above ∧
      (RootAgrees snap id type above r ↔
        ((∃ x, (x = id ∨ x ∈ above) ∧ snap.HasType x type) →
          ∃ x, FirstParents snap id x ∧ snap.HasType x type)) ∧
      (snap.NoDanglingEdges → ¬ snap.Present kNullNodeId → snap.Present id →
        (∀ v, (parents snap v .contains).length ≤ 1) → RootAgrees snap id type above r) := by
  obtain ⟨r, hret, hanswer⟩ := rootAncestor_returns snap id type
  obtain ⟨above, hret', -, hmem⟩ := ancestors_returns snap id .contains
  have hiff : RootAgrees snap id type above r ↔
      ((∃ x, (x = id ∨ x ∈ above) ∧ snap.HasType x type) →
        ∃ x, FirstParents snap id x ∧ snap.HasType x type) := by
    rcases hanswer with ⟨hne, hfirst, htype⟩ | ⟨rfl, hnone⟩
    · -- a root was found
      have hin : (r = id ∨ r ∈ above) ∧ snap.HasType r type :=
        ⟨Or.imp_right (hmem r).mpr hfirst.leads, htype⟩
      exact iff_of_true ⟨iff_of_true hne ⟨r, hin⟩, fun _ => hin⟩ fun _ => ⟨r, hfirst, htype⟩
    · constructor
      · intro h habove
        exact absurd rfl (h.1.mpr habove)
      · intro h
        refine ⟨⟨fun hne => absurd rfl hne, fun habove => ?_⟩, fun hne => absurd rfl hne⟩
        obtain ⟨x, hfirst, htype⟩ := h habove
        exact absurd htype (hnone x hfirst)
  refine ⟨r, above, hret, hret', hiff, fun hd hnull hpresent hone => hiff.mpr ?_⟩
  rintro ⟨x, hx, htype⟩
  exact ⟨x, firstParents_of_leads hd hnull hone hpresent (Or.imp_right (hmem x).mp hx), htype⟩

/-- On two joined nodes without a parent the queries agree. -/
theorem rootAncestor_agrees_iff_pair :
    ∃ r above, Returns (fun fuel => rootAncestor fuel pairSnapshot ⟨0, 1⟩ .numaNode) r ∧
      Returns (fun fuel => ancestors fuel pairSnapshot ⟨0, 1⟩ .contains) above ∧
      RootAgrees pairSnapshot ⟨0, 1⟩ .numaNode above r := by
  obtain ⟨r, above, hret, hret', -, hagree⟩ :=
    rootAncestor_agrees_iff pairSnapshot ⟨0, 1⟩ .numaNode
  have hone : ∀ v, (parents pairSnapshot v .contains).length ≤ 1 := by
    intro v
    rw [parents, List.length_map]
    exact List.length_filter_le _ _
  exact ⟨r, above, hret, hret', hagree (by decide) (by decide) (by decide) hone⟩

/-- A device below a machine and a PCI root, the machine first. -/
def forkSnapshot : TopologySnapshot where
  nodes := ⟨[(⟨0, 1⟩, { id := ⟨0, 1⟩, type := .pciDevice }),
    (⟨0, 2⟩, { id := ⟨0, 2⟩, type := .machine }),
    (⟨0, 3⟩, { id := ⟨0, 3⟩, type := .pciRoot })], by decide⟩
  keyed := by simp
  edges := [
    { source := ⟨0, 2⟩, target := ⟨0, 1⟩, type := .contains },
    { source := ⟨0, 3⟩, target := ⟨0, 1⟩, type := .contains }]
  adjacencyMap := _
  adjacencyBuilt := rfl
  metadata := {}
  validation := {}
  bounds := {}

/-- The same with the edges in the other order. -/
def swappedFork : TopologySnapshot :=
  { forkSnapshot with
    edges := [
      { source := ⟨0, 3⟩, target := ⟨0, 1⟩, type := .contains },
      { source := ⟨0, 2⟩, target := ⟨0, 1⟩, type := .contains }]
    adjacencyMap := _
    adjacencyBuilt := rfl }

/-- The PCI root is an ancestor, and it is found only if its edge comes first. -/
theorem rootAncestor_misses :
    (∀ order, (validate order forkSnapshot.nodes forkSnapshot.edges).ok = true) ∧
      rootAncestor 10 forkSnapshot ⟨0, 1⟩ .pciRoot = .ok kNullNodeId ∧
      ancestors 10 forkSnapshot ⟨0, 1⟩ .contains = .ok [⟨0, 2⟩, ⟨0, 3⟩] ∧
      ¬ RootAgrees forkSnapshot ⟨0, 1⟩ .pciRoot [⟨0, 2⟩, ⟨0, 3⟩] kNullNodeId ∧
      swappedFork.edges.Perm forkSnapshot.edges ∧
      rootAncestor 10 swappedFork ⟨0, 1⟩ .pciRoot = .ok ⟨0, 3⟩ := by
  have hvalid : (validate IterationOrder.insertion forkSnapshot.nodes
      forkSnapshot.edges).ok = true := by decide +kernel
  refine ⟨fun order => (validate_accepts_iff order _ _).mpr ((validate_accepts_iff _ _ _).mp hvalid),
    by decide +kernel, by decide +kernel, fun h => ?_, .swap _ _ _, by decide +kernel⟩
  exact absurd rfl (h.1.mpr ⟨⟨0, 3⟩, Or.inr (by simp), _, rfl, rfl⟩)

end TopologyFabric

import TopologyFabric.Library.Outcome
import Mathlib.Order.WellFounded
import Mathlib.Algebra.BigOperators.Group.Finset.Basic
import Mathlib.Data.Fintype.Card

/-!
# Kahn's Algorithm on Multigraphs

Counting version of the topological sort: a node whose incoming edges have all been removed goes
to a stack, popping a node removes its outgoing edges one by one, and the run counts the popped
nodes. Parallel edges are counted as often as they occur.

## Main result

- `kahn_correct`: the run finishes, and it has popped every node iff no node lies on a cycle
-/

namespace TopologyFabric.Library.Kahn

universe u w

variable {V : Type u} [DecidableEq V]

/-- The state of the run. The top of the stack comes first. -/
structure State (V : Type u) where
  stack : List V
  indeg : V → ℤ
  visited : ℕ

/-- Remove one edge into `kid`. -/
def lower (s : State V) (kid : V) : State V :=
  let d := s.indeg kid - 1
  { s with
    indeg := Function.update s.indeg kid d
    stack := if d = 0 then kid :: s.stack else s.stack }

/-- One round: pop a node and remove its outgoing edges. -/
def step (kids : V → List V) (s : State V) : State V ⊕ ℕ :=
  match s.stack with
  | [] => .inr s.visited
  | cur :: rest =>
    .inl ((kids cur).foldl lower { s with stack := rest, visited := s.visited + 1 })

/-- The edge relation. -/
def Edge (kids : V → List V) (a b : V) : Prop := b ∈ kids a

/-- No node lies on a cycle. -/
def Acyclic (kids : V → List V) : Prop := ∀ a, ¬ Relation.TransGen (Edge kids) a a

/-! ## Topological lists -/

/-- The latest node comes first, and the predecessors of a node come after it. -/
inductive Topological (kids : V → List V) : List V → Prop where
  | nil : Topological kids []
  | cons {a : V} {l : List V} :
      (∀ b, Edge kids b a → b ∈ l) → Topological kids l → Topological kids (a :: l)

section Topological

variable {kids : V → List V} {l : List V}

omit [DecidableEq V] in
theorem Topological.mem_of_edge (h : Topological kids l) {a b : V} (ha : a ∈ l)
    (hb : Edge kids b a) : b ∈ l := by
  induction h with
  | nil => simp at ha
  | cons hpred _ ih =>
    rcases List.mem_cons.mp ha with rfl | ha
    · exact List.mem_cons_of_mem _ (hpred b hb)
    · exact List.mem_cons_of_mem _ (ih ha)

omit [DecidableEq V] in
theorem Topological.mem_of_transGen (h : Topological kids l) {a b : V} (ha : a ∈ l)
    (hb : Relation.TransGen (Edge kids) b a) : b ∈ l := by
  induction hb using Relation.TransGen.head_induction_on with
  | single hedge => exact h.mem_of_edge ha hedge
  | head hedge _ ih => exact h.mem_of_edge ih hedge

omit [DecidableEq V] in
/-- The nodes of a topological list lie on no cycle. -/
theorem Topological.not_cycle (h : Topological kids l) (hnd : l.Nodup) {a : V} (ha : a ∈ l) :
    ¬ Relation.TransGen (Edge kids) a a := by
  induction h with
  | nil => simp at ha
  | @cons c l hpred htail ih =>
    obtain ⟨hc, hnd⟩ := List.nodup_cons.mp hnd
    intro hcycle
    rcases List.mem_cons.mp ha with rfl | ha
    · -- the last edge of the cycle comes from a node of the tail, and so does the whole cycle
      obtain ⟨b, hab, hba⟩ := Relation.TransGen.tail'_iff.mp hcycle
      have hb : b ∈ l := hpred b hba
      rcases Relation.reflTransGen_iff_eq_or_transGen.mp hab with rfl | hab
      · exact hc hb
      · exact hc (htail.mem_of_transGen hb hab)
    · exact ih hnd ha hcycle

end Topological

omit [DecidableEq V] in
/-- In a finite acyclic graph a nonempty set of nodes has a member without predecessor in it. -/
theorem exists_source {kids : V → List V} {N : Finset V} (hac : Acyclic kids)
    {S : Finset V} (hS : S ⊆ N) (hne : S.Nonempty) :
    ∃ a ∈ S, ∀ b ∈ S, ¬ Edge kids b a := by
  let R : N → N → Prop := fun a b => Relation.TransGen (Edge kids) a.1 b.1
  have hirrefl : Std.Irrefl R := ⟨fun a => hac a.1⟩
  have htrans : IsTrans N R := ⟨fun _ _ _ hab hbc => hab.trans hbc⟩
  have hwf : WellFounded R := Finite.wellFounded_of_trans_of_irrefl R
  obtain ⟨a, haS⟩ := hne
  obtain ⟨m, hm, hmin⟩ := hwf.has_min {x : N | x.1 ∈ S} ⟨⟨a, hS haS⟩, haS⟩
  refine ⟨m.1, hm, fun b hb hedge => ?_⟩
  exact hmin ⟨b, hS hb⟩ hb (.single hedge)

/-! ## The counting invariant -/

/-- The edges into `a` out of the nodes of a set. -/
def indegFrom (kids : V → List V) (S : Finset V) (a : V) : ℤ :=
  ∑ b ∈ S, ((kids b).count a : ℤ)

theorem indegFrom_nonneg (kids : V → List V) (S : Finset V) (a : V) : 0 ≤ indegFrom kids S a :=
  Finset.sum_nonneg fun _ _ => Int.natCast_nonneg _

theorem indegFrom_eq_zero {kids : V → List V} {S : Finset V} {a : V} :
    indegFrom kids S a = 0 ↔ ∀ b ∈ S, ¬ Edge kids b a := by
  rw [indegFrom, Finset.sum_eq_zero_iff_of_nonneg fun _ _ => Int.natCast_nonneg _]
  simp [Edge, List.count_eq_zero]

/-- `done` are the popped nodes, latest first, and `todo` are the edges of the node popped last
that are still there. -/
structure Inv (kids : V → List V) (N : Finset V) (todo done : List V) (s : State V) : Prop where
  nodup : (done ++ s.stack).Nodup
  visited : s.visited = done.length
  topological : Topological kids done
  indeg : ∀ a, s.indeg a = indegFrom kids (N \ done.toFinset) a + todo.count a
  known : ∀ a, a ∈ done ++ s.stack ↔ a ∈ N ∧ s.indeg a = 0

section Invariant

variable {kids : V → List V} {N : Finset V} {todo done : List V} {s : State V}

theorem Inv.lower {kid : V} (I : Inv kids N (kid :: todo) done s) (hkid : kid ∈ N) :
    Inv kids N todo done (Kahn.lower s kid) := by
  have hdeg : s.indeg kid = indegFrom kids (N \ done.toFinset) kid + (todo.count kid + 1) := by
    rw [I.indeg, List.count_cons_self]
    push_cast
    ring
  have hnonneg := indegFrom_nonneg kids (N \ done.toFinset) kid
  -- an edge into `kid` is still to be counted, so its count is not zero
  have hnew : kid ∉ done ++ s.stack := by
    rw [I.known]
    rintro ⟨_, h⟩
    omega
  have hindeg : ∀ a, (Kahn.lower s kid).indeg a =
      indegFrom kids (N \ done.toFinset) a + todo.count a := by
    intro a
    by_cases ha : a = kid
    · subst ha
      show Function.update s.indeg a (s.indeg a - 1) a = _
      rw [Function.update_self, hdeg]
      ring
    · show Function.update s.indeg kid (s.indeg kid - 1) a = _
      rw [Function.update_of_ne ha, I.indeg, List.count_cons_of_ne (Ne.symm ha)]
  have hstack : (Kahn.lower s kid).stack =
      if s.indeg kid - 1 = 0 then kid :: s.stack else s.stack := rfl
  refine ⟨?_, I.visited, I.topological, hindeg, ?_⟩
  · rw [hstack]
    split_ifs with h0
    · rw [List.nodup_middle]
      exact List.nodup_cons.mpr ⟨hnew, I.nodup⟩
    · exact I.nodup
  · intro a
    have hupd : (Kahn.lower s kid).indeg a =
        Function.update s.indeg kid (s.indeg kid - 1) a := rfl
    rw [hstack, hupd]
    by_cases ha : a = kid
    · subst ha
      rw [Function.update_self]
      split_ifs with h0
      · simp [hkid, h0]
      · simp only [h0, and_false, iff_false]
        exact hnew
    · rw [Function.update_of_ne ha, ← I.known a]
      split_ifs with h0
      · simp [ha]
      · rfl

theorem Inv.scan (hN : ∀ a ∈ todo, a ∈ N) (I : Inv kids N todo done s) :
    Inv kids N [] done (todo.foldl Kahn.lower s) := by
  induction todo generalizing s with
  | nil => exact I
  | cons kid todo ih =>
    exact ih (fun a ha => hN a (List.mem_cons_of_mem _ ha))
      (I.lower (hN kid (List.mem_cons_self ..)))

theorem Inv.pop {cur : V} {rest : List V} (I : Inv kids N [] done s) (hq : s.stack = cur :: rest)
    (hN : ∀ a b, Edge kids a b → a ∈ N ∧ b ∈ N) :
    Inv kids N (kids cur) (cur :: done) { s with stack := rest, visited := s.visited + 1 } := by
  have hcur := (I.known cur).mp (by simp [hq])
  have hnd := I.nodup
  rw [hq, List.nodup_middle, List.nodup_cons] at hnd
  have hcurdone : cur ∉ done := fun h => hnd.1 (List.mem_append_left _ h)
  -- the node was on the stack because no edge into it was left
  have hzero : indegFrom kids (N \ done.toFinset) cur = 0 := by
    have := I.indeg cur
    rw [hcur.2] at this
    simpa using this.symm
  refine ⟨List.nodup_cons.mpr hnd, ?_, ?_, ?_, ?_⟩
  · rw [List.length_cons, ← I.visited]
  · -- all predecessors are done, so the order goes on with the node
    refine .cons (fun b hb => ?_) I.topological
    by_contra hbd
    exact indegFrom_eq_zero.mp hzero b (by simp [(hN b cur hb).1, hbd]) hb
  · intro a
    -- one node fewer from which edges count
    have hsplit : N \ done.toFinset = insert cur (N \ (cur :: done).toFinset) := by
      ext x
      simp only [List.toFinset_cons, Finset.mem_sdiff, Finset.mem_insert, List.mem_toFinset]
      by_cases hx : x = cur
      · simp [hx, hcur.1, hcurdone]
      · simp [hx]
    rw [show ({ s with stack := rest, visited := s.visited + 1 } : State V).indeg a = s.indeg a
      from rfl, I.indeg a, hsplit, indegFrom, Finset.sum_insert (by simp)]
    simp only [List.count_nil, Nat.cast_zero, add_zero, indegFrom]
    ring
  · intro a
    rw [← I.known a, hq]
    simp only [List.cons_append, List.mem_cons, List.mem_append]
    tauto

/-- At an empty stack every node has been popped iff the graph is acyclic. -/
theorem Inv.exit (I : Inv kids N [] done s) (hq : s.stack = [])
    (hN : ∀ a b, Edge kids a b → a ∈ N ∧ b ∈ N) : s.visited = N.card ↔ Acyclic kids := by
  have hknown : ∀ a, a ∈ done ↔ a ∈ N ∧ indegFrom kids (N \ done.toFinset) a = 0 := by
    intro a
    have h := I.known a
    rw [hq, List.append_nil, I.indeg a] at h
    simpa using h
  have hnd : done.Nodup := by simpa [hq] using I.nodup
  have hsub : done.toFinset ⊆ N := by
    intro a ha
    exact ((hknown a).mp (List.mem_toFinset.mp ha)).1
  have hcard : s.visited = N.card ↔ done.toFinset = N := by
    rw [I.visited, ← List.toFinset_card_of_nodup hnd]
    exact ⟨fun h => Finset.eq_of_subset_of_card_le hsub h.ge, fun h => by rw [h]⟩
  rw [hcard]
  constructor
  · intro hall a hcycle
    obtain ⟨b, _, hba⟩ := Relation.TransGen.tail'_iff.mp hcycle
    have ha : a ∈ done := by
      rw [← List.mem_toFinset, hall]
      exact (hN b a hba).2
    exact I.topological.not_cycle hnd ha hcycle
  · intro hac
    refine Finset.Subset.antisymm hsub (Finset.sdiff_eq_empty_iff_subset.mp ?_)
    by_contra hne
    -- what is left has a source, and a source would have been popped
    obtain ⟨a, ha, hsource⟩ :=
      exists_source hac Finset.sdiff_subset (Finset.nonempty_iff_ne_empty.mpr hne)
    have hin := (hknown a).mpr ⟨(Finset.mem_sdiff.mp ha).1, indegFrom_eq_zero.mpr hsource⟩
    exact (Finset.mem_sdiff.mp ha).2 (List.mem_toFinset.mpr hin)

end Invariant

/-- **Kahn's algorithm is correct**: started with the right counts and a stack of the nodes
without predecessors, it finishes within as many rounds as there are nodes, and the number of
popped nodes is the number of all nodes iff the graph is acyclic. -/
theorem kahn_correct {ε : Type w} {kids : V → List V} {N : Finset V}
    (hN : ∀ a b, Edge kids a b → a ∈ N ∧ b ∈ N) {s : State V} (hvisited : s.visited = 0)
    (hindeg : ∀ a, s.indeg a = indegFrom kids N a) (hnd : s.stack.Nodup)
    (hstack : ∀ a, a ∈ s.stack ↔ a ∈ N ∧ s.indeg a = 0) :
    ∃ k, (k = N.card ↔ Acyclic kids) ∧
      loop (fun s => (.ok (step kids s) : Outcome ε _)) (N.card + 1) s = .ok k := by
  -- the variant: the nodes that are not done
  refine loop_bounded (fun n s => ∃ done, Inv kids N [] done s ∧ (N \ done.toFinset).card = n)
    ?_ _ s ⟨[], ⟨by simpa using hnd, by simpa using hvisited, .nil, by simpa using hindeg,
      by simpa using hstack⟩, by simp⟩
  rintro n s ⟨done, I, rfl⟩
  cases hq : s.stack with
  | nil => exact Or.inr ⟨s.visited, by simp [step, hq], I.exit hq hN⟩
  | cons cur rest =>
    have I' := (I.pop hq hN).scan fun a ha => (hN cur a ha).2
    refine Or.inl ⟨_, _, by simp only [step, hq], ⟨cur :: done, I', rfl⟩, ?_⟩
    have hcur := (I.known cur).mp (by simp [hq])
    have hnd := I.nodup
    rw [hq, List.nodup_middle, List.nodup_cons] at hnd
    exact card_unmarked_lt hcur.1 fun h => hnd.1 (List.mem_append_left _ h)

end TopologyFabric.Library.Kahn

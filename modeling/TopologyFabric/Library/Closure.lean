import TopologyFabric.Library.Outcome
import Mathlib.Data.Finset.Card
import Mathlib.Logic.Relation

/-!
# Collecting a Transitive Closure

A queue of nodes whose successors are still to be looked at; a successor that is met for the first
time is put out and queued. The start counts as met only when it is met as a successor.

## Main results

- `closure_correct`: the run finishes, and it has put out exactly the nodes that successors lead to
- `leads_swap`: leading along steps and back along them
-/

namespace TopologyFabric.Library.Closure

universe u w

variable {V : Type u} [DecidableEq V]

/-- The state of the run. -/
structure State (V : Type u) where
  queue : List V
  visited : Finset V
  out : List V

/-- Look at one successor. -/
def meet (s : State V) (v : V) : State V :=
  if v ∈ s.visited then s
  else { queue := s.queue ++ [v], visited := insert v s.visited, out := s.out ++ [v] }

/-- One round: take a node from the queue and look at its successors. -/
def step (next : V → List V) (s : State V) : State V ⊕ List V :=
  match s.queue with
  | [] => .inr s.out
  | cur :: rest => .inl ((next cur).foldl meet { s with queue := rest })

/-- The state before the first round. -/
def init (root : V) : State V where
  queue := [root]
  visited := ∅
  out := []

/-- Some successors lead from one node to the other. -/
def Leads (next : V → List V) (a b : V) : Prop := Relation.TransGen (fun x y => y ∈ next x) a b

omit [DecidableEq V] in
/-- Where `next` and `prev` list the same steps from both ends, what successors lead to is what
predecessors lead back from. -/
theorem leads_swap {next prev : V → List V} (h : ∀ a b, b ∈ next a ↔ a ∈ prev b) {a b : V} :
    Leads next a b ↔ Leads prev b a := by
  have hstep : Function.swap (fun x y => y ∈ prev x) = fun x y => y ∈ next x := by
    funext x y
    exact propext (h x y).symm
  rw [Leads, Leads, ← hstep]
  exact Relation.transGen_swap

/-! ## The invariant -/

/-- What holds while the nodes of `todo` are still to be met as successors of `cur`. -/
structure Inv (next : V → List V) (root cur : V) (todo : List V) (s : State V) : Prop where
  nodup : s.out.Nodup
  out : ∀ v, v ∈ s.out ↔ v ∈ s.visited
  queued : ∀ v ∈ s.queue, v = root ∨ v ∈ s.visited
  sound : ∀ v ∈ s.visited, Leads next root v
  closed : ∀ v, v = root ∨ v ∈ s.visited → v ∈ s.queue ∨
    ∀ x ∈ next v, x ∈ s.visited ∨ (v = cur ∧ x ∈ todo)

section Invariant

variable {next : V → List V} {root cur v : V} {todo : List V} {s : State V}

/-- Meeting a successor of a node that is known keeps the invariant. -/
theorem Inv.meet (hcur : cur = root ∨ Leads next root cur) (hv : v ∈ next cur)
    (I : Inv next root cur (v :: todo) s) : Inv next root cur todo (meet s v) := by
  unfold Closure.meet
  split_ifs with hknown
  · refine { I with closed := fun x hx => (I.closed x hx).imp id fun h y hy => ?_ }
    rcases h y hy with hvisited | ⟨hxcur, hmem⟩
    · exact Or.inl hvisited
    · rcases List.mem_cons.mp hmem with rfl | hmem
      · exact Or.inl hknown
      · exact Or.inr ⟨hxcur, hmem⟩
  · have hleads : Leads next root v := by
      rcases hcur with rfl | hcur
      · exact .single hv
      · exact hcur.tail hv
    refine ⟨?_, fun x => ?_, fun x hx => ?_, fun x hx => ?_, fun x hx => ?_⟩
    · rw [List.nodup_append]
      refine ⟨I.nodup, List.nodup_singleton v, fun a ha b hb hab => hknown ?_⟩
      rw [← List.mem_singleton.mp hb, ← hab]
      exact (I.out a).mp ha
    · rw [List.mem_append, List.mem_singleton, Finset.mem_insert, I.out x]
      tauto
    · rcases List.mem_append.mp hx with hx | hx
      · exact (I.queued x hx).imp id (Finset.mem_insert_of_mem ·)
      · obtain rfl := List.mem_singleton.mp hx
        exact Or.inr (Finset.mem_insert_self ..)
    · rcases Finset.mem_insert.mp hx with rfl | hx
      · exact hleads
      · exact I.sound x hx
    · -- the new node waits in the queue, and it is one of the successors to be met
      by_cases hsame : x = v
      · subst hsame
        exact Or.inl (List.mem_append_right _ (List.mem_singleton_self x))
      · have hold : x = root ∨ x ∈ s.visited := hx.imp id fun h =>
          (Finset.mem_insert.mp h).resolve_left hsame
        refine (I.closed x hold).imp (List.mem_append_left _ ·) fun h y hy => ?_
        rcases h y hy with hvisited | ⟨hxcur, hmem⟩
        · exact Or.inl (Finset.mem_insert_of_mem hvisited)
        · rcases List.mem_cons.mp hmem with rfl | hmem
          · exact Or.inl (Finset.mem_insert_self ..)
          · exact Or.inr ⟨hxcur, hmem⟩

theorem Inv.scan (hcur : cur = root ∨ Leads next root cur) (hsub : ∀ x ∈ todo, x ∈ next cur)
    (I : Inv next root cur todo s) : Inv next root cur [] (todo.foldl Closure.meet s) := by
  induction todo generalizing s with
  | nil => exact I
  | cons v todo ih =>
    exact ih (fun x hx => hsub x (List.mem_cons_of_mem _ hx))
      (I.meet hcur (hsub v (List.mem_cons_self ..)))

omit [DecidableEq V] in
/-- Taking a node from the queue leaves all its successors to be met. -/
theorem Inv.pop {old : V} {rest : List V} (I : Inv next root old [] s)
    (hq : s.queue = cur :: rest) :
    Inv next root cur (next cur) { s with queue := rest } := by
  refine ⟨I.nodup, I.out, fun v hv => I.queued v (hq ▸ List.mem_cons_of_mem _ hv), I.sound,
    fun v hv => ?_⟩
  rcases I.closed v hv with hqueue | hdone
  · rcases List.mem_cons.mp (hq ▸ hqueue) with rfl | hrest
    · exact Or.inr fun x hx => Or.inr ⟨rfl, hx⟩
    · exact Or.inl hrest
  · exact Or.inr fun x hx => (hdone x hx).imp id fun h => absurd h.2 List.not_mem_nil

omit [DecidableEq V] in
/-- With an empty queue everything that successors lead to has been met. -/
theorem Inv.exit (I : Inv next root cur [] s) (hq : s.queue = []) (v : V) :
    v ∈ s.out ↔ Leads next root v := by
  rw [I.out v]
  refine ⟨I.sound v, fun h => ?_⟩
  have hdone : ∀ x, x = root ∨ x ∈ s.visited → ∀ y ∈ next x, y ∈ s.visited := by
    intro x hx y hy
    rcases I.closed x hx with hqueue | hdone
    · rw [hq] at hqueue
      exact absurd hqueue List.not_mem_nil
    · exact (hdone y hy).resolve_right fun h => absurd h.2 List.not_mem_nil
  induction h with
  | single h => exact hdone root (Or.inl rfl) _ h
  | tail _ h ih => exact hdone _ (Or.inr ih) _ h

/-- Every node that is met leaves the nodes to come and enters the queue. -/
theorem meet_measure {U : Finset V} (hv : v ∈ U) :
    (U \ (meet s v).visited).card + (meet s v).queue.length =
      (U \ s.visited).card + s.queue.length := by
  unfold Closure.meet
  split_ifs with hknown
  · rfl
  · have hmem : v ∈ U \ s.visited := Finset.mem_sdiff.mpr ⟨hv, hknown⟩
    have hcard := Finset.card_erase_add_one hmem
    rw [Finset.sdiff_insert, List.length_append, List.length_singleton]
    omega

theorem scan_measure {U : Finset V} (hU : ∀ x ∈ todo, x ∈ U) :
    (U \ (todo.foldl Closure.meet s).visited).card + (todo.foldl Closure.meet s).queue.length =
      (U \ s.visited).card + s.queue.length := by
  induction todo generalizing s with
  | nil => rfl
  | cons v todo ih =>
    rw [List.foldl_cons, ih fun x hx => hU x (List.mem_cons_of_mem _ hx)]
    exact meet_measure (hU v (List.mem_cons_self ..))

end Invariant

/-- **The closure is collected.** Where the successors lie in a finite set, a run whose rounds are
those of `step` finishes, and it has put out every node that successors lead to, each once. -/
theorem closure_correct {ε : Type w} {next : V → List V} {U : Finset V}
    {round : State V → Outcome ε (State V ⊕ List V)} (hround : ∀ s, round s = .ok (step next s))
    (hU : ∀ v, ∀ x ∈ next v, x ∈ U) (root : V) :
    ∃ out, (out.Nodup ∧ ∀ v, v ∈ out ↔ Leads next root v) ∧
      Returns (loop round · (init root)) out := by
  -- the variant: nodes that are not visited, and the length of the queue
  refine loop_total Nat.lt_wfRel.wf (fun n s =>
    (∃ cur, Inv next root cur [] s) ∧ (U \ s.visited).card + s.queue.length = n) ?_ _ (init root)
    ⟨⟨root, List.nodup_nil, by simp [init], by simp [init], by simp [init], by simp [init]⟩, rfl⟩
  rintro n s ⟨⟨old, I⟩, rfl⟩
  cases hq : s.queue with
  | nil => exact Or.inr ⟨s.out, by rw [hround, step, hq], I.nodup, I.exit hq⟩
  | cons cur rest =>
    have hcur : cur = root ∨ Leads next root cur :=
      (I.queued cur (hq ▸ List.mem_cons_self ..)).imp id (I.sound cur)
    refine Or.inl ⟨_, _, by rw [hround, step, hq],
      ⟨⟨cur, (I.pop hq).scan hcur fun x hx => hx⟩, rfl⟩, ?_⟩
    show _ < _
    rw [scan_measure (hU cur)]
    simp

end TopologyFabric.Library.Closure

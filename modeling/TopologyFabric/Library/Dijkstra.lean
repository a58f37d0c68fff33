import TopologyFabric.Library.BestFirst

/-!
# Dijkstra's Algorithm

Least-cost search of a labelled multigraph: the best-first search whose values are sums of costs.

## Main results

- `dijkstra_correct`: with nonnegative costs the search finishes, it finds the target iff the
  target is reachable, and then the parent maps spell out a walk of least cost
-/

namespace TopologyFabric.Library.Dijkstra

universe u v w

variable {V : Type u} {E : Type v}

/-- The value that a hop leads to: the distance so far and the cost of the hop. -/
def addCost (cost : V → V → E → ℚ) (d : ℚ) (u v : V) (e : E) : ℚ := d + cost u v e

theorem walkValue_addCost (cost : V → V → E → ℚ) (start : ℚ) (hops : List (Hop V E)) :
    BestFirst.walkValue (addCost cost) start hops = start + walkCost cost hops := by
  induction hops using List.reverseRecOn with
  | nil => simp
  | append_singleton hops hop ih =>
    rw [BestFirst.walkValue_snoc, ih, addCost, walkCost_append, walkCost_cons, walkCost_nil,
      add_zero, add_assoc]

theorem walkValue_zero (cost : V → V → E → ℚ) (hops : List (Hop V E)) :
    BestFirst.walkValue (addCost cost) 0 hops = walkCost cost hops := by
  rw [walkValue_addCost, zero_add]

theorem strictMono_addCost (cost : V → V → E → ℚ) (u v : V) (e : E) :
    StrictMono fun d => addCost cost d u v e :=
  fun _ _ h => add_lt_add_left h _

theorem monotone_addCost (cost : V → V → E → ℚ) (u v : V) (e : E) :
    Monotone fun d => addCost cost d u v e :=
  (strictMono_addCost cost u v e).monotone

/-- Hops out of every node that some walk from `a` reaches have a nonnegative cost. -/
def NonnegFrom (adj : V → List (V × E)) (cost : V → V → E → ℚ) (a : V) : Prop :=
  ∀ hops u, IsWalk adj a hops u → ∀ p ∈ adj u, 0 ≤ cost u p.1 p.2

variable [LinearOrder V]

/-- What the search answers about the target. -/
def Answer (adj : V → List (V × E)) (cost : V → V → E → ℚ) (root target : V) :
    Bool × BestFirst.State V E ℚ → Prop
  | (true, s) => ∃ hops, ParentChain s.parent s.via root hops target ∧
      IsWalk adj root hops target ∧
      ∀ hops', IsWalk adj root hops' target → walkCost cost hops ≤ walkCost cost hops'
  | (false, _) => ∀ hops, ¬ IsWalk adj root hops target

/-- **Dijkstra's algorithm is correct**: over a graph that stays in a finite set and whose
reachable hops have nonnegative costs it finishes, it finds the target exactly when there is a
walk to it, and the walk it leaves in the parent maps has least cost. -/
theorem dijkstra_correct {ε : Type w} (adj : V → List (V × E)) (cost : V → V → E → ℚ)
    (U : Finset V) (hU : ∀ u, ∀ p ∈ adj u, p.1 ∈ U) (root target : V) (hroot : root ∈ U)
    (hcost : NonnegFrom adj cost root) :
    ∃ r, Answer adj cost root target r ∧
      Returns (loop (fun s => (.ok (BestFirst.step adj (addCost cost) target s) : Outcome ε _)) ·
        (BestFirst.init 0 root)) r := by
  -- no hop makes a cost smaller
  have hext : BestFirst.Inflates adj (addCost cost) root := by
    intro hops u hwalk p hp d
    exact le_add_of_nonneg_right (hcost hops u hwalk p hp)
  obtain ⟨⟨found, s⟩, hanswer, hret⟩ := BestFirst.bestFirst_correct adj (addCost cost) 0 U hU root
    target hroot hext
  refine ⟨(found, s), ?_, hret⟩
  cases found with
  | false => exact hanswer
  | true =>
    obtain ⟨hops, hchain, hwalk, hleast⟩ := hanswer
    refine ⟨hops, hchain, hwalk, fun hops' hwalk' => ?_⟩
    have hle := hleast (monotone_addCost cost) hops' hwalk'
    rwa [walkValue_zero, walkValue_zero] at hle

end TopologyFabric.Library.Dijkstra

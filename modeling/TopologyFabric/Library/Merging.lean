import TopologyFabric.Library.Sorting

/-!
# Merging Sorted Parts

A list that is sorted in parts is merged into the sorted whole, and the first elements of the whole
are found among the first ones of the parts.

## Main results

- `SortedBy.merge`: merged parts are the sorted whole
- `take_merge`: the front of a merge comes from the fronts of the parts
-/

namespace TopologyFabric.Library

variable {α κ : Type*} {r : α → α → Bool} {k : ℕ}

/-- Cutting the parts no shorter than the merge does not change its front. -/
theorem take_merge_take {xs ys : List α} {m n : ℕ} (hm : k ≤ m) (hn : k ≤ n) :
    ((xs.take m).merge (ys.take n) r).take k = (xs.merge ys r).take k := by
  induction xs generalizing ys k m n with
  | nil => simp [List.take_take, min_eq_left hn]
  | cons x xs ihx =>
    induction ys generalizing k m n with
    | nil => simp [List.take_take, min_eq_left hm]
    | cons y ys ihy =>
      cases k with
      | zero => simp
      | succ k =>
        obtain ⟨m, rfl⟩ := Nat.exists_eq_add_of_le' hm
        obtain ⟨n, rfl⟩ := Nat.exists_eq_add_of_le' hn
        -- the first element is that of one part, and the other part stays as it is
        cases hxy : r x y with
        | true =>
          have hrest : ((xs.take (m + k)).merge ((y :: ys).take (n + (k + 1))) r).take k =
              (xs.merge (y :: ys) r).take k :=
            ihx (by omega) (by omega)
          simpa [List.cons_merge_cons, hxy, ← Nat.add_assoc] using hrest
        | false =>
          have hrest := ihy (k := k) (m := m + (k + 1)) (n := n + k) (by omega) (by omega)
          simpa [List.cons_merge_cons, hxy, ← Nat.add_assoc] using hrest

/-- **Fronts of a merge.** The front of a merge is that of the merged fronts. -/
theorem take_merge (k : ℕ) (xs ys : List α) :
    (xs.merge ys r).take k = ((xs.take k).merge (ys.take k) r).take k :=
  (take_merge_take le_rfl le_rfl).symm

namespace SortedBy

variable [LinearOrder κ] {key : α → κ} {xs ys l l' : List α}

/-- **Merging.** Two sorted parts are merged into the sorted whole. -/
theorem merge (hl : SortedBy key xs l) (hl' : SortedBy key ys l')
    (h : ∀ x ∈ l, ∀ y ∈ l', r x y = decide (key x ≤ key y)) :
    SortedBy key (xs ++ ys) (l.merge l' r) := by
  -- on the elements the comparison is the one of the keys
  have hmerge : l.merge l' r = l.merge l' fun x y => decide (key x ≤ key y) := by
    have hmap := List.map_merge (f := fun a => a) (s := fun x y => decide (key x ≤ key y)) h
    simpa using hmap
  have hperm : (l.merge l' r).Perm (l ++ l') := List.merge_perm_append ..
  refine ⟨hperm.trans (hl.perm.append hl'.perm), ?_⟩
  rw [hmerge]
  have hsorted : (l.merge l' fun x y => decide (key x ≤ key y)).Pairwise fun x y =>
      decide (key x ≤ key y) = true := List.pairwise_merge
    (fun a b c hab hbc => by simpa using le_trans (of_decide_eq_true hab) (of_decide_eq_true hbc))
    (fun a b => by simpa using le_total (key a) (key b)) l l'
    (hl.sorted.imp fun hab => by simpa using hab) (hl'.sorted.imp fun hab => by simpa using hab)
  exact hsorted.imp fun hab => by simpa using hab

/-- A part of a sorted list is sorted. -/
theorem filter (hl : SortedBy key xs l) (p : α → Bool) : SortedBy key (xs.filter p) (l.filter p) :=
  ⟨hl.perm.filter p, hl.sorted.filter p⟩

end SortedBy

end TopologyFabric.Library

import Mathlib.Tactic

/-!
# Sorting by a Key

A sort is a function that is free in how it arranges elements with equal keys. The results for one
list are the same for all sorts exactly when elements with equal keys are equal. A sort can treat two
orders of one list differently, unless it is stable and both have the elements of each key in one
order.

## Main results

- `SortedBy.unique_iff`: when all sorts of a list are the same
- `IsSort.exists_ne`: a sort that tells two orders of a list apart
-/

namespace TopologyFabric.Library

variable {α κ : Type*} [LinearOrder κ] {key : α → κ} {xs ys l l' : List α}

/-- The second list is the first one sorted by the key. -/
structure SortedBy (key : α → κ) (xs l : List α) : Prop where
  perm : l.Perm xs
  sorted : l.Pairwise fun x y => key x ≤ key y

/-- Elements with equal keys are equal. -/
def KeyInjOn (key : α → κ) (xs : List α) : Prop :=
  ∀ x ∈ xs, ∀ y ∈ xs, key x = key y → x = y

namespace SortedBy

/-- Sorting by a comparison of the keys. -/
theorem insertionSort {r : α → α → Prop} [DecidableRel r]
    (h : ∀ x ∈ xs, ∀ y ∈ xs, r x y ↔ key x ≤ key y) : SortedBy key xs (xs.insertionSort r) := by
  refine ⟨List.perm_insertionSort _ _, ?_⟩
  rw [← List.pairwise_map, List.map_insertionSort r (· ≤ ·) key xs h]
  exact List.pairwise_insertionSort _ _

/-- Sorts of the same elements are the same. -/
theorem unique (h : KeyInjOn key xs) (hperm : xs.Perm ys) (hl : SortedBy key xs l)
    (hl' : SortedBy key ys l') : l = l' := by
  have hperm' : l.Perm l' := (hl.perm.trans hperm).trans hl'.perm.symm
  apply hperm'.eq_of_pairwise _ hl.sorted hl'.sorted
  intro x y hx hy hxy hyx
  have hy' : y ∈ xs := hperm.mem_iff.mpr (hl'.perm.mem_iff.mp hy)
  exact h x (hl.perm.mem_iff.mp hx) y hy' (le_antisymm hxy hyx)

/-- A sort that breaks ties. -/
private theorem of_tiebreak (tiebreak : α → Bool)
    (h : SortedBy (fun a => toLex (key a, tiebreak a)) xs l) : SortedBy key xs l := by
  refine ⟨h.perm, h.sorted.imp fun {a b} hab => ?_⟩
  rcases Prod.Lex.toLex_le_toLex.mp hab with hlt | ⟨heq, -⟩
  · exact hlt.le
  · exact heq.le

/-- A list that is sorted with ties broken in both ways has one kind of element a key. -/
private theorem tiebreak_eq {tiebreak : α → Bool}
    (h : SortedBy (fun a => toLex (key a, tiebreak a)) xs l)
    (h' : SortedBy (fun a => toLex (key a, !tiebreak a)) xs l) {a b : α} (ha : a ∈ l) (hb : b ∈ l)
    (hkey : key a = key b) : tiebreak a = tiebreak b := by
  have hsymm : Std.Symm fun a b => key a = key b → tiebreak a = tiebreak b :=
    ⟨fun a b h hab => (h hab.symm).symm⟩
  have hpairwise : l.Pairwise fun a b => key a = key b → tiebreak a = tiebreak b := by
    apply (h.sorted.and h'.sorted).imp
    rintro a b ⟨hle, hle'⟩ hab
    simp only [Prod.Lex.toLex_le_toLex, hab, lt_irrefl, true_and, false_or] at hle hle'
    cases ha : tiebreak a <;> cases hb : tiebreak b <;> simp_all [Bool.le_iff_imp]
  exact hpairwise.forall_of_forall (fun _ _ _ => rfl) ha hb hkey

/-- Two elements with equal keys can stand in either order. -/
theorem exists_ne {x y : α} (hx : x ∈ xs) (hy : y ∈ xs) (hkey : key x = key y) (hne : x ≠ y) :
    ∃ l l', SortedBy key xs l ∧ SortedBy key xs l' ∧ l ≠ l' := by
  classical
  have hsort : ∀ tiebreak : α → Bool, SortedBy (fun a => toLex (key a, tiebreak a)) xs _ :=
    fun _ => insertionSort fun _ _ _ _ => Iff.rfl
  have hl := hsort fun a => decide (a = x)
  have hl' := hsort fun a => !decide (a = x)
  refine ⟨_, _, hl.of_tiebreak, hl'.of_tiebreak, fun heq => hne ?_⟩
  have htied := tiebreak_eq hl (heq ▸ hl') (hl.perm.mem_iff.mpr hx) (hl.perm.mem_iff.mpr hy) hkey
  rw [decide_eq_true rfl] at htied
  exact (of_decide_eq_true htied.symm).symm

/-- **When the result is determined.** -/
theorem unique_iff : (∀ l l', SortedBy key xs l → SortedBy key xs l' → l = l') ↔
    KeyInjOn key xs := by
  constructor
  · intro h x hx y hy hkey
    by_contra hne
    obtain ⟨l, l', hl, hl', hdiff⟩ := exists_ne hx hy hkey hne
    exact hdiff (h l l' hl hl')
  · intro h l l' hl hl'
    exact hl.unique h (.refl xs) hl'

/-- Elements of one key in one order leave one sorted list. -/
theorem eq_of_filter (hl : SortedBy key xs l) (hl' : SortedBy key ys l')
    (h : ∀ k, l.filter (fun a => key a = k) = l'.filter fun a => key a = k) : l = l' := by
  have hsorted := hl.sorted
  have hsorted' := hl'.sorted
  clear hl hl'
  induction l generalizing l' with
  | nil =>
    cases l' with
    | nil => rfl
    | cons b l' => simpa using h (key b)
  | cons a l ih =>
    obtain ⟨ha, hrest⟩ := List.pairwise_cons.mp hsorted
    cases l' with
    | nil => simpa using h (key a)
    | cons b l' =>
      obtain ⟨hb, hrest'⟩ := List.pairwise_cons.mp hsorted'
      have hmem : ∀ x, x ∈ a :: l ↔ x ∈ b :: l' := by
        intro x
        have hx := congrArg (x ∈ ·) (h (key x))
        simpa only [List.mem_filter, decide_true, and_true, eq_iff_iff] using hx
      -- the first keys are the least ones of the same elements
      have hle : key b ≤ key a := by
        rcases List.mem_cons.mp ((hmem a).mp (List.mem_cons_self ..)) with rfl | hmem'
        · exact le_rfl
        · exact hb a hmem'
      have hge : key a ≤ key b := by
        rcases List.mem_cons.mp ((hmem b).mpr (List.mem_cons_self ..)) with rfl | hmem'
        · exact le_rfl
        · exact ha b hmem'
      have hkey : key a = key b := le_antisymm hge hle
      have hfirst := h (key a)
      rw [List.filter_cons_of_pos (by simp), List.filter_cons_of_pos (by simp [hkey])] at hfirst
      obtain rfl := (List.cons.inj hfirst).1
      refine congrArg (a :: ·) (ih (fun k => ?_) hrest hrest')
      have hk := h k
      simp only [List.filter_cons] at hk
      split_ifs at hk
      · exact (List.cons.inj hk).2
      · exact hk

end SortedBy

/-! ## Sorts -/

/-- A sort by the key. Lists of at most `n` elements keep the order of elements with equal keys. -/
structure IsSort (key : α → κ) (n : ℕ) (sort : List α → List α) : Prop where
  sorts : ∀ xs, SortedBy key xs (sort xs)
  stable : ∀ xs, xs.length ≤ n → ∀ k,
    (sort xs).filter (fun a => key a = k) = xs.filter fun a => key a = k

namespace IsSort

variable {r : α → α → Prop} [DecidableRel r]

private theorem filter_orderedInsert (h : ∀ x y, r x y ↔ key x ≤ key y) (a : α) (k : κ) :
    ∀ l : List α, (l.orderedInsert r a).filter (fun x => key x = k) =
      (a :: l).filter fun x => key x = k := by
  intro l
  induction l with
  | nil => rfl
  | cons b l ih =>
    rw [List.orderedInsert_cons]
    by_cases hab : r a b
    · rw [if_pos hab]
    · rw [if_neg hab]
      -- what is passed over has a smaller key
      have hne : ¬ (key a = k ∧ key b = k) := by
        rintro ⟨rfl, hb⟩
        exact hab ((h a b).mpr hb.ge)
      simp only [List.filter_cons, ih]
      by_cases ha : key a = k <;> by_cases hb : key b = k
      · exact absurd ⟨ha, hb⟩ hne
      · simp [ha, hb]
      · simp [ha, hb]
      · simp [ha, hb]

/-- Sorting by insertion is stable on all lists. -/
theorem insertionSort (h : ∀ x y, r x y ↔ key x ≤ key y) (n : ℕ) :
    IsSort key n (List.insertionSort r) where
  sorts xs := SortedBy.insertionSort fun x _ y _ => h x y
  stable xs _ k := by
    induction xs with
    | nil => rfl
    | cons a xs ih =>
      rw [List.insertionSort_cons, filter_orderedInsert h]
      simp only [List.filter_cons, ih (by simp at *; omega)]

/-- On a longer list with a tie there is a sort that arranges another order of the list in another
way. -/
theorem exists_ne {n : ℕ} (hlen : n < xs.length) (hperm : ys.Perm xs) (hne : ys ≠ xs)
    (htie : ¬ KeyInjOn key xs) : ∃ sort, IsSort key n sort ∧ sort ys ≠ sort xs := by
  classical
  obtain ⟨x, hx, y, hy, hkey, hxy⟩ : ∃ x ∈ xs, ∃ y ∈ xs, key x = key y ∧ x ≠ y := by
    simpa [KeyInjOn] using htie
  obtain ⟨l, l', hl, hl', hdiff⟩ := SortedBy.exists_ne hx hy hkey hxy
  have hstable : IsSort key n (List.insertionSort fun a b => key a ≤ key b) :=
    insertionSort (fun _ _ => Iff.rfl) n
  let sort (zs : List α) : List α :=
    if zs = xs then l else if zs = ys then l' else zs.insertionSort fun a b => key a ≤ key b
  have hxs : sort xs = l := if_pos rfl
  have hys : sort ys = l' := by rw [show sort ys = _ from if_neg hne, if_pos rfl]
  refine ⟨sort, ⟨fun zs => ?_, fun zs hzs => ?_⟩, by rw [hxs, hys]; exact hdiff.symm⟩
  · by_cases hzx : zs = xs
    · rw [hzx, hxs]
      exact hl
    · by_cases hzy : zs = ys
      · rw [hzy, hys]
        exact ⟨hl'.perm.trans hperm.symm, hl'.sorted⟩
      · rw [show sort zs = _ from (if_neg hzx).trans (if_neg hzy)]
        exact hstable.sorts zs
  · -- short lists are sorted by insertion
    have hzx : zs ≠ xs := by
      rintro rfl
      omega
    have hzy : zs ≠ ys := by
      rintro rfl
      have := hperm.length_eq
      omega
    rw [show sort zs = _ from (if_neg hzx).trans (if_neg hzy)]
    exact hstable.stable zs hzs

end IsSort

end TopologyFabric.Library

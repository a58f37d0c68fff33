import TopologyFabric.Library.HashMap

/-!
# Grouping

Grouping the elements of a list by a key in a hash map, the elements of a group in list order. The
first part is about what a group contains, the second about the element of a list that comes first
in a strict order among those with a property.

## Main results

- `find?_groupBy`: the group of a key is the sublist with that key
- `isFirst_of_find?`, `isFirst_of_findSome?`: searching a sorted list finds the first element
- `foldl_argmax`: a fold that keeps strict improvements finds the first maximum
-/

namespace TopologyFabric.Library

universe u v w

/-! ## Groups -/

section GroupBy

variable {α : Type u} {β : Type w} {K : Type v} [DecidableEq K] (key : α → K)

/-- The elements of the list by their key. -/
def groupBy (l : List α) : HashMap K (List α) :=
  l.foldl (fun m a => m.upsert (key a) [] (· ++ [a])) HashMap.empty

theorem groupBy_concat (l : List α) (a : α) :
    groupBy key (l ++ [a]) = (groupBy key l).upsert (key a) [] (· ++ [a]) := by
  rw [groupBy, List.foldl_append]
  rfl

theorem find?_groupBy (l : List α) (k : K) : (groupBy key l).find? k =
    if k ∈ l.map key then some (l.filter fun a => decide (key a = k)) else none := by
  -- the loop appends each element to its group, so the last element is read last
  induction l using List.reverseRecOn with
  | nil => rfl
  | append_singleton l a ih =>
    rw [groupBy_concat, HashMap.find?_upsert]
    by_cases hk : k = key a
    · subst hk
      have hfind : ((groupBy key l).find? (key a)).getD [] =
          l.filter fun b => decide (key b = key a) := by
        rw [ih]
        split_ifs with h
        · rfl
        · symm
          rw [Option.getD_none, List.filter_eq_nil_iff]
          exact fun b hb hkey => h (List.mem_map.mpr ⟨b, hb, of_decide_eq_true hkey⟩)
      rw [if_pos rfl, if_pos (by simp), hfind, List.filter_append]
      simp
    · have hne : ¬ key a = k := fun h => hk h.symm
      rw [if_neg hk, ih, List.filter_append]
      simp [hk, hne]

theorem mem_keys_groupBy {l : List α} {k : K} : k ∈ (groupBy key l).keys ↔ k ∈ l.map key := by
  rw [← not_iff_not, ← HashMap.find?_eq_none, find?_groupBy]
  simp

/-- An entry of the map is a group of the list. -/
theorem mem_groupBy {l : List α} {k : K} {as : List α} : (k, as) ∈ (groupBy key l).entries ↔
    k ∈ l.map key ∧ as = l.filter fun a => decide (key a = k) := by
  rw [← HashMap.find?_eq_some, find?_groupBy]
  split_ifs with h
  · simp [h, eq_comm]
  · simp [h]

end GroupBy

/-! ## The first element with a property -/

theorem findSome?_cons_or {α β : Type*} (f : α → Option β) (a : α) (l : List α) :
    (a :: l).findSome? f = (f a).or (l.findSome? f) := by
  rw [List.findSome?_cons]
  cases f a <;> rfl

section First

variable {α : Type u} {β : Type w} (before : α → α → Prop)

/-- `a` has the property and comes before all others in the list that have it. -/
structure IsFirst (l : List α) (p : α → Prop) (a : α) : Prop where
  mem : a ∈ l
  holds : p a
  first : ∀ b ∈ l, p b → b = a ∨ before a b

variable {before} {l l' : List α} {p : α → Prop} {a : α}

theorem IsFirst.of_perm (h : IsFirst before l p a) (hperm : l.Perm l') : IsFirst before l' p a :=
  ⟨hperm.mem_iff.mp h.mem, h.holds, fun b hb => h.first b (hperm.mem_iff.mpr hb)⟩

theorem IsFirst.congr {q : α → Prop} (h : IsFirst before l p a) (hpq : ∀ b ∈ l, p b ↔ q b) :
    IsFirst before l q a :=
  ⟨h.mem, (hpq a h.mem).mp h.holds, fun b hb hq => h.first b hb ((hpq b hb).mpr hq)⟩

/-- Only one element comes first. -/
theorem IsFirst.unique {b : α} (hasymm : ∀ a b, before a b → ¬ before b a)
    (ha : IsFirst before l p a) (hb : IsFirst before l p b) : a = b := by
  rcases ha.first b hb.mem hb.holds with h | h
  · exact h.symm
  · exact (hb.first a ha.mem ha.holds).resolve_right (hasymm a b h)

/-- The head of a sorted list comes first. -/
theorem isFirst_cons (hsorted : (a :: l).Pairwise before) (ha : p a) :
    IsFirst before (a :: l) p a := by
  refine ⟨List.mem_cons_self .., ha, fun b hb _ => ?_⟩
  exact (List.mem_cons.mp hb).imp_right (List.rel_of_pairwise_cons hsorted)

/-- What precedes the others in a sorted list comes first. -/
theorem isFirst_of_append {pre post : List α} (hsorted : (pre ++ a :: post).Pairwise before)
    (ha : p a) (hpre : ∀ b ∈ pre, ¬ p b) : IsFirst before (pre ++ a :: post) p a := by
  refine ⟨by simp, ha, fun b hb hpb => ?_⟩
  rcases List.mem_append.mp hb with hb | hb
  · exact absurd hpb (hpre b hb)
  · rcases List.mem_cons.mp hb with rfl | hb
    · exact Or.inl rfl
    · exact Or.inr ((List.pairwise_cons.mp (List.pairwise_append.mp hsorted).2.1).1 b hb)

/-- Searching a sorted list finds the first element. -/
theorem isFirst_of_find? {q : α → Bool} (hsorted : l.Pairwise before) (h : l.find? q = some a) :
    IsFirst before l (fun b => q b = true) a := by
  obtain ⟨ha, pre, post, rfl, hpre⟩ := List.find?_eq_some_iff_append.mp h
  exact isFirst_of_append hsorted ha fun b hb => by simpa using hpre b hb

theorem isFirst_of_findSome? {f : α → Option β} {v : β} (hsorted : l.Pairwise before)
    (h : l.findSome? f = some v) :
    ∃ a, IsFirst before l (fun b => (f b).isSome = true) a ∧ f a = some v := by
  obtain ⟨pre, a, post, rfl, ha, hpre⟩ := List.findSome?_eq_some_iff.mp h
  exact ⟨a, isFirst_of_append hsorted (by simp [ha]) fun b hb => by simp [hpre b hb], ha⟩

/-- A fold that keeps strict improvements: the start, or the first maximum. -/
private theorem foldl_argmax_aux (r : β → ℕ) (f : α → β) (l : List α) (b : β) :
    let res := l.foldl (fun best a => if r best < r (f a) then f a else best) b
    (res = b ∧ ∀ a ∈ l, r (f a) ≤ r b) ∨
      ∃ pre a post, l = pre ++ a :: post ∧ res = f a ∧ r b < r (f a) ∧
        (∀ x ∈ pre, r (f x) < r (f a)) ∧ ∀ x ∈ post, r (f x) ≤ r (f a) := by
  induction l generalizing b with
  | nil => exact Or.inl ⟨rfl, by simp⟩
  | cons c l ih =>
    simp only [List.foldl_cons]
    -- the first of the greatest wins, because only a greater one replaces it
    by_cases hc : r b < r (f c)
    · rw [if_pos hc]
      rcases ih (f c) with ⟨hres, hall⟩ | ⟨pre, a, post, rfl, hres, hlt, hpre, hpost⟩
      · exact Or.inr ⟨[], c, l, rfl, hres, hc, by simp, hall⟩
      · refine Or.inr ⟨c :: pre, a, post, rfl, hres, hc.trans hlt, ?_, hpost⟩
        exact List.forall_mem_cons.mpr ⟨hlt, hpre⟩
    · rw [if_neg hc]
      have hle : r (f c) ≤ r b := not_lt.mp hc
      rcases ih b with ⟨hres, hall⟩ | ⟨pre, a, post, rfl, hres, hlt, hpre, hpost⟩
      · exact Or.inl ⟨hres, List.forall_mem_cons.mpr ⟨hle, hall⟩⟩
      · refine Or.inr ⟨c :: pre, a, post, rfl, hres, hlt, ?_, hpost⟩
        exact List.forall_mem_cons.mpr ⟨hle.trans_lt hlt, hpre⟩

/-- A fold over a nonempty sorted list that starts at its head and keeps strict improvements ends
at the first maximum. -/
theorem foldl_argmax (r : β → ℕ) (f : α → β) {c : α} (hsorted : (c :: l).Pairwise before) :
    ∃ a, IsFirst before (c :: l) (fun b => ∀ x ∈ c :: l, r (f x) ≤ r (f b)) a ∧
      (c :: l).foldl (fun best a => if r best < r (f a) then f a else best) (f c) = f a := by
  rcases foldl_argmax_aux r f (c :: l) (f c) with
    ⟨hres, hall⟩ | ⟨pre, a, post, hsplit, hres, -, hpre, hpost⟩
  · exact ⟨c, isFirst_cons hsorted hall, hres⟩
  · have hmax : ∀ x ∈ c :: l, r (f x) ≤ r (f a) := by
      intro x hx
      rw [hsplit] at hx
      rcases List.mem_append.mp hx with hx | hx
      · exact (hpre x hx).le
      · rcases List.mem_cons.mp hx with rfl | hx
        · exact le_rfl
        · exact hpost x hx
    refine ⟨a, ?_, hres⟩
    rw [hsplit] at hsorted hmax ⊢
    refine isFirst_of_append hsorted hmax fun b hb hmaxb => ?_
    exact absurd (hmaxb a (by simp)) (not_le.mpr (hpre b hb))

end First

end TopologyFabric.Library

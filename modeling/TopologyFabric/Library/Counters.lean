import TopologyFabric.Library.HashMap

/-!
# Counters

Hash maps of counters: adding one under a key, setting the value of a key, and counting the elements
of a list by a key.

## Main results

- `total_increment`: adding one under a key adds one to the sum of all counters
- `find?_tally`: what counting the elements of a list gives
- `total_eq_length`: counters that count a list add up to its length
-/

namespace TopologyFabric.Library.HashMap

variable {α K : Type*} [DecidableEq K]

/-- `++m[k]`. -/
def increment (m : HashMap K ℕ) (k : K) : HashMap K ℕ := m.upsert k 0 (· + 1)

/-- `m[k] = v`. -/
def assign {V : Type*} (m : HashMap K V) (k : K) (v : V) : HashMap K V := m.upsert k v fun _ => v

/-- The sum of the counters. -/
def total (m : HashMap K ℕ) : ℕ := (m.entries.map Prod.snd).sum

omit [DecidableEq K] in
@[simp] theorem total_empty : (empty : HashMap K ℕ).total = 0 := rfl

private theorem sum_bump (l : List (K × ℕ)) (k : K) :
    ((l.map fun e => if e.1 = k then (k, e.2 + 1) else e).map Prod.snd).sum =
      (l.map Prod.snd).sum + (l.map Prod.fst).count k := by
  induction l with
  | nil => rfl
  | cons e l ih =>
    simp only [List.map_cons, List.sum_cons, ih, List.count_cons, beq_iff_eq]
    split_ifs <;> omega

theorem total_increment (m : HashMap K ℕ) (k : K) : (m.increment k).total = m.total + 1 := by
  rw [total, increment, entries_upsert, total]
  split_ifs with h
  · rw [sum_bump, List.count_eq_one_of_mem m.nodup h]
  · simp

theorem find?_assign {V : Type*} (m : HashMap K V) (k k' : K) (v : V) :
    (m.assign k v).find? k' = if k' = k then some v else m.find? k' := find?_upsert ..

/-- Setting the values of several keys. -/
theorem find?_foldl_assign {V : Type*} {l : List (K × V)} (hnodup : (l.map Prod.fst).Nodup)
    (m : HashMap K V) (k : K) :
    (l.foldl (fun m e => m.assign e.1 e.2) m).find? k =
      ((l.find? fun e => decide (e.1 = k)).map Prod.snd).or (m.find? k) := by
  induction l generalizing m with
  | nil => rfl
  | cons e l ih =>
    obtain ⟨hnot, hnodup⟩ := List.nodup_cons.mp hnodup
    rw [List.foldl_cons, ih hnodup, find?_assign]
    by_cases h : e.1 = k
    · have hnone : (l.find? fun e => decide (e.1 = k)) = none := by
        rw [List.find?_eq_none]
        intro e' he' hkey
        exact hnot (h.trans (of_decide_eq_true hkey).symm ▸ List.mem_map_of_mem he')
      rw [hnone, List.find?_cons_of_pos (by simpa using h), if_pos h.symm]
      rfl
    · rw [List.find?_cons_of_neg (by simpa using h), if_neg (Ne.symm h)]

/-! ## Counting a list -/

/-- The number of elements of the list by their key. -/
def tally (key : α → K) (l : List α) : HashMap K ℕ :=
  l.foldl (fun m a => m.increment (key a)) empty

theorem find?_tally (key : α → K) (l : List α) (k : K) : (tally key l).find? k =
    if k ∈ l.map key then some (l.countP fun a => decide (key a = k)) else none := by
  induction l using List.reverseRecOn with
  | nil => rfl
  | append_singleton l a ih =>
    have hconcat : tally key (l ++ [a]) = (tally key l).increment (key a) := by
      rw [tally, List.foldl_append]
      rfl
    rw [hconcat, increment, find?_upsert, List.countP_append]
    by_cases hk : k = key a
    · -- the key that is counted once more, perhaps for the first time
      subst hk
      rw [ih]
      by_cases hmem : key a ∈ l.map key
      · simp [hmem]
      · have hzero : (l.countP fun b => decide (key b = key a)) = 0 := by
          rw [List.countP_eq_zero]
          exact fun b hb hkey => hmem (of_decide_eq_true hkey ▸ List.mem_map_of_mem hb)
        simp [hmem, hzero]
    · rw [if_neg hk, ih]
      simp [hk, Ne.symm hk]

private theorem sum_indicator (ks : List K) (k : K) :
    (ks.map fun k' => if decide (k = k') then 1 else 0).sum = ks.count k := by
  induction ks with
  | nil => rfl
  | cons k' ks ih =>
    rw [List.map_cons, List.sum_cons, ih, List.count_cons, Nat.add_comm]
    by_cases h : k = k'
    · simp [h]
    · simp [h, Ne.symm h]

private theorem sum_countP {key : α → K} {ks : List K} (hnodup : ks.Nodup) {l : List α}
    (h : ∀ a ∈ l, key a ∈ ks) :
    (ks.map fun k => l.countP fun a => decide (key a = k)).sum = l.length := by
  induction l with
  | nil => simp
  | cons a l ih =>
    have hone : (ks.map fun k => if decide (key a = k) then 1 else 0).sum = 1 := by
      rw [sum_indicator, List.count_eq_one_of_mem hnodup (h a (List.mem_cons_self ..))]
    simp only [List.countP_cons, List.sum_map_add, hone,
      ih fun b hb => h b (List.mem_cons_of_mem _ hb), List.length_cons]

/-- Counters that count the elements of a list, with one for every key that occurs, add up to the
length of the list. -/
theorem total_eq_length {key : α → K} {m : HashMap K ℕ} {l : List α}
    (hcount : ∀ k c, m.find? k = some c → c = l.countP fun a => decide (key a = k))
    (hall : ∀ a ∈ l, key a ∈ m.keys) : m.total = l.length := by
  rw [← sum_countP m.nodup hall, List.map_map, total]
  congr 1
  apply List.map_congr_left
  rintro ⟨k, c⟩ hmem
  exact hcount k c (find?_eq_some.mpr hmem)

end TopologyFabric.Library.HashMap

import Mathlib.Tactic

/-!
# Hash Maps

A map without an order of its own: a list of entries with distinct keys, in the order in which the
map is iterated. New keys go to the end; where the iteration order of the real map matters, an
`IterationOrder` rearranges the entries, and results are proved for every such order.

## Main results

- `find?_emplace`, `find?_upsert`: lookup after an insertion
- `find?_reorder`: lookup does not depend on the order
-/

namespace TopologyFabric.Library

universe u v

/-- An iteration order: some rearrangement of every list of entries. -/
structure IterationOrder where
  iter : (α : Type) → List α → List α
  perm : ∀ (α : Type) (l : List α), (iter α l).Perm l

namespace IterationOrder

/-- Iteration in the order of insertion. -/
def insertion : IterationOrder := ⟨fun _ l => l, fun _ l => List.Perm.refl l⟩

theorem mem_iter (o : IterationOrder) {α : Type} {l : List α} {a : α} :
    a ∈ o.iter α l ↔ a ∈ l := (o.perm α l).mem_iff

/-- Two orders in which maps with the same keys are iterated in the same way, whatever their values
are. -/
def Agree (o o' : IterationOrder) : Prop :=
  ∀ (K V W : Type) (l : List (K × V)) (l' : List (K × W)), l.map Prod.fst = l'.map Prod.fst →
    (o.iter _ l).map Prod.fst = (o'.iter _ l').map Prod.fst

theorem agree_insertion : Agree insertion insertion := fun _ _ _ _ _ h => h

end IterationOrder

/-- A list of entries with distinct keys. -/
structure HashMap (K : Type u) (V : Type v) where
  entries : List (K × V)
  nodup : (entries.map Prod.fst).Nodup

namespace HashMap

variable {K : Type u} {V : Type v} [DecidableEq K]

/-- The map without entries. -/
def empty : HashMap K V := ⟨[], List.nodup_nil⟩

instance : Inhabited (HashMap K V) := ⟨empty⟩

/-- The keys in iteration order. -/
def keys (m : HashMap K V) : List K := m.entries.map Prod.fst

/-- The number of entries. -/
def size (m : HashMap K V) : ℕ := m.entries.length

/-- `m.find(k)`. -/
def find? (m : HashMap K V) (k : K) : Option V :=
  (m.entries.find? fun e => decide (e.1 = k)).map Prod.snd

/-- `m.find(k) != m.end()`. -/
def contains (m : HashMap K V) (k : K) : Bool := (m.find? k).isSome

theorem find?_eq_some {m : HashMap K V} {k : K} {v : V} :
    m.find? k = some v ↔ (k, v) ∈ m.entries := by
  obtain ⟨l, hnd⟩ := m
  simp only [find?]
  induction l with
  | nil => simp
  | cons e l ih =>
    obtain ⟨hnot, hnd'⟩ := List.nodup_cons.mp hnd
    -- the keys are distinct, so the first entry with the key is the only one
    by_cases he : e.1 = k
    · subst he
      simp only [decide_true, List.find?_cons_of_pos, Option.map_some, Option.some.injEq,
        List.mem_cons]
      constructor
      · rintro rfl
        exact Or.inl rfl
      · rintro (h | h)
        · rw [← h]
        · exact absurd (List.mem_map_of_mem h) hnot
    · rw [List.find?_cons_of_neg (by simpa using he), ih hnd', List.mem_cons]
      constructor
      · exact Or.inr
      · rintro (h | h)
        · exact absurd (by rw [← h]) he
        · exact h

theorem find?_eq_none {m : HashMap K V} {k : K} : m.find? k = none ↔ k ∉ m.keys := by
  simp only [find?, keys, Option.map_eq_none_iff, List.find?_eq_none, List.mem_map, not_exists,
    not_and, decide_eq_true_eq, Prod.forall]

theorem contains_iff {m : HashMap K V} {k : K} : m.contains k = true ↔ k ∈ m.keys := by
  rw [contains, Option.isSome_iff_ne_none, ne_eq, find?_eq_none, not_not]

theorem mem_keys_iff {m : HashMap K V} {k : K} : k ∈ m.keys ↔ ∃ v, m.find? k = some v := by
  rw [← contains_iff, contains, Option.isSome_iff_exists]

omit [DecidableEq K] in
theorem mem_keys_of_mem {m : HashMap K V} {e : K × V} (h : e ∈ m.entries) : e.1 ∈ m.keys :=
  List.mem_map_of_mem h

/-- Lookup does not depend on the order of the entries. -/
theorem find?_perm {m m' : HashMap K V} (h : m.entries.Perm m'.entries) (k : K) :
    m.find? k = m'.find? k := by
  apply Option.ext
  intro v
  rw [find?_eq_some, find?_eq_some, h.mem_iff]

theorem contains_perm {m m' : HashMap K V} (h : m.entries.Perm m'.entries) (k : K) :
    m.contains k = m'.contains k := by
  rw [contains, contains, find?_perm h]

/-! ## Common keys -/

/-- The keys that both maps have, with both values. -/
def common {W : Type*} (m : HashMap K V) (m' : HashMap K W) : List (K × V × W) :=
  m.entries.filterMap fun e => (m'.find? e.1).map fun w => (e.1, e.2, w)

section Common

variable {W : Type*} {m : HashMap K V} {m' : HashMap K W}

theorem mem_common {x : K × V × W} :
    x ∈ m.common m' ↔ m.find? x.1 = some x.2.1 ∧ m'.find? x.1 = some x.2.2 := by
  obtain ⟨k, v, w⟩ := x
  simp only [common, List.mem_filterMap, Option.map_eq_some_iff, find?_eq_some, Prod.mk.injEq]
  constructor
  · rintro ⟨e, he, w', hw, rfl, rfl, rfl⟩
    exact ⟨he, hw⟩
  · rintro ⟨hv, hw⟩
    exact ⟨(k, v), hv, w, hw, rfl, rfl, rfl⟩

theorem nodup_common : (m.common m').Nodup := by
  apply (m.nodup.of_map _).filterMap
  intro e e' x he he'
  obtain ⟨w, -, rfl⟩ := Option.map_eq_some_iff.mp he
  obtain ⟨w', -, heq⟩ := Option.map_eq_some_iff.mp he'
  simp only [Prod.mk.injEq] at heq
  exact Prod.ext heq.1.symm heq.2.1.symm

/-- The common keys are the same from both sides. -/
theorem common_swap : ((m.common m').map fun x => (x.1, x.2.2, x.2.1)).Perm (m'.common m) := by
  have hinj : Function.Injective fun x : K × V × W => (x.1, x.2.2, x.2.1) := by
    rintro ⟨k, v, w⟩ ⟨k', v', w'⟩ h
    simp only [Prod.mk.injEq] at h ⊢
    exact ⟨h.1, h.2.2, h.2.1⟩
  -- no entry occurs twice, so it is enough that the same entries occur
  apply (List.perm_ext_iff_of_nodup (nodup_common.map hinj) nodup_common).mpr
  rintro ⟨k, w, v⟩
  rw [mem_common, List.mem_map]
  constructor
  · rintro ⟨x, hx, heq⟩
    obtain ⟨hv, hw⟩ := mem_common.mp hx
    simp only [Prod.mk.injEq] at heq
    obtain ⟨rfl, rfl, rfl⟩ := heq
    exact ⟨hw, hv⟩
  · rintro ⟨hw, hv⟩
    exact ⟨(k, v, w), mem_common.mpr ⟨hv, hw⟩, rfl⟩

/-- A loop over one map that looks every key up in the other is a loop over the common keys. -/
theorem flatMap_common {α : Type*} (f : K × V × W → List α) :
    (m.common m').flatMap f =
      m.entries.flatMap fun e => (m'.find? e.1).elim [] fun w => f (e.1, e.2, w) := by
  unfold common
  induction m.entries with
  | nil => rfl
  | cons e l ih =>
    rw [List.flatMap_cons, ← ih, List.filterMap_cons]
    cases m'.find? e.1 <;> rfl

end Common

/-! ## Insertion -/

/-- `m.emplace(k, v)`: an entry that is there is kept. -/
def emplace (m : HashMap K V) (k : K) (v : V) : HashMap K V :=
  if h : k ∈ m.keys then m
  else ⟨m.entries ++ [(k, v)], by
    rw [List.map_append, List.map_singleton]
    exact List.Nodup.append m.nodup (List.nodup_singleton k) (by simpa [keys] using h)⟩

/-- Change the value under `k` in place; a missing key is added with the default first, as
`operator[]` does. -/
def upsert (m : HashMap K V) (k : K) (default : V) (f : V → V) : HashMap K V :=
  if h : k ∈ m.keys then
    ⟨m.entries.map fun e => if e.1 = k then (k, f e.2) else e, by
      have hkeys : (m.entries.map fun e => if e.1 = k then (k, f e.2) else e).map Prod.fst =
          m.entries.map Prod.fst := by
        rw [List.map_map]
        refine List.map_congr_left fun e _ => ?_
        simp only [Function.comp]
        split_ifs with he
        · exact he.symm
        · rfl
      rw [hkeys]
      exact m.nodup⟩
  else ⟨m.entries ++ [(k, f default)], by
    rw [List.map_append, List.map_singleton]
    exact List.Nodup.append m.nodup (List.nodup_singleton k) (by simpa [keys] using h)⟩

theorem mem_entries_emplace {m : HashMap K V} {k : K} {v : V} {e : K × V} :
    e ∈ (m.emplace k v).entries ↔ e ∈ m.entries ∨ (k ∉ m.keys ∧ e = (k, v)) := by
  unfold emplace
  split_ifs with h
  · simp [h]
  · simp [h]

@[simp] theorem keys_emplace (m : HashMap K V) (k : K) (v : V) :
    (m.emplace k v).keys = if k ∈ m.keys then m.keys else m.keys ++ [k] := by
  unfold emplace
  split_ifs <;> simp [keys]

theorem size_emplace_le (m : HashMap K V) (k : K) (v : V) : (m.emplace k v).size ≤ m.size + 1 := by
  unfold emplace
  split_ifs
  · exact Nat.le_succ _
  · simp [size]

theorem find?_emplace (m : HashMap K V) (k k' : K) (v : V) :
    (m.emplace k v).find? k' = if k' = k then some ((m.find? k).getD v) else m.find? k' := by
  unfold emplace
  split_ifs with h hk hk
  · subst hk
    obtain ⟨w, hw⟩ := Option.ne_none_iff_exists'.mp (mt find?_eq_none.mp (not_not.mpr h))
    simp [hw]
  · rfl
  · subst hk
    rw [find?_eq_none.mpr h, Option.getD_none, find?_eq_some]
    simp
  · simp only [find?, List.find?_append]
    rw [List.find?_cons_of_neg (by simpa using Ne.symm hk)]
    simp

/-- The first of several insertions under a key counts. -/
theorem find?_foldl_emplace {α : Type*} (key : α → K) (val : α → V) (l : List α)
    (m : HashMap K V) (k : K) :
    (l.foldl (fun m a => m.emplace (key a) (val a)) m).find? k =
      (m.find? k).or ((l.find? fun a => decide (key a = k)).map val) := by
  induction l generalizing m with
  | nil => simp
  | cons a l ih =>
    rw [List.foldl_cons, ih, find?_emplace]
    by_cases h : key a = k
    · subst h
      cases m.find? (key a) <;> simp
    · rw [if_neg (Ne.symm h), List.find?_cons_of_neg (by simpa using h)]

theorem size_eq_card_keys (m : HashMap K V) : m.size = m.keys.toFinset.card := by
  rw [keys, List.toFinset_card_of_nodup m.nodup, List.length_map, size]

theorem entries_upsert (m : HashMap K V) (k : K) (d : V) (f : V → V) :
    (m.upsert k d f).entries =
      if k ∈ m.keys then m.entries.map fun e => if e.1 = k then (k, f e.2) else e
      else m.entries ++ [(k, f d)] := by
  unfold upsert
  split_ifs <;> rfl

@[simp] theorem keys_upsert (m : HashMap K V) (k : K) (d : V) (f : V → V) :
    (m.upsert k d f).keys = if k ∈ m.keys then m.keys else m.keys ++ [k] := by
  unfold upsert
  split_ifs with h
  · simp only [keys, List.map_map]
    refine List.map_congr_left fun e _ => ?_
    simp only [Function.comp]
    split_ifs with he
    · exact he.symm
    · rfl
  · simp [keys]

theorem mem_keys_upsert {m : HashMap K V} {k k' : K} {d : V} {f : V → V} :
    k' ∈ (m.upsert k d f).keys ↔ k' ∈ m.keys ∨ k' = k := by
  rw [keys_upsert]
  split_ifs with h
  · exact ⟨Or.inl, fun h' => h'.elim id fun e => e ▸ h⟩
  · simp

theorem find?_upsert (m : HashMap K V) (k k' : K) (d : V) (f : V → V) :
    (m.upsert k d f).find? k' =
      if k' = k then some (f ((m.find? k).getD d)) else m.find? k' := by
  by_cases h : k ∈ m.keys
  · -- the key is there: its entry is replaced where it stands
    obtain ⟨w, hw⟩ := Option.ne_none_iff_exists'.mp (mt find?_eq_none.mp (not_not.mpr h))
    have hmem := find?_eq_some.mp hw
    split_ifs with hk
    · subst hk
      rw [hw, find?_eq_some, upsert, dif_pos h]
      exact List.mem_map.mpr ⟨(k', w), hmem, by simp⟩
    · apply Option.ext
      intro v
      rw [find?_eq_some, find?_eq_some, upsert, dif_pos h]
      simp only [List.mem_map]
      constructor
      · rintro ⟨e, he, heq⟩
        split_ifs at heq with hek
        · exact absurd (congrArg Prod.fst heq).symm hk
        · exact heq ▸ he
      · intro hv
        exact ⟨(k', v), hv, by simp [hk]⟩
  · -- a new key goes to the end
    have hnone := find?_eq_none.mpr h
    split_ifs with hk
    · subst hk
      rw [hnone, find?_eq_some, upsert, dif_neg h]
      simp
    · rw [upsert, dif_neg h]
      simp only [find?, List.find?_append]
      rw [List.find?_cons_of_neg (by simpa using Ne.symm hk)]
      simp

/-! ## Removal -/

/-- `m.erase(k)`. -/
def erase (m : HashMap K V) (k : K) : HashMap K V :=
  ⟨m.entries.filter fun e => decide (e.1 ≠ k), m.nodup.sublist (List.filter_sublist.map _)⟩

theorem find?_erase (m : HashMap K V) (k k' : K) :
    (m.erase k).find? k' = if k' = k then none else m.find? k' := by
  apply Option.ext
  intro v
  rw [find?_eq_some]
  by_cases h : k' = k
  · subst h
    simp [erase]
  · rw [if_neg h, find?_eq_some]
    simp [erase, h]

/-! ## Iteration order -/

/-- The same map, iterated in another order. -/
def reorder {K V : Type} (m : HashMap K V) (o : IterationOrder) : HashMap K V :=
  ⟨o.iter _ m.entries, ((o.perm _ m.entries).map Prod.fst).nodup_iff.mpr m.nodup⟩

theorem mem_reorder {K V : Type} {m : HashMap K V} {o : IterationOrder} {e : K × V} :
    e ∈ (m.reorder o).entries ↔ e ∈ m.entries := o.mem_iter

/-- In some iteration order a given entry comes first. -/
theorem exists_reorder_cons {K V : Type} (m : HashMap K V) {e : K × V} (he : e ∈ m.entries) :
    ∃ (o : IterationOrder) (l : List (K × V)), (m.reorder o).entries = e :: l := by
  obtain ⟨pre, post, hsplit⟩ := List.append_of_mem he
  refine ⟨⟨fun _ l => l.rotate pre.length, fun _ l => List.rotate_perm l pre.length⟩,
    post ++ pre, ?_⟩
  show m.entries.rotate pre.length = _
  rw [hsplit, List.rotate_append_length_eq]
  rfl

theorem find?_reorder {K V : Type} [DecidableEq K] (m : HashMap K V) (o : IterationOrder) (k : K) :
    (m.reorder o).find? k = m.find? k := by
  apply Option.ext
  intro v
  rw [find?_eq_some, find?_eq_some, mem_reorder]

theorem mem_keys_reorder {K V : Type} {m : HashMap K V} {o : IterationOrder} {k : K} :
    k ∈ (m.reorder o).keys ↔ k ∈ m.keys := by
  simp only [keys, List.mem_map, mem_reorder]

/-- A list with distinct keys is determined by its keys and its entries. -/
theorem eq_of_keys_perm {K : Type u} {V : Type v} {l l' : List (K × V)}
    (hkeys : l.map Prod.fst = l'.map Prod.fst) (hperm : l.Perm l')
    (hnodup : (l.map Prod.fst).Nodup) : l = l' := by
  induction l generalizing l' with
  | nil => exact hperm.nil_eq
  | cons e l ih =>
    cases l' with
    | nil => exact absurd hkeys (by simp)
    | cons e' l' =>
      obtain ⟨hkey, htail⟩ := List.cons.inj hkeys
      obtain ⟨hnot, hnodup⟩ := List.nodup_cons.mp hnodup
      have hmem : e ∈ e' :: l' := hperm.mem_iff.mp (List.mem_cons_self ..)
      -- an entry behind the first has another key
      obtain rfl : e = e' := by
        rcases List.mem_cons.mp hmem with h | h
        · exact h
        · have hkeys' : e.1 ∈ l.map Prod.fst := by
            rw [htail]
            exact List.mem_map_of_mem h
          exact absurd hkeys' hnot
      rw [ih htail hperm.cons_inv hnodup]

/-- Changing the values of a map does not change how it is iterated. -/
theorem entries_reorder_map {K V W : Type} {o o' : IterationOrder} (h : o.Agree o')
    {m : HashMap K V} {m' : HashMap K W} {f : V → W}
    (hm : m'.entries = m.entries.map fun e => (e.1, f e.2)) :
    (m'.reorder o').entries = (m.reorder o).entries.map fun e => (e.1, f e.2) := by
  have hfst : ∀ l : List (K × V), (l.map fun e => (e.1, f e.2)).map Prod.fst = l.map Prod.fst :=
    fun l => by rw [List.map_map]; rfl
  have hkeys : m.entries.map Prod.fst = m'.entries.map Prod.fst := by rw [hm, hfst]
  refine eq_of_keys_perm ?_ ?_ (m'.reorder o').nodup
  · rw [hfst]
    exact (h K V W _ _ hkeys).symm
  · refine (o'.perm _ m'.entries).trans ?_
    rw [hm]
    exact ((o.perm _ m.entries).map _).symm

theorem reorder_congr {K V : Type} {o o' : IterationOrder} (h : o.Agree o') (m : HashMap K V) :
    m.reorder o' = m.reorder o := by
  have hentries : (m.reorder o').entries = (m.reorder o).entries.map fun e => (e.1, id e.2) :=
    entries_reorder_map h (by simp)
  simp only [id, Prod.eta, List.map_id'] at hentries
  cases hl : m.reorder o
  cases hr : m.reorder o'
  rw [hl, hr] at hentries
  simp only at hentries
  subst hentries
  rfl

end HashMap

end TopologyFabric.Library

import Mathlib.Tactic
import Mathlib.Data.List.Sort

/-!
# Ordered Maps

A map with ordered iteration, such as `std::map`, is its list of entries with strictly ascending
keys. The operations work on plain entry lists, so that a recursive datatype can hold such a list
directly; `OrderedMap` packages a list with the proof that it is sorted.

## Main results

- `findEntry_insertEntry_self`, `findEntry_insertEntry_of_ne`: lookup after insertion
- `findEntry_emplaceEntry`: lookup after an insertion that keeps what is there
- `sortedKeys_insertEntry`, `sortedKeys_emplaceEntry`: insertion keeps the keys sorted
- `foldl_insertEntry_of_sorted`: inserting the entries of a sorted list in order rebuilds the list
- `foldl_insertEntry_perm`: inserting entries with distinct keys keeps them all
-/

namespace TopologyFabric.Library

universe u v w

variable {K : Type u} {V : Type v} [LinearOrder K]

/-- The keys are strictly ascending. -/
def SortedKeys (l : List (K × V)) : Prop := l.Pairwise fun a b => a.1 < b.1

instance (l : List (K × V)) : Decidable (SortedKeys l) :=
  inferInstanceAs (Decidable (l.Pairwise fun a b => a.1 < b.1))

/-- Assign a value to a key, as `m[k] = v` does. -/
def insertEntry (k : K) (v : V) : List (K × V) → List (K × V)
  | [] => [(k, v)]
  | e :: l =>
    if k < e.1 then (k, v) :: e :: l
    else if k = e.1 then (k, v) :: l
    else e :: insertEntry k v l

/-- Add an entry unless its key is there, as `m.emplace(k, v)` does. -/
def emplaceEntry (k : K) (v : V) : List (K × V) → List (K × V)
  | [] => [(k, v)]
  | e :: l =>
    if k < e.1 then (k, v) :: e :: l
    else if k = e.1 then e :: l
    else e :: emplaceEntry k v l

/-- The value under a key. -/
def findEntry (k : K) (l : List (K × V)) : Option V :=
  (l.find? fun e => decide (e.1 = k)).map Prod.snd

section Lookup

variable {k k' : K} {v : V} {l : List (K × V)}

@[simp] theorem findEntry_nil : findEntry k ([] : List (K × V)) = none := rfl

theorem findEntry_cons (e : K × V) :
    findEntry k (e :: l) = if e.1 = k then some e.2 else findEntry k l := by
  by_cases h : e.1 = k
  · simp [findEntry, h]
  · simp [findEntry, h]

@[simp] theorem findEntry_insertEntry_self : findEntry k (insertEntry k v l) = some v := by
  induction l with
  | nil => simp [insertEntry, findEntry_cons]
  | cons e l ih =>
    unfold insertEntry
    split_ifs with hlt heq
    · simp [findEntry_cons]
    · simp [findEntry_cons]
    · rw [findEntry_cons, if_neg (Ne.symm heq), ih]

@[simp] theorem findEntry_insertEntry_of_ne (h : k ≠ k') :
    findEntry k' (insertEntry k v l) = findEntry k' l := by
  induction l with
  | nil => simp [insertEntry, findEntry_cons, h]
  | cons e l ih =>
    unfold insertEntry
    split_ifs with hlt heq
    · rw [findEntry_cons, if_neg h]
    · rw [findEntry_cons, findEntry_cons, if_neg h, if_neg (by rw [← heq]; exact h)]
    · rw [findEntry_cons, findEntry_cons, ih]

theorem findEntry_map {W : Type w} (f : V → W) :
    findEntry k (l.map fun e => (e.1, f e.2)) = (findEntry k l).map f := by
  induction l with
  | nil => rfl
  | cons e l ih =>
    rw [List.map_cons, findEntry_cons, findEntry_cons, ih]
    split_ifs <;> rfl

theorem mem_of_findEntry (h : findEntry k l = some v) : (k, v) ∈ l := by
  obtain ⟨e, he, rfl⟩ := Option.map_eq_some_iff.mp h
  have hmem := List.mem_of_find?_eq_some he
  have hkey : e.1 = k := by simpa using List.find?_some he
  exact hkey ▸ hmem

end Lookup

section Sorted

variable {k : K} {v : V} {l : List (K × V)}

theorem sortedKeys_nil : SortedKeys ([] : List (K × V)) := List.Pairwise.nil

theorem mem_insertEntry {e : K × V} (h : e ∈ insertEntry k v l) : e = (k, v) ∨ e ∈ l := by
  induction l with
  | nil => simpa [insertEntry] using h
  | cons a l ih =>
    unfold insertEntry at h
    split_ifs at h with hlt heq
    · exact List.mem_cons.mp h
    · rcases List.mem_cons.mp h with h | h
      · exact Or.inl h
      · exact Or.inr (List.mem_cons_of_mem _ h)
    · rcases List.mem_cons.mp h with h | h
      · exact Or.inr (h ▸ List.mem_cons_self ..)
      · exact (ih h).imp_right (List.mem_cons_of_mem _)

theorem mem_emplaceEntry {e : K × V} (h : e ∈ emplaceEntry k v l) : e = (k, v) ∨ e ∈ l := by
  induction l with
  | nil => simpa [emplaceEntry] using h
  | cons a l ih =>
    unfold emplaceEntry at h
    split_ifs at h with hlt heq
    · exact List.mem_cons.mp h
    · exact Or.inr h
    · rcases List.mem_cons.mp h with h | h
      · exact Or.inr (h ▸ List.mem_cons_self ..)
      · exact (ih h).imp_right (List.mem_cons_of_mem _)

theorem sortedKeys_insertEntry (h : SortedKeys l) : SortedKeys (insertEntry k v l) := by
  induction l with
  | nil => exact List.pairwise_singleton _ _
  | cons a l ih =>
    obtain ⟨ha, hl⟩ := List.pairwise_cons.mp h
    unfold insertEntry
    -- the entry goes in front, replaces the first one, or goes further back
    split_ifs with hlt heq
    · refine List.pairwise_cons.mpr ⟨fun e he => ?_, h⟩
      rcases List.mem_cons.mp he with rfl | he
      · exact hlt
      · exact hlt.trans (ha e he)
    · exact List.pairwise_cons.mpr ⟨fun e he => heq ▸ ha e he, hl⟩
    · refine List.pairwise_cons.mpr ⟨fun e he => ?_, ih hl⟩
      rcases mem_insertEntry he with rfl | he
      · exact lt_of_le_of_ne (not_lt.mp hlt) (Ne.symm heq)
      · exact ha e he

theorem sortedKeys_emplaceEntry (h : SortedKeys l) : SortedKeys (emplaceEntry k v l) := by
  induction l with
  | nil => exact List.pairwise_singleton _ _
  | cons a l ih =>
    obtain ⟨ha, hl⟩ := List.pairwise_cons.mp h
    unfold emplaceEntry
    split_ifs with hlt heq
    · refine List.pairwise_cons.mpr ⟨fun e he => ?_, h⟩
      rcases List.mem_cons.mp he with rfl | he
      · exact hlt
      · exact hlt.trans (ha e he)
    · exact h
    · refine List.pairwise_cons.mpr ⟨fun e he => ?_, ih hl⟩
      rcases mem_emplaceEntry he with rfl | he
      · exact lt_of_le_of_ne (not_lt.mp hlt) (Ne.symm heq)
      · exact ha e he

/-- A key above all others goes to the end. -/
theorem insertEntry_of_forall_lt (h : ∀ e ∈ l, e.1 < k) : insertEntry k v l = l ++ [(k, v)] := by
  induction l with
  | nil => rfl
  | cons a l ih =>
    have ha : a.1 < k := h a (List.mem_cons_self ..)
    rw [insertEntry, if_neg ha.not_gt, if_neg ha.ne', List.cons_append,
      ih fun e he => h e (List.mem_cons_of_mem _ he)]

/-- Inserting the entries of a sorted list in order rebuilds the list. -/
theorem foldl_insertEntry_of_sorted (h : SortedKeys l) :
    l.foldl (fun m e => insertEntry e.1 e.2 m) [] = l := by
  induction l using List.reverseRecOn with
  | nil => rfl
  | append_singleton l e ih =>
    obtain ⟨hl, _, hlt⟩ := List.pairwise_append.mp h
    rw [List.foldl_append, ih hl]
    exact insertEntry_of_forall_lt fun a ha => hlt a ha e (List.mem_singleton_self e)

/-- A new key is added to the entries. -/
theorem insertEntry_perm (h : k ∉ l.map Prod.fst) : (insertEntry k v l).Perm ((k, v) :: l) := by
  induction l with
  | nil => exact List.Perm.refl _
  | cons a l ih =>
    rw [List.map_cons, List.mem_cons, not_or] at h
    unfold insertEntry
    split_ifs with hlt heq
    · exact List.Perm.refl _
    · exact absurd heq h.1
    · exact ((ih h.2).cons a).trans (List.Perm.swap ..)

/-- Entries with distinct new keys are all added. -/
theorem foldl_insertEntry_perm {fields : List (K × V)}
    (h : (l.map Prod.fst ++ fields.map Prod.fst).Nodup) :
    (fields.foldl (fun m e => insertEntry e.1 e.2 m) l).Perm (l ++ fields) := by
  induction fields generalizing l with
  | nil => rw [List.append_nil]; exact List.Perm.refl _
  | cons e fields ih =>
    rw [List.map_cons, List.nodup_middle] at h
    obtain ⟨hkey, hrest⟩ := List.nodup_cons.mp h
    have hperm := insertEntry_perm (v := e.2) (fun hmem => hkey (List.mem_append_left _ hmem))
    rw [List.foldl_cons]
    refine (ih ?_).trans ?_
    · exact ((hperm.map Prod.fst).append_right _).nodup_iff.mpr h
    · exact (hperm.append_right fields).trans List.perm_middle.symm

theorem sortedKeys_foldl_insertEntry (h : SortedKeys l) (fields : List (K × V)) :
    SortedKeys (fields.foldl (fun m e => insertEntry e.1 e.2 m) l) := by
  induction fields generalizing l with
  | nil => exact h
  | cons e fields ih => exact ih (sortedKeys_insertEntry h)

/-- In a sorted list the entries are what is found. -/
theorem findEntry_of_mem (h : SortedKeys l) (hmem : (k, v) ∈ l) : findEntry k l = some v := by
  induction l with
  | nil => cases hmem
  | cons e l ih =>
    obtain ⟨hlt, hl⟩ := List.pairwise_cons.mp h
    rw [findEntry_cons]
    rcases List.mem_cons.mp hmem with rfl | hmem
    · rw [if_pos rfl]
    · rw [if_neg (hlt _ hmem).ne, ih hl hmem]

/-- No key of a sorted list is below its head. -/
theorem findEntry_of_lt_head {e : K × V} (h : SortedKeys (e :: l)) (hlt : k < e.1) :
    findEntry k (e :: l) = none := by
  rw [findEntry, Option.map_eq_none_iff, List.find?_eq_none]
  intro a ha
  have hle : e.1 ≤ a.1 := by
    rcases List.mem_cons.mp ha with rfl | ha
    · exact le_rfl
    · exact ((List.pairwise_cons.mp h).1 a ha).le
  simpa using (hlt.trans_le hle).ne'

/-- What is found after an insertion that keeps an entry that is there. -/
theorem findEntry_emplaceEntry (h : SortedKeys l) (k' : K) :
    findEntry k' (emplaceEntry k v l) =
      if k' = k then some ((findEntry k l).getD v) else findEntry k' l := by
  induction l with
  | nil => simp [emplaceEntry, findEntry_cons, eq_comm]
  | cons e l ih =>
    obtain ⟨-, hl⟩ := List.pairwise_cons.mp h
    -- the entry goes in front, or its key is the first one, or it goes further back
    by_cases hlt : k < e.1
    · rw [emplaceEntry, if_pos hlt, findEntry_cons, findEntry_of_lt_head h hlt, Option.getD_none]
      simp only [eq_comm]
    · by_cases heq : k = e.1
      · rw [emplaceEntry, if_neg hlt, if_pos heq]
        split_ifs with hk
        · rw [hk, findEntry_cons, if_pos heq.symm, Option.getD_some]
        · rfl
      · rw [emplaceEntry, if_neg hlt, if_neg heq, findEntry_cons, findEntry_cons, findEntry_cons,
          ih hl]
        rw [if_neg (Ne.symm heq)]
        split_ifs with he hk hk
        · exact absurd (hk.symm.trans he.symm) heq
        · rfl
        · rfl
        · rfl

end Sorted

/-- A list of entries with strictly ascending keys. -/
structure OrderedMap (K : Type u) (V : Type v) [LinearOrder K] where
  entries : List (K × V)
  sorted : SortedKeys entries

namespace OrderedMap

instance [DecidableEq V] : DecidableEq (OrderedMap K V) := fun a b =>
  decidable_of_iff (a.entries = b.entries) (by cases a; cases b; simp)

/-- The map without entries. -/
def empty : OrderedMap K V := ⟨[], sortedKeys_nil⟩

instance : Inhabited (OrderedMap K V) := ⟨empty⟩

/-- `m[k] = v`. -/
def insert (m : OrderedMap K V) (k : K) (v : V) : OrderedMap K V :=
  ⟨insertEntry k v m.entries, sortedKeys_insertEntry m.sorted⟩

/-- `m.emplace(k, v)`. -/
def emplace (m : OrderedMap K V) (k : K) (v : V) : OrderedMap K V :=
  ⟨emplaceEntry k v m.entries, sortedKeys_emplaceEntry m.sorted⟩

/-- The value under a key. -/
def find? (m : OrderedMap K V) (k : K) : Option V := findEntry k m.entries

theorem find?_eq_some {m : OrderedMap K V} {k : K} {v : V} :
    m.find? k = some v ↔ (k, v) ∈ m.entries :=
  ⟨mem_of_findEntry, findEntry_of_mem m.sorted⟩

theorem find?_emplace (m : OrderedMap K V) (k k' : K) (v : V) :
    (m.emplace k v).find? k' = if k' = k then some ((m.find? k).getD v) else m.find? k' :=
  findEntry_emplaceEntry m.sorted k'

end OrderedMap

end TopologyFabric.Library

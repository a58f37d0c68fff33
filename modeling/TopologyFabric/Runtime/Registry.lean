import TopologyFabric.Core.Bytes
import TopologyFabric.Library.HashMap

/-!
# The Provider Registry

`ProviderRegistry` keeps the providers in a hash map under their names, and the names in a list. After
any run of calls the two say the same: they are the insertion-ordered map of the providers that have
been registered and not removed since.

## Main results

- `RegistryCall.apply_represents`: every call of the registry is the call of the ordered map
- `registry_refines`: what the registry holds after a run, from the calls of the run
-/

namespace TopologyFabric

open Library

/-! ## The registry -/

structure ProviderRegistry (P : Type) where
  byName : HashMap Bytes P := HashMap.empty
  order : List Bytes := []

/-- A call that changes the registry. The provider of `register_provider` may be null. -/
inductive RegistryCall (P : Type) where
  | registerProvider (p : Option P)
  | unregister (name : Bytes)
  | clear

section Registry

variable {P : Type} (nameOf : P → Bytes)

namespace ProviderRegistry

def registerProvider (r : ProviderRegistry P) : Option P → Bool × ProviderRegistry P
  | none => (false, r)
  | some p =>
    let nm := nameOf p
    let isNew := (r.byName.find? nm).isNone
    let byName := r.byName.upsert nm p fun _ => p
    (true, ⟨byName, if isNew then r.order ++ [nm] else r.order⟩)

def unregister (r : ProviderRegistry P) (name : Bytes) : Bool × ProviderRegistry P :=
  if (r.byName.find? name).isNone then (false, r)
  else (true, ⟨r.byName.erase name, r.order.filter fun n => decide (n ≠ name)⟩)

def find (r : ProviderRegistry P) (name : Bytes) : Option P := r.byName.find? name

/-- The providers in the order of the names; a name without a provider is passed over. -/
def all (r : ProviderRegistry P) : List P := r.order.filterMap r.byName.find?

def size (r : ProviderRegistry P) : ℕ := r.byName.size

def clear (_ : ProviderRegistry P) : ProviderRegistry P := {}

end ProviderRegistry

/-- The effect of a call. -/
def RegistryCall.apply (r : ProviderRegistry P) : RegistryCall P → ProviderRegistry P
  | .registerProvider p => (r.registerProvider nameOf p).2
  | .unregister name => (r.unregister name).2
  | .clear => r.clear

/-- The registry after a run of calls. -/
def ProviderRegistry.run (calls : List (RegistryCall P)) : ProviderRegistry P :=
  calls.foldl (RegistryCall.apply nameOf) {}

/-! ## The ordered map -/

/-- The insertion-ordered map that the registry implements is a list of providers with distinct
names. A call replaces the provider of its name where it stands, appends it, or removes it. -/
def RegistryCall.applyOrdered (l : List P) : RegistryCall P → List P
  | .registerProvider none => l
  | .registerProvider (some p) =>
    if (l.map nameOf).contains (nameOf p) then l.map fun q => if nameOf q = nameOf p then p else q
    else l ++ [p]
  | .unregister name => l.filter fun q => decide (nameOf q ≠ name)
  | .clear => []

/-- The registry holds the providers of the list, in this order. -/
structure ProviderRegistry.Represents (r : ProviderRegistry P) (l : List P) : Prop where
  nodup : (l.map nameOf).Nodup
  order : r.order = l.map nameOf
  byName : ∀ name p, r.byName.find? name = some p ↔ p ∈ l ∧ nameOf p = name

variable {nameOf} {r : ProviderRegistry P} {l : List P}

theorem ProviderRegistry.Represents.find_isNone (h : r.Represents nameOf l) (name : Bytes) :
    (r.byName.find? name).isNone = true ↔ name ∉ l.map nameOf := by
  rw [Option.isNone_iff_eq_none, Option.eq_none_iff_forall_ne_some]
  simp only [List.mem_map, not_exists, ne_eq, h.byName]

/-- The names of the list stay when the provider of a name is replaced. -/
theorem map_nameOf_replace (p : P) (l : List P) :
    (l.map fun q => if nameOf q = nameOf p then p else q).map nameOf = l.map nameOf := by
  rw [List.map_map]
  apply List.map_congr_left
  intro q _
  simp only [Function.comp]
  split
  · rename_i hq
    exact hq.symm
  · rfl

/-- Replacing the provider of a name leaves the others. -/
theorem mem_replace {p q : P} (hmem : nameOf p ∈ l.map nameOf) :
    q ∈ (l.map fun q => if nameOf q = nameOf p then p else q) ↔
      q ∈ l ∧ nameOf q ≠ nameOf p ∨ q = p := by
  rw [List.mem_map]
  constructor
  · rintro ⟨x, hx, rfl⟩
    split
    · exact Or.inr rfl
    · rename_i hne
      exact Or.inl ⟨hx, hne⟩
  · rintro (⟨hq, hne⟩ | rfl)
    · exact ⟨q, hq, if_neg hne⟩
    · obtain ⟨old, hold, hname⟩ := List.mem_map.mp hmem
      exact ⟨old, hold, if_pos hname⟩

/-- So does appending a provider of a new name. -/
theorem mem_append_new {p q : P} (hnew : nameOf p ∉ l.map nameOf) :
    q ∈ l ++ [p] ↔ q ∈ l ∧ nameOf q ≠ nameOf p ∨ q = p := by
  rw [List.mem_append, List.mem_singleton]
  constructor
  · rintro (hq | rfl)
    · exact Or.inl ⟨hq, fun hname => hnew (List.mem_map.mpr ⟨q, hq, hname⟩)⟩
    · exact Or.inr rfl
  · rintro (⟨hq, -⟩ | rfl)
    · exact Or.inl hq
    · exact Or.inr rfl

/-- The map after a provider has been put in. -/
theorem ProviderRegistry.Represents.byName_upsert (h : r.Represents nameOf l) {p : P} {l' : List P}
    (hl' : ∀ q, q ∈ l' ↔ q ∈ l ∧ nameOf q ≠ nameOf p ∨ q = p) (name : Bytes) (q : P) :
    (r.byName.upsert (nameOf p) p fun _ => p).find? name = some q ↔ q ∈ l' ∧ nameOf q = name := by
  rw [HashMap.find?_upsert, hl']
  -- the name is the one registered, or its entry is as before
  by_cases hname : name = nameOf p
  · rw [if_pos hname, Option.some.injEq]
    constructor
    · rintro rfl
      exact ⟨Or.inr rfl, hname.symm⟩
    · rintro ⟨⟨-, hne⟩ | rfl, hq⟩
      · exact absurd (hq.trans hname) hne
      · rfl
  · rw [if_neg hname, h.byName]
    constructor
    · rintro ⟨hq, rfl⟩
      exact ⟨Or.inl ⟨hq, hname⟩, rfl⟩
    · rintro ⟨⟨hq, -⟩ | rfl, hqName⟩
      · exact ⟨hq, hqName⟩
      · exact absurd hqName.symm hname

theorem ProviderRegistry.Represents.register (h : r.Represents nameOf l) (p : P) :
    (r.registerProvider nameOf (some p)).2.Represents nameOf
      (RegistryCall.applyOrdered nameOf l (.registerProvider (some p))) := by
  by_cases hmem : nameOf p ∈ l.map nameOf
  · -- a known name keeps its position
    have hknown : (r.byName.find? (nameOf p)).isNone = false :=
      Bool.eq_false_iff.mpr fun hnone => (h.find_isNone _).mp hnone hmem
    have hcontains : (l.map nameOf).contains (nameOf p) = true := List.contains_iff_mem.mpr hmem
    simp only [registerProvider, RegistryCall.applyOrdered, hknown, hcontains, if_true]
    refine ⟨?_, ?_, h.byName_upsert fun q => mem_replace hmem⟩
    · rw [map_nameOf_replace]
      exact h.nodup
    · rw [map_nameOf_replace]
      exact h.order
  · -- a new name goes to the end
    have hnew : (r.byName.find? (nameOf p)).isNone = true := (h.find_isNone _).mpr hmem
    have hcontains : ¬ (l.map nameOf).contains (nameOf p) = true :=
      fun h => hmem (List.contains_iff_mem.mp h)
    simp only [registerProvider, RegistryCall.applyOrdered, hnew, if_neg hcontains, if_true]
    refine ⟨?_, ?_, h.byName_upsert fun q => mem_append_new hmem⟩
    · rw [List.map_append, List.map_singleton]
      exact h.nodup.append (List.nodup_singleton _) (List.disjoint_singleton.mpr hmem)
    · rw [List.map_append, List.map_singleton, h.order]

theorem ProviderRegistry.Represents.unregister (h : r.Represents nameOf l) (name : Bytes) :
    (r.unregister name).2.Represents nameOf
      (RegistryCall.applyOrdered nameOf l (.unregister name)) := by
  have hkeep : (l.filter fun q => decide (nameOf q ≠ name)).map nameOf =
      (l.map nameOf).filter fun n => decide (n ≠ name) := by
    rw [List.filter_map]
    rfl
  simp only [ProviderRegistry.unregister, RegistryCall.applyOrdered]
  split
  · -- an unknown name is not in the list either
    rename_i hnone
    have hall : (l.filter fun q => decide (nameOf q ≠ name)) = l := by
      rw [List.filter_eq_self]
      intro q hq
      rw [decide_eq_true_eq]
      rintro rfl
      exact (h.find_isNone _).mp hnone (List.mem_map_of_mem hq)
    rw [hall]
    exact h
  · refine ⟨?_, ?_, ?_⟩
    · rw [hkeep]
      exact h.nodup.filter _
    · rw [hkeep, h.order]
    · intro n q
      rw [HashMap.find?_erase, List.mem_filter, decide_eq_true_eq]
      by_cases hn : n = name
      · rw [if_pos hn]
        constructor
        · intro hnone
          cases hnone
        · rintro ⟨⟨-, hqName⟩, hq⟩
          exact absurd (hq.trans hn) hqName
      · rw [if_neg hn, h.byName]
        constructor
        · rintro ⟨hq, rfl⟩
          exact ⟨⟨hq, hn⟩, rfl⟩
        · rintro ⟨⟨hq, -⟩, hqName⟩
          exact ⟨hq, hqName⟩

/-- Every call of the registry is the call of the ordered map. -/
theorem RegistryCall.apply_represents (h : r.Represents nameOf l) (c : RegistryCall P) :
    (c.apply nameOf r).Represents nameOf (c.applyOrdered nameOf l) := by
  cases c with
  | registerProvider p =>
    cases p with
    | none => exact h
    | some p => exact h.register p
  | unregister name => exact h.unregister name
  | clear => exact ⟨List.nodup_nil, rfl, fun name p => by simp [RegistryCall.apply,
      RegistryCall.applyOrdered, ProviderRegistry.clear, HashMap.find?, HashMap.empty]⟩

theorem ProviderRegistry.run_represents (calls : List (RegistryCall P)) :
    (ProviderRegistry.run nameOf calls).Represents nameOf
      (calls.foldl (RegistryCall.applyOrdered nameOf) []) := by
  have hfold : ∀ (calls : List (RegistryCall P)) (r : ProviderRegistry P) (l : List P),
      r.Represents nameOf l → (calls.foldl (RegistryCall.apply nameOf) r).Represents nameOf
        (calls.foldl (RegistryCall.applyOrdered nameOf) l) := by
    intro calls
    induction calls with
    | nil => intro r l h; exact h
    | cons c calls ih =>
      intro r l h
      rw [List.foldl_cons, List.foldl_cons]
      exact ih _ _ (RegistryCall.apply_represents h c)
  exact hfold calls _ _ ⟨List.nodup_nil, rfl, fun name p => by simp [HashMap.find?, HashMap.empty]⟩

namespace ProviderRegistry.Represents

theorem all_eq (h : r.Represents nameOf l) : r.all = l := by
  have hfind : ∀ q ∈ l, r.byName.find? (nameOf q) = some q :=
    fun q hq => (h.byName _ _).mpr ⟨hq, rfl⟩
  rw [ProviderRegistry.all, h.order, List.filterMap_map]
  calc l.filterMap (r.byName.find? ∘ nameOf) = l.filterMap some :=
        List.filterMap_congr fun q hq => hfind q hq
    _ = l := List.filterMap_some

theorem mem_keys (h : r.Represents nameOf l) (name : Bytes) :
    name ∈ r.byName.keys ↔ name ∈ l.map nameOf := by
  rw [← not_iff_not, ← HashMap.find?_eq_none, ← Option.isNone_iff_eq_none, h.find_isNone]

theorem size_eq (h : r.Represents nameOf l) : r.size = l.length := by
  have hkeys : r.byName.keys.toFinset = (l.map nameOf).toFinset := by
    ext name
    rw [List.mem_toFinset, List.mem_toFinset, h.mem_keys]
  rw [ProviderRegistry.size, HashMap.size_eq_card_keys, hkeys,
    List.toFinset_card_of_nodup h.nodup, List.length_map]

end ProviderRegistry.Represents

/-! ## The history of a name -/

variable (nameOf)

/-- What one call makes of the provider registered last under a name. -/
def RegistryCall.trackLatest (name : Bytes) (s : Option P) : RegistryCall P → Option P
  | .registerProvider none => s
  | .registerProvider (some p) => if nameOf p = name then some p else s
  | .unregister n => if n = name then none else s
  | .clear => none

/-- What the call with number `k` makes of the number of the first registration of a name. -/
def RegistryCall.trackPlace (name : Bytes) (s : Option ℕ) (k : ℕ) : RegistryCall P → Option ℕ
  | .registerProvider none => s
  | .registerProvider (some p) => if nameOf p = name then some (s.getD k) else s
  | .unregister n => if n = name then none else s
  | .clear => none

/-- The provider registered last under a name, unless the name has been removed since. -/
def latestProvider (calls : List (RegistryCall P)) (name : Bytes) : Option P :=
  calls.foldl (RegistryCall.trackLatest nameOf name) none

/-- The number of the first registration of a name since it was last removed. -/
def firstRegistration (calls : List (RegistryCall P)) (name : Bytes) : Option ℕ :=
  calls.zipIdx.foldl (fun s c => c.1.trackPlace nameOf name s c.2) none

variable {nameOf}

theorem firstRegistration_append (calls : List (RegistryCall P)) (c : RegistryCall P)
    (name : Bytes) : firstRegistration nameOf (calls ++ [c]) name =
      c.trackPlace nameOf name (firstRegistration nameOf calls name) calls.length := by
  simp [firstRegistration, List.zipIdx_append]

/-- A call changes what the hash map says of a name as it changes the history. -/
theorem RegistryCall.apply_find (c : RegistryCall P) (r : ProviderRegistry P) (name : Bytes) :
    (c.apply nameOf r).byName.find? name = c.trackLatest nameOf name (r.byName.find? name) := by
  cases c with
  | registerProvider p =>
    cases p with
    | none => rfl
    | some p =>
      simp only [RegistryCall.apply, ProviderRegistry.registerProvider, RegistryCall.trackLatest,
        HashMap.find?_upsert]
      by_cases h : name = nameOf p
      · rw [if_pos h, if_pos h.symm]
      · rw [if_neg h, if_neg (Ne.symm h)]
  | unregister n =>
    -- an unknown name is ignored
    simp only [RegistryCall.apply, ProviderRegistry.unregister, RegistryCall.trackLatest]
    by_cases hnone : (r.byName.find? n).isNone = true
    · rw [if_pos hnone]
      by_cases h : n = name
      · rw [if_pos h]
        exact h ▸ Option.isNone_iff_eq_none.mp hnone
      · rw [if_neg h]
    · rw [if_neg hnone, HashMap.find?_erase]
      by_cases h : n = name
      · rw [if_pos h, if_pos h.symm]
      · rw [if_neg h, if_neg (Ne.symm h)]
  | clear => rfl

theorem ProviderRegistry.run_find (calls : List (RegistryCall P)) (name : Bytes) :
    (ProviderRegistry.run nameOf calls).byName.find? name = latestProvider nameOf calls name := by
  have hfold : ∀ (calls : List (RegistryCall P)) (r : ProviderRegistry P),
      (calls.foldl (RegistryCall.apply nameOf) r).byName.find? name =
        calls.foldl (RegistryCall.trackLatest nameOf name) (r.byName.find? name) := by
    intro calls
    induction calls with
    | nil => intro r; rfl
    | cons c calls ih =>
      intro r
      rw [List.foldl_cons, List.foldl_cons, ih, RegistryCall.apply_find]
  exact hfold calls {}

/-- The names stand in the order of their numbers, which are below the bound. -/
structure NamePlaces (names : List Bytes) (place : Bytes → Option ℕ) (bound : ℕ) : Prop where
  sorted : names.Pairwise fun m n => ∃ i j, place m = some i ∧ place n = some j ∧ i < j
  mem : ∀ n, n ∈ names ↔ (place n).isSome = true
  below : ∀ n i, place n = some i → i < bound

theorem NamePlaces.register {names : List Bytes} {place : Bytes → Option ℕ} {k : ℕ}
    (h : NamePlaces names place k) (nm : Bytes) :
    NamePlaces (if nm ∈ names then names else names ++ [nm])
      (fun n => if nm = n then some ((place n).getD k) else place n) (k + 1) := by
  by_cases hmem : nm ∈ names
  · -- a known name keeps its number, so nothing changes
    have hsame : (fun n => if nm = n then some ((place n).getD k) else place n) = place := by
      funext n
      split
      · rename_i hn
        obtain ⟨i, hi⟩ := Option.isSome_iff_exists.mp ((h.mem n).mp (hn ▸ hmem))
        rw [hi, Option.getD_some]
      · rfl
    rw [if_pos hmem, hsame]
    exact ⟨h.sorted, h.mem, fun n i hi => (h.below n i hi).trans (Nat.lt_succ_self k)⟩
  · have hnone : place nm = none := by
      rw [← Option.not_isSome_iff_eq_none]
      exact fun hsome => hmem ((h.mem nm).mpr hsome)
    have hne : ∀ n ∈ names, nm ≠ n := fun n hn heq => hmem (heq ▸ hn)
    rw [if_neg hmem]
    refine ⟨?_, ?_, ?_⟩
    · apply List.pairwise_append.mpr
      refine ⟨?_, List.pairwise_singleton _ _, ?_⟩
      · apply h.sorted.imp_of_mem
        intro m n hm hn hlt
        rw [if_neg (hne m hm), if_neg (hne n hn)]
        exact hlt
      · intro m hm n hn
        obtain rfl := List.mem_singleton.mp hn
        obtain ⟨i, hi⟩ := Option.isSome_iff_exists.mp ((h.mem m).mp hm)
        rw [if_neg (hne m hm), if_pos rfl, hnone, Option.getD_none]
        exact ⟨i, k, hi, rfl, h.below m i hi⟩
    · intro n
      rw [List.mem_append, List.mem_singleton]
      split
      · rename_i hn
        exact ⟨fun _ => rfl, fun _ => Or.inr hn.symm⟩
      · rename_i hn
        rw [h.mem]
        exact ⟨fun hor => hor.resolve_right fun heq => hn heq.symm, Or.inl⟩
    · intro n i hi
      split at hi
      · rename_i hn
        subst hn
        rw [hnone, Option.getD_none, Option.some.injEq] at hi
        omega
      · exact (h.below n i hi).trans (Nat.lt_succ_self k)

theorem NamePlaces.remove {names : List Bytes} {place : Bytes → Option ℕ} {k : ℕ}
    (h : NamePlaces names place k) (nm : Bytes) :
    NamePlaces (names.filter fun n => decide (n ≠ nm)) (fun n => if nm = n then none else place n)
      (k + 1) := by
  -- the places that stay are in the order they had
  refine ⟨?_, ?_, ?_⟩
  · apply (h.sorted.filter _).imp_of_mem
    intro m n hm hn hlt
    have hm' := of_decide_eq_true (List.mem_filter.mp hm).2
    have hn' := of_decide_eq_true (List.mem_filter.mp hn).2
    rw [if_neg (Ne.symm hm'), if_neg (Ne.symm hn')]
    exact hlt
  · intro n
    rw [List.mem_filter, decide_eq_true_eq, h.mem]
    split
    · rename_i hn
      exact ⟨fun hand => absurd hn.symm hand.2, fun hnone => by cases hnone⟩
    · rename_i hn
      exact ⟨fun hand => hand.1, fun hsome => ⟨hsome, fun heq => hn heq.symm⟩⟩
  · intro n i hi
    split at hi
    · cases hi
    · exact (h.below n i hi).trans (Nat.lt_succ_self k)

/-- The names of the ordered map have been registered one after the other. -/
theorem ordered_placed (calls : List (RegistryCall P)) :
    NamePlaces ((calls.foldl (RegistryCall.applyOrdered nameOf) []).map nameOf)
      (firstRegistration nameOf calls) calls.length := by
  induction calls using List.reverseRecOn with
  | nil => exact ⟨List.Pairwise.nil, fun n => by simp [firstRegistration], fun n i hi => by cases hi⟩
  | append_singleton calls c ih =>
    have hplace : firstRegistration nameOf (calls ++ [c]) = fun name =>
        c.trackPlace nameOf name (firstRegistration nameOf calls name) calls.length :=
      funext fun name => firstRegistration_append calls c name
    rw [hplace, List.foldl_append, List.foldl_cons, List.foldl_nil, List.length_append,
      List.length_singleton]
    generalize calls.foldl (RegistryCall.applyOrdered nameOf) [] = l at ih ⊢
    cases c with
    | registerProvider p =>
      cases p with
      -- a null provider changes nothing
      | none => exact ⟨ih.sorted, ih.mem, fun n i hi => (ih.below n i hi).trans (Nat.lt_succ_self _)⟩
      | some p =>
        have hnames : (RegistryCall.applyOrdered nameOf l (.registerProvider (some p))).map nameOf =
            if nameOf p ∈ l.map nameOf then l.map nameOf else l.map nameOf ++ [nameOf p] := by
          rw [RegistryCall.applyOrdered]
          split
          · rename_i hmem
            rw [if_pos (List.contains_iff_mem.mp hmem)]
            exact map_nameOf_replace p l
          · rename_i hmem
            rw [if_neg fun h => hmem (List.contains_iff_mem.mpr h), List.map_append,
              List.map_singleton]
        rw [hnames]
        exact ih.register (nameOf p)
    | unregister n =>
      have hnames : (RegistryCall.applyOrdered nameOf l (.unregister n)).map nameOf =
          (l.map nameOf).filter fun m => decide (m ≠ n) := by
        rw [RegistryCall.applyOrdered, List.filter_map]
        rfl
      rw [hnames]
      exact ih.remove n
    | clear => exact ⟨List.Pairwise.nil, fun n => by simp [RegistryCall.applyOrdered,
        RegistryCall.trackPlace], fun n i hi => by cases hi⟩

/-- What the registry holds after a run of calls. -/
structure RegistryRefines (nameOf : P → Bytes) (calls : List (RegistryCall P))
    (r : ProviderRegistry P) : Prop where
  nodup : r.order.Nodup
  keys : ∀ name, name ∈ r.order ↔ name ∈ r.byName.keys
  names : r.all.map nameOf = r.order
  all : r.all = calls.foldl (RegistryCall.applyOrdered nameOf) []
  latest : ∀ p, p ∈ r.all ↔ latestProvider nameOf calls (nameOf p) = some p
  places : r.order.Pairwise fun m n => ∃ i j, firstRegistration nameOf calls m = some i ∧
    firstRegistration nameOf calls n = some j ∧ i < j
  find : ∀ name p, r.find name = some p ↔ p ∈ r.all ∧ nameOf p = name
  size : r.size = r.all.length

/-- **The registry is an insertion-ordered map.** After every run of calls it holds the provider
registered last under each name, in the order of the first registrations since the last removal. -/
theorem registry_refines (nameOf : P → Bytes) (calls : List (RegistryCall P)) :
    RegistryRefines nameOf calls (ProviderRegistry.run nameOf calls) := by
  have h : (ProviderRegistry.run nameOf calls).Represents nameOf
      (calls.foldl (RegistryCall.applyOrdered nameOf) []) := ProviderRegistry.run_represents calls
  -- `all()` lists the providers in the order that the abstract list has
  have hall := h.all_eq
  refine ⟨?_, ?_, ?_, hall, ?_, ?_, ?_, ?_⟩
  · rw [h.order]
    exact h.nodup
  · intro name
    rw [h.order, h.mem_keys]
  · rw [hall, h.order]
  · intro p
    rw [hall, ← ProviderRegistry.run_find, h.byName]
    exact ⟨fun hp => ⟨hp, rfl⟩, fun hp => hp.1⟩
  · rw [h.order]
    exact (ordered_placed calls).sorted
  · intro name p
    rw [hall]
    exact h.byName name p
  · rw [hall]
    exact h.size_eq

end Registry

end TopologyFabric

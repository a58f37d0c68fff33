import TopologyFabric.Library.Walk

/-!
# Parts of Optimal Walks

A part of a walk that cannot be undercut cannot be undercut either, since a shorter or cheaper part
would make the whole shorter or cheaper. For the walk whose word comes first this holds of the word
itself, so the first walks out of one node form a tree.

## Main results

- `IsCheapest.triangle`: the least costs satisfy the triangle inequality
- `IsCheapest.front`, `IsCheapest.back`: parts of cheapest walks are cheapest
- `IsFirstWalk.front`: the front part of a first walk is the first walk to where it ends
-/

namespace TopologyFabric.Library

universe u v

variable {V : Type u} {E : Type v} {adj : V → List (V × E)} {a b c : V} {l l' : List (Hop V E)}

/-! ## Splitting walks -/

/-- Where a walk is split there is a node. -/
theorem IsWalk.split (h : IsWalk adj a (l ++ l') c) : ∃ b, IsWalk adj a l b ∧ IsWalk adj b l' c := by
  induction l generalizing a with
  | nil => exact ⟨a, .nil a, h⟩
  | cons hop l ih =>
    cases h with
    | cons hmem hrest =>
      obtain ⟨b, hfront, hback⟩ := ih hrest
      exact ⟨b, .cons hmem hfront, hback⟩

/-- The hops of a walk determine where it ends. -/
theorem IsWalk.end_unique (h : IsWalk adj a l b) (h' : IsWalk adj a l c) : b = c := by
  induction h with
  | nil a => exact h'.dst_eq_of_nil
  | cons _ _ ih =>
    cases h' with
    | cons _ hrest => exact ih hrest

/-! ## Cheapest walks -/

/-- A walk that no walk between its ends undercuts. -/
structure IsCheapest (adj : V → List (V × E)) (cost : V → V → E → ℚ) (a : V) (hops : List (Hop V E))
    (b : V) : Prop where
  isWalk : IsWalk adj a hops b
  least : ∀ hops', IsWalk adj a hops' b → walkCost cost hops ≤ walkCost cost hops'

namespace IsCheapest

variable {cost : V → V → E → ℚ}

/-- Cheapest walks between the same ends have the same cost. -/
theorem cost_eq (h : IsCheapest adj cost a l b) (h' : IsCheapest adj cost a l' b) :
    walkCost cost l = walkCost cost l' :=
  le_antisymm (h.least l' h'.isWalk) (h'.least l h.isWalk)

/-- Going through another node is no cheaper. -/
theorem triangle {direct : List (Hop V E)} (h : IsCheapest adj cost a direct c)
    (hfront : IsCheapest adj cost a l b) (hback : IsCheapest adj cost b l' c) :
    walkCost cost direct ≤ walkCost cost l + walkCost cost l' := by
  rw [← walkCost_append]
  exact h.least _ (hfront.isWalk.append hback.isWalk)

theorem front (h : IsCheapest adj cost a (l ++ l') c) (hfront : IsWalk adj a l b)
    (hback : IsWalk adj b l' c) : IsCheapest adj cost a l b where
  isWalk := hfront
  least := by
    intro hops' hwalk'
    -- replacing the front part does not make the whole cheaper
    have hwhole := h.least _ (hwalk'.append hback)
    rw [walkCost_append, walkCost_append] at hwhole
    exact le_of_add_le_add_right hwhole

theorem back (h : IsCheapest adj cost a (l ++ l') c) (hfront : IsWalk adj a l b)
    (hback : IsWalk adj b l' c) : IsCheapest adj cost b l' c where
  isWalk := hback
  least := by
    intro hops' hwalk'
    have hwhole := h.least _ (hfront.append hwalk')
    rw [walkCost_append, walkCost_append] at hwhole
    exact le_of_add_le_add_left hwhole

end IsCheapest

/-! ## First walks -/

theorem wordEnd_append (a : V) (w w' : List ℕ) :
    wordEnd adj a (w ++ w') = (wordEnd adj a w).bind fun b => wordEnd adj b w' := by
  induction w generalizing a with
  | nil => rfl
  | cons i w ih =>
    simp only [List.cons_append, wordEnd]
    cases (adj a)[i]? with
    | none => rfl
    | some p => exact ih p.1

theorem wordHops_append {w : List ℕ} (hw : wordEnd adj a w = some b) (w' : List ℕ) :
    wordHops adj a (w ++ w') = wordHops adj a w ++ wordHops adj b w' := by
  induction w generalizing a with
  | nil =>
    obtain rfl : a = b := Option.some_inj.mp hw
    rfl
  | cons i w ih =>
    simp only [wordEnd] at hw
    cases hi : (adj a)[i]? with
    | none =>
      rw [hi] at hw
      simp at hw
    | some p =>
      rw [hi, Option.bind_some] at hw
      simp only [List.cons_append, wordHops, hi, ih hw]

/-- Appending letters to each side keeps a strict inequality of words. -/
theorem shortlex_append_lt {w w' : List ℕ} (h : shortlex w < shortlex w') (s : List ℕ) :
    shortlex (w ++ s) < shortlex (w' ++ s) := by
  induction s using List.reverseRecOn with
  | nil => simpa using h
  | append_singleton s i ih =>
    rw [← List.append_assoc, ← List.append_assoc]
    exact shortlex_snoc_lt ih i i

namespace IsFirstWalk

/-- The front part of a first walk is the first walk to where it ends. -/
theorem front (h : IsFirstWalk adj a (l ++ l') c) (hfront : IsWalk adj a l b) :
    IsFirstWalk adj a l b := by
  obtain ⟨w, hend, hhops, hleast⟩ := h
  -- the word of the whole, cut where the front part ends
  have hlength : (wordHops adj a w).length = w.length := (isWalk_wordHops hend).2
  have hcut : w = w.take l.length ++ w.drop l.length := (List.take_append_drop ..).symm
  rw [hcut, wordEnd_append] at hend
  obtain ⟨m, hm, hrest⟩ := Option.bind_eq_some_iff.mp hend
  have hsplit : wordHops adj a (w.take l.length) ++ wordHops adj m (w.drop l.length) = l ++ l' := by
    rw [← wordHops_append hm, ← hcut, hhops]
  have htake : (w.take l.length).length = l.length := by
    rw [List.length_take, ← hlength, hhops, List.length_append]
    omega
  obtain ⟨hl, -⟩ := List.append_inj hsplit (by rw [(isWalk_wordHops hm).2, htake])
  have hwalk := (isWalk_wordHops hm).1
  rw [hl] at hwalk
  obtain rfl := hwalk.end_unique hfront
  refine ⟨w.take l.length, hm, hl, ?_⟩
  intro w' hw'
  by_contra hlt
  -- a word that comes first would also come first with the rest of the whole behind it
  have hwhole := shortlex_append_lt (not_le.mp hlt) (w.drop l.length)
  rw [← hcut] at hwhole
  apply absurd (hleast (w' ++ w.drop l.length) ?_) (not_le.mpr hwhole)
  rw [wordEnd_append, hw', Option.bind_some, hrest]

/-- The back part of a first walk has the fewest hops. -/
theorem back_length_le (h : IsFirstWalk adj a (l ++ l') c) (hfront : IsWalk adj a l b)
    {hops : List (Hop V E)} (hback : IsWalk adj b hops c) : l'.length ≤ hops.length := by
  have hwhole := h.length_le (hfront.append hback)
  rw [List.length_append, List.length_append] at hwhole
  omega

end IsFirstWalk

end TopologyFabric.Library

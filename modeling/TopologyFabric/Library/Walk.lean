import Mathlib.Tactic
import Mathlib.Algebra.Order.Field.Rat
import Mathlib.Algebra.Order.BigOperators.Group.List
import Mathlib.Data.Prod.Lex

/-!
# Walks in Labelled Multigraphs

A graph is given by adjacency lists `adj : V → List (V × E)`: the `i`-th entry of `adj u` is
a hop from `u` along a labelled edge. A walk is a list of hops. The same walk can be named by
its *word*, the list of positions taken in the adjacency lists; words are ordered first by
length and then lexicographically (`shortlex`).

Searches keep two maps, `parent` and `via`; `ParentChain` is the walk that following these
maps back to the root spells out.
-/

namespace TopologyFabric.Library

universe u v w

/-- One step of a walk: from `src` to `dst` along the edge labelled `via`. -/
structure Hop (V : Type u) (E : Type v) where
  src : V
  dst : V
  via : E
  deriving DecidableEq, Repr

variable {V : Type u} {E : Type v}

/-- `IsWalk adj a hops b`: the hops lead from `a` to `b`, each one an entry of the adjacency
list of its source. -/
inductive IsWalk (adj : V → List (V × E)) : V → List (Hop V E) → V → Prop where
  | nil (a : V) : IsWalk adj a [] a
  | cons {a b c : V} {e : E} {hops : List (Hop V E)} :
      (b, e) ∈ adj a → IsWalk adj b hops c → IsWalk adj a (⟨a, b, e⟩ :: hops) c

namespace IsWalk

variable {adj : V → List (V × E)} {a b c : V} {e : E} {hops hops' : List (Hop V E)}

theorem append (h : IsWalk adj a hops b) (h' : IsWalk adj b hops' c) :
    IsWalk adj a (hops ++ hops') c := by
  induction h with
  | nil => exact h'
  | cons hmem _ ih => exact .cons hmem (ih h')

theorem snoc (h : IsWalk adj a hops b) (hmem : (c, e) ∈ adj b) :
    IsWalk adj a (hops ++ [⟨b, c, e⟩]) c :=
  h.append (.cons hmem (.nil c))

/-- Walks transfer along an inclusion of adjacency lists. -/
theorem mono {adj' : V → List (V × E)} (hsub : ∀ x p, p ∈ adj x → p ∈ adj' x)
    (h : IsWalk adj a hops b) : IsWalk adj' a hops b := by
  induction h with
  | nil a => exact .nil a
  | cons hmem _ ih => exact .cons (hsub _ _ hmem) ih

/-- A set that the hops never leave holds every node of a walk that starts in it. -/
theorem closed {S : V → Prop} (hS : ∀ x y f, S x → (y, f) ∈ adj x → S y)
    (h : IsWalk adj a hops b) (ha : S a) : S b ∧ ∀ hop ∈ hops, S hop.src ∧ S hop.dst := by
  induction h with
  | nil => exact ⟨ha, by simp⟩
  | @cons a b c e hops hmem _ ih =>
    have hb : S b := hS _ _ _ ha hmem
    obtain ⟨hc, hall⟩ := ih hb
    refine ⟨hc, fun hop hhop => ?_⟩
    rcases List.mem_cons.mp hhop with rfl | hrest
    · exact ⟨ha, hb⟩
    · exact hall hop hrest

theorem mem_adj (h : IsWalk adj a hops b) : ∀ hop ∈ hops, (hop.dst, hop.via) ∈ adj hop.src := by
  induction h with
  | nil => simp
  | cons hmem _ ih => exact List.forall_mem_cons.mpr ⟨hmem, ih⟩

theorem dst_eq_of_nil (h : IsWalk adj a [] b) : a = b := by
  cases h
  rfl

/-- The last hop of a nonempty walk can be split off. -/
theorem exists_snoc (h : IsWalk adj a hops c) (hne : hops ≠ []) :
    ∃ init b e, hops = init ++ [⟨b, c, e⟩] ∧ IsWalk adj a init b ∧ (c, e) ∈ adj b := by
  induction h with
  | nil => exact absurd rfl hne
  | @cons a b c e hops hmem hwalk ih =>
    by_cases hnil : hops = []
    · subst hnil
      obtain rfl := hwalk.dst_eq_of_nil
      exact ⟨[], a, e, rfl, .nil a, hmem⟩
    · obtain ⟨init, d, f, rfl, hinit, hlast⟩ := ih hnil
      exact ⟨⟨a, b, e⟩ :: init, d, f, rfl, .cons hmem hinit, hlast⟩

/-- Walks in a symmetric graph can be turned around. -/
theorem reverse_exists (hsymm : ∀ x y f, (y, f) ∈ adj x → (x, f) ∈ adj y)
    (h : IsWalk adj a hops b) :
    ∃ back, IsWalk adj b back a ∧ back.length = hops.length := by
  induction h with
  | nil a => exact ⟨[], .nil a, rfl⟩
  | cons hmem _ ih =>
    obtain ⟨back, hback, hlen⟩ := ih
    exact ⟨_, hback.snoc (hsymm _ _ _ hmem), by simp [hlen]⟩

end IsWalk

/-- The sum of the hop costs of a walk. -/
def walkCost (cost : V → V → E → ℚ) (hops : List (Hop V E)) : ℚ :=
  (hops.map fun hop => cost hop.src hop.dst hop.via).sum

section WalkCost

variable (cost : V → V → E → ℚ)

@[simp] theorem walkCost_nil : walkCost cost ([] : List (Hop V E)) = 0 := rfl

@[simp] theorem walkCost_cons (hop : Hop V E) (hops : List (Hop V E)) :
    walkCost cost (hop :: hops) = cost hop.src hop.dst hop.via + walkCost cost hops := by
  simp [walkCost]

@[simp] theorem walkCost_append (l l' : List (Hop V E)) :
    walkCost cost (l ++ l') = walkCost cost l + walkCost cost l' := by
  simp [walkCost]

theorem walkCost_nonneg {hops : List (Hop V E)}
    (h : ∀ hop ∈ hops, 0 ≤ cost hop.src hop.dst hop.via) : 0 ≤ walkCost cost hops := by
  refine List.sum_nonneg fun x hx => ?_
  obtain ⟨hop, hhop, rfl⟩ := List.mem_map.mp hx
  exact h hop hhop

theorem walkCost_le_walkCost {cost cost' : V → V → E → ℚ} {hops : List (Hop V E)}
    (h : ∀ hop ∈ hops, cost hop.src hop.dst hop.via ≤ cost' hop.src hop.dst hop.via) :
    walkCost cost hops ≤ walkCost cost' hops :=
  List.sum_le_sum h

/-- Where every hop has a counterpart of the same cost in another graph, every walk has one. -/
theorem IsWalk.transfer {F : Type w} {cost : V → V → E → ℚ} {cost' : V → V → F → ℚ}
    {adj : V → List (V × E)} {adj' : V → List (V × F)} {a b : V} {hops : List (Hop V E)}
    (hhop : ∀ x p, p ∈ adj x → ∃ f, (p.1, f) ∈ adj' x ∧ cost' x p.1 f = cost x p.1 p.2)
    (h : IsWalk adj a hops b) :
    ∃ hops', IsWalk adj' a hops' b ∧ walkCost cost' hops' = walkCost cost hops := by
  induction h with
  | nil a => exact ⟨[], .nil a, rfl⟩
  | cons hmem _ ih =>
    obtain ⟨f, hf, hcost⟩ := hhop _ _ hmem
    obtain ⟨hops', hwalk, hsum⟩ := ih
    exact ⟨_, .cons hf hwalk, by rw [walkCost_cons, walkCost_cons, hcost, hsum]⟩

end WalkCost

/-! ## Words -/

/-- The node that the word `w`, a list of adjacency positions, leads to from `a`. -/
def wordEnd (adj : V → List (V × E)) (a : V) : List ℕ → Option V
  | [] => some a
  | i :: w => (adj a)[i]?.bind fun p => wordEnd adj p.1 w

/-- The hops taken by the word `w` from `a`, as far as its positions exist. -/
def wordHops (adj : V → List (V × E)) (a : V) : List ℕ → List (Hop V E)
  | [] => []
  | i :: w =>
    match (adj a)[i]? with
    | some p => ⟨a, p.1, p.2⟩ :: wordHops adj p.1 w
    | none => []

section Words

variable {adj : V → List (V × E)}

theorem wordEnd_snoc (a : V) (w : List ℕ) (i : ℕ) :
    wordEnd adj a (w ++ [i]) =
      (wordEnd adj a w).bind fun b => (adj b)[i]?.map Prod.fst := by
  induction w generalizing a with
  | nil =>
    simp only [List.nil_append, wordEnd, Option.bind_some]
    cases (adj a)[i]? <;> rfl
  | cons j w ih =>
    simp only [List.cons_append, wordEnd]
    cases (adj a)[j]? with
    | none => rfl
    | some p => exact ih p.1

theorem wordHops_snoc {a b c : V} {e : E} {w : List ℕ} {i : ℕ} (hw : wordEnd adj a w = some b)
    (hi : (adj b)[i]? = some (c, e)) :
    wordHops adj a (w ++ [i]) = wordHops adj a w ++ [⟨b, c, e⟩] := by
  induction w generalizing a with
  | nil =>
    simp only [wordEnd, Option.some.injEq] at hw
    subst hw
    simp [wordHops, hi]
  | cons j w ih =>
    simp only [wordEnd] at hw
    simp only [List.cons_append, wordHops]
    cases hj : (adj a)[j]? with
    | none => rw [hj] at hw; simp at hw
    | some p =>
      rw [hj, Option.bind_some] at hw
      simp [ih hw]

/-- A word that leads somewhere spells out a walk of the same length. -/
theorem isWalk_wordHops {a b : V} {w : List ℕ} (hw : wordEnd adj a w = some b) :
    IsWalk adj a (wordHops adj a w) b ∧ (wordHops adj a w).length = w.length := by
  induction w generalizing a with
  | nil =>
    simp only [wordEnd, Option.some.injEq] at hw
    subst hw
    exact ⟨.nil a, rfl⟩
  | cons i w ih =>
    simp only [wordEnd] at hw
    cases hi : (adj a)[i]? with
    | none => rw [hi] at hw; simp at hw
    | some p =>
      rw [hi, Option.bind_some] at hw
      obtain ⟨hwalk, hlen⟩ := ih hw
      simp only [wordHops, hi, List.length_cons, hlen, and_true]
      exact .cons (List.mem_of_getElem? hi) hwalk

/-- Every walk is spelled out by some word. -/
theorem IsWalk.exists_word {a b : V} {hops : List (Hop V E)} (h : IsWalk adj a hops b) :
    ∃ w, wordEnd adj a w = some b ∧ wordHops adj a w = hops := by
  induction h with
  | nil a => exact ⟨[], rfl, rfl⟩
  | @cons a b c e hops hmem _ ih =>
    obtain ⟨i, hi⟩ := List.getElem?_of_mem hmem
    obtain ⟨w, hend, hhops⟩ := ih
    exact ⟨i :: w, by simp [wordEnd, hi, hend], by simp [wordHops, hi, hhops]⟩

end Words

/-- Words ordered by length and, at equal length, lexicographically. -/
def shortlex (w : List ℕ) : ℕ ×ₗ List ℕ := toLex (w.length, w)

theorem shortlex_injective : Function.Injective shortlex := by
  intro w w' h
  exact (Prod.mk.inj (toLex.injective h)).2

theorem shortlex_lt_iff {w w' : List ℕ} :
    shortlex w < shortlex w' ↔ w.length < w'.length ∨ (w.length = w'.length ∧ w < w') := by
  simp [shortlex, Prod.Lex.toLex_lt_toLex]

theorem shortlex_length_le {w w' : List ℕ} (h : shortlex w ≤ shortlex w') :
    w.length ≤ w'.length := by
  rcases h.lt_or_eq with hlt | heq
  · rcases shortlex_lt_iff.mp hlt with hlen | ⟨hlen, _⟩ <;> omega
  · rw [shortlex_injective heq]

private theorem append_lt_append_of_lt {w w' : List ℕ} (hlen : w.length = w'.length)
    (h : w < w') (u u' : List ℕ) : w ++ u < w' ++ u' := by
  induction w generalizing w' with
  | nil =>
    cases w' with
    | nil => exact absurd h (lt_irrefl _)
    | cons => simp at hlen
  | cons x w ih =>
    cases w' with
    | nil => simp at hlen
    | cons y w' =>
      simp only [List.cons_append, List.cons_lt_cons_iff] at h ⊢
      rcases h with hlt | ⟨rfl, htl⟩
      · exact Or.inl hlt
      · exact Or.inr ⟨rfl, ih (by simpa using hlen) htl⟩

/-- Appending one letter to each side keeps a strict inequality of words. -/
theorem shortlex_snoc_lt {w w' : List ℕ} (h : shortlex w < shortlex w') (i j : ℕ) :
    shortlex (w ++ [i]) < shortlex (w' ++ [j]) := by
  rw [shortlex_lt_iff] at h ⊢
  rcases h with hlen | ⟨hlen, hlt⟩
  · exact Or.inl (by simpa using hlen)
  · exact Or.inr ⟨by simpa using hlen, append_lt_append_of_lt hlen hlt _ _⟩

theorem shortlex_snoc_le {w w' : List ℕ} (h : shortlex w ≤ shortlex w') (i : ℕ) :
    shortlex (w ++ [i]) ≤ shortlex (w' ++ [i]) := by
  rcases h.lt_or_eq with hlt | heq
  · exact (shortlex_snoc_lt hlt i i).le
  · rw [shortlex_injective heq]

theorem shortlex_snoc_lt_of_letter (w : List ℕ) {i j : ℕ} (h : i < j) :
    shortlex (w ++ [i]) < shortlex (w ++ [j]) := by
  rw [shortlex_lt_iff]
  refine Or.inr ⟨by simp, ?_⟩
  induction w with
  | nil => exact List.cons_lt_cons_iff.mpr (Or.inl h)
  | cons x w ih => exact List.cons_lt_cons_iff.mpr (Or.inr ⟨rfl, ih⟩)

theorem shortlex_lt_snoc (w : List ℕ) (i : ℕ) : shortlex w < shortlex (w ++ [i]) :=
  shortlex_lt_iff.mpr (Or.inl (by simp))

/-- `IsFirstWalk adj a hops b`: of all walks from `a` to `b`, `hops` is the one whose word comes
first; in particular none has fewer hops. -/
def IsFirstWalk (adj : V → List (V × E)) (a : V) (hops : List (Hop V E)) (b : V) : Prop :=
  ∃ w, wordEnd adj a w = some b ∧ wordHops adj a w = hops ∧
    ∀ w', wordEnd adj a w' = some b → shortlex w ≤ shortlex w'

namespace IsFirstWalk

variable {adj : V → List (V × E)} {a b : V} {hops hops' : List (Hop V E)}

theorem isWalk (h : IsFirstWalk adj a hops b) : IsWalk adj a hops b := by
  obtain ⟨w, hend, rfl, _⟩ := h
  exact (isWalk_wordHops hend).1

theorem length_le (h : IsFirstWalk adj a hops b) (h' : IsWalk adj a hops' b) :
    hops.length ≤ hops'.length := by
  obtain ⟨w, hend, rfl, hmin⟩ := h
  obtain ⟨w', hend', rfl⟩ := h'.exists_word
  rw [(isWalk_wordHops hend).2, (isWalk_wordHops hend').2]
  exact shortlex_length_le (hmin w' hend')

theorem unique (h : IsFirstWalk adj a hops b) (h' : IsFirstWalk adj a hops' b) :
    hops = hops' := by
  obtain ⟨w, hend, rfl, hmin⟩ := h
  obtain ⟨w', hend', rfl, hmin'⟩ := h'
  rw [shortlex_injective (le_antisymm (hmin w' hend') (hmin' w hend))]

end IsFirstWalk

/-! ## Parent maps -/

/-- `ParentChain parent via root hops v`: following `parent` and `via` back from `v` reaches
`root` and spells out `hops`. -/
inductive ParentChain (parent : V → Option V) (via : V → Option E) (root : V) :
    List (Hop V E) → V → Prop where
  | root : ParentChain parent via root [] root
  | snoc {hops : List (Hop V E)} {u v : V} {e : E} :
      ParentChain parent via root hops u → v ≠ root → parent v = some u → via v = some e →
      ParentChain parent via root (hops ++ [⟨u, v, e⟩]) v

/-- Following a parent chain does not look at a node that is neither its end nor one of its
sources. -/
theorem ParentChain.update [DecidableEq V] {parent : V → Option V} {via : V → Option E}
    {root x y : V} {hops : List (Hop V E)} (h : ParentChain parent via root hops y) (hyx : y ≠ x)
    (hsrc : ∀ hop ∈ hops, hop.src ≠ x) (a : Option V) (b : Option E) :
    ParentChain (Function.update parent x a) (Function.update via x b) root hops y := by
  induction h with
  | root => exact .root
  | @snoc hops u y e hchain hne hp hv ih =>
    have hux : u ≠ x := hsrc ⟨u, y, e⟩ (by simp)
    refine .snoc (ih hux fun hop hhop => hsrc hop (by simp [hhop])) hne ?_ ?_
    · rw [Function.update_of_ne hyx, hp]
    · rw [Function.update_of_ne hyx, hv]

end TopologyFabric.Library

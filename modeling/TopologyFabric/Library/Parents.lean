import TopologyFabric.Library.Traps

/-!
# Parents That Lead Back to the Root

A search that corrects labels may give a node a parent behind it, and then the parents go round in a
circle. They do not as long as no node on the way back from the node that is expanded gets a better
value.

## Main result

- `Rooted.scan`: scanning the adjacency list of a node keeps the parents rooted, if no entry improves
  a node on the way back from it
-/

namespace TopologyFabric.Library.LabelCorrecting

open BestFirst

universe u v w

variable {V : Type u} {E : Type v} {D : Type w}

/-! ## Chains -/

section Chains

variable {parent : V → Option V} {via : V → Option E} {root x : V} {A C H H' : List (Hop V E)}
  {hop : Hop V E}

theorem chain_snoc (h : ParentChain parent via root (H ++ [hop]) x) :
    ParentChain parent via root H hop.src ∧ hop.dst = x ∧ x ≠ root ∧
      parent x = some hop.src ∧ via x = some hop.via := by
  obtain ⟨l, hl⟩ : ∃ l, l = H ++ [hop] := ⟨_, rfl⟩
  rw [← hl] at h
  cases h with
  | root => simp at hl
  | snoc hchain hne hp hv =>
    obtain ⟨rfl, hhop⟩ := List.append_inj' hl rfl
    obtain rfl := List.singleton_inj.mp hhop
    exact ⟨hchain, rfl, hne, hp, hv⟩

theorem chain_end (h : ParentChain parent via root H x) : walkEnd root H = x := by
  cases h with
  | root => rfl
  | snoc _ _ _ _ => exact walkEnd_snoc ..

theorem chain_ne_root (h : ParentChain parent via root H x) (hne : H ≠ []) : x ≠ root := by
  cases h with
  | root => exact absurd rfl hne
  | snoc _ hroot _ _ => exact hroot

/-- The way back from a node of a chain is the part of the chain before it. -/
theorem chain_append_left (h : ParentChain parent via root (A ++ C) x) :
    ParentChain parent via root A (walkEnd root A) := by
  induction C using List.reverseRecOn generalizing x with
  | nil =>
    rw [List.append_nil] at h
    rwa [chain_end h]
  | append_singleton C hop ih =>
    rw [← List.append_assoc] at h
    exact ih (chain_snoc h).1

/-- A node has one way back. -/
theorem chain_unique (h : ParentChain parent via root H x) (h' : ParentChain parent via root H' x) :
    H = H' := by
  induction h generalizing H' with
  | root =>
    cases h' with
    | root => rfl
    | snoc _ hne _ _ => exact absurd rfl hne
  | snoc _ hne hp hv ih =>
    cases h' with
    | root => exact absurd rfl hne
    | snoc hchain' _ hp' hv' =>
      obtain rfl := Option.some.inj (hp.symm.trans hp')
      obtain rfl := Option.some.inj (hv.symm.trans hv')
      rw [ih hchain']

variable [DecidableEq V]

/-- The way back ends in the root, so it does not look at the parent of the root. -/
theorem chain_update_root (h : ParentChain parent via root H x) (a : Option V) (b : Option E) :
    ParentChain (Function.update parent root a) (Function.update via root b) root H x := by
  induction h with
  | root => exact .root
  | snoc _ hne hp hv ih =>
    refine .snoc ih hne ?_ ?_
    · rw [Function.update_of_ne hne, hp]
    · rw [Function.update_of_ne hne, hv]

/-- When a node gets a parent whose way back is intact, all ways back are. -/
theorem chain_reroute {y u : V} {e : E} (h : ParentChain parent via root H x)
    (hu : ParentChain (Function.update parent y (some u)) (Function.update via y (some e)) root A
      u) :
    ∃ H', ParentChain (Function.update parent y (some u)) (Function.update via y (some e)) root
      H' x := by
  induction h with
  | root => exact ⟨[], .root⟩
  | @snoc H v x i _ hne hp hv ih =>
    by_cases hxy : x = y
    · -- the way back goes through the new parent
      subst hxy
      exact ⟨_, hu.snoc hne (Function.update_self ..) (Function.update_self ..)⟩
    · obtain ⟨H', hH'⟩ := ih
      refine ⟨H' ++ [⟨v, x, i⟩], hH'.snoc hne ?_ ?_⟩
      · rw [Function.update_of_ne hxy, hp]
      · rw [Function.update_of_ne hxy, hv]

end Chains

/-! ## Rooted parents -/

variable [LinearOrder V] [LinearOrder D]

/-- The parents of every node with a value lead back to the root. -/
def Rooted (root : V) (s : State V E D) : Prop :=
  ∀ x d, s.dist x = some d → ∃ H, ParentChain s.parent s.via root H x

/-- The way back from `u` is `H`, and no adjacency entry of `u`, which was popped at value `d`,
improves a node on it. -/
def Firm (adj : V → List (V × E)) (extend : D → V → V → E → D) (root u : V) (d : D)
    (H : List (Hop V E)) (s : State V E D) : Prop :=
  ParentChain s.parent s.via root H u ∧
    ∀ A, A <+: H → A ≠ [] → ∀ e, (walkEnd root A, e) ∈ adj u →
      ∃ old, s.dist (walkEnd root A) = some old ∧ old ≤ extend d u (walkEnd root A) e

section Rooted

variable {adj : V → List (V × E)} {extend : D → V → V → E → D} {root u : V} {d : D}
  {H : List (Hop V E)} {s : State V E D} {p : V × E}

omit [LinearOrder D] in
theorem rooted_init (start : D) (root : V) : Rooted root (init start root : State V E D) := by
  intro x d hx
  by_cases hroot : x = root
  · subst hroot
    exact ⟨[], .root⟩
  · simp [init, Function.update_of_ne hroot] at hx

/-- A node whose value is improved is not on the way back, unless it is the root. -/
theorem Firm.update (h : Firm adj extend root u d H s) (hp : p ∈ adj u)
    (hlt : ∀ old, s.dist p.1 = some old → extend d u p.1 p.2 < old) (a : Option V) (b : Option E) :
    ParentChain (Function.update s.parent p.1 a) (Function.update s.via p.1 b) root H u := by
  obtain ⟨hchain, hfirm⟩ := h
  by_cases hroot : p.1 = root
  · rw [hroot]
    exact chain_update_root hchain a b
  have hoff : ∀ A, A <+: H → walkEnd root A ≠ p.1 := by
    intro A hA hend
    by_cases hnil : A = []
    · subst hnil
      exact hroot hend.symm
    · obtain ⟨old, hold, hle⟩ := hfirm A hA hnil p.2 (by rwa [hend])
      rw [hend] at hold hle
      exact absurd (hlt old hold) (not_lt.mpr hle)
  refine hchain.update ?_ (fun hop hhop => ?_) a b
  · rw [← chain_end hchain]
    exact hoff H List.prefix_rfl
  · -- the source of a hop is the end of the part before it
    obtain ⟨l, r, rfl⟩ := List.append_of_mem hhop
    have hhere : ParentChain s.parent s.via root (l ++ [hop]) (walkEnd root (l ++ [hop])) :=
      chain_append_left (C := r) (by simpa using hchain)
    rw [← chain_end (chain_snoc hhere).1]
    exact hoff l (List.prefix_append ..)

/-- Relaxing one entry keeps the ways back. -/
theorem Rooted.relax (h : Rooted root s) (hfirm : Firm adj extend root u d H s) (hp : p ∈ adj u) :
    Rooted root (BestFirst.relax extend u d s p) ∧
      Firm adj extend root u d H (BestFirst.relax extend u d s p) := by
  rcases relax_cases extend u d s p with ⟨hlt, hs⟩ | ⟨-, hs⟩
  swap
  · rw [hs]
    exact ⟨h, hfirm⟩
  rw [hs]
  have hu := hfirm.update hp hlt (some u) (some p.2)
  refine ⟨fun x c hx => ?_, hu, fun A hA hne e he => ?_⟩
  · by_cases hxp : x = p.1
    · subst hxp
      by_cases hroot : p.1 = root
      · rw [hroot]
        exact ⟨[], .root⟩
      · exact ⟨_, hu.snoc hroot (Function.update_self ..) (Function.update_self ..)⟩
    · rw [State.dist_improve_of_ne hxp] at hx
      obtain ⟨Hx, hHx⟩ := h x c hx
      exact chain_reroute hHx hu
  · obtain ⟨old, hold, hle⟩ := hfirm.2 A hA hne e he
    exact improve_le hlt hold hle

/-- Scanning the adjacency list of a node keeps the ways back, if no entry improves a node on the way
back from it. -/
theorem Rooted.scan (h : Rooted root s) (hfirm : Firm adj extend root u d H s) :
    Rooted root ((adj u).foldl (BestFirst.relax extend u d) s) := by
  suffices hall : ∀ (l : List (V × E)) (s : State V E D), (∀ p ∈ l, p ∈ adj u) → Rooted root s →
      Firm adj extend root u d H s → Rooted root (l.foldl (BestFirst.relax extend u d) s) from
    hall _ s (fun _ hp => hp) h hfirm
  intro l
  induction l with
  | nil => exact fun _ _ h _ => h
  | cons p l ih =>
    intro s hl h hfirm
    rw [List.forall_mem_cons] at hl
    obtain ⟨h', hfirm'⟩ := h.relax hfirm hl.1
    exact ih _ hl.2 h' hfirm'

end Rooted

end TopologyFabric.Library.LabelCorrecting

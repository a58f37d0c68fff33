import Mathlib.Tactic
import Mathlib.Order.Filter.AtTopBot.Basic

/-!
# Outcomes of Running Code

A run of imperative code returns, throws, or is still looping when its step budget ends.
`Outcome` is that three-way result with its monad structure, and `loop` is a `while` loop
under a step budget.

## Main results

- `Returns.bind`: composition of computations that return for every large enough budget
- `loop_total`: invariant plus well-founded variant give termination and a postcondition
- `loop_diverges`: an invariant that never exits keeps the loop running for every budget
- `KeepsResult.returns`: where larger budgets keep results, one budget is enough
-/

namespace TopologyFabric.Library

universe u v w x y

/-- How a run ends: it returns `a`, it throws `e`, or its step budget is used up. -/
inductive Outcome (ε : Type u) (α : Type v) where
  | ok (a : α)
  | throws (e : ε)
  | stuck
  deriving DecidableEq, Repr

namespace Outcome

variable {ε : Type u} {α : Type v} {β : Type w} {γ : Type x}

/-- Sequencing: only a normal return goes on. -/
def bind (x : Outcome ε α) (f : α → Outcome ε β) : Outcome ε β :=
  match x with
  | .ok a => f a
  | .throws e => .throws e
  | .stuck => .stuck

instance : Monad (Outcome ε) where
  pure := .ok
  bind := Outcome.bind

instance : LawfulMonad (Outcome ε) :=
  LawfulMonad.mk' (Outcome ε) (fun x => by cases x <;> rfl) (fun _ _ => rfl)
    fun x _ _ => by cases x <;> rfl

@[simp] theorem pure_eq_ok {α : Type v} (a : α) : (pure a : Outcome ε α) = .ok a := rfl

@[simp] theorem ok_bind {α β : Type v} (a : α) (f : α → Outcome ε β) :
    ((Outcome.ok a : Outcome ε α) >>= f) = f a := rfl

@[simp] theorem throws_bind {α β : Type v} (e : ε) (f : α → Outcome ε β) :
    ((Outcome.throws e : Outcome ε α) >>= f) = .throws e := rfl

@[simp] theorem stuck_bind {α β : Type v} (f : α → Outcome ε β) :
    ((Outcome.stuck : Outcome ε α) >>= f) = .stuck := rfl

theorem bind_eq_ok {α β : Type v} {x : Outcome ε α} {f : α → Outcome ε β} {b : β} :
    (x >>= f) = .ok b ↔ ∃ a, x = .ok a ∧ f a = .ok b := by
  cases x <;> simp

/-- A fold whose steps all return is the pure fold. -/
theorem foldlM_ok {α β : Type v} {f : β → α → Outcome ε β} {g : β → α → β} {P : α → Prop}
    (hstep : ∀ b a, P a → f b a = .ok (g b a)) :
    ∀ (l : List α) (b : β), (∀ a ∈ l, P a) → l.foldlM f b = .ok (l.foldl g b) := by
  intro l
  induction l with
  | nil => intro b _; rfl
  | cons a l ih =>
    intro b hP
    have ha : P a := hP a (List.mem_cons_self ..)
    simp only [List.foldlM_cons, hstep b a ha, ok_bind, List.foldl_cons]
    exact ih _ fun c hc => hP c (List.mem_cons_of_mem _ hc)

/-- A fold returns when every step does. -/
theorem foldlM_returns {α β : Type v} {f : β → α → Outcome ε β} {P : α → Prop}
    (hstep : ∀ b a, P a → ∃ b', f b a = .ok b') :
    ∀ (l : List α) (b : β), (∀ a ∈ l, P a) → ∃ b', l.foldlM f b = .ok b' := by
  intro l
  induction l with
  | nil => intro b _; exact ⟨b, rfl⟩
  | cons a l ih =>
    intro b hP
    obtain ⟨b', hb'⟩ := hstep b a (hP a (List.mem_cons_self ..))
    simp only [List.foldlM_cons, hb', ok_bind]
    exact ih b' fun c hc => hP c (List.mem_cons_of_mem _ hc)

/-- What the steps of a fold that returns keep holds in the end. -/
theorem foldlM_partial_mem {α β : Type v} {f : β → α → Outcome ε β} {P : β → Prop} {l : List α}
    (hstep : ∀ b b', ∀ a ∈ l, P b → f b a = .ok b' → P b') {b r : β} (hb : P b)
    (h : l.foldlM f b = .ok r) : P r := by
  induction l generalizing b with
  | nil => exact Outcome.ok.inj h ▸ hb
  | cons a l ih =>
    rw [List.foldlM_cons] at h
    obtain ⟨c, hc, hrest⟩ := bind_eq_ok.mp h
    exact ih (fun b b' a' ha' => hstep b b' a' (List.mem_cons_of_mem _ ha'))
      (hstep b c a (List.mem_cons_self ..) hb hc) hrest

/-- In a fold that returns every step has returned. -/
theorem step_of_foldlM {α β : Type v} {f : β → α → Outcome ε β} {l : List α} {b r : β}
    (h : l.foldlM f b = .ok r) : ∀ a ∈ l, ∃ c c', f c a = .ok c' := by
  induction l generalizing b with
  | nil => simp
  | cons x l ih =>
    rw [List.foldlM_cons] at h
    obtain ⟨c, hc, hrest⟩ := bind_eq_ok.mp h
    intro a ha
    rcases List.mem_cons.mp ha with rfl | ha
    · exact ⟨b, c, hc⟩
    · exact ih hrest a ha

end Outcome

open Outcome

variable {ε : Type u} {σ : Type v} {ρ : Type w}

/-! ## Computations under a step budget -/

/-- `f` returns `a` as soon as its step budget is large enough. -/
def Returns (f : ℕ → Outcome ε ρ) (a : ρ) : Prop :=
  ∀ᶠ n in Filter.atTop, f n = .ok a

/-- `f` never finishes, whatever its step budget. -/
def Diverges (f : ℕ → Outcome ε ρ) : Prop :=
  ∀ n, f n = .stuck

theorem Returns.pure (a : ρ) : Returns (fun _ => (.ok a : Outcome ε ρ)) a :=
  Filter.Eventually.of_forall fun _ => rfl

theorem Returns.unique {f : ℕ → Outcome ε ρ} {a b : ρ} (ha : Returns f a) (hb : Returns f b) :
    a = b := by
  obtain ⟨n, hna, hnb⟩ := (ha.and hb).exists
  exact Outcome.ok.inj (hna.symm.trans hnb)

theorem Returns.not_diverges {f : ℕ → Outcome ε ρ} {a : ρ}
    (ha : Returns f a) (hd : Diverges f) : False := by
  obtain ⟨n, hn⟩ := ha.exists
  simp [hd n] at hn

theorem Returns.bind {α : Type w} {f : ℕ → Outcome ε α} {g : ℕ → α → Outcome ε ρ} {a : α} {b : ρ}
    (hf : Returns f a) (hg : Returns (fun n => g n a) b) :
    Returns (fun n => f n >>= g n) b := by
  filter_upwards [hf, hg] with n hn hm
  rw [hn, ok_bind, hm]

theorem Diverges.bind {α : Type w} {f : ℕ → Outcome ε α} {g : ℕ → α → Outcome ε ρ}
    (hf : Diverges f) : Diverges (fun n => f n >>= g n) := by
  intro n
  simp only [hf n, stuck_bind]

theorem Returns.congr {f g : ℕ → Outcome ε ρ} {a : ρ} (hfg : ∀ n, f n = g n)
    (hf : Returns f a) : Returns g a := by
  filter_upwards [hf] with n hn
  rw [← hfg n, hn]

/-- The computation returns some value. -/
def Finishes (f : ℕ → Outcome ε ρ) : Prop := ∃ a, Returns f a

theorem Returns.finishes {f : ℕ → Outcome ε ρ} {a : ρ} (h : Returns f a) : Finishes f := ⟨a, h⟩

theorem Finishes.ok (a : ρ) : Finishes (fun _ => (.ok a : Outcome ε ρ)) := ⟨a, Returns.pure a⟩

theorem Finishes.bind {α : Type w} {f : ℕ → Outcome ε α} {g : ℕ → α → Outcome ε ρ}
    (hf : Finishes f) (hg : ∀ a, Returns f a → Finishes fun n => g n a) :
    Finishes fun n => f n >>= g n := by
  obtain ⟨a, ha⟩ := hf
  obtain ⟨b, hb⟩ := hg a ha
  exact ⟨b, ha.bind hb⟩

/-- Binding a call that takes no budget. -/
theorem Finishes.ok_bind {α : Type w} {x : Outcome ε α} {g : ℕ → α → Outcome ε ρ} {a : α}
    (hx : x = .ok a) (hg : Finishes fun n => g n a) : Finishes fun n => x >>= g n := by
  subst hx
  exact hg

theorem Finishes.ite {P : Prop} [Decidable P] {f g : ℕ → Outcome ε ρ}
    (hf : P → Finishes f) (hg : ¬ P → Finishes g) :
    Finishes fun n => if P then f n else g n := by
  by_cases h : P
  · simpa only [if_pos h] using hf h
  · simpa only [if_neg h] using hg h

/-- A fold of computations returns when every step returns from the states of an invariant. -/
theorem Returns.foldlM {α : Type w} {f : ℕ → ρ → α → Outcome ε ρ} {P : α → Prop} {I : ρ → Prop}
    (hstep : ∀ b a, P a → I b → ∃ b', Returns (fun n => f n b a) b' ∧ I b') :
    ∀ (l : List α) (b : ρ), (∀ a ∈ l, P a) → I b →
      ∃ b', Returns (fun n => l.foldlM (f n) b) b' ∧ I b' := by
  intro l
  induction l with
  | nil => intro b _ hb; exact ⟨b, Returns.pure b, hb⟩
  | cons a l ih =>
    intro b hP hb
    obtain ⟨b₁, h₁, hb₁⟩ := hstep b a (hP a (List.mem_cons_self ..)) hb
    obtain ⟨b₂, h₂, hb₂⟩ := ih b₁ (fun c hc => hP c (List.mem_cons_of_mem _ hc)) hb₁
    exact ⟨b₂, Returns.bind h₁ h₂, hb₂⟩

/-! ## Loops -/

/-- `while` loop under a step budget: `inl` goes round again, `inr` leaves the loop. -/
def loop (step : σ → Outcome ε (σ ⊕ ρ)) : ℕ → σ → Outcome ε ρ
  | 0, _ => .stuck
  | n + 1, s =>
    match step s with
    | .ok (.inl s') => loop step n s'
    | .ok (.inr r) => .ok r
    | .throws e => .throws e
    | .stuck => .stuck

section Rules

variable {step : σ → Outcome ε (σ ⊕ ρ)}

theorem loop_succ_inl {s s' : σ} (h : step s = .ok (.inl s')) (n : ℕ) :
    loop step (n + 1) s = loop step n s' := by
  simp only [loop, h]

theorem loop_succ_inr {s : σ} {r : ρ} (h : step s = .ok (.inr r)) (n : ℕ) :
    loop step (n + 1) s = .ok r := by
  simp only [loop, h]

theorem loop_succ_throws {s : σ} {e : ε} (h : step s = .throws e) (n : ℕ) :
    loop step (n + 1) s = .throws e := by
  simp only [loop, h]

/-- A loop that returns goes round first or leaves at once. -/
theorem loop_eq_ok {n : ℕ} {s : σ} {r : ρ} (h : loop step n s = .ok r) :
    ∃ m, n = m + 1 ∧
      ((∃ s', step s = .ok (.inl s') ∧ loop step m s' = .ok r) ∨ step s = .ok (.inr r)) := by
  cases n with
  | zero => simp [loop] at h
  | succ m =>
    refine ⟨m, rfl, ?_⟩
    cases hst : step s with
    | ok t =>
      cases t with
      | inl s' => exact Or.inl ⟨s', rfl, (loop_succ_inl hst m).symm.trans h⟩
      | inr r' =>
        obtain rfl := Outcome.ok.inj ((loop_succ_inr hst m).symm.trans h)
        exact Or.inr rfl
    | throws e => rw [loop_succ_throws hst] at h; simp at h
    | stuck => simp [loop, hst] at h

theorem Returns.loop_inl {s s' : σ} {r : ρ} (h : step s = .ok (.inl s'))
    (hs : Returns (loop step · s') r) : Returns (loop step · s) r := by
  obtain ⟨N, hN⟩ := Filter.eventually_atTop.mp hs
  refine Filter.eventually_atTop.mpr ⟨N + 1, fun n hn => ?_⟩
  obtain ⟨m, rfl⟩ : ∃ m, n = m + 1 := ⟨n - 1, by omega⟩
  exact (loop_succ_inl h m).trans (hN m (by omega))

theorem Returns.loop_inr {s : σ} {r : ρ} (h : step s = .ok (.inr r)) :
    Returns (loop step · s) r := by
  refine Filter.eventually_atTop.mpr ⟨1, fun n hn => ?_⟩
  obtain ⟨m, rfl⟩ : ∃ m, n = m + 1 := ⟨n - 1, by omega⟩
  exact loop_succ_inr h m

/-- Total correctness. The invariant is indexed by a ghost variant: from every state of the
invariant the step either leaves the loop with a result that satisfies `Q`, or keeps the
invariant at a smaller index. -/
theorem loop_total {ι : Type*} {R : ι → ι → Prop} (hR : WellFounded R) (Inv : ι → σ → Prop)
    {Q : ρ → Prop}
    (hstep : ∀ i s, Inv i s →
      (∃ s' j, step s = .ok (.inl s') ∧ Inv j s' ∧ R j i) ∨
        (∃ r, step s = .ok (.inr r) ∧ Q r)) :
    ∀ i s, Inv i s → ∃ r, Q r ∧ Returns (loop step · s) r := by
  intro i
  induction i using hR.induction with
  | _ i ih =>
    intro s hs
    rcases hstep i s hs with ⟨s', j, hs', hinv, hlt⟩ | ⟨r, hr, hq⟩
    · obtain ⟨r, hq, hret⟩ := ih j hlt s' hinv
      exact ⟨r, hq, hret.loop_inl hs'⟩
    · exact ⟨r, hq, Returns.loop_inr hr⟩

/-- A variant for `loop_total`: a round that marks a new element of a finite set leaves fewer
unmarked ones. -/
theorem card_unmarked_lt {V : Type*} [DecidableEq V] {U : Finset V} {x : V} {marked : List V}
    (hx : x ∈ U) (hnew : x ∉ marked) :
    (U \ (x :: marked).toFinset).card < (U \ marked.toFinset).card := by
  rw [List.toFinset_cons, Finset.sdiff_insert]
  apply Finset.card_erase_lt_of_mem
  exact Finset.mem_sdiff.mpr ⟨hx, fun h => hnew (List.mem_toFinset.mp h)⟩

/-- Partial correctness: what the invariant gives at the exit holds of the returned value. -/
theorem loop_partial {Inv : σ → Prop} {Q : ρ → Prop}
    (hstep : ∀ s, Inv s → ∀ s', step s = .ok (.inl s') → Inv s')
    (hexit : ∀ s, Inv s → ∀ r, step s = .ok (.inr r) → Q r) :
    ∀ n s, Inv s → ∀ r, loop step n s = .ok r → Q r := by
  intro n
  induction n with
  | zero => intro s _ r h; simp [loop] at h
  | succ n ih =>
    intro s hs r h
    obtain ⟨m, hm, ⟨s', hs', hloop⟩ | hr⟩ := loop_eq_ok h
    · obtain rfl := Nat.succ.inj hm
      exact ih s' (hstep s hs s' hs') r hloop
    · exact hexit s hs r hr

/-- An invariant under which the step always goes round again keeps the loop running. -/
theorem loop_diverges {Inv : σ → Prop}
    (hstep : ∀ s, Inv s → ∃ s', step s = .ok (.inl s') ∧ Inv s') :
    ∀ s, Inv s → Diverges (loop step · s) := by
  intro s hs n
  induction n generalizing s with
  | zero => rfl
  | succ n ih =>
    obtain ⟨s', hs', hinv⟩ := hstep s hs
    exact (loop_succ_inl hs' n).trans (ih s' hinv)

/-- A larger budget does not change the result. -/
theorem loop_mono {n m : ℕ} (hnm : n ≤ m) {s : σ} {r : ρ} (h : loop step n s = .ok r) :
    loop step m s = .ok r := by
  induction n generalizing m s with
  | zero => simp [loop] at h
  | succ n ih =>
    obtain ⟨m, rfl⟩ : ∃ k, m = k + 1 := ⟨m - 1, by omega⟩
    cases hst : step s with
    | ok t =>
      cases t with
      | inl s' =>
        rw [loop_succ_inl hst] at h ⊢
        exact ih (by omega) h
      | inr a =>
        rw [loop_succ_inr hst] at h ⊢
        exact h
    | throws e => rw [loop_succ_throws hst] at h; simp at h
    | stuck => simp [loop, hst] at h

theorem Returns.of_loop {n : ℕ} {s : σ} {r : ρ} (h : loop step n s = .ok r) :
    Returns (loop step · s) r :=
  Filter.eventually_atTop.mpr ⟨n, fun _ hm => loop_mono hm h⟩

/-- A result that is there stays the same with a larger budget. -/
def KeepsResult (f : ℕ → Outcome ε ρ) : Prop := ∀ n m a, n ≤ m → f n = .ok a → f m = .ok a

theorem keepsResult_const (x : Outcome ε ρ) : KeepsResult fun _ => x := fun _ _ _ _ h => h

theorem KeepsResult.bind {α : Type w} {f : ℕ → Outcome ε α} {g : ℕ → α → Outcome ε ρ}
    (hf : KeepsResult f) (hg : ∀ a, KeepsResult fun n => g n a) :
    KeepsResult fun n => f n >>= g n := by
  intro n m b hnm h
  obtain ⟨a, ha, hb⟩ := bind_eq_ok.mp h
  exact bind_eq_ok.mpr ⟨a, hf n m a hnm ha, hg a n m b hnm hb⟩

theorem KeepsResult.ite {P : Prop} [Decidable P] {f g : ℕ → Outcome ε ρ} (hf : KeepsResult f)
    (hg : KeepsResult g) : KeepsResult fun n => if P then f n else g n := by
  by_cases h : P
  · simpa only [if_pos h] using hf
  · simpa only [if_neg h] using hg

/-- A fold of steps that keep their results. -/
theorem KeepsResult.foldlM {α : Type w} {f : ℕ → ρ → α → Outcome ε ρ}
    (hf : ∀ b a, KeepsResult fun n => f n b a) (l : List α) (b : ρ) :
    KeepsResult fun n => l.foldlM (f n) b := by
  induction l generalizing b with
  | nil => exact keepsResult_const _
  | cons a l ih => exact (hf b a).bind fun b' => ih b'

/-- Total correctness with a numeric variant, which is also a sufficient budget. -/
theorem loop_bounded (Inv : ℕ → σ → Prop) {Q : ρ → Prop}
    (hstep : ∀ i s, Inv i s →
      (∃ s' j, step s = .ok (.inl s') ∧ Inv j s' ∧ j < i) ∨
        (∃ r, step s = .ok (.inr r) ∧ Q r)) :
    ∀ i s, Inv i s → ∃ r, Q r ∧ loop step (i + 1) s = .ok r := by
  intro i
  induction i using Nat.strongRecOn with
  | _ i ih =>
    intro s hs
    rcases hstep i s hs with ⟨s', j, hs', hinv, hlt⟩ | ⟨r, hr, hq⟩
    · obtain ⟨r, hq, hloop⟩ := ih j hlt s' hinv
      exact ⟨r, hq, (loop_succ_inl hs' i).trans (loop_mono (by omega) hloop)⟩
    · exact ⟨r, hq, loop_succ_inr hr i⟩

/-- Simulation: when every round of one loop is matched by a round of the other, the other loop
returns a matching result under the same budget. The two may throw different exceptions. -/
theorem loop_simulate {ε' : Type y} {σ' : Type v} {ρ' : Type w} {step' : σ' → Outcome ε' (σ' ⊕ ρ')}
    {R : σ → σ' → Prop} {Q : ρ → ρ' → Prop}
    (hinl : ∀ s s' t, R s s' → step s = .ok (.inl t) → ∃ t', step' s' = .ok (.inl t') ∧ R t t')
    (hinr : ∀ s s' r, R s s' → step s = .ok (.inr r) → ∃ r', step' s' = .ok (.inr r') ∧ Q r r')
    {n : ℕ} {s : σ} {s' : σ'} {r : ρ} (hs : R s s') (h : loop step n s = .ok r) :
    ∃ r', Q r r' ∧ loop step' n s' = .ok r' := by
  -- both loops take the same number of rounds
  induction n generalizing s s' with
  | zero => simp [loop] at h
  | succ n ih =>
    cases hst : step s with
    | ok t =>
      cases t with
      | inl t =>
        rw [loop_succ_inl hst] at h
        obtain ⟨t', ht', hR⟩ := hinl s s' t hs hst
        obtain ⟨r', hQ, hloop⟩ := ih hR h
        exact ⟨r', hQ, (loop_succ_inl ht' n).trans hloop⟩
      | inr a =>
        rw [loop_succ_inr hst] at h
        obtain rfl := Outcome.ok.inj h
        obtain ⟨r', hr', hQ⟩ := hinr s s' a hs hst
        exact ⟨r', hQ, loop_succ_inr hr' n⟩
    | throws e => rw [loop_succ_throws hst] at h; simp at h
    | stuck => simp [loop, hst] at h

theorem Returns.simulate {σ' : Type v} {ρ' : Type w} {step' : σ' → Outcome ε (σ' ⊕ ρ')}
    {R : σ → σ' → Prop} {Q : ρ → ρ' → Prop}
    (hinl : ∀ s s' t, R s s' → step s = .ok (.inl t) → ∃ t', step' s' = .ok (.inl t') ∧ R t t')
    (hinr : ∀ s s' r, R s s' → step s = .ok (.inr r) → ∃ r', step' s' = .ok (.inr r') ∧ Q r r')
    {s : σ} {s' : σ'} {r : ρ} (hs : R s s') (h : Returns (loop step · s) r) :
    ∃ r', Q r r' ∧ Returns (loop step' · s') r' := by
  obtain ⟨n, hn⟩ := h.exists
  obtain ⟨r', hQ, hloop⟩ := loop_simulate hinl hinr hs hn
  exact ⟨r', hQ, Filter.eventually_atTop.mpr ⟨n, fun m hm => loop_mono hm hloop⟩⟩

/-- A loop that matches every round of a diverging one diverges. -/
theorem Diverges.simulate {σ' : Type v} {ρ' : Type w} {step' : σ' → Outcome ε (σ' ⊕ ρ')}
    {R : σ → σ' → Prop} (hok : ∀ s, ∃ t, step s = .ok t)
    (hinl : ∀ s s' t, R s s' → step s = .ok (.inl t) → ∃ t', step' s' = .ok (.inl t') ∧ R t t')
    {s : σ} {s' : σ'} (hs : R s s') (h : Diverges (loop step · s)) :
    Diverges (loop step' · s') := by
  intro n
  induction n generalizing s s' with
  | zero => rfl
  | succ n ih =>
    -- a loop that diverges never returns, so its step goes on
    obtain ⟨t, ht⟩ := hok s
    cases t with
    | inl t =>
      obtain ⟨t', ht', hR⟩ := hinl s s' t hs ht
      have hrest : Diverges (loop step · t) := fun m => (loop_succ_inl ht m).symm.trans (h (m + 1))
      exact (loop_succ_inl ht' n).trans (ih hR hrest)
    | inr r =>
      have hret := (loop_succ_inr ht 0).symm.trans (h 1)
      simp at hret

end Rules

end TopologyFabric.Library

import Mathlib.Data.List.Basic
import Mathlib.Tactic.Common

/-!
# Version Numbers

A log whose entries carry a version number. An entry has the version of the one before it, plus one
where the two are found to differ, so only neighbours are ever compared. When not to differ is
transitive, the version identifies the content over any distance.

## Main results

- `Versioned.version_add`: the versions of two entries are apart by the changes between them
- `Versioned.unchanged_of_version_eq`: entries with one version do not differ
- `exists_step_of_composed`: what is reported over a distance is reported by neighbours
-/

namespace TopologyFabric.Library

variable {α : Type*} {version : α → ℕ} {changed : α → α → Bool} {log : List α}

/-- Every entry has the version that the one before it asks for. -/
def Versioned (version : α → ℕ) (changed : α → α → Bool) (log : List α) : Prop :=
  ∀ k a b, log[k]? = some a → log[k + 1]? = some b →
    version b = if changed a b then version a + 1 else version a

/-- Whether the log changes from entry `k` to the next one. -/
def changesAt (changed : α → α → Bool) (log : List α) (k : ℕ) : Bool :=
  match log[k]?, log[k + 1]? with
  | some a, some b => changed a b
  | _, _ => false

/-- The number of changes in the `n` moves that start at entry `i`. -/
def changesFrom (changed : α → α → Bool) (log : List α) (i n : ℕ) : ℕ :=
  (List.range n).countP fun k => changesAt changed log (i + k)

@[simp] theorem changesFrom_zero (i : ℕ) : changesFrom changed log i 0 = 0 := rfl

theorem changesFrom_succ (i n : ℕ) : changesFrom changed log i (n + 1) =
    changesFrom changed log i n + if changesAt changed log (i + n) then 1 else 0 := by
  simp [changesFrom, List.range_succ, List.countP_append, List.countP_singleton]

theorem changesAt_of_some {k : ℕ} {a b : α} (ha : log[k]? = some a) (hb : log[k + 1]? = some b) :
    changesAt changed log k = changed a b := by
  simp only [changesAt, ha, hb]

/-- An entry in front of another one is there. -/
private theorem exists_previous {k : ℕ} {b : α} (hb : log[k + 1]? = some b) :
    ∃ a, log[k]? = some a := by
  obtain ⟨hlt, -⟩ := List.getElem?_eq_some_iff.mp hb
  exact ⟨log[k], List.getElem?_eq_getElem (by omega)⟩

/-- What two entries report of each other, when a report over a middle entry is accounted for by one
of the two reports with the middle, is accounted for by the report of two neighbours. -/
theorem exists_step_of_composed {β : Type*} (Reports : α → α → β → Prop)
    (Accounts : β → β → Prop)
    (hcompose : ∀ a b c e, Reports a c e → ∃ e', Accounts e' e ∧ (Reports a b e' ∨ Reports b c e'))
    (hrefl : ∀ e, Accounts e e)
    (htrans : ∀ e e' e'', Accounts e' e → Accounts e'' e' → Accounts e'' e)
    {i n : ℕ} {a b : α} (ha : log[i]? = some a) (hb : log[i + (n + 1)]? = some b)
    {e : β} (he : Reports a b e) :
    ∃ k ≤ n, ∃ x y, log[i + k]? = some x ∧ log[i + k + 1]? = some y ∧
      ∃ e', Accounts e' e ∧ Reports x y e' := by
  induction n generalizing b e with
  | zero => exact ⟨0, Nat.le_refl _, a, b, ha, hb, e, hrefl e, he⟩
  | succ n ih =>
    obtain ⟨c, hc⟩ : ∃ c, log[i + (n + 1)]? = some c := exists_previous hb
    obtain ⟨e', haccounts, he' | he'⟩ := hcompose a c b e he
    · obtain ⟨k, hk, x, y, hx, hy, e'', haccounts', he''⟩ := ih hc he'
      exact ⟨k, by omega, x, y, hx, hy, e'', htrans e e' e'' haccounts haccounts', he''⟩
    · exact ⟨n + 1, Nat.le_refl _, c, b, hc, hb, e', haccounts, he'⟩

namespace Versioned

/-- The versions of two entries are apart by the number of changes between them. -/
theorem version_add (h : Versioned version changed log) {i n : ℕ} {a b : α}
    (ha : log[i]? = some a) (hb : log[i + n]? = some b) :
    version b = version a + changesFrom changed log i n := by
  induction n generalizing b with
  | zero =>
    obtain rfl : a = b := Option.some_inj.mp (ha.symm.trans hb)
    rfl
  | succ n ih =>
    obtain ⟨c, hc⟩ : ∃ c, log[i + n]? = some c := exists_previous hb
    have hstep := h (i + n) c b hc hb
    rw [changesFrom_succ, changesAt_of_some hc hb, ← Nat.add_assoc, ← ih hc, hstep]
    split <;> rfl

/-- Versions do not decrease along the log. -/
theorem version_le (h : Versioned version changed log) {i n : ℕ} {a b : α}
    (ha : log[i]? = some a) (hb : log[i + n]? = some b) : version a ≤ version b := by
  rw [h.version_add ha hb]
  exact Nat.le_add_right ..

/-- Entries with one version do not differ, however far apart they are. -/
theorem unchanged_of_version_eq (h : Versioned version changed log)
    (htrans : ∀ a b c, changed a b = false → changed b c = false → changed a c = false)
    {i n : ℕ} {a b : α} (ha : log[i]? = some a) (hb : log[i + (n + 1)]? = some b)
    (heq : version a = version b) : changed a b = false := by
  induction n generalizing b with
  | zero =>
    have hstep := h i a b ha hb
    by_contra hchanged
    rw [if_pos (by simpa using hchanged)] at hstep
    omega
  | succ n ih =>
    -- the entry before has the version too, since versions do not decrease on either side of it
    obtain ⟨c, hc⟩ : ∃ c, log[i + (n + 1)]? = some c := exists_previous hb
    have hac : version a ≤ version c := h.version_le ha hc
    have hstep := h (i + (n + 1)) c b hc hb
    have hcb : changed c b = false := by
      by_contra hchanged
      rw [if_pos (by simpa using hchanged)] at hstep
      omega
    rw [hcb, if_neg Bool.false_ne_true] at hstep
    exact htrans a c b (ih hc (heq.trans hstep)) hcb

end Versioned

end TopologyFabric.Library

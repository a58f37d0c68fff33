import Mathlib.Tactic

/-!
# Fixed Buffers

A buffer of a fixed size that is filled from the front. A store outside of the buffer is an error.

## Main results

- `store_filled`: a store behind the text of a buffer
- `cString_filled`: the text of a buffer that is filled up with zeros
-/

namespace TopologyFabric.Library

universe u

variable {α : Type u}

/-- Store elements from a position on, if all of their places are in the buffer. -/
def store (buf : List α) (pos : ℕ) : List α → Option (List α)
  | [] => some buf
  | c :: cs => if pos < buf.length then store (buf.set pos c) (pos + 1) cs else none

/-- A buffer that holds a text, and one element everywhere behind it. -/
def filled (zero : α) (size : ℕ) (text : List α) : List α :=
  text ++ List.replicate (size - text.length) zero

section Store

variable {zero : α} {size : ℕ} {text : List α}

theorem length_filled (h : text.length ≤ size) : (filled zero size text).length = size := by
  simp [filled, h]

/-- One element more. -/
theorem set_filled (h : text.length < size) (c : α) :
    (filled zero size text).set text.length c = filled zero size (text ++ [c]) := by
  obtain ⟨k, hk⟩ : ∃ k, size - text.length = k + 1 := ⟨size - text.length - 1, by omega⟩
  have hrest : size - (text.length + 1) = k := by omega
  rw [filled, filled, List.set_append_right _ _ le_rfl, Nat.sub_self, hk, List.replicate_succ,
    List.set_cons_zero, List.length_append, List.length_singleton, hrest, List.append_assoc,
    List.singleton_append]

/-- **A store behind the text** makes the text longer, if there is room. -/
theorem store_filled (h : text.length ≤ size) (cs : List α) :
    store (filled zero size text) text.length cs =
      if cs = [] ∨ text.length + cs.length ≤ size then some (filled zero size (text ++ cs))
      else none := by
  induction cs generalizing text with
  | nil => simp [store]
  | cons c cs ih =>
    -- the first character is stored, and the others behind the text that it makes longer
    rw [store, length_filled h]
    by_cases hroom : text.length < size
    · have hnext : (text ++ [c]).length ≤ size := by simpa using hroom
      have hrest := ih hnext
      rw [List.length_append, List.length_singleton, List.append_assoc,
        List.singleton_append] at hrest
      rw [if_pos hroom, set_filled hroom, hrest]
      congr 1
      simp only [List.length_cons, reduceCtorEq, false_or, eq_iff_iff]
      constructor
      · rintro (rfl | hlen)
        · simpa using hroom
        · omega
      · intro hlen
        exact Or.inr (by omega)
    · rw [if_neg hroom, if_neg (by simp; omega)]

/-- A zero behind the text changes nothing. -/
theorem filled_concat_zero (h : text.length < size) :
    filled zero size (text ++ [zero]) = filled zero size text := by
  obtain ⟨k, hk⟩ : ∃ k, size - text.length = k + 1 := ⟨size - text.length - 1, by omega⟩
  have hrest : size - (text.length + 1) = k := by omega
  rw [filled, filled, List.length_append, List.length_singleton, hrest, hk, List.replicate_succ,
    List.append_assoc, List.singleton_append]

end Store

section Zero

variable [DecidableEq α] {zero : α} {size : ℕ} {text : List α}

/-- The elements before the first zero; a buffer without one has no end. -/
def cString (zero : α) (buf : List α) : Option (List α) :=
  if zero ∈ buf then some (buf.takeWhile fun c => c ≠ zero) else none

/-- **The text of a buffer** ends where the zeros begin. -/
theorem cString_filled (hzero : zero ∉ text) (h : text.length < size) :
    cString zero (filled zero size text) = some text := by
  obtain ⟨k, hk⟩ : ∃ k, size - text.length = k + 1 := ⟨size - text.length - 1, by omega⟩
  have htext : ∀ c ∈ text, decide (c ≠ zero) = true :=
    fun c hc => decide_eq_true fun heq => hzero (heq ▸ hc)
  rw [cString, filled, hk, List.replicate_succ, if_pos (by simp),
    List.takeWhile_append_of_pos htext, List.takeWhile_cons_of_neg (by simp), List.append_nil]

end Zero

end TopologyFabric.Library

import Mathlib.Data.UInt
import Mathlib.Tactic.Ring
import Mathlib.Logic.Function.Basic

/-!
# Mixing Machine Words

The steps that hash functions are made of lose nothing: exclusive or with a shift of the word, a
rotation, and multiplication with an odd constant. A fold of steps that lose nothing loses nothing.

## Main results

- `xorShift_injective`, `rotate_injective`, `mul_injective`: the steps on 64-bit words
- `foldl_eq_foldl_iff`: two states stay apart under any further input
-/

namespace TopologyFabric.Library.WordMixing

open Function

/-! ## Steps -/

/-- A word that is its own shift is 0. -/
theorem eq_zero_of_shiftRight_eq {x k : UInt64} (hk : 0 < k.toNat % 64) (h : x >>> k = x) :
    x = 0 := by
  have hnat : x.toNat / 2 ^ (k.toNat % 64) = x.toNat := by
    rw [← Nat.shiftRight_eq_div_pow, ← UInt64.toNat_shiftRight, h]
  apply UInt64.toNat_inj.mp
  by_contra hne
  have hpos : 0 < x.toNat := Nat.pos_of_ne_zero hne
  have hlt := Nat.div_lt_self hpos (Nat.one_lt_two_pow hk.ne')
  omega

/-- Exclusive or with the word shifted to the right: the difference of two words with one image is
its own shift. -/
theorem xorShift_injective {k : UInt64} (hk : 0 < k.toNat % 64) :
    Injective fun x : UInt64 => x ^^^ (x >>> k) := by
  intro x y h
  have hself : (x ^^^ y) >>> k = x ^^^ y := by
    have h' : x ^^^ (x >>> k) = y ^^^ (y >>> k) := h
    calc (x ^^^ y) >>> k = x ^^^ (x ^^^ (x >>> k)) ^^^ (y >>> k) := by
          rw [UInt64.shiftRight_xor, ← UInt64.xor_assoc x x, UInt64.xor_self, UInt64.zero_xor]
      _ = x ^^^ (y ^^^ (y >>> k)) ^^^ (y >>> k) := by rw [h']
      _ = x ^^^ y := by
          rw [UInt64.xor_assoc, UInt64.xor_assoc, UInt64.xor_self, UInt64.xor_zero]
  exact UInt64.xor_eq_zero_iff.mp (eq_zero_of_shiftRight_eq hk hself)

section Rotate

variable {k l : UInt64}

/-- The bits that a rotation by `k` brings in below are fewer than `k`. -/
theorem shiftedOut_lt (hkl : k.toNat + l.toNat = 64) (x : UInt64) :
    x.toNat / 2 ^ l.toNat < 2 ^ k.toNat := by
  apply Nat.div_lt_of_lt_mul
  rw [← pow_add, add_comm, hkl]
  exact x.toNat_lt

/-- A rotation as a number: the low bits move up and the high bits come in below. -/
theorem toNat_rotate (hk : 0 < k.toNat) (hl : 0 < l.toNat) (hkl : k.toNat + l.toNat = 64)
    (x : UInt64) :
    (x <<< k ||| x >>> l).toNat = x.toNat % 2 ^ l.toNat * 2 ^ k.toNat + x.toNat / 2 ^ l.toNat := by
  have hpow : 2 ^ 64 = 2 ^ l.toNat * 2 ^ k.toNat := by rw [← pow_add, add_comm, hkl]
  have hkmod : k.toNat % 64 = k.toNat := Nat.mod_eq_of_lt (by omega)
  have hlmod : l.toNat % 64 = l.toNat := Nat.mod_eq_of_lt (by omega)
  rw [UInt64.toNat_or, UInt64.toNat_shiftLeft, UInt64.toNat_shiftRight, hkmod, hlmod,
    Nat.shiftLeft_eq, hpow, Nat.mul_mod_mul_right, Nat.shiftRight_eq_div_pow, ← Nat.shiftLeft_eq,
    Nat.shiftLeft_add_eq_or_of_lt (shiftedOut_lt hkl x)]

theorem rotate_injective (hk : 0 < k.toNat) (hl : 0 < l.toNat) (hkl : k.toNat + l.toNat = 64) :
    Injective fun x : UInt64 => x <<< k ||| x >>> l := by
  intro x y h
  have hnat := congrArg UInt64.toNat h
  simp only [toNat_rotate hk hl hkl] at hnat
  -- modulo `2 ^ k` the images are the high bits; the low bits are what is left
  have hdiv : x.toNat / 2 ^ l.toNat = y.toNat / 2 ^ l.toNat := by
    have hmod := congrArg (· % 2 ^ k.toNat) hnat
    simpa only [Nat.mul_add_mod_self_right, Nat.mod_eq_of_lt (shiftedOut_lt hkl _)] using hmod
  have hmod : x.toNat % 2 ^ l.toNat = y.toNat % 2 ^ l.toNat := by
    rw [hdiv] at hnat
    exact Nat.eq_of_mul_eq_mul_right (Nat.two_pow_pos _) (Nat.add_right_cancel hnat)
  apply UInt64.toNat_inj.mp
  rw [← Nat.div_add_mod x.toNat (2 ^ l.toNat), hdiv, hmod, Nat.div_add_mod]

end Rotate

/-- Multiplication with a word that has an inverse. -/
theorem mul_injective {m m' : UInt64} (hm : m * m' = 1) : Injective fun x : UInt64 => x * m := by
  intro x y h
  have hcancel := congrArg (· * m') h
  simpa only [UInt64.mul_assoc, hm, UInt64.mul_one] using hcancel

/-! ## Folds -/

/-- Two states stay apart, or together, under any further input, when no step loses anything. -/
theorem foldl_eq_foldl_iff {σ α : Type*} {step : σ → α → σ} (hstep : ∀ c, Injective (step · c))
    (input : List α) {a b : σ} : input.foldl step a = input.foldl step b ↔ a = b := by
  induction input generalizing a b with
  | nil => exact Iff.rfl
  | cons c input ih => exact ih.trans (hstep c).eq_iff

end TopologyFabric.Library.WordMixing

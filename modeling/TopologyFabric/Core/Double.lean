import TopologyFabric.Core.Bytes
import Mathlib.Data.Rat.Floor
import Mathlib.Data.Prod.Lex

/-!
# Doubles

The values of the source's `double`: NaN, the infinities, the negative zero and the finite
numbers, which are kept as rationals. An operation computes the exact rational result and hands
it to a rounding; `exact` keeps it and `binary64` rounds to nearest, ties to even, with gradual
underflow and overflow to infinity. The sign of a zero that an operation produces is not
modelled, because no comparison can see it.

## Main result

- `Double.le_trans`, `Double.le_of_not_lt`: `<=` is an order that NaN takes no part in
-/

namespace TopologyFabric

/-- A `double`. -/
inductive Double where
  | nan
  | inf (neg : Bool)
  | negZero
  | fin (q : ℚ)
  deriving DecidableEq, Repr

/-- How the exact result of an arithmetic operation becomes a double. -/
abbrev Rounding := ℚ → Double

/-- Exact arithmetic. -/
def exact : Rounding := .fin

namespace Double

instance : Inhabited Double := ⟨.fin 0⟩

/-- The position of a value on the real line with its two ends; NaN has none. -/
def rank : Double → Option (ℤ ×ₗ ℚ)
  | .nan => none
  | .inf neg => some (toLex (if neg then -1 else 1, 0))
  | .negZero => some (toLex (0, 0))
  | .fin q => some (toLex (0, q))

/-- `x < y`, false when either is NaN. -/
def lt (x y : Double) : Bool :=
  match x.rank, y.rank with
  | some a, some b => decide (a < b)
  | _, _ => false

/-- `x <= y`, false when either is NaN. -/
def le (x y : Double) : Bool :=
  match x.rank, y.rank with
  | some a, some b => decide (a ≤ b)
  | _, _ => false

/-- `x != y`, true when either is NaN. -/
def ne (x y : Double) : Bool :=
  match x.rank, y.rank with
  | some a, some b => decide (a ≠ b)
  | _, _ => true

/-- `std::isnan`. -/
def isNan : Double → Bool
  | .nan => true
  | _ => false

/-- `std::isinf`. -/
def isInf : Double → Bool
  | .inf _ => true
  | _ => false

/-- The sign of a value that is not NaN: the sign bit of an infinity or a zero, else whether the
number is negative. -/
def signBit : Double → Bool
  | .nan => false
  | .inf neg => neg
  | .negZero => true
  | .fin q => decide (q < 0)

/-- The number that a finite value stands for. -/
def toRat : Double → ℚ
  | .fin q => q
  | _ => 0

/-- Addition. -/
def add (fl : Rounding) : Double → Double → Double
  | .nan, _ => .nan
  | _, .nan => .nan
  | .inf a, .inf b => if a = b then .inf a else .nan
  | .inf a, _ => .inf a
  | _, .inf b => .inf b
  | x, y => fl (x.toRat + y.toRat)

/-- Multiplication. -/
def mul (fl : Rounding) (x y : Double) : Double :=
  if x.isNan || y.isNan then .nan
  else if x.isInf || y.isInf then
    if (!x.isInf && x.toRat = 0) || (!y.isInf && y.toRat = 0) then .nan
    else .inf (x.signBit != y.signBit)
  else fl (x.toRat * y.toRat)

/-- Division. -/
def div (fl : Rounding) (x y : Double) : Double :=
  if x.isNan || y.isNan then .nan
  else if x.isInf then
    if y.isInf then .nan else .inf (x.signBit != y.signBit)
  else if y.isInf then .fin 0
  else if y.toRat = 0 then
    if x.toRat = 0 then .nan else .inf (x.signBit != y.signBit)
  else fl (x.toRat / y.toRat)

/-- `std::min(x, y)`: the second argument only if it is less. -/
def min (x y : Double) : Double := if y.lt x then y else x

/-! ## Order -/

@[simp] theorem lt_fin (p q : ℚ) : (fin p).lt (fin q) = decide (p < q) := by
  simp [lt, rank, Prod.Lex.toLex_lt_toLex]

@[simp] theorem ne_fin (p q : ℚ) : (fin p).ne (fin q) = decide (p ≠ q) := by
  simp [ne, rank]

theorem lt_eq_true {x y : Double} :
    x.lt y = true ↔ ∃ a b, x.rank = some a ∧ y.rank = some b ∧ a < b := by
  unfold lt
  cases hx : x.rank with
  | none => simp
  | some a =>
    cases hy : y.rank with
    | none => simp
    | some b => simp

theorem lt_irrefl (x : Double) : x.lt x = false := by
  unfold lt
  cases x.rank with
  | none => rfl
  | some a => simp

/-- Nothing is below the negative infinity. -/
theorem lt_negInf (x : Double) : x.lt (inf true) = false := by
  cases x with
  | inf neg => cases neg <;> simp [lt, rank, Prod.Lex.toLex_lt_toLex]
  | _ => simp [lt, rank, Prod.Lex.toLex_lt_toLex]

/-- Nothing is above the positive infinity. -/
theorem posInf_lt (x : Double) : (inf false).lt x = false := by
  cases x with
  | inf neg => cases neg <;> simp [lt, rank, Prod.Lex.toLex_lt_toLex]
  | _ => simp [lt, rank, Prod.Lex.toLex_lt_toLex]

theorem fin_lt_inf (q : ℚ) (neg : Bool) : (fin q).lt (inf neg) = !neg := by
  cases neg <;> simp [lt, rank, Prod.Lex.toLex_lt_toLex]

theorem inf_lt_fin (neg : Bool) (q : ℚ) : (inf neg).lt (fin q) = neg := by
  cases neg <;> simp [lt, rank, Prod.Lex.toLex_lt_toLex]

theorem le_eq_true {x y : Double} :
    x.le y = true ↔ ∃ a b, x.rank = some a ∧ y.rank = some b ∧ a ≤ b := by
  unfold le
  cases hx : x.rank with
  | none => simp
  | some a =>
    cases hy : y.rank with
    | none => simp
    | some b => simp

theorem le_trans {x y z : Double} (hxy : x.le y = true) (hyz : y.le z = true) :
    x.le z = true := by
  obtain ⟨a, b, ha, hb, hab⟩ := le_eq_true.mp hxy
  obtain ⟨b', c, hb', hc, hbc⟩ := le_eq_true.mp hyz
  rw [hb] at hb'
  obtain rfl := Option.some.inj hb'
  exact le_eq_true.mpr ⟨a, c, ha, hc, hab.trans hbc⟩

/-- Values that are not NaN are comparable. -/
theorem le_of_not_lt {x y : Double} (hx : x ≠ .nan) (hy : y ≠ .nan) (h : y.lt x = false) :
    x.le y = true := by
  obtain ⟨a, ha⟩ : ∃ a, x.rank = some a := by cases x <;> simp_all [rank]
  obtain ⟨b, hb⟩ : ∃ b, y.rank = some b := by cases y <;> simp_all [rank]
  refine le_eq_true.mpr ⟨a, b, ha, hb, ?_⟩
  simpa [lt, ha, hb] using h

@[simp] theorem le_fin (p q : ℚ) : (fin p).le (fin q) = decide (p ≤ q) := by
  simp [le, rank, Prod.Lex.toLex_le_toLex]

@[simp] theorem add_exact (p q : ℚ) : (fin p).add exact (fin q) = fin (p + q) := rfl

/-! ## Values that are not negative -/

/-- `x >= 0`. -/
def Nonneg (x : Double) : Prop := (fin 0).le x = true

instance (x : Double) : Decidable x.Nonneg := inferInstanceAs (Decidable (_ = true))

/-- `x > 0`. -/
def Pos (x : Double) : Prop := (fin 0).lt x = true

instance (x : Double) : Decidable x.Pos := inferInstanceAs (Decidable (_ = true))

/-- Not a negative number; NaN is allowed. -/
def NotNeg (x : Double) : Prop := x = .nan ∨ x.Nonneg

@[simp] theorem nonneg_fin (q : ℚ) : (fin q).Nonneg ↔ 0 ≤ q := by
  simp [Nonneg, le, rank, Prod.Lex.toLex_le_toLex]

theorem nonneg_inf (neg : Bool) : (inf neg).Nonneg ↔ neg = false := by
  cases neg <;> simp [Nonneg, le, rank, Prod.Lex.toLex_le_toLex]

theorem nonneg_negZero : negZero.Nonneg := by
  simp [Nonneg, le, rank]

theorem not_nonneg_nan : ¬ nan.Nonneg := by
  simp [Nonneg, le, rank]

theorem Nonneg.notNeg {x : Double} (h : x.Nonneg) : x.NotNeg := Or.inr h

theorem Nonneg.toRat_nonneg {x : Double} (h : x.Nonneg) : 0 ≤ x.toRat := by
  cases x with
  | fin q => exact (nonneg_fin q).mp h
  | _ => exact le_refl _

theorem Pos.nonneg {x : Double} (h : x.Pos) : x.Nonneg := by
  cases x with
  | nan => simp [Pos, lt, rank] at h
  | inf neg => cases neg <;> simp_all [Pos, lt, rank, nonneg_inf, Prod.Lex.toLex_lt_toLex]
  | negZero => exact nonneg_negZero
  | fin q =>
    rw [Pos, lt_fin, decide_eq_true_eq] at h
    exact (nonneg_fin q).mpr h.le

theorem Nonneg.of_le {x y : Double} (hx : x.Nonneg) (h : x.le y = true) : y.Nonneg := le_trans hx h

theorem Pos.of_le {x y : Double} (hx : x.Pos) (h : x.le y = true) : y.Pos := by
  obtain ⟨a, b, ha, hb, hab⟩ := lt_eq_true.mp hx
  obtain ⟨b', c, hb', hc, hbc⟩ := le_eq_true.mp h
  rw [hb] at hb'
  obtain rfl := Option.some.inj hb'
  exact lt_eq_true.mpr ⟨a, c, ha, hc, hab.trans_le hbc⟩

/-- The rounding of a number that is not negative is not negative. -/
def KeepsSign (fl : Rounding) : Prop := ∀ q, 0 ≤ q → (fl q).Nonneg

theorem keepsSign_exact : KeepsSign exact := fun q hq => (nonneg_fin q).mpr hq

section Signs

variable {fl : Rounding} {x y : Double}

private theorem nonneg_add (hfl : KeepsSign fl) (hx : x.Nonneg) (hy : y.Nonneg) :
    (x.add fl y).Nonneg := by
  have hsum : (fl (x.toRat + y.toRat)).Nonneg :=
    hfl _ (Rat.add_nonneg hx.toRat_nonneg hy.toRat_nonneg)
  -- the sum is one of the operands, or it is rounded
  cases x with
  | nan => exact absurd hx not_nonneg_nan
  | inf a =>
    obtain rfl := (nonneg_inf a).mp hx
    cases y with
    | nan => exact absurd hy not_nonneg_nan
    | inf b =>
      obtain rfl := (nonneg_inf b).mp hy
      exact hx
    | negZero => exact hx
    | fin q => exact hx
  | negZero =>
    cases y with
    | nan => exact absurd hy not_nonneg_nan
    | inf b => exact hy
    | negZero => exact hsum
    | fin q => exact hsum
  | fin p =>
    cases y with
    | nan => exact absurd hy not_nonneg_nan
    | inf b => exact hy
    | negZero => exact hsum
    | fin q => exact hsum

theorem NotNeg.add (hfl : KeepsSign fl) (hx : x.NotNeg) (hy : y.NotNeg) :
    (x.add fl y).NotNeg := by
  rcases hx with rfl | hx
  · exact Or.inl rfl
  · rcases hy with rfl | hy
    · cases x <;> exact Or.inl rfl
    · exact (nonneg_add hfl hx hy).notNeg

private theorem signBit_of_nonneg {x : Double} (hx : x.Nonneg) (hne : x.isInf = true) :
    x.signBit = false := by
  cases x with
  | inf neg => exact (nonneg_inf neg).mp hx
  | _ => simp [isInf] at hne

private theorem signBit_of_toRat_pos {x : Double} (h : 0 < x.toRat) : x.signBit = false := by
  cases x with
  | fin q =>
    have hq : 0 < q := h
    simpa [signBit] using hq.le
  | _ => simp [toRat] at h

theorem NotNeg.mul (hfl : KeepsSign fl) (hx : x.NotNeg) (hy : y.NotNeg) :
    (x.mul fl y).NotNeg := by
  rcases hx with rfl | hx
  · exact Or.inl rfl
  rcases hy with rfl | hy
  · exact Or.inl (by simp [Double.mul, isNan])
  unfold Double.mul
  split
  · exact Or.inl rfl
  split
  · rename_i hinf
    split
    · exact Or.inl rfl
    · rename_i hzero
      -- neither factor is a finite zero, so both sign bits are clear
      have hsign : ∀ z : Double, z.Nonneg → ¬ ((!z.isInf && decide (z.toRat = 0)) = true) →
          z.signBit = false := by
        intro z hz hnz
        cases hzi : z.isInf with
        | true => exact signBit_of_nonneg hz hzi
        | false =>
          have : z.toRat ≠ 0 := by simpa [hzi] using hnz
          exact signBit_of_toRat_pos (lt_of_le_of_ne hz.toRat_nonneg this.symm)
      rw [Bool.or_eq_true, not_or] at hzero
      rw [hsign x hx hzero.1, hsign y hy hzero.2]
      exact Or.inr ((nonneg_inf _).mpr rfl)
  · exact Or.inr (hfl _ (mul_nonneg hx.toRat_nonneg hy.toRat_nonneg))

/-- A quotient by a positive number is not negative. -/
theorem NotNeg.div (hfl : KeepsSign fl) (hx : x.NotNeg) (hy : y = .nan ∨ y.Pos) :
    (x.div fl y).NotNeg := by
  rcases hx with rfl | hx
  · exact Or.inl rfl
  rcases hy with rfl | hy
  · exact Or.inl (by simp [Double.div, isNan])
  -- the divisor has no sign
  have hysign : y.signBit = false := by
    cases y with
    | nan => rfl
    | inf neg => exact (nonneg_inf neg).mp hy.nonneg
    | negZero => simp [Pos, lt, rank] at hy
    | fin q =>
      rw [Pos, lt_fin, decide_eq_true_eq] at hy
      simpa [signBit] using hy.le
  -- the cases of the division, in its own order
  unfold Double.div
  split
  · exact Or.inl rfl
  split
  · rename_i hxi
    split
    · exact Or.inl rfl
    · rw [signBit_of_nonneg hx hxi, hysign]
      exact Or.inr ((nonneg_inf _).mpr rfl)
  split
  · exact Or.inr ((nonneg_fin _).mpr le_rfl)
  split
  · split
    · exact Or.inl rfl
    · rename_i hx0
      have hxpos : 0 < x.toRat := lt_of_le_of_ne hx.toRat_nonneg (Ne.symm hx0)
      rw [signBit_of_toRat_pos hxpos, hysign]
      exact Or.inr ((nonneg_inf _).mpr rfl)
  · exact Or.inr (hfl _ (div_nonneg hx.toRat_nonneg hy.nonneg.toRat_nonneg))

/-- A number that is not negative, divided by itself, is not negative or is NaN. -/
theorem NotNeg.div_self (hfl : KeepsSign fl) (hx : x.NotNeg) : (x.div fl x).NotNeg := by
  by_cases hpos : x = .nan ∨ x.Pos
  · exact hx.div hfl hpos
  · -- the number is a zero
    refine Or.inl ?_
    cases x with
    | nan => exact absurd (Or.inl rfl) hpos
    | inf neg =>
      rcases hx with h | h
      · cases h
      · obtain rfl := (nonneg_inf neg).mp h
        exact absurd (Or.inr (by decide)) hpos
    | negZero => rfl
    | fin q =>
      have hle : q ≤ 0 := by
        by_contra hq
        exact hpos (Or.inr (by simpa [Pos] using hq))
      have hge : 0 ≤ q := by
        rcases hx with h | h
        · cases h
        · exact (nonneg_fin q).mp h
      obtain rfl := le_antisymm hle hge
      rfl

end Signs

end Double

/-! ## Rounding to `binary64` -/

/-- The nearest integer, ties to the even one. -/
def roundHalfEven (q : ℚ) : ℤ :=
  let f := ⌊q⌋
  if q - f < 1 / 2 then f
  else if 1 / 2 < q - f then f + 1
  else if f % 2 = 0 then f else f + 1

/-- The exponent of the leading bit of a nonzero rational. -/
def leadingExponent (q : ℚ) : ℤ :=
  let k : ℤ := (Nat.log2 q.num.natAbs : ℤ) - Nat.log2 q.den
  if (2 : ℚ) ^ k ≤ |q| then k else k - 1

/-- Rounding to nearest, ties to even, in IEEE 754 `binary64`. -/
def binary64 : Rounding := fun q =>
  if q = 0 then .fin 0
  else
    let e := Max.max (leadingExponent q - 52) (-1074)
    let v := roundHalfEven (q / 2 ^ e) * (2 : ℚ) ^ e
    if v = 0 then (if q < 0 then .negZero else .fin 0)
    else if (2 : ℚ) ^ (1024 : ℤ) ≤ |v| then .inf (decide (q < 0))
    else .fin v

/-! ## Decimal text -/

/-- `n` in decimal, padded with zeros to six digits. -/
def sixDigits (n : ℕ) : Bytes :=
  let text := natToString n
  List.replicate (6 - text.length) (byte '0') ++ text

/-- `std::to_string` of a double: six decimals, the last one rounded. -/
def Double.toString : Double → Bytes
  | .nan => str "nan"
  | .inf neg => if neg then str "-inf" else str "inf"
  | .negZero => str "-0.000000"
  | .fin q =>
    let millionths := (roundHalfEven (|q| * 1000000)).natAbs
    (if q < 0 then str "-" else []) ++ natToString (millionths / 1000000) ++ str "." ++
      sixDigits (millionths % 1000000)

end TopologyFabric

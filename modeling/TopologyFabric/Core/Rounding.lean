import TopologyFabric.Core.Double

/-!
# Properties of the Rounding

`binary64` is a rounding in the sense of number formats: it is monotone and keeps the numbers that
it produces. A sum of a number of the format and one that is not negative is therefore never
rounded below the first.

## Main results

- `leadingExponent_spec`: the leading exponent brackets a positive number
- `nearest_mono`, `nearest_nearest`: rounding to 53 bits is monotone and idempotent
- `binary64_mono`: so is rounding to `binary64`, for numbers of both signs
- `binary64_isRounding`: what the path searches rely on
-/

namespace TopologyFabric

/-! ## Rounding to an integer -/

theorem roundHalfEven_bounds (q : ℚ) : ⌊q⌋ ≤ roundHalfEven q ∧ roundHalfEven q ≤ ⌊q⌋ + 1 := by
  unfold roundHalfEven
  simp only
  split_ifs <;> omega

@[simp] theorem roundHalfEven_intCast (m : ℤ) : roundHalfEven (m : ℚ) = m := by
  unfold roundHalfEven
  simp

theorem roundHalfEven_mono {p q : ℚ} (h : p ≤ q) : roundHalfEven p ≤ roundHalfEven q := by
  have hfloor : ⌊p⌋ ≤ ⌊q⌋ := Int.floor_le_floor h
  rcases hfloor.lt_or_eq with hlt | heq
  · have hp := (roundHalfEven_bounds p).2
    have hq := (roundHalfEven_bounds q).1
    omega
  · unfold roundHalfEven
    simp only [← heq]
    have hfrac : p - ⌊p⌋ ≤ q - ⌊p⌋ := by linarith
    split_ifs <;> first | omega | linarith

theorem roundHalfEven_neg (q : ℚ) : roundHalfEven (-q) = -roundHalfEven q := by
  rcases (Int.floor_le q).lt_or_eq with hlt | heq
  · -- between two integers the fractional part turns around
    have hfloor : ⌊-q⌋ = -⌊q⌋ - 1 := by
      rw [Int.floor_eq_iff]
      push_cast
      constructor
      · linarith [Int.lt_floor_add_one q]
      · linarith
    unfold roundHalfEven
    simp only [hfloor]
    push_cast
    split_ifs <;> first | omega | linarith
  · rw [← heq, ← Int.cast_neg, roundHalfEven_intCast, roundHalfEven_intCast]

/-! ## The leading exponent -/

/-- The leading exponent of a positive rational. -/
theorem leadingExponent_spec {q : ℚ} (hq : 0 < q) :
    (2 : ℚ) ^ leadingExponent q ≤ q ∧ q < (2 : ℚ) ^ (leadingExponent q + 1) := by
  have hnum : 0 < q.num := Rat.num_pos.mpr hq
  obtain ⟨n, hn⟩ : ∃ n : ℕ, q.num = n := ⟨q.num.toNat, by omega⟩
  have hdiv : q * q.den = n := by
    have h := Rat.mul_den_eq_num q
    rw [hn] at h
    exact_mod_cast h
  unfold leadingExponent
  rw [hn, Int.natAbs_natCast, abs_of_pos hq]
  have hlog : ∀ m : ℕ, m ≠ 0 →
      (2 : ℚ) ^ (Nat.log2 m : ℤ) ≤ m ∧ (m : ℚ) < 2 * (2 : ℚ) ^ (Nat.log2 m : ℤ) := by
    intro m hm
    rw [zpow_natCast, mul_comm, ← pow_succ]
    exact ⟨by exact_mod_cast Nat.log2_self_le hm, by exact_mod_cast Nat.lt_log2_self⟩
  -- numerator and denominator are each less than twice their power of two
  obtain ⟨hn1, hn2⟩ := hlog n (by omega)
  obtain ⟨hd1, hd2⟩ := hlog q.den q.den_nz
  generalize (Nat.log2 n : ℤ) = a at *
  generalize (Nat.log2 q.den : ℤ) = b at *
  have hb : (0 : ℚ) < 2 ^ b := by positivity
  have hsplit : (2 : ℚ) ^ a = 2 ^ (a - b) * 2 ^ b := by
    rw [← zpow_add₀ (by norm_num), sub_add_cancel]
  have hpos : (0 : ℚ) < 2 ^ (a - b) := by positivity
  have hupper : q < 2 * 2 ^ (a - b) := by
    by_contra hle
    have := mul_le_mul (not_lt.mp hle) hd1 hb.le hq.le
    nlinarith
  have hlower : 2 ^ (a - b) < 2 * q := by
    by_contra hle
    have := mul_lt_mul' (not_lt.mp hle) hd2 (by positivity) hpos
    nlinarith
  simp only
  split_ifs with h
  · exact ⟨h, by rw [zpow_add_one₀ (by norm_num)]; linarith⟩
  · rw [sub_add_cancel, zpow_sub_one₀ (by norm_num)]
    constructor
    · linarith
    · exact not_le.mp h

theorem leadingExponent_mono {p q : ℚ} (hp : 0 < p) (h : p ≤ q) :
    leadingExponent p ≤ leadingExponent q := by
  have hlt : (2 : ℚ) ^ leadingExponent p < 2 ^ (leadingExponent q + 1) :=
    (leadingExponent_spec hp).1.trans_lt (h.trans_lt (leadingExponent_spec (hp.trans_le h)).2)
  have := (zpow_lt_zpow_iff_right₀ (by norm_num : (1 : ℚ) < 2)).mp hlt
  omega

theorem leadingExponent_neg (q : ℚ) : leadingExponent (-q) = leadingExponent q := by
  simp [leadingExponent]

/-! ## Rounding to 53 bits -/

/-- The exponent of the last bit that is kept. -/
def ulpExponent (q : ℚ) : ℤ := Max.max (leadingExponent q - 52) (-1074)

/-- The nearest number with 53 bits, before overflow. -/
def nearest (q : ℚ) : ℚ := roundHalfEven (q / 2 ^ ulpExponent q) * 2 ^ ulpExponent q

theorem binary64_of_pos {q : ℚ} (hq : 0 < q) :
    binary64 q = if (2 : ℚ) ^ (1024 : ℤ) ≤ |nearest q| then .inf false else .fin (nearest q) := by
  have hneg : ¬ q < 0 := not_lt.mpr hq.le
  unfold binary64
  rw [if_neg hq.ne']
  show (if nearest q = 0 then (if q < 0 then Double.negZero else .fin 0)
    else if (2 : ℚ) ^ (1024 : ℤ) ≤ |nearest q| then .inf (decide (q < 0)) else .fin (nearest q)) = _
  by_cases hzero : nearest q = 0
  · rw [if_pos hzero, if_neg hneg, hzero, abs_zero, if_neg (not_le.mpr (by positivity))]
  · rw [if_neg hzero, decide_eq_false hneg]

/-- The integer that is kept has at most 53 bits, and exactly 53 above the subnormal range. -/
theorem mantissa_bounds {q : ℚ} (hq : 0 < q) :
    0 ≤ roundHalfEven (q / 2 ^ ulpExponent q) ∧
      roundHalfEven (q / 2 ^ ulpExponent q) ≤ 2 ^ 53 ∧
      (ulpExponent q = -1074 ∨ ulpExponent q = leadingExponent q - 52 ∧
        2 ^ 52 ≤ roundHalfEven (q / 2 ^ ulpExponent q)) := by
  have hunit : (0 : ℚ) < 2 ^ ulpExponent q := by positivity
  obtain ⟨hlow, hhigh⟩ := leadingExponent_spec hq
  have hcases : ulpExponent q = -1074 ∨ ulpExponent q = leadingExponent q - 52 := by
    unfold ulpExponent
    omega
  have hle : leadingExponent q + 1 ≤ 53 + ulpExponent q := by
    unfold ulpExponent
    omega
  refine ⟨?_, ?_, ?_⟩
  · have h := roundHalfEven_mono (div_pos hq hunit).le
    rwa [show (0 : ℚ) = ((0 : ℤ) : ℚ) by norm_num, roundHalfEven_intCast] at h
  · -- the bound is an integer, so rounding keeps it
    have h : q / 2 ^ ulpExponent q ≤ ((2 ^ 53 : ℤ) : ℚ) := by
      rw [div_le_iff₀ hunit]
      refine (hhigh.le.trans (zpow_le_zpow_right₀ (by norm_num) hle)).trans (le_of_eq ?_)
      rw [zpow_add₀ (by norm_num)]
      norm_num
    have := roundHalfEven_mono h
    rwa [roundHalfEven_intCast] at this
  · refine hcases.imp id fun he => ⟨he, ?_⟩
    have h : ((2 ^ 52 : ℤ) : ℚ) ≤ q / 2 ^ ulpExponent q := by
      rw [le_div_iff₀ hunit, he]
      refine le_trans (le_of_eq ?_) hlow
      rw [zpow_sub₀ (by norm_num)]
      norm_num
      ring
    have := roundHalfEven_mono h
    rwa [roundHalfEven_intCast] at this

theorem nearest_nonneg {q : ℚ} (hq : 0 < q) : 0 ≤ nearest q :=
  mul_nonneg (by exact_mod_cast (mantissa_bounds hq).1) (by positivity)

theorem nearest_mono_of_pos {p q : ℚ} (hp : 0 < p) (h : p ≤ q) : nearest p ≤ nearest q := by
  have hq : 0 < q := hp.trans_le h
  have hexp : ulpExponent p ≤ ulpExponent q :=
    max_le_max (sub_le_sub_right (leadingExponent_mono hp h) 52) le_rfl
  obtain ⟨-, hpm, -⟩ := mantissa_bounds hp
  obtain ⟨-, -, hqm⟩ := mantissa_bounds hq
  unfold nearest
  rcases hexp.eq_or_lt with heq | hlt
  · rw [heq]
    have hm : roundHalfEven (p / 2 ^ ulpExponent q) ≤ roundHalfEven (q / 2 ^ ulpExponent q) :=
      roundHalfEven_mono (div_le_div_of_nonneg_right h (by positivity))
    exact mul_le_mul_of_nonneg_right (by exact_mod_cast hm) (by positivity)
  · -- between the two numbers there is a power of two
    have hlow : -1074 ≤ ulpExponent p := le_max_right _ _
    obtain ⟨-, hqm⟩ := hqm.resolve_left (by omega)
    calc (roundHalfEven (p / 2 ^ ulpExponent p) : ℚ) * 2 ^ ulpExponent p
        ≤ 2 ^ (53 : ℤ) * 2 ^ ulpExponent p :=
          mul_le_mul_of_nonneg_right (by exact_mod_cast hpm) (by positivity)
      _ = 2 ^ (53 + ulpExponent p) := (zpow_add₀ (by norm_num) _ _).symm
      _ ≤ 2 ^ (52 + ulpExponent q) := zpow_le_zpow_right₀ (by norm_num) (by omega)
      _ = 2 ^ (52 : ℤ) * 2 ^ ulpExponent q := zpow_add₀ (by norm_num) _ _
      _ ≤ roundHalfEven (q / 2 ^ ulpExponent q) * 2 ^ ulpExponent q :=
          mul_le_mul_of_nonneg_right (by exact_mod_cast hqm) (by positivity)

theorem nearest_neg (q : ℚ) : nearest (-q) = -nearest q := by
  have hulp : ulpExponent (-q) = ulpExponent q := by
    rw [ulpExponent, leadingExponent_neg, ulpExponent]
  rw [nearest, hulp, neg_div, roundHalfEven_neg, nearest, Int.cast_neg, neg_mul]

theorem nearest_zero : nearest 0 = 0 := by
  have hzero : roundHalfEven 0 = 0 := roundHalfEven_intCast 0
  rw [nearest, zero_div, hzero, Int.cast_zero, zero_mul]

theorem nearest_mono {p q : ℚ} (h : p ≤ q) : nearest p ≤ nearest q := by
  have hsign : ∀ x : ℚ, 0 ≤ x → 0 ≤ nearest x := by
    intro x hx
    rcases hx.eq_or_lt with rfl | hx
    · exact nearest_zero.ge
    · exact nearest_nonneg hx
  rcases lt_or_ge 0 p with hp | hp
  · exact nearest_mono_of_pos hp h
  · rcases lt_or_ge q 0 with hq | hq
    · -- two negative numbers turn around
      have hle := nearest_mono_of_pos (neg_pos.mpr hq) (neg_le_neg h)
      rw [nearest_neg, nearest_neg] at hle
      exact neg_le_neg_iff.mp hle
    · have hp' := hsign (-p) (neg_nonneg.mpr hp)
      rw [nearest_neg] at hp'
      exact (neg_nonneg.mp hp').trans (hsign q hq)

/-- Multiples of a coarser unit are kept. -/
theorem nearest_of_multiple {v : ℚ} {m e : ℤ} (he : ulpExponent v ≤ e) (hv : v = m * 2 ^ e) :
    nearest v = v := by
  obtain ⟨k, rfl⟩ : ∃ k : ℕ, e = k + ulpExponent v := ⟨(e - ulpExponent v).toNat, by omega⟩
  have hdiv : v / 2 ^ ulpExponent v = ((m * 2 ^ k : ℤ) : ℚ) := by
    rw [div_eq_iff (by positivity)]
    refine hv.trans ?_
    rw [zpow_add₀ (by norm_num), zpow_natCast, Int.cast_mul, Int.cast_pow, Int.cast_ofNat,
      mul_assoc]
  rw [nearest, hdiv, roundHalfEven_intCast, ← hdiv, div_mul_cancel₀ _ (by positivity)]

theorem nearest_nearest {q : ℚ} (hq : 0 < q) (hpos : 0 < nearest q) :
    nearest (nearest q) = nearest q := by
  obtain ⟨-, hm, -⟩ := mantissa_bounds hq
  obtain ⟨m, hmeq⟩ : ∃ m, roundHalfEven (q / 2 ^ ulpExponent q) = m := ⟨_, rfl⟩
  have hv : nearest q = m * 2 ^ ulpExponent q := by rw [← hmeq, nearest]
  have hlow : -1074 ≤ ulpExponent q := le_max_right _ _
  rw [hmeq] at hm
  generalize ulpExponent q = e at hv hlow
  have hunit : (0 : ℚ) < 2 ^ e := by positivity
  have hlead : (2 : ℚ) ^ leadingExponent (nearest q) ≤ nearest q := (leadingExponent_spec hpos).1
  have htop : (2 : ℚ) ^ (53 + e) = ((2 ^ 53 : ℤ) : ℚ) * 2 ^ e := by
    rw [zpow_add₀ (by norm_num)]
    norm_num
  rcases hm.lt_or_eq with hlt | rfl
  · -- the number has at most 53 bits above the same unit
    have hless : (2 : ℚ) ^ leadingExponent (nearest q) < 2 ^ (53 + e) := by
      refine hlead.trans_lt ?_
      rw [hv, htop]
      exact mul_lt_mul_of_pos_right (by exact_mod_cast hlt) hunit
    have hexp := (zpow_lt_zpow_iff_right₀ (by norm_num : (1 : ℚ) < 2)).mp hless
    exact nearest_of_multiple (max_le (by omega) hlow) hv
  · -- the number is a power of two, and a multiple of the next unit
    have hle : (2 : ℚ) ^ leadingExponent (nearest q) ≤ 2 ^ (53 + e) := by
      rw [htop, ← hv]
      exact hlead
    have hexp := (zpow_le_zpow_iff_right₀ (by norm_num : (1 : ℚ) < 2)).mp hle
    have hmultiple : nearest q = ((2 ^ 52 : ℤ) : ℚ) * 2 ^ (e + 1) := by
      rw [hv, zpow_add_one₀ (by norm_num)]
      norm_num
      ring
    exact nearest_of_multiple (max_le (by omega) (by omega)) hmultiple

/-! ## Overflow -/

theorem binary64_eq {q : ℚ} (hq : q ≠ 0) : binary64 q =
    if nearest q = 0 then (if q < 0 then .negZero else .fin 0)
    else if (2 : ℚ) ^ (1024 : ℤ) ≤ |nearest q| then .inf (decide (q < 0)) else .fin (nearest q) := by
  unfold binary64
  rw [if_neg hq]
  rfl

/-- The position of the rounded number on the real line with its two ends. -/
def overflowed (v : ℚ) : ℤ ×ₗ ℚ :=
  toLex (if (2 : ℚ) ^ (1024 : ℤ) ≤ v then (1, 0)
    else if v ≤ -(2 : ℚ) ^ (1024 : ℤ) then (-1, 0) else (0, v))

theorem overflowed_mono {v w : ℚ} (h : v ≤ w) : overflowed v ≤ overflowed w := by
  have hpos : (0 : ℚ) < 2 ^ (1024 : ℤ) := by positivity
  unfold overflowed
  rw [Prod.Lex.toLex_le_toLex]
  generalize (2 : ℚ) ^ (1024 : ℤ) = top at hpos ⊢
  split_ifs <;> simp <;> linarith

theorem overflowed_of_abs_lt {v : ℚ} (h : |v| < 2 ^ (1024 : ℤ)) : overflowed v = toLex (0, v) := by
  obtain ⟨hlow, hhigh⟩ := abs_lt.mp h
  rw [overflowed, if_neg (not_le.mpr hhigh), if_neg (not_le.mpr hlow)]

theorem rank_binary64 (q : ℚ) : (binary64 q).rank = some (overflowed (nearest q)) := by
  have htop : (0 : ℚ) < 2 ^ (1024 : ℤ) := by positivity
  have hzero : overflowed 0 = toLex (0, 0) := overflowed_of_abs_lt (by rwa [abs_zero])
  by_cases hq : q = 0
  · subst hq
    rw [nearest_zero, hzero]
    rfl
  rw [binary64_eq hq]
  split_ifs with hv hneg hover
  · rw [hv, hzero]
    rfl
  · rw [hv, hzero]
    rfl
  · -- beyond the largest numbers the sign decides
    rcases lt_or_ge q 0 with hneg | hpos
    · have hle : nearest q ≤ 0 := nearest_zero ▸ nearest_mono hneg.le
      rw [abs_of_nonpos hle] at hover
      rw [overflowed, if_neg (not_le.mpr (hle.trans_lt htop)), if_pos (by linarith),
        decide_eq_true hneg]
      rfl
    · have hge : 0 ≤ nearest q := nearest_zero ▸ nearest_mono hpos
      rw [abs_of_nonneg hge] at hover
      rw [overflowed, if_pos hover, decide_eq_false (not_lt.mpr hpos)]
      rfl
  · rw [overflowed_of_abs_lt (not_le.mp hover)]
    rfl

/-- A greater number is not rounded to a smaller one. -/
theorem binary64_mono {p q : ℚ} (h : p ≤ q) : (binary64 q).lt (binary64 p) = false := by
  rw [Double.lt, rank_binary64, rank_binary64]
  exact decide_eq_false (not_lt.mpr (overflowed_mono (nearest_mono h)))

/-! ## Multiples of the least number -/

/-- A multiple of the least positive double. -/
def IsMultiple (q : ℚ) : Prop := ∃ k : ℤ, q = k * 2 ^ (-1074 : ℤ)

theorem isMultiple_zero : IsMultiple 0 := ⟨0, by simp⟩

theorem IsMultiple.add {p q : ℚ} (hp : IsMultiple p) (hq : IsMultiple q) : IsMultiple (p + q) := by
  obtain ⟨j, rfl⟩ := hp
  obtain ⟨k, rfl⟩ := hq
  exact ⟨j + k, by rw [Int.cast_add, add_mul]⟩

theorem nearest_isMultiple (q : ℚ) : IsMultiple (nearest q) := by
  have hle : (-1074 : ℤ) ≤ ulpExponent q := le_max_right _ _
  obtain ⟨j, hj⟩ : ∃ j : ℕ, ulpExponent q = j + -1074 := ⟨(ulpExponent q + 1074).toNat, by omega⟩
  refine ⟨roundHalfEven (q / 2 ^ ulpExponent q) * 2 ^ j, ?_⟩
  -- a multiple of a greater unit
  have hunit : (2 : ℚ) ^ ulpExponent q = 2 ^ j * 2 ^ (-1074 : ℤ) := by
    rw [hj, zpow_add₀ (by norm_num), zpow_natCast]
  rw [nearest, hunit, Int.cast_mul, Int.cast_pow, Int.cast_ofNat, mul_assoc]

theorem toRat_binary64_isMultiple (q : ℚ) : IsMultiple (binary64 q).toRat := by
  by_cases hq : q = 0
  · subst hq
    exact isMultiple_zero
  rw [binary64_eq hq]
  split_ifs
  · exact isMultiple_zero
  · exact isMultiple_zero
  · exact isMultiple_zero
  · exact nearest_isMultiple q

/-- A multiple that is not zero is not rounded to zero. -/
theorem IsMultiple.nearest_ne_zero {q : ℚ} (h : IsMultiple q) (hq : q ≠ 0) : nearest q ≠ 0 := by
  have hleast : (0 : ℚ) < 2 ^ (-1074 : ℤ) := by positivity
  have hkept : nearest (2 ^ (-1074 : ℤ)) = 2 ^ (-1074 : ℤ) := by
    refine nearest_of_multiple (m := 1) (e := -1074) (max_le ?_ le_rfl)
      (by rw [Int.cast_one, one_mul])
    have hexp := (zpow_le_zpow_iff_right₀ (by norm_num : (1 : ℚ) < 2)).mp
      (leadingExponent_spec hleast).1
    omega
  obtain ⟨k, rfl⟩ := h
  have hk : k ≠ 0 := by
    rintro rfl
    simp at hq
  rcases lt_or_gt_of_ne hk with hneg | hpos
  · have hle : (2 : ℚ) ^ (-1074 : ℤ) ≤ -(k * 2 ^ (-1074 : ℤ)) := by
      rw [← neg_mul]
      exact le_mul_of_one_le_left hleast.le (by exact_mod_cast Int.neg_pos_of_neg hneg)
    have hmono := nearest_mono hle
    rw [hkept, nearest_neg] at hmono
    exact (neg_pos.mp (hleast.trans_le hmono)).ne
  · have hle : (2 : ℚ) ^ (-1074 : ℤ) ≤ k * 2 ^ (-1074 : ℤ) :=
      le_mul_of_one_le_left hleast.le (by exact_mod_cast hpos)
    have hmono := nearest_mono hle
    rw [hkept] at hmono
    exact (hleast.trans_le hmono).ne'

/-- A multiple is rounded to an infinity or to a multiple. -/
theorem IsMultiple.binary64 {q : ℚ} (h : IsMultiple q) :
    (∃ neg, binary64 q = .inf neg) ∨ ∃ r, IsMultiple r ∧ binary64 q = .fin r := by
  by_cases hq : q = 0
  · subst hq
    exact Or.inr ⟨0, isMultiple_zero, rfl⟩
  rw [binary64_eq hq, if_neg (h.nearest_ne_zero hq)]
  split_ifs
  · exact Or.inl ⟨_, rfl⟩
  · exact Or.inr ⟨_, nearest_isMultiple q, rfl⟩

/-! ## Roundings -/

/-- On the numbers that are not negative the rounding is monotone, keeps its own values, and
overflows to infinity at most. -/
structure IsRounding (fl : Rounding) : Prop where
  zero : fl 0 = .fin 0
  closed : ∀ q, 0 ≤ q → fl q = .inf false ∨ ∃ r, 0 ≤ r ∧ fl q = .fin r ∧ fl r = .fin r
  mono : ∀ p q, 0 ≤ p → p ≤ q → (fl q).lt (fl p) = false

theorem binary64_isRounding : IsRounding binary64 where
  zero := rfl
  closed := by
    intro q hq
    rcases hq.eq_or_lt with rfl | hq
    · exact Or.inr ⟨0, le_rfl, rfl, rfl⟩
    rw [binary64_of_pos hq]
    -- beyond the largest number there is infinity, else the result is rounded already
    split_ifs with hover
    · exact Or.inl rfl
    · refine Or.inr ⟨nearest q, nearest_nonneg hq, rfl, ?_⟩
      rcases (nearest_nonneg hq).eq_or_lt with hzero | hpos
      · rw [← hzero]
        rfl
      · rw [binary64_of_pos hpos, nearest_nearest hq hpos, if_neg hover]
  mono _ _ _ h := binary64_mono h

theorem IsRounding.keepsSign {fl : Rounding} (hfl : IsRounding fl) : Double.KeepsSign fl := by
  intro q hq
  rcases hfl.closed q hq with h | ⟨r, hr, h, -⟩
  · rw [h]
    exact (Double.nonneg_inf false).mpr rfl
  · rw [h]
    exact (Double.nonneg_fin r).mpr hr

end TopologyFabric

import TopologyFabric.Json.RoundTrip

/-!
# Integer Tokens

All integers of a text go through one `strtoll`, which saturates. So a token is read exactly iff its
number fits an `int64_t`, and the upper half of the unsigned numbers is not read back.

## Main results

- `parse_number`: a text that is a number token
- `parse_integer_iff`: which integer tokens are read exactly
- `parse_saturates`: the first number that is not
-/

namespace TopologyFabric.Json

open Library

variable {opt : ParseOptions}

/-! ## Texts that are one number -/

/-- A text that is a number token is read as the value of the token. -/
theorem parse_number (opt : ParseOptions) {tok : Bytes} (htok : NumberToken tok)
    (hnodes : 0 < opt.maxNodes) :
    parse opt tok = .ok ⟨tokenValue tok, .none, tok.length, []⟩ := by
  have hscalar : ReadsScalar opt (tok ++ []) [] (tokenValue tok) :=
    readsScalar_number htok fun c hc => by cases hc
  rw [List.append_nil] at hscalar
  exact parse_scalar hscalar hnodes

/-! ## Integers -/

/-- An optional minus sign and digits. -/
def integerToken (neg : Bool) (ds : Bytes) : Bytes := if neg then byte '-' :: ds else ds

/-- The integer that the token denotes. -/
def tokenInteger (neg : Bool) (ds : Bytes) : ℤ :=
  if neg then -(decimalValue ds : ℤ) else decimalValue ds

/-- An `Int` or `Uint` value of a number. -/
def Value.IsInteger (v : Value) (i : ℤ) : Prop :=
  (∃ k, v = .int k ∧ k.toInt = i) ∨ ∃ k, v = .uint k ∧ (k.toNat : ℤ) = i

/-- The token is read as its number, or refused as a number. -/
def ReadExactly (opt : ParseOptions) (neg : Bool) (ds : Bytes) : Prop :=
  ∃ r, parse opt (integerToken neg ds) = .ok r ∧
    (r.ok = true ∧ r.value.IsInteger (tokenInteger neg ds) ∨ r.error = .invalidNumber)

theorem numberToken_integer {ds : Bytes} (hds : IsDigits ds) (hne : ds ≠ []) (neg : Bool) :
    NumberToken (integerToken neg ds) := by
  cases neg with
  | false => exact numberToken_digits (Or.inl rfl) hds hne
  | true => exact numberToken_digits (Or.inr rfl) hds hne

/-- The number of a token is kept iff `strtoll` does not saturate. -/
theorem isInteger_tokenValue_iff {ds : Bytes} (hds : IsDigits ds) (hne : ds ≠ []) (neg : Bool) :
    (tokenValue (integerToken neg ds)).IsInteger (tokenInteger neg ds) ↔
      -2 ^ 63 ≤ tokenInteger neg ds ∧ tokenInteger neg ds < 2 ^ 63 := by
  cases neg with
  | false =>
    have hll : max (-2 ^ 63) (min (if ([] : Bytes) ≠ [] then -(decimalValue ds : ℤ)
        else decimalValue ds) (2 ^ 63 - 1)) = (min (decimalValue ds) (2 ^ 63 - 1) : ℕ) := by
      rw [if_neg (not_not.mpr rfl)]
      omega
    -- without a sign the token is stored unsigned, saturated above
    have hvalue := tokenValue_digits (Or.inl rfl) hds hne hll
    rw [if_neg (not_not.mpr rfl), List.nil_append] at hvalue
    have hnat : (UInt64.ofInt ((min (decimalValue ds) (2 ^ 63 - 1) : ℕ) : ℤ)).toNat =
        min (decimalValue ds) (2 ^ 63 - 1) := by
      rw [UInt64.ofInt, UInt64.toNat_ofNat']
      omega
    show (tokenValue ds).IsInteger (decimalValue ds : ℤ) ↔
      -2 ^ 63 ≤ (decimalValue ds : ℤ) ∧ (decimalValue ds : ℤ) < 2 ^ 63
    rw [hvalue]
    constructor
    · rintro (⟨k, hk, -⟩ | ⟨k, hk, hi⟩)
      · cases hk
      · obtain rfl := Value.uint.inj hk
        rw [hnat] at hi
        omega
    · intro hrange
      refine Or.inr ⟨_, rfl, ?_⟩
      rw [hnat]
      omega
  | true =>
    have hsign : str "-" ≠ [] := by decide
    have hll : max (-2 ^ 63) (min (if str "-" ≠ [] then -(decimalValue ds : ℤ)
        else decimalValue ds) (2 ^ 63 - 1)) = max (-2 ^ 63) (-(decimalValue ds : ℤ)) := by
      rw [if_pos hsign]
      omega
    -- with a minus it is stored signed, saturated below
    have hvalue := tokenValue_digits (Or.inr rfl) hds hne hll
    rw [if_pos hsign] at hvalue
    have hint : (Int64.ofInt (max (-2 ^ 63) (-(decimalValue ds : ℤ)))).toInt =
        max (-2 ^ 63) (-(decimalValue ds : ℤ)) :=
      Int64.toInt_ofInt_of_le (by omega) (by omega)
    show (tokenValue (byte '-' :: ds)).IsInteger (-(decimalValue ds : ℤ)) ↔
      -2 ^ 63 ≤ -(decimalValue ds : ℤ) ∧ -(decimalValue ds : ℤ) < 2 ^ 63
    rw [show byte '-' :: ds = str "-" ++ ds from rfl, hvalue]
    constructor
    · rintro (⟨k, hk, hi⟩ | ⟨k, hk, -⟩)
      · obtain rfl := Value.int.inj hk
        rw [hint] at hi
        omega
      · cases hk
    · intro hrange
      refine Or.inl ⟨_, rfl, ?_⟩
      rw [hint]
      omega

/-- **Which integers are read exactly.** A token is read as its number iff the number fits an
`int64_t`; in particular an unsigned number that is written is read back iff it does. -/
theorem parse_integer_iff (hnodes : 0 < opt.maxNodes) :
    (∀ neg ds, IsDigits ds → ds ≠ [] →
      (ReadExactly opt neg ds ↔ -2 ^ 63 ≤ tokenInteger neg ds ∧ tokenInteger neg ds < 2 ^ 63)) ∧
    ∀ (mode : WriteMode) (u : UInt64), (∃ r, parse opt (dump mode (.uint u)) = .ok r ∧
      r.ok = true ∧ r.value = .uint u) ↔ u.toNat < 2 ^ 63 := by
  constructor
  · -- every token of digits
    intro neg ds hds hne
    have hparse := parse_number opt (numberToken_integer hds hne neg) hnodes
    rw [← isInteger_tokenValue_iff hds hne neg]
    constructor
    · rintro ⟨r, hr, hexact⟩
      obtain rfl := Outcome.ok.inj (hr.symm.trans hparse)
      exact hexact.elim And.right fun h => absurd h ParseError.noConfusion
    · exact fun h => ⟨_, hparse, Or.inl ⟨rfl, h⟩⟩
  · -- and what the writer makes of an unsigned number
    intro mode u
    have hparse := parse_number opt (numberToken_natToString u.toNat) hnodes
    have hiff := isInteger_tokenValue_iff (isDigits_natToString u.toNat)
      (natToString_ne_nil u.toNat) false
    simp only [integerToken, tokenInteger, Bool.false_eq_true, if_false,
      decimalValue_natToString] at hiff
    constructor
    · rintro ⟨r, hr, -, hvalue⟩
      obtain rfl := Outcome.ok.inj (hr.symm.trans hparse)
      have hrange := hiff.mp (Or.inr ⟨u, hvalue, rfl⟩)
      omega
    · intro hlt
      refine ⟨_, hparse, rfl, ?_⟩
      rw [tokenValue_natToString hlt, UInt64.ofNat_toNat]

/-- With the default options. -/
theorem parse_integer_iff_default :
    (∀ neg ds, IsDigits ds → ds ≠ [] →
      (ReadExactly {} neg ds ↔ -2 ^ 63 ≤ tokenInteger neg ds ∧ tokenInteger neg ds < 2 ^ 63)) ∧
    ∀ (mode : WriteMode) (u : UInt64), (∃ r, parse {} (dump mode (.uint u)) = .ok r ∧
      r.ok = true ∧ r.value = .uint u) ↔ u.toNat < 2 ^ 63 :=
  parse_integer_iff (by decide)

/-- `2 ^ 63` is read as `2 ^ 63 - 1`. -/
theorem parse_saturates : ∃ r, parse {} (str "9223372036854775808") = .ok r ∧ r.ok = true ∧
    r.value = .uint (UInt64.ofNat (2 ^ 63 - 1)) ∧
      ¬ ReadExactly {} false (str "9223372036854775808") := by
  have hdigits : IsDigits (str "9223372036854775808") := by decide
  have hne : str "9223372036854775808" ≠ [] := by decide
  have hparse := parse_number {} (numberToken_integer hdigits hne false) (by decide)
  have hvalue : tokenValue (str "9223372036854775808") = .uint (UInt64.ofNat (2 ^ 63 - 1)) := rfl
  refine ⟨_, hparse, rfl, hvalue, ?_⟩
  rintro ⟨r, hr, ⟨-, hexact⟩ | herror⟩
  · obtain rfl := Outcome.ok.inj (hr.symm.trans hparse)
    have hrange := (isInteger_tokenValue_iff hdigits hne false).mp hexact
    revert hrange
    decide
  · obtain rfl := Outcome.ok.inj (hr.symm.trans hparse)
    cases herror

end TopologyFabric.Json

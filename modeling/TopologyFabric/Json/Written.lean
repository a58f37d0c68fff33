import TopologyFabric.Json.Acceptance
import TopologyFabric.Json.Writer

/-!
# Strings and Numbers of the Writer

What the parser makes of the strings and numbers that the writer prints. A string without bytes from
`0x80` on is written as a literal that decodes to it, and every number is written as a number token.
The integers keep their values; doubles are rounded to six decimals.

## Main results

- `stringBody_written`: an ASCII string is written as a literal of itself
- `tokenValue_natToString`, `integer_tokenValue_intToString`: integers are read back
- `numberToken_writeDouble`: a double is written as a number token, or as `null`
-/

namespace TopologyFabric.Json

/-! ## Strings -/

/-- The escape by number of a control character is decoded to it. -/
private theorem hexCodePoint_control : ∀ n < 32,
    hexCodePoint (byte '0') (byte '0') (hexDigit (n / 16)) (hexDigit (n % 16)) = some n ∧
      utf8 n = [UInt8.ofNat n] := by
  decide

theorem stringUnit_writeChar {c : UInt8} (hc : c < 0x80) : StringUnit (writeChar c) [c] := by
  unfold writeChar
  split_ifs with hquote hslash hn hr ht hb hf hcontrol
  · exact hquote ▸ .escape (by decide)
  · exact hslash ▸ .escape (by decide)
  · exact hn ▸ .escape (by decide)
  · exact hr ▸ .escape (by decide)
  · exact ht ▸ .escape (by decide)
  · exact hb ▸ .escape (by decide)
  · exact hf ▸ .escape (by decide)
  · obtain ⟨hcp, hutf8⟩ := hexCodePoint_control c.toNat (UInt8.lt_iff_toNat_lt.mp hcontrol)
    rw [UInt8.ofNat_toNat] at hutf8
    rw [← hutf8]
    exact .unicode hcp
  · exact .plain hquote hslash hc

/-- An ASCII string is written as the characters of a literal of itself. -/
theorem stringBody_written {s : Bytes} (hs : IsAscii s) : StringBody (s.flatMap writeChar) s := by
  induction s with
  | nil => exact .nil
  | cons c s ih =>
    rw [List.flatMap_cons]
    exact .cons (stringUnit_writeChar (hs c (List.mem_cons_self ..)))
      (ih fun a ha => hs a (List.mem_cons_of_mem _ ha))

theorem parseString_written {opt : ParseOptions} {s : Bytes} (hs : IsAscii s)
    (hlen : s.length ≤ opt.maxStringBytes) (rest : Bytes) :
    parseString opt (writeString s ++ rest) = (some s, rest) := by
  rw [writeString, List.cons_append, List.append_assoc]
  exact parseString_literal (stringBody_written hs) hlen rest

theorem ne_of_not_ascii {c a : UInt8} (hc : ¬ c < 0x80) (ha : a < 0x80) : c ≠ a := by
  rintro rfl
  exact hc ha

/-- A byte from `0x80` on is written as it is. -/
theorem isAscii_of_writeChar {c : UInt8} (h : IsAscii (writeChar c)) : c < 0x80 := by
  by_contra hlarge
  have hraw : c ∈ writeChar c := by
    have hne : ∀ a, a < 0x80 → c ≠ a := fun a ha => ne_of_not_ascii hlarge ha
    have hcontrol : ¬ c < 0x20 := fun hlt => hlarge (hlt.trans (by decide))
    unfold writeChar
    rw [if_neg (hne _ (by decide)), if_neg (hne _ (by decide)), if_neg (hne _ (by decide)),
      if_neg (hne _ (by decide)), if_neg (hne _ (by decide)), if_neg (hne _ (by decide)),
      if_neg (hne _ (by decide)), if_neg hcontrol]
    exact List.mem_singleton_self c
  exact hlarge (h c hraw)

theorem isAscii_of_writeString {s : Bytes} (h : IsAscii (writeString s)) : IsAscii s := by
  intro c hc
  refine isAscii_of_writeChar fun a ha => h a ?_
  rw [writeString, List.mem_cons, List.mem_append, List.mem_flatMap]
  exact Or.inr (Or.inl ⟨c, hc, ha⟩)

/-! ## Integers -/

theorem isDigits_natToString (n : ℕ) : IsDigits (natToString n) :=
  fun _ hc => isDigit_of_mem_natToString hc

/-- Digits behind an optional sign are a number token. -/
theorem numberToken_digits {sign ds : Bytes} (hsign : sign = [] ∨ sign = str "-")
    (hds : IsDigits ds) (hne : ds ≠ []) : NumberToken (sign ++ ds) :=
  ⟨sign, ds, [], [], [], hsign, hds, .absent, .absent, by simp, Or.inl hne⟩

theorem numberToken_natToString (n : ℕ) : NumberToken (natToString n) :=
  numberToken_digits (Or.inl rfl) (isDigits_natToString n) (natToString_ne_nil n)

theorem numberToken_intToString (i : ℤ) : NumberToken (intToString i) := by
  unfold intToString
  split_ifs
  · exact numberToken_digits (Or.inr rfl) (isDigits_natToString _) (natToString_ne_nil _)
  · exact numberToken_natToString i.natAbs

/-- What `strtoll` gives for digits behind an optional sign. -/
theorem tokenValue_digits {sign ds : Bytes} (hsign : sign = [] ∨ sign = str "-")
    (hds : IsDigits ds) (hne : ds ≠ []) {ll : ℤ}
    (hll : max (-2 ^ 63) (min (if sign ≠ [] then -(decimalValue ds : ℤ) else decimalValue ds)
      (2 ^ 63 - 1)) = ll) :
    tokenValue (sign ++ ds) =
      if sign ≠ [] then .int (Int64.ofInt ll) else .uint (UInt64.ofInt ll) := by
  have hscan := scanNumber_integer hsign hds hne
  subst hll
  simp only [tokenValue, hscan, NumberScan.value, strtoll, hne, if_false, decide_eq_true_eq]
  rfl

/-- The same for a number that is written. -/
private theorem tokenValue_written {sign : Bytes} (hsign : sign = [] ∨ sign = str "-") {n : ℕ}
    {ll : ℤ} (hll : max (-2 ^ 63) (min (if sign ≠ [] then -(n : ℤ) else n) (2 ^ 63 - 1)) = ll) :
    tokenValue (sign ++ natToString n) =
      if sign ≠ [] then .int (Int64.ofInt ll) else .uint (UInt64.ofInt ll) :=
  tokenValue_digits hsign (isDigits_natToString n) (natToString_ne_nil n)
    (by rw [decimalValue_natToString]; exact hll)

/-- An unsigned number is read back up to the greatest `int64_t`, where it stops. -/
theorem tokenValue_natToString_min (n : ℕ) :
    tokenValue (natToString n) = .uint (UInt64.ofNat (min n (2 ^ 63 - 1))) := by
  have h := @tokenValue_written [] (Or.inl rfl) n (min n (2 ^ 63 - 1) : ℕ)
    (by rw [if_neg (not_not.mpr rfl)]; omega)
  have hcast : UInt64.ofInt ((min n (2 ^ 63 - 1) : ℕ) : ℤ) =
      UInt64.ofNat (min n (2 ^ 63 - 1)) := by
    have hmod : (((min n (2 ^ 63 - 1) : ℕ) : ℤ) % 2 ^ 64).toNat = min n (2 ^ 63 - 1) := by omega
    unfold UInt64.ofInt
    rw [hmod]
  rwa [if_neg (not_not.mpr rfl), List.nil_append, hcast] at h

/-- An unsigned number below `2 ^ 63` is read back. -/
theorem tokenValue_natToString {n : ℕ} (hn : n < 2 ^ 63) :
    tokenValue (natToString n) = .uint (UInt64.ofNat n) := by
  rw [tokenValue_natToString_min, min_eq_left (by omega)]

/-- A negative number from `-2 ^ 63` on is read back. -/
theorem tokenValue_negative {n : ℕ} (hn : n ≤ 2 ^ 63) :
    tokenValue (byte '-' :: natToString n) = .int (Int64.ofInt (-n)) := by
  have hsign : str "-" ≠ [] := by decide
  have h := @tokenValue_written (str "-") (Or.inr rfl) n (-n) (by rw [if_pos hsign]; omega)
  rwa [if_pos hsign] at h

/-- Every token is read as a number. -/
theorem isNumber_tokenValue {tok : Bytes} (h : NumberToken tok) : IsNumber (tokenValue tok) := by
  obtain ⟨t, hcomplete, hscan⟩ := scanNumber_token h
  obtain ⟨v, hv⟩ := hcomplete.value
  have hself := hscan [] fun c hc => by simp at hc
  rw [List.append_nil] at hself
  have hvalue : NumberScan.value { t with rest := [] } = some v := hv
  rw [tokenValue, hself, hvalue, Option.getD_some]
  exact NumberScan.isNumber_value hv

/-- A signed number is read back as an `int64_t`. -/
theorem integer_tokenValue_intToString (v : Int64) :
    (tokenValue (intToString v.toInt)).integer = v := by
  have hlow : -2 ^ 63 ≤ v.toInt := v.le_toInt
  have hhigh : v.toInt < 2 ^ 63 := v.toInt_lt
  unfold intToString
  split_ifs with hneg
  · rw [tokenValue_negative (by omega), show (-(v.toInt.natAbs : ℤ)) = v.toInt by omega]
    exact Int64.ofInt_toInt v
  · rw [tokenValue_natToString (by omega), Value.integer]
    calc (UInt64.ofNat v.toInt.natAbs).toInt64
        = Int64.ofNat v.toInt.natAbs := rfl
      _ = Int64.ofInt (v.toInt.natAbs : ℤ) := Int64.ofInt_eq_ofNat.symm
      _ = Int64.ofInt v.toInt := by rw [show (v.toInt.natAbs : ℤ) = v.toInt by omega]
      _ = v := Int64.ofInt_toInt v

/-! ## Doubles -/

/-- Behind the point only trailing zeros go, and the point with them if nothing else is left. -/
theorem stripZeros_point {pre frac : Bytes} (hfrac : IsDigits frac) :
    stripZeros (pre ++ byte '.' :: frac) = pre ∨
      ∃ ds, IsDigits ds ∧ stripZeros (pre ++ byte '.' :: frac) = pre ++ byte '.' :: ds := by
  -- from the end on, up to the point or to a digit that is not zero
  have hdrop : (pre ++ byte '.' :: frac).reverse.dropWhile (fun c => decide (c = byte '0')) =
      if (frac.reverse.dropWhile fun c => decide (c = byte '0')).isEmpty then
        byte '.' :: pre.reverse
      else (frac.reverse.dropWhile fun c => decide (c = byte '0')) ++ byte '.' :: pre.reverse := by
    have hrev : (pre ++ byte '.' :: frac).reverse = frac.reverse ++ byte '.' :: pre.reverse := by
      simp
    rw [hrev, List.dropWhile_append, List.dropWhile_cons_of_neg (by decide)]
  unfold stripZeros
  rw [if_pos (by simp), hdrop]
  cases hrest : frac.reverse.dropWhile fun c => decide (c = byte '0') with
  | nil => exact Or.inl (by simp)
  | cons c ds =>
    have hsub : ∀ a ∈ c :: ds, a ∈ frac := by
      intro a ha
      rw [← hrest] at ha
      exact List.mem_reverse.mp ((List.dropWhile_sublist _).mem ha)
    have hpoint : c ≠ byte '.' := by
      rintro rfl
      exact absurd (hfrac _ (hsub _ (List.mem_cons_self ..))) (by decide)
    refine Or.inr ⟨(c :: ds).reverse, fun a ha => hfrac a (hsub a (List.mem_reverse.mp ha)), ?_⟩
    simp [hpoint]

theorem isDigits_sixDigits (n : ℕ) : IsDigits (sixDigits n) := by
  intro c hc
  rcases List.mem_append.mp hc with hc | hc
  · rw [(List.mem_replicate.mp hc).2]
    decide
  · exact isDigit_of_mem_natToString hc

/-- A double is written as a number token, or as `null`. -/
theorem numberToken_writeDouble {d : Double} (hd : d ≠ .nan) : NumberToken (writeDouble d) := by
  cases d with
  | nan => exact absurd rfl hd
  | inf neg =>
    -- infinity is written as a number that is too large
    have hexp : Exponent (byte 'e' :: ([] ++ str "9999")) :=
      .present (Or.inl rfl) (Or.inl rfl) (by decide) (by decide)
    cases neg with
    | false =>
      exact ⟨[], str "1", [], [], _, Or.inl rfl, by decide, .absent, hexp, by decide,
        Or.inl (by decide)⟩
    | true =>
      exact ⟨str "-", str "1", [], [], _, Or.inr rfl, by decide, .absent, hexp, by decide,
        Or.inl (by decide)⟩
  | negZero =>
    exact ⟨str "-", str "0", [], [], [], Or.inr rfl, by decide, .absent, .absent, by decide,
      Or.inl (by decide)⟩
  | fin q =>
    -- six decimals, of which the zeros at the end are taken off
    obtain ⟨sign, ints, frac, hsign, htext⟩ : ∃ sign ints frac, (sign = [] ∨ sign = str "-") ∧
        (Double.fin q).toString = sign ++ natToString ints ++ byte '.' :: sixDigits frac := by
      refine ⟨if q < 0 then str "-" else [], _, _, ?_, List.append_assoc _ (str ".") _⟩
      split_ifs
      · exact Or.inr rfl
      · exact Or.inl rfl
    rw [writeDouble, htext]
    · rcases stripZeros_point (isDigits_sixDigits frac) with h | ⟨ds, hds, h⟩
      · rw [h]
        exact numberToken_digits hsign (isDigits_natToString ints) (natToString_ne_nil ints)
      · rw [h]
        exact ⟨sign, natToString ints, byte '.' :: ds, ds, [], hsign, isDigits_natToString ints,
          .present hds, .absent, by simp, Or.inl (natToString_ne_nil ints)⟩
    · exact Double.noConfusion
    · exact fun _ => Double.noConfusion

end TopologyFabric.Json

import TopologyFabric.Core.NodeId

/-!
# Reading Identifiers from Hex Text

`try_from_hex` reads two halves of 16 digits. A bad digit is reported as the word of all ones, which
is also what 16 digits F say, so a half of all ones is taken only in the one spelling
`ffffffffffffffff`.

## Main results

- `hexPadded_parseHex`: 16 digits are read as the word whose text they are in lower case
- `tryFromHexInto_iff`: which texts are taken
- `readsHex_iff`: which texts are read as they should be
-/

namespace TopologyFabric

namespace TopologyNodeId

/-! ## The code -/

/-- `try_from_hex` with its out parameter: whether it succeeds, and what `out` holds then. -/
def tryFromHexInto (s : Bytes) (out : TopologyNodeId) : Bool × TopologyNodeId :=
  if s.length ≠ 32 then (false, out)
  else
    let h := parseHex (s.take 16) 0
    let l := parseHex ((s.drop 16).take 16) 0
    if h = UInt64.ofNat (2 ^ 64 - 1) ∧ s.take 16 ≠ str "ffffffffffffffff" then (false, out)
    else if l = UInt64.ofNat (2 ^ 64 - 1) ∧ (s.drop 16).take 16 ≠ str "ffffffffffffffff" then
      (false, out)
    else (true, ⟨h, l⟩)

theorem tryFromHexInto_eq (s : Bytes) (out : TopologyNodeId) :
    tryFromHexInto s out = ((tryFromHex s).isSome, (tryFromHex s).getD out) := by
  unfold tryFromHexInto tryFromHex
  simp only
  split_ifs <;> rfl

/-! ## Digits in either case -/

/-- An ASCII letter in lower case. -/
def lowerByte (c : UInt8) : UInt8 := if byte 'A' ≤ c ∧ c ≤ byte 'Z' then c + 32 else c

def lowerCase (s : Bytes) : Bytes := s.map lowerByte

/-- All characters are hexadecimal digits, in either case. -/
def IsHex (s : Bytes) : Prop := ∀ c ∈ s, (hexValue? c).isSome = true

instance (s : Bytes) : Decidable (IsHex s) := List.decidableBAll _ s

/-- The value of a digit; no digit counts as 0. -/
def digitValue (c : UInt8) : ℕ := (hexValue? c).getD 0

/-- The number that the digits say. -/
def hexNat (s : Bytes) : ℕ := Nat.ofDigits 16 (s.map digitValue).reverse

/-- What holds of all characters is tested on the 256 characters. -/
private theorem forall_byte {P : UInt8 → Prop} (h : ∀ n < 256, P (UInt8.ofNat n)) (c : UInt8) :
    P c := by
  have hc := h c.toNat c.toNat_lt
  rwa [UInt8.ofNat_toNat] at hc

theorem digitValue_lt (c : UInt8) : digitValue c < 16 :=
  forall_byte (P := fun c => digitValue c < 16) (by decide +kernel) c

theorem hexValue?_lowerByte (c : UInt8) : hexValue? (lowerByte c) = hexValue? c :=
  forall_byte (P := fun c => hexValue? (lowerByte c) = hexValue? c) (by decide +kernel) c

/-- The value of a digit determines it up to its case. -/
theorem hexDigit_digitValue {c : UInt8} (hc : (hexValue? c).isSome = true) :
    hexDigit (digitValue c) = lowerByte c :=
  forall_byte (P := fun c => (hexValue? c).isSome = true → hexDigit (digitValue c) = lowerByte c)
    (by decide +kernel) c hc

/-- Digits are put into lower case by writing their values. -/
theorem lowerCase_eq_map {s : Bytes} (hs : IsHex s) :
    lowerCase s = (s.map digitValue).map hexDigit := by
  rw [lowerCase, List.map_map]
  exact List.map_congr_left fun c hc => (hexDigit_digitValue (hs c hc)).symm

theorem isHex_hexPadded (width n : ℕ) : IsHex (hexPadded width n) := by
  intro c hc
  cases hvalue : hexValue? c with
  | none => exact absurd hc (notMem_hexPadded hvalue width n)
  | some d => rfl

/-- Hex text is written in lower case. -/
theorem lowerCase_hexPadded (width n : ℕ) : lowerCase (hexPadded width n) = hexPadded width n := by
  have hdigit : ∀ d < 16, lowerByte (byte d.digitChar) = byte d.digitChar := by decide
  have hsame : ∀ c ∈ hexPadded width n, lowerByte c = c := by
    intro c hc
    rcases List.mem_append.mp hc with hzero | htext
    · rw [(List.mem_replicate.mp hzero).2]
      decide
    · obtain ⟨x, hx, rfl⟩ := List.mem_map.mp htext
      obtain ⟨d, hd, rfl⟩ := exists_digitChar_of_mem_toDigits n x hx
      exact hdigit d hd
  exact (List.map_congr_left hsame).trans (List.map_id' _)

/-! ## What the loop computes -/

theorem hexNat_cons (c : UInt8) (s : Bytes) :
    hexNat (c :: s) = digitValue c * 16 ^ s.length + hexNat s := by
  rw [hexNat, hexNat, List.map_cons, List.reverse_cons, Nat.ofDigits_append, Nat.ofDigits_singleton,
    List.length_reverse, List.length_map]
  ring

theorem hexNat_lt (s : Bytes) : hexNat s < 16 ^ s.length := by
  have hlt : ∀ d ∈ (s.map digitValue).reverse, d < 16 := by
    intro d hd
    obtain ⟨c, -, rfl⟩ := List.mem_map.mp (List.mem_reverse.mp hd)
    exact digitValue_lt c
  have h := Nat.ofDigits_lt_base_pow_length (by norm_num) hlt
  rwa [List.length_reverse, List.length_map] at h

/-- The loop computes the number that the digits say, after what it starts with. -/
theorem parseHex_toNat {s : Bytes} (hs : IsHex s) (v : UInt64) :
    (parseHex s v).toNat = (v.toNat * 16 ^ s.length + hexNat s) % 2 ^ 64 := by
  induction s generalizing v with
  | nil => simp [parseHex, hexNat]
  | cons c s ih =>
    obtain ⟨d, hd⟩ := Option.isSome_iff_exists.mp (hs c (List.mem_cons_self ..))
    have hvalue : digitValue c = d := by rw [digitValue, hd, Option.getD_some]
    -- one digit more, and the overflow is lost
    have hstep : (v * 16 + d.toUInt64).toNat = (v.toNat * 16 + d) % 2 ^ 64 := by
      simp only [Nat.toUInt64, UInt64.toNat_add, UInt64.toNat_mul, UInt64.toNat_ofNat',
        UInt64.reduceToNat]
      omega
    have hnat : v.toNat * 16 ^ (c :: s).length + hexNat (c :: s) =
        (v.toNat * 16 + d) * 16 ^ s.length + hexNat s := by
      rw [hexNat_cons, hvalue, List.length_cons]
      ring
    simp only [parseHex, hd]
    rw [ih (fun e he => hs e (List.mem_cons_of_mem _ he)), hstep, hnat, Nat.add_mod, Nat.mod_mul_mod,
      ← Nat.add_mod]

/-- A character that is no digit makes the result the word of all ones. -/
theorem parseHex_of_not_isHex {s : Bytes} (hs : ¬ IsHex s) (v : UInt64) :
    parseHex s v = UInt64.ofNat (2 ^ 64 - 1) := by
  induction s generalizing v with
  | nil => exact absurd (fun c hc => absurd hc List.not_mem_nil) hs
  | cons c s ih =>
    cases hd : hexValue? c with
    | none => simp only [parseHex, hd]
    | some d =>
      simp only [parseHex, hd]
      apply ih
      intro hrest
      refine hs fun e he => ?_
      rcases List.mem_cons.mp he with rfl | he
      · rw [hd, Option.isSome_some]
      · exact hrest e he

theorem parseHex_lowerCase (s : Bytes) (v : UInt64) : parseHex (lowerCase s) v = parseHex s v := by
  induction s generalizing v with
  | nil => rfl
  | cons c s ih =>
    rw [lowerCase, List.map_cons, parseHex, parseHex, hexValue?_lowerByte]
    cases hexValue? c with
    | none => rfl
    | some d => exact ih _

/-- Up to 16 digits are determined by their word, up to their case. -/
theorem lowerCase_eq_of_parseHex {s t : Bytes} (hs : IsHex s) (ht : IsHex t)
    (hlength : s.length = t.length) (hshort : s.length ≤ 16)
    (h : parseHex s 0 = parseHex t 0) : lowerCase s = lowerCase t := by
  have hbound : ∀ {u : Bytes}, IsHex u → u.length ≤ 16 → (parseHex u 0).toNat = hexNat u := by
    intro u hu hlen
    have hlt : hexNat u < 2 ^ 64 :=
      (hexNat_lt u).trans_le (Nat.pow_le_pow_right (by norm_num) hlen)
    rw [parseHex_toNat hu, UInt64.toNat_zero, zero_mul, zero_add, Nat.mod_eq_of_lt hlt]
  have hnat : hexNat s = hexNat t := by
    rw [← hbound hs hshort, h, hbound ht (hlength ▸ hshort)]
  have hdigits : ∀ u : Bytes, ∀ d ∈ (u.map digitValue).reverse, d < 16 := by
    intro u d hd
    obtain ⟨c, -, rfl⟩ := List.mem_map.mp (List.mem_reverse.mp hd)
    exact digitValue_lt c
  have hvalues : (s.map digitValue).reverse = (t.map digitValue).reverse :=
    Nat.ofDigits_inj_of_len_eq (by norm_num) (by simpa using hlength) (hdigits s) (hdigits t) hnat
  rw [lowerCase_eq_map hs, lowerCase_eq_map ht, List.reverse_injective hvalues]

/-- 16 digits are read as the word whose text they are, in lower case. -/
theorem hexPadded_parseHex {s : Bytes} (hs : IsHex s) (hlength : s.length = 16) :
    hexPadded 16 (parseHex s 0).toNat = lowerCase s := by
  have hback : parseHex (hexPadded 16 (parseHex s 0).toNat) 0 = parseHex s 0 := by
    rw [parseHex_hexPadded, Nat.toUInt64, UInt64.ofNat_toNat]
  have hpadded := length_hexPadded (parseHex s 0)
  rw [← lowerCase_eq_of_parseHex (isHex_hexPadded 16 _) hs (by rw [hpadded, hlength])
    hpadded.le hback]
  exact (lowerCase_hexPadded 16 _).symm

/-! ## Which texts are taken -/

/-- The texts of identifiers: 32 digits, in either case. -/
def IsHexId (s : Bytes) : Prop := s.length = 32 ∧ IsHex s

instance (s : Bytes) : Decidable (IsHexId s) := inferInstanceAs (Decidable (_ ∧ _))

/-- 16 digits F, at least one of them in upper case. -/
def UpperOnes (part : Bytes) : Prop :=
  lowerCase part = str "ffffffffffffffff" ∧ part ≠ str "ffffffffffffffff"

instance (part : Bytes) : Decidable (UpperOnes part) := inferInstanceAs (Decidable (_ ∧ _))

/-- 16 digits are read as the word of all ones iff all of them are F. -/
theorem parseHex_eq_max_iff {part : Bytes} (hpart : IsHex part) (hlength : part.length = 16) :
    parseHex part 0 = UInt64.ofNat (2 ^ 64 - 1) ↔ lowerCase part = str "ffffffffffffffff" := by
  constructor
  · intro hmax
    rw [← hexPadded_parseHex hpart hlength, hexPadded_of_max hmax]
  · intro hones
    rw [← parseHex_lowerCase, hones]
    decide

/-- The test of one half: it turns down what is no number, and all ones in another spelling. -/
theorem rejects_iff {part : Bytes} (hlength : part.length = 16) :
    (parseHex part 0 = UInt64.ofNat (2 ^ 64 - 1) ∧ part ≠ str "ffffffffffffffff") ↔
      ¬ IsHex part ∨ UpperOnes part := by
  by_cases hpart : IsHex part
  · rw [parseHex_eq_max_iff hpart hlength]
    exact ⟨Or.inr, fun h => h.resolve_left (not_not.mpr hpart)⟩
  · refine ⟨fun _ => Or.inl hpart, fun _ => ⟨parseHex_of_not_isHex hpart 0, ?_⟩⟩
    rintro rfl
    exact hpart (by decide)

section Read

variable {s : Bytes} {out : TopologyNodeId}

theorem isHex_halves : IsHex s ↔ IsHex (s.take 16) ∧ IsHex (s.drop 16) := by
  have happend : ∀ c, c ∈ s ↔ c ∈ s.take 16 ∨ c ∈ s.drop 16 := by
    intro c
    rw [← List.mem_append, List.take_append_drop]
  simp only [IsHex, happend, or_imp, forall_and]

theorem length_halves (hlength : s.length = 32) :
    (s.take 16).length = 16 ∧ (s.drop 16).length = 16 := by
  constructor
  · rw [List.length_take, hlength]
    rfl
  · rw [List.length_drop, hlength]

/-- What is done with a text of 32 characters. -/
theorem tryFromHexInto_of_length (hlength : s.length = 32) :
    tryFromHexInto s out =
      if IsHex s ∧ ¬ (UpperOnes (s.take 16) ∨ UpperOnes (s.drop 16)) then
        (true, ⟨parseHex (s.take 16) 0, parseHex (s.drop 16) 0⟩)
      else (false, out) := by
  obtain ⟨hhigh, hlow⟩ := length_halves hlength
  have hrest : (s.drop 16).take 16 = s.drop 16 := List.take_of_length_le hlow.le
  have hfirst := rejects_iff hhigh
  have hsecond := rejects_iff hlow
  rw [tryFromHexInto, if_neg (not_not.mpr hlength)]
  simp only [hrest]
  -- both halves are numbers in a spelling that is taken, or one of them is turned down
  by_cases h : IsHex s ∧ ¬ (UpperOnes (s.take 16) ∨ UpperOnes (s.drop 16))
  · obtain ⟨hhex, hones⟩ := h
    obtain ⟨hhexHigh, hhexLow⟩ := isHex_halves.mp hhex
    rw [if_neg (mt hfirst.mp (by tauto)), if_neg (mt hsecond.mp (by tauto)), if_pos ⟨hhex, hones⟩]
  · by_cases hhighBad : ¬ IsHex (s.take 16) ∨ UpperOnes (s.take 16)
    · rw [if_pos (hfirst.mpr hhighBad), if_neg h]
    · rw [if_neg (mt hfirst.mp hhighBad)]
      have hlowBad : ¬ IsHex (s.drop 16) ∨ UpperOnes (s.drop 16) := by
        rw [isHex_halves] at h
        tauto
      rw [if_pos (hsecond.mpr hlowBad), if_neg h]

/-- **Which texts are taken**: 32 digits, no half of which is all ones in another spelling. -/
theorem tryFromHexInto_iff :
    (tryFromHexInto s out).1 = true ↔
      IsHexId s ∧ ¬ (UpperOnes (s.take 16) ∨ UpperOnes (s.drop 16)) := by
  by_cases hlength : s.length = 32
  · rw [tryFromHexInto_of_length hlength, IsHexId]
    by_cases h : IsHex s ∧ ¬ (UpperOnes (s.take 16) ∨ UpperOnes (s.drop 16))
    · rw [if_pos h]
      exact ⟨fun _ => ⟨⟨hlength, h.1⟩, h.2⟩, fun _ => rfl⟩
    · rw [if_neg h]
      refine ⟨fun hfalse => absurd hfalse Bool.false_ne_true, fun htaken => ?_⟩
      exact absurd ⟨htaken.1.2, htaken.2⟩ h
  · rw [tryFromHexInto, if_pos hlength]
    refine ⟨fun hfalse => absurd hfalse Bool.false_ne_true, fun htaken => ?_⟩
    exact absurd htaken.1.1 hlength

/-- A text that is taken is the text of its identifier, up to its case. -/
theorem toHex_tryFromHexInto (h : (tryFromHexInto s out).1 = true) :
    (tryFromHexInto s out).2.toHex = lowerCase s := by
  obtain ⟨⟨hlength, hhex⟩, hones⟩ := tryFromHexInto_iff.mp h
  obtain ⟨hhigh, hlow⟩ := isHex_halves.mp hhex
  rw [tryFromHexInto_of_length hlength, if_pos ⟨hhex, hones⟩, toHex,
    hexPadded_parseHex hhigh (length_halves hlength).1,
    hexPadded_parseHex hlow (length_halves hlength).2, lowerCase, lowerCase, ← List.map_append,
    List.take_append_drop]
  rfl

theorem tryFromHexInto_unchanged (h : (tryFromHexInto s out).1 = false) :
    (tryFromHexInto s out).2 = out := by
  rw [tryFromHexInto_eq] at h ⊢
  rw [Option.isSome_eq_false_iff, Option.isNone_iff_eq_none] at h
  rw [h, Option.getD_none]

end Read

/-! ## Main Result -/

/-- A text is read as it should be: it is taken iff it is the text of an identifier, it is then the
text of the result up to its case, and otherwise nothing is written. -/
structure ReadsHex (s : Bytes) (out : TopologyNodeId) : Prop where
  taken : (tryFromHexInto s out).1 = true ↔ IsHexId s
  text : (tryFromHexInto s out).1 = true → (tryFromHexInto s out).2.toHex = lowerCase s
  unchanged : (tryFromHexInto s out).1 = false → (tryFromHexInto s out).2 = out

/-- **Reading hex text.** A text is read as it should be, unless it has 32 digits and one of its
halves is all ones with an upper-case F; and every identifier is read back from its own text. -/
theorem readsHex_iff (s : Bytes) (out : TopologyNodeId) :
    (ReadsHex s out ↔ ¬ (IsHexId s ∧ (UpperOnes (s.take 16) ∨ UpperOnes (s.drop 16)))) ∧
      ∀ id : TopologyNodeId, tryFromHexInto id.toHex out = (true, id) := by
  refine ⟨⟨?_, fun h => ?_⟩, fun id => ?_⟩
  · rintro h ⟨hid, hones⟩
    exact (tryFromHexInto_iff.mp (h.taken.mpr hid)).2 hones
  · refine ⟨?_, toHex_tryFromHexInto, tryFromHexInto_unchanged⟩
    rw [tryFromHexInto_iff]
    exact and_iff_left_of_imp fun hid hones => h ⟨hid, hones⟩
  · rw [tryFromHexInto_eq, tryFromHex_toHex, Option.isSome_some, Option.getD_some]

/-- A half of all ones in upper case is turned down, though it is the text of an identifier. -/
theorem readsHex_upper : ¬ ReadsHex (str "FFFFFFFFFFFFFFFF0000000000000000") kNullNodeId := by
  intro h
  have htaken := h.taken.mpr (by decide)
  revert htaken
  decide

end TopologyNodeId

end TopologyFabric

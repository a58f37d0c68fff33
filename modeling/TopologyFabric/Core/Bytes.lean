import Mathlib.Tactic
import Mathlib.Data.List.Sort
import Mathlib.Data.Nat.Digits.Lemmas

/-!
# Byte Strings

A `std::string` is a list of bytes. This module has the order of strings, the literals of the
source, and the decimal and hexadecimal texts that `std::to_string` and the hex manipulators of
`std::ostringstream` produce.
-/

namespace TopologyFabric

/-- The contents of a `std::string`. -/
abbrev Bytes := List UInt8

instance byteOrder : LinearOrder UInt8 where
  le_refl a := UInt8.le_refl a
  le_trans _ _ _ := UInt8.le_trans
  le_antisymm _ _ := UInt8.le_antisymm
  le_total a b := UInt8.le_total a b
  lt_iff_le_not_ge a b := by
    rw [UInt8.lt_iff_toNat_lt, UInt8.le_iff_toNat_le, UInt8.le_iff_toNat_le]
    omega
  toDecidableLE := inferInstance
  toDecidableEq := inferInstance
  toDecidableLT := inferInstance

instance wordOrder : LinearOrder UInt64 where
  le_refl a := UInt64.le_refl a
  le_trans _ _ _ := UInt64.le_trans
  le_antisymm _ _ := UInt64.le_antisymm
  le_total a b := UInt64.le_total a b
  lt_iff_le_not_ge a b := by
    rw [UInt64.lt_iff_toNat_lt, UInt64.le_iff_toNat_le, UInt64.le_iff_toNat_le]
    omega
  toDecidableLE := inferInstance
  toDecidableEq := inferInstance
  toDecidableLT := inferInstance

/-- The bytes of an ASCII literal. -/
def str (s : String) : Bytes := s.toList.map fun c => c.toNat.toUInt8

/-- The byte of an ASCII character. -/
def byte (c : Char) : UInt8 := c.toNat.toUInt8

/-! ## Decimal text -/

/-- `std::to_string` of an unsigned number. -/
def natToString (n : ℕ) : Bytes := (Nat.toDigits 10 n).map byte

/-- `std::to_string` of a signed number. -/
def intToString (i : ℤ) : Bytes :=
  if i < 0 then byte '-' :: natToString i.natAbs else natToString i.natAbs

/-- `is_digit`. -/
def isDigit (c : UInt8) : Bool := byte '0' ≤ c && c ≤ byte '9'

/-- The value of a string of digits, most significant digit first. -/
def decimalValue (ds : Bytes) : ℕ := ds.foldl (fun n c => n * 10 + (c - byte '0').toNat) 0

/-! ## Hexadecimal text -/

/-- A lowercase hex digit. -/
def hexDigit (d : ℕ) : UInt8 := (str "0123456789abcdef").getD d (byte '0')

/-- `n` in hex with `std::setfill('0')` and `std::setw(width)`: a shorter text is padded, a longer
one is kept. -/
def hexPadded (width n : ℕ) : Bytes :=
  let text := (Nat.toDigits 16 n).map byte
  List.replicate (width - text.length) (byte '0') ++ text

/-- The value of a hex digit in either case. -/
def hexValue? (c : UInt8) : Option ℕ :=
  if byte '0' ≤ c ∧ c ≤ byte '9' then some (c - byte '0').toNat
  else if byte 'a' ≤ c ∧ c ≤ byte 'f' then some ((c - byte 'a').toNat + 10)
  else if byte 'A' ≤ c ∧ c ≤ byte 'F' then some ((c - byte 'A').toNat + 10)
  else none

/-- Two texts are split at the first separator in one way only. -/
theorem append_sep_inj {c : UInt8} {x y z w : Bytes} (hx : c ∉ x) (hy : c ∉ y)
    (h : x ++ c :: z = y ++ c :: w) : x = y ∧ z = w := by
  induction x generalizing y with
  | nil =>
    cases y with
    | nil => exact ⟨rfl, (List.cons_inj_right c).mp h⟩
    | cons b y => exact absurd (List.cons.inj h).1 (fun hb => hy (hb ▸ List.mem_cons_self ..))
  | cons a x ih =>
    cases y with
    | nil => exact absurd (List.cons.inj h).1 (fun ha => hx (ha ▸ List.mem_cons_self ..))
    | cons b y =>
      obtain ⟨rfl, htail⟩ := List.cons.inj h
      obtain ⟨rfl, rfl⟩ := ih (fun hc => hx (List.mem_cons_of_mem _ hc))
        (fun hc => hy (List.mem_cons_of_mem _ hc)) htail
      exact ⟨rfl, rfl⟩

/-! ## ASCII strings -/

/-- All bytes are below `0x80`. -/
def IsAscii (s : Bytes) : Prop := ∀ c ∈ s, c < 0x80

instance (s : Bytes) : Decidable (IsAscii s) := List.decidableBAll _ s

theorem isAscii_append {s t : Bytes} : IsAscii (s ++ t) ↔ IsAscii s ∧ IsAscii t := by
  simp only [IsAscii, List.mem_append]
  constructor
  · intro h
    exact ⟨fun c hc => h c (Or.inl hc), fun c hc => h c (Or.inr hc)⟩
  · rintro ⟨hs, ht⟩ c (hc | hc)
    · exact hs c hc
    · exact ht c hc

theorem hexValue?_ascii {c : UInt8} {n : ℕ} (h : hexValue? c = some n) : c < 0x80 := by
  unfold hexValue? at h
  split_ifs at h with hdigit hlower hupper
  · exact hdigit.2.trans_lt (by decide)
  · exact hlower.2.trans_lt (by decide)
  · exact hupper.2.trans_lt (by decide)

/-! ## What decimal text says -/

private theorem digitChar_isDigit {c : Char} (hc : c.isDigit = true) :
    isDigit (byte c) = true ∧ (byte c - byte '0').toNat = c.toNat - '0'.toNat := by
  have h : 48 ≤ c.toNat ∧ c.toNat ≤ 57 := by
    simpa [Char.isDigit, UInt32.le_iff_toNat_le] using hc
  obtain ⟨h1, h2⟩ := h
  have hbyte : (byte c).toNat = c.toNat := by
    simp only [byte, Nat.toUInt8, UInt8.toNat_ofNat']
    omega
  have h0 : (byte '0').toNat = 48 := rfl
  have h9 : (byte '9').toNat = 57 := rfl
  constructor
  · simp only [isDigit, Bool.and_eq_true, decide_eq_true_eq, UInt8.le_iff_toNat_le, hbyte, h0, h9]
    omega
  · rw [UInt8.toNat_sub_of_le]
    · rw [hbyte, h0]
      rfl
    · rw [UInt8.le_iff_toNat_le, hbyte, h0]
      exact h1

theorem isDigit_of_mem_natToString {n : ℕ} {c : UInt8} (h : c ∈ natToString n) :
    isDigit c = true := by
  obtain ⟨d, hd, rfl⟩ := List.mem_map.mp h
  exact (digitChar_isDigit (Nat.isDigit_of_mem_toDigits (by norm_num) (by norm_num) hd)).1

theorem natToString_ne_nil (n : ℕ) : natToString n ≠ [] := by
  simp [natToString, Nat.toDigits_ne_nil]

/-- Reading the digits that were written gives the number back. -/
theorem decimalValue_natToString (n : ℕ) : decimalValue (natToString n) = n := by
  have h := Nat.ofDigitChars_ten_toDigits (n := n)
  -- the loop computes what the digits say, after what it starts with
  have hgen : ∀ (l : List Char) (acc : ℕ), (∀ c ∈ l, c.isDigit = true) →
      (l.map byte).foldl (fun n c => n * 10 + (c - byte '0').toNat) acc =
        Nat.ofDigitChars 10 l acc := by
    intro l
    induction l with
    | nil => intro acc _; rfl
    | cons c l ih =>
      intro acc hl
      have hc := (digitChar_isDigit (hl c (List.mem_cons_self ..))).2
      simp only [List.map_cons, List.foldl_cons, hc]
      rw [ih _ fun d hd => hl d (List.mem_cons_of_mem _ hd), Nat.ofDigitChars_cons]
      congr 1
      ring
  rw [decimalValue, natToString, hgen _ 0, h]
  intro c hc
  exact Nat.isDigit_of_mem_toDigits (by norm_num) (by norm_num) hc

theorem natToString_injective : Function.Injective natToString := by
  intro m n h
  rw [← decimalValue_natToString m, h, decimalValue_natToString]

end TopologyFabric

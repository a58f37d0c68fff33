import Mathlib.Data.List.Basic

/-!
# UTF-8

Sequences of bytes that are the UTF-8 encoding of Unicode scalar values, read from the front.

## Main results

- `isUtf8_encodeChar_append`: behind the encoding of a character the rest decides
- `not_isUtf8_surrogate`: the three bytes of a surrogate start no such sequence
-/

namespace TopologyFabric.Library

/-- The bytes are the UTF-8 encoding of a sequence of Unicode scalar values. -/
def IsUtf8 (s : List UInt8) : Prop := s.toByteArray.IsValidUTF8

theorem isUtf8_nil : IsUtf8 [] := ByteArray.isValidUTF8_empty

/-- Behind the encoding of a character the rest decides. -/
theorem isUtf8_encodeChar_append {c : Char} {s : List UInt8} :
    IsUtf8 (String.utf8EncodeChar c ++ s) ↔ IsUtf8 s := by
  unfold IsUtf8
  rw [List.toByteArray_append, ← List.utf8Encode_singleton]
  exact ByteArray.isValidUTF8_utf8Encode_singleton_append_iff

theorem toNat_ofNat_of_isValidChar {n : ℕ} (hn : n.isValidChar) : (Char.ofNat n).val.toNat = n := by
  rw [Char.ofNat, dif_pos hn]
  rfl

/-- A character of seven bits is its own encoding. -/
theorem isUtf8_cons_ascii {b : UInt8} (hb : b < 0x80) {s : List UInt8} :
    IsUtf8 (b :: s) ↔ IsUtf8 s := by
  have hlt : b.toNat < 0x80 := UInt8.lt_iff_toNat_lt.mp hb
  have hencode : String.utf8EncodeChar (Char.ofNat b.toNat) = [b] := by
    unfold String.utf8EncodeChar
    rw [toNat_ofNat_of_isValidChar (Or.inl (by omega))]
    exact (if_pos (by omega)).trans (by rw [UInt8.ofNat_toNat])
  rw [← List.singleton_append, ← hencode]
  exact isUtf8_encodeChar_append

/-- A sequence that is not empty starts with the encoding of a character. -/
theorem IsUtf8.exists_encodeChar {s : List UInt8} (h : IsUtf8 s) (hne : s ≠ []) :
    ∃ c s', s = String.utf8EncodeChar c ++ s' := by
  obtain ⟨m, hm⟩ := h
  cases m with
  | nil =>
    rw [List.utf8Encode_nil] at hm
    exact absurd (List.toByteArray_inj.mp (hm.trans (by simp))) hne
  | cons c m =>
    refine ⟨c, m.flatMap String.utf8EncodeChar, ?_⟩
    unfold List.utf8Encode at hm
    exact List.toByteArray_inj.mp hm

/-- No character is encoded as the three bytes of a surrogate. -/
theorem not_isUtf8_surrogate {b : UInt8} (hb : 0xA0 ≤ b) (s : List UInt8) :
    ¬ IsUtf8 (0xED :: b :: s) := by
  intro h
  obtain ⟨c, s', hs⟩ := h.exists_encodeChar (List.cons_ne_nil _ _)
  have hvalid : c.val.toNat < 0xD800 ∨ 0xDFFF < c.val.toNat := c.valid.imp_right And.left
  have hbyte : ∀ {a : UInt8} {n : ℕ}, a = UInt8.ofNat n → a.toNat = n % 256 := by
    rintro a n rfl
    exact UInt8.toNat_ofNat'
  have hb' : 0xA0 ≤ b.toNat := UInt8.le_iff_toNat_le.mp hb
  have hhead : (0xED : UInt8).toNat = 0xED := rfl
  unfold String.utf8EncodeChar at hs
  dsimp only at hs
  generalize c.val.toNat = v at hvalid hs
  split_ifs at hs
  · have hfirst := hbyte (List.cons.inj hs).1
    omega
  · have hfirst := hbyte (List.cons.inj hs).1
    omega
  · -- the first byte puts the character in the same block of `2 ^ 12`, the second one in its end
    have hfirst := hbyte (List.cons.inj hs).1
    have hsecond := hbyte (List.cons.inj (List.cons.inj hs).2).1
    omega
  · have hfirst := hbyte (List.cons.inj hs).1
    omega

end TopologyFabric.Library

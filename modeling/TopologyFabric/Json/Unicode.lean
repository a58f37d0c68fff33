import TopologyFabric.Json.Codec
import TopologyFabric.Library.Utf8

/-!
# Unicode in Strings

What the decoded strings are worth as UTF-8. Every escape by number is decoded on its own, so the two
escapes of a surrogate pair become the encodings of two surrogates, which are no characters, and a
lone surrogate is passed. All other literals are decoded to well-formed UTF-8.

## Main results

- `isUtf8_iff_surrogateFree`: a literal is decoded to UTF-8 iff it has no escape of a surrogate
- `Reads.every`: the strings of a value are decoded literals
- `parse_utf8_iff`: when an accepted text is decoded as UTF-16 escapes should be
-/

namespace TopologyFabric.Json

open Library

/-! ## Code points -/

/-- The bytes of a character are those of its encoding. -/
theorem utf8_eq_encodeChar {cp : ℕ} (hcp : cp.isValidChar) :
    utf8 cp = String.utf8EncodeChar (Char.ofNat cp) := by
  have hlast : ∀ n < 64, 0x80 ||| n = n % 64 + 0x80 := by decide
  have htwo : ∀ n < 32, 0xC0 ||| n = n % 32 + 0xC0 := by decide
  have hthree : ∀ n < 16, 0xE0 ||| n = n % 16 + 0xE0 := by decide
  have hfour : ∀ n < 8, 0xF0 ||| n = n % 8 + 0xF0 := by decide
  -- setting the upper bits is adding them, since the lower ones are masked
  have hmask : ∀ n, 0x80 ||| (n &&& 0x3F) = n % 64 + 0x80 := by
    intro n
    rw [show n &&& 0x3F = n % 64 from Nat.and_two_pow_sub_one_eq_mod n 6,
      hlast _ (Nat.mod_lt _ (by decide)), Nat.mod_mod]
  have hmax : cp < 0x110000 := hcp.elim (fun h => by omega) And.right
  unfold utf8 String.utf8EncodeChar
  rw [toNat_ofNat_of_isValidChar hcp]
  simp only [hmask, Nat.shiftRight_eq_div_pow]
  split_ifs with h₁ h₂ h₃
  · rfl
  · rw [htwo _ (by omega)]
  · rw [hthree _ (by omega)]
  · rw [hfour _ (by omega)]

/-- The code points that UTF-16 uses in pairs. -/
def IsSurrogate (cp : ℕ) : Prop := 0xD800 ≤ cp ∧ cp ≤ 0xDFFF

/-- The bytes of a surrogate. -/
theorem utf8_surrogate {cp : ℕ} (hcp : IsSurrogate cp) :
    ∃ b b', 0xA0 ≤ b ∧ utf8 cp = [0xED, b, b'] := by
  obtain ⟨hlow, hhigh⟩ := hcp
  refine ⟨UInt8.ofNat (0x80 ||| ((cp >>> 6) &&& 0x3F)), UInt8.ofNat (0x80 ||| (cp &&& 0x3F)), ?_, ?_⟩
  · have hmid : ∀ n < 64, 32 ≤ n → 0xA0 ≤ UInt8.ofNat (0x80 ||| n) := by decide
    rw [show (cp >>> 6) &&& 0x3F = (cp >>> 6) % 64 from Nat.and_two_pow_sub_one_eq_mod _ 6,
      Nat.shiftRight_eq_div_pow]
    exact hmid _ (Nat.mod_lt _ (by decide)) (by omega)
  · have hhead : cp >>> 12 = 0xD := by
      rw [Nat.shiftRight_eq_div_pow]
      omega
    unfold utf8
    rw [if_neg (by omega), if_neg (by omega), if_pos (by omega), hhead]
    rfl

private theorem hexValue?_lt {c : UInt8} {n : ℕ} (h : hexValue? c = some n) : n < 16 := by
  have hsub : ∀ {a b : UInt8}, a ≤ c ∧ c ≤ b → (c - a).toNat ≤ b.toNat - a.toNat := by
    rintro a b ⟨hle, hge⟩
    rw [UInt8.toNat_sub_of_le _ _ hle]
    exact Nat.sub_le_sub_right (UInt8.le_iff_toNat_le.mp hge) _
  unfold hexValue? at h
  split_ifs at h with hdigit hlower hupper
  · exact Option.some.inj h ▸ (hsub hdigit).trans_lt (by decide)
  · exact Option.some.inj h ▸ Nat.lt_of_le_of_lt (Nat.add_le_add_right (hsub hlower) 10) (by decide)
  · exact Option.some.inj h ▸ Nat.lt_of_le_of_lt (Nat.add_le_add_right (hsub hupper) 10) (by decide)

/-- Four hex digits stand for a code point of the first plane. -/
theorem hexCodePoint_lt {h₁ h₂ h₃ h₄ : UInt8} {cp : ℕ} (h : hexCodePoint h₁ h₂ h₃ h₄ = some cp) :
    cp < 0x10000 := by
  simp only [hexCodePoint, Option.bind_eq_bind, Option.bind_eq_some_iff] at h
  obtain ⟨d₁, hd₁, d₂, hd₂, d₃, hd₃, d₄, hd₄, hcp⟩ := h
  have := hexValue?_lt hd₁
  have := hexValue?_lt hd₂
  have := hexValue?_lt hd₃
  have := hexValue?_lt hd₄
  have := Option.some.inj hcp
  omega

/-- A code point of the first plane is a character unless it is a surrogate. -/
theorem isValidChar_of_not_surrogate {cp : ℕ} (hcp : cp < 0x10000) (h : ¬ IsSurrogate cp) :
    cp.isValidChar := by
  unfold IsSurrogate at h
  rcases Nat.lt_or_ge cp 0xD800 with hlow | hhigh
  · exact Or.inl hlow
  · exact Or.inr ⟨by omega, by omega⟩

/-! ## Literals -/

/-- An escape by number of a surrogate. -/
def SurrogateEscape (unit : Bytes) : Prop :=
  ∃ h₁ h₂ h₃ h₄ cp, unit = [byte '\\', byte 'u', h₁, h₂, h₃, h₄] ∧
    hexCodePoint h₁ h₂ h₃ h₄ = some cp ∧ IsSurrogate cp

/-- The characters of a literal, none of which is an escape of a surrogate. -/
inductive SurrogateFree : Bytes → Prop
  | nil : SurrogateFree []
  | cons {raw dec raws : Bytes} (hunit : StringUnit raw dec) (hescape : ¬ SurrogateEscape raw)
      (h : SurrogateFree raws) : SurrogateFree (raw ++ raws)

/-- The characters of a literal with the bytes they stand for, where two escapes that are a UTF-16
surrogate pair stand for one character and a lone surrogate stands for nothing. -/
inductive Utf16Body : Bytes → Bytes → Prop
  | nil : Utf16Body [] []
  | plain {c : UInt8} {raws decs : Bytes} (hquote : c ≠ byte '"') (hslash : c ≠ byte '\\')
      (hascii : c < 0x80) (h : Utf16Body raws decs) : Utf16Body (c :: raws) (c :: decs)
  | escape {e b : UInt8} {raws decs : Bytes} (he : simpleEscape e = some b)
      (h : Utf16Body raws decs) : Utf16Body (byte '\\' :: e :: raws) (b :: decs)
  | character {h₁ h₂ h₃ h₄ : UInt8} {cp : ℕ} {raws decs : Bytes}
      (hcp : hexCodePoint h₁ h₂ h₃ h₄ = some cp) (hchar : ¬ IsSurrogate cp)
      (h : Utf16Body raws decs) :
      Utf16Body ([byte '\\', byte 'u', h₁, h₂, h₃, h₄] ++ raws)
        (String.utf8EncodeChar (Char.ofNat cp) ++ decs)
  | pair {h₁ h₂ h₃ h₄ l₁ l₂ l₃ l₄ : UInt8} {high low : ℕ} {raws decs : Bytes}
      (hhigh : hexCodePoint h₁ h₂ h₃ h₄ = some high) (hlow : hexCodePoint l₁ l₂ l₃ l₄ = some low)
      (hhighRange : 0xD800 ≤ high ∧ high ≤ 0xDBFF) (hlowRange : 0xDC00 ≤ low ∧ low ≤ 0xDFFF)
      (h : Utf16Body raws decs) :
      Utf16Body ([byte '\\', byte 'u', h₁, h₂, h₃, h₄] ++
          ([byte '\\', byte 'u', l₁, l₂, l₃, l₄] ++ raws))
        (String.utf8EncodeChar (Char.ofNat (0x10000 + (high - 0xD800) * 0x400 + (low - 0xDC00))) ++
          decs)

theorem simpleEscape_ascii {e b : UInt8} (h : simpleEscape e = some b) : b < 0x80 := by
  unfold simpleEscape at h
  split_ifs at h <;> exact Option.some.inj h ▸ by decide

/-- What is decoded with surrogate pairs is UTF-8. -/
theorem Utf16Body.isUtf8 {raw dec : Bytes} (h : Utf16Body raw dec) : IsUtf8 dec := by
  induction h with
  | nil => exact isUtf8_nil
  | plain _ _ hascii _ ih => exact (isUtf8_cons_ascii hascii).mpr ih
  | escape he _ ih => exact (isUtf8_cons_ascii (simpleEscape_ascii he)).mpr ih
  | character _ _ _ ih => exact isUtf8_encodeChar_append.mpr ih
  | pair _ _ _ _ _ ih => exact isUtf8_encodeChar_append.mpr ih

/-- The first character of a text inside a literal is determined. -/
theorem StringUnit.unique {raw dec raw' dec' x x' : Bytes} (h : StringUnit raw dec)
    (h' : StringUnit raw' dec') (heq : raw ++ x = raw' ++ x') : raw = raw' ∧ x = x' := by
  -- the first two bytes tell the three kinds apart
  have hhex : simpleEscape (byte 'u') = none := by decide
  cases h with
  | plain _ hslash _ =>
    cases h' with
    | plain _ _ _ =>
      simp only [List.cons_append, List.nil_append, List.cons.injEq] at heq ⊢
      exact ⟨⟨heq.1, trivial⟩, heq.2⟩
    | escape _ =>
      simp only [List.cons_append, List.cons.injEq] at heq
      exact absurd heq.1 hslash
    | unicode _ =>
      simp only [List.cons_append, List.cons.injEq] at heq
      exact absurd heq.1 hslash
  | escape he =>
    cases h' with
    | plain _ hslash _ =>
      simp only [List.cons_append, List.cons.injEq] at heq
      exact absurd heq.1.symm hslash
    | escape _ =>
      simp only [List.cons_append, List.nil_append, List.cons.injEq, true_and] at heq ⊢
      exact ⟨⟨heq.1, trivial⟩, heq.2⟩
    | unicode _ =>
      simp only [List.cons_append, List.nil_append, List.cons.injEq, true_and] at heq
      rw [heq.1, hhex] at he
      cases he
  | unicode _ =>
    cases h' with
    | plain _ hslash _ =>
      simp only [List.cons_append, List.cons.injEq] at heq
      exact absurd heq.1.symm hslash
    | escape he =>
      simp only [List.cons_append, List.nil_append, List.cons.injEq, true_and] at heq
      rw [← heq.1, hhex] at he
      cases he
    | unicode _ =>
      simp only [List.cons_append, List.nil_append, List.cons.injEq, true_and] at heq ⊢
      exact ⟨⟨heq.1, heq.2.1, heq.2.2.1, heq.2.2.2.1, trivial⟩, heq.2.2.2.2⟩

theorem surrogateFree_append_iff {raw dec raws : Bytes} (hunit : StringUnit raw dec) :
    SurrogateFree (raw ++ raws) ↔ ¬ SurrogateEscape raw ∧ SurrogateFree raws := by
  refine ⟨fun h => ?_, fun h => .cons hunit h.1 h.2⟩
  generalize heq : raw ++ raws = text at h
  cases h with
  | nil => exact absurd (List.append_eq_nil_iff.mp heq).1 hunit.raw_ne_nil
  | cons hunit' hescape h =>
    obtain ⟨rfl, rfl⟩ := hunit.unique hunit' heq
    exact ⟨hescape, h⟩

/-- An escape by number is one of a surrogate iff its code point is one. -/
theorem surrogateEscape_unicode_iff {h₁ h₂ h₃ h₄ : UInt8} {cp : ℕ}
    (hcp : hexCodePoint h₁ h₂ h₃ h₄ = some cp) :
    SurrogateEscape [byte '\\', byte 'u', h₁, h₂, h₃, h₄] ↔ IsSurrogate cp := by
  constructor
  · rintro ⟨_, _, _, _, cp', heq, hcp', hsurrogate⟩
    simp only [List.cons.injEq, true_and, and_true] at heq
    obtain ⟨rfl, rfl, rfl, rfl⟩ := heq
    obtain rfl := Option.some.inj (hcp.symm.trans hcp')
    exact hsurrogate
  · exact fun h => ⟨_, _, _, _, cp, rfl, hcp, h⟩

/-- One character of a literal in front of others. -/
private theorem isUtf8_unit_iff {raw dec decs : Bytes} (hunit : StringUnit raw dec) :
    IsUtf8 (dec ++ decs) ↔ ¬ SurrogateEscape raw ∧ IsUtf8 decs := by
  cases hunit with
  | plain _ hslash hascii =>
    refine (isUtf8_cons_ascii hascii).trans (and_iff_right ?_).symm
    rintro ⟨_, _, _, _, _, heq, -⟩
    cases heq
  | escape he =>
    refine (isUtf8_cons_ascii (simpleEscape_ascii he)).trans (and_iff_right ?_).symm
    rintro ⟨_, _, _, _, _, heq, -⟩
    cases heq
  | @unicode _ _ _ _ cp hcp =>
    rw [surrogateEscape_unicode_iff hcp]
    -- a surrogate is encoded like any code point of three bytes
    by_cases hsurrogate : IsSurrogate cp
    · obtain ⟨b, b', hb, hutf8⟩ := utf8_surrogate hsurrogate
      rw [hutf8]
      exact iff_of_false (not_isUtf8_surrogate hb _) fun h => h.1 hsurrogate
    · rw [utf8_eq_encodeChar (isValidChar_of_not_surrogate (hexCodePoint_lt hcp) hsurrogate),
        isUtf8_encodeChar_append, and_iff_right hsurrogate]

/-- A literal is decoded to well-formed UTF-8 iff it has no escape of a surrogate. -/
theorem isUtf8_iff_surrogateFree {raw dec : Bytes} (h : StringBody raw dec) :
    IsUtf8 dec ↔ SurrogateFree raw := by
  induction h with
  | nil => exact iff_of_true isUtf8_nil .nil
  | cons hunit _ ih => rw [isUtf8_unit_iff hunit, surrogateFree_append_iff hunit, ih]

/-- Without escapes of surrogates a literal is decoded as it should be. -/
theorem StringBody.utf16Body {raw dec : Bytes} (h : StringBody raw dec)
    (hfree : SurrogateFree raw) : Utf16Body raw dec := by
  induction h with
  | nil => exact .nil
  | cons hunit _ ih =>
    obtain ⟨hescape, hrest⟩ := (surrogateFree_append_iff hunit).mp hfree
    cases hunit with
    | plain hquote hslash hascii => exact .plain hquote hslash hascii (ih hrest)
    | escape he => exact .escape he (ih hrest)
    | @unicode _ _ _ _ cp hcp =>
      have hchar : ¬ IsSurrogate cp := fun h => hescape ((surrogateEscape_unicode_iff hcp).mpr h)
      rw [utf8_eq_encodeChar (isValidChar_of_not_surrogate (hexCodePoint_lt hcp) hchar)]
      exact .character hcp hchar (ih hrest)

/-! ## The strings of a value -/

theorem StringBody.append {raw dec raw' dec' : Bytes} (h : StringBody raw dec)
    (h' : StringBody raw' dec') : StringBody (raw ++ raw') (dec ++ dec') := by
  induction h with
  | nil => exact h'
  | cons hunit _ ih =>
    rw [List.append_assoc, List.append_assoc]
    exact .cons hunit ih

theorem BrokenAt.stringBody {opt : ParseOptions} {raw dec text rest : Bytes}
    (h : BrokenAt opt raw dec text rest) : StringBody raw dec := by
  cases h with
  | halts hbody _ _ => exact hbody
  | tooLong hbody _ hunit _ =>
    have hlast := StringBody.cons hunit .nil
    rw [List.append_nil, List.append_nil] at hlast
    exact hbody.append hlast

/-- What is met are literals. -/
theorem Reads.stringBody {opt : ParseOptions} {g : Reading} {d n : ℕ} {text rest : Bytes}
    {v : Value} {met : List (Bytes × Bytes)} (h : Reads opt g d n text rest v met) :
    ∀ p ∈ met, StringBody p.1 p.2 := by
  -- the strings met are those of the parts, in their order
  induction h with
  | ws _ _ ih => exact ih
  | word _ _ => simp
  | number _ _ _ => simp
  | nanInf _ _ _ => simp
  | string _ hbody _ => exact List.forall_mem_singleton.mpr hbody
  | brokenString _ h => exact List.forall_mem_singleton.mpr h.stringBody
  | emptyArray _ _ => simp
  | array _ _ ih => exact ih
  | emptyObject _ _ => simp
  | object _ _ ih => exact ih
  | lastElement _ _ ih => exact ih
  | moreElements _ _ _ ih ihmore => exact List.forall_mem_append.mpr ⟨ih, ihmore⟩
  | lastMember _ _ _ hbody _ _ ih => exact List.forall_mem_cons.mpr ⟨hbody, ih⟩
  | moreMembers _ _ _ hbody _ _ _ ih ihmore =>
    exact List.forall_mem_cons.mpr ⟨hbody, List.forall_mem_append.mpr ⟨ih, ihmore⟩⟩
  | brokenKey _ h => exact List.forall_mem_singleton.mpr h.stringBody

namespace Value

/-- All strings and keys in the value have the property. -/
abbrev EveryString (P : Bytes → Prop) (v : Value) : Prop :=
  v.Every (fun _ => True) (fun _ => True) (fun _ => True) P

variable {P : Bytes → Prop}

theorem everyElement_iff {a : List Value} :
    EveryElement (fun _ => True) (fun _ => True) (fun _ => True) P a ↔
      ∀ v ∈ a, v.EveryString P := by
  induction a with
  | nil => simp [EveryElement]
  | cons v a ih => rw [EveryElement, ih, List.forall_mem_cons]

theorem everyMember_iff {o : List (Bytes × Value)} :
    EveryMember (fun _ => True) (fun _ => True) (fun _ => True) P o ↔
      ∀ e ∈ o, P e.1 ∧ e.2.EveryString P := by
  induction o with
  | nil => simp [EveryMember]
  | cons e o ih =>
    obtain ⟨k, v⟩ := e
    rw [EveryMember, ih, List.forall_mem_cons, and_assoc]

end Value

/-- What has been read before has the property. -/
def Reading.EveryString (P : Bytes → Prop) : Reading → Prop
  | .value => True
  | .elements arr => ∀ v ∈ arr, v.EveryString P
  | .members obj => ∀ e ∈ obj, P e.1 ∧ e.2.EveryString P

/-- The strings of a value are decoded literals of its text. -/
theorem Reads.every {opt : ParseOptions} {P : Bytes → Prop} {g : Reading} {d n : ℕ}
    {text rest : Bytes} {v : Value} {met : List (Bytes × Bytes)}
    (h : Reads opt g d n text rest v met) :
    (∀ p ∈ met, P p.2) → g.EveryString P → v.EveryString P := by
  -- a member overwrites an earlier one with its key, and all the others stay
  have hinsert : ∀ {k : Bytes} {v : Value} {obj : List (Bytes × Value)}, P k →
      v.EveryString P → (∀ e ∈ obj, P e.1 ∧ e.2.EveryString P) →
      ∀ e ∈ insertEntry k v obj, P e.1 ∧ e.2.EveryString P := by
    intro k v obj hk hv hobj e he
    rcases mem_insertEntry he with rfl | he
    · exact ⟨hk, hv⟩
    · exact hobj e he
  induction h with
  | ws _ _ ih => exact ih
  | word _ hword =>
    rintro - -
    rcases hword with ⟨-, rfl⟩ | ⟨-, rfl⟩ | ⟨-, rfl⟩ <;> exact trivial
  | number _ _ hv =>
    rintro - -
    rcases hv with ⟨_, rfl⟩ | ⟨_, rfl⟩ | ⟨_, rfl⟩ <;> exact trivial
  | nanInf _ _ _ => exact fun _ _ => trivial
  | string _ _ _ => exact fun hmet _ => hmet _ (List.mem_singleton_self _)
  | brokenString _ _ => exact fun _ _ => trivial
  | emptyArray _ _ => exact fun _ _ => trivial
  | array _ _ ih => exact fun hmet _ => ih hmet fun _ h => absurd h List.not_mem_nil
  | emptyObject _ _ => exact fun _ _ => trivial
  | object _ _ ih => exact fun hmet _ => ih hmet fun _ h => absurd h List.not_mem_nil
  | lastElement _ _ ih =>
    -- what an array has taken so far is carried along with what it still takes
    intro hmet harr
    exact Value.everyElement_iff.mpr
      (List.forall_mem_append.mpr ⟨harr, List.forall_mem_singleton.mpr (ih hmet trivial)⟩)
  | moreElements _ _ _ ih ihmore =>
    intro hmet harr
    obtain ⟨hmet, hmet'⟩ := List.forall_mem_append.mp hmet
    exact ihmore hmet'
      (List.forall_mem_append.mpr ⟨harr, List.forall_mem_singleton.mpr (ih hmet trivial)⟩)
  | lastMember _ _ _ _ _ _ ih =>
    intro hmet hobj
    obtain ⟨hkey, hmet⟩ := List.forall_mem_cons.mp hmet
    exact Value.everyMember_iff.mpr (hinsert hkey (ih hmet trivial) hobj)
  | moreMembers _ _ _ _ _ _ _ ih ihmore =>
    intro hmet hobj
    obtain ⟨hkey, hmet⟩ := List.forall_mem_cons.mp hmet
    obtain ⟨hmet, hmet'⟩ := List.forall_mem_append.mp hmet
    exact ihmore hmet' (hinsert hkey (ih hmet trivial) hobj)
  | brokenKey _ _ => exact fun _ _ => trivial

/-! ## Whole texts -/

/-- Well-formed UTF-8 in all strings and keys, and every literal that the parser went through decoded
with surrogate pairs. -/
def DecodedAsUtf16 (v : Value) (met : List (Bytes × Bytes)) : Prop :=
  v.EveryString IsUtf8 ∧ ∀ p ∈ met, Utf16Body p.1 p.2

/-- **Which texts are decoded as they should be.** An accepted text is iff no literal in it has an
escape of a surrogate; such a literal alone is not decoded to well-formed UTF-8. -/
theorem parse_utf8_iff (opt : ParseOptions) (text : Bytes) :
    ∃ r, parse opt text = .ok r ∧ (r.ok = true →
      (∃ n rest met, Reads opt .value 0 n text rest r.value met ∧ AllWs rest) ∧
      ∀ n rest met, Reads opt .value 0 n text rest r.value met →
        (DecodedAsUtf16 r.value met ↔ ∀ p ∈ met, SurrogateFree p.1) ∧
        ∀ p ∈ met, IsUtf8 p.2 ↔ SurrogateFree p.1) := by
  obtain ⟨r, hr⟩ := parse_returns opt text
  refine ⟨r, hr, fun hok => ⟨?_, fun n rest met hreads => ?_⟩⟩
  · obtain ⟨n, rest, met, hreads, -, hws⟩ := parse_reads hr hok
    exact ⟨n, rest, met, hreads, hws⟩
  have hbody := hreads.stringBody
  -- a body is decoded to UTF-8 unless an escape in it says half of a surrogate pair
  have hutf8 : ∀ p ∈ met, IsUtf8 p.2 ↔ SurrogateFree p.1 :=
    fun p hp => isUtf8_iff_surrogateFree (hbody p hp)
  refine ⟨⟨fun h p hp => (hutf8 p hp).mp (h.2 p hp).isUtf8, fun hfree => ⟨?_, fun p hp => ?_⟩⟩, hutf8⟩
  · exact hreads.every (fun p hp => (hutf8 p hp).mpr (hfree p hp)) trivial
  · exact (hbody p hp).utf16Body (hfree p hp)

/-- A text that is a literal is read as the string it is decoded to. -/
theorem parse_literal (opt : ParseOptions) {raw dec : Bytes} (h : StringBody raw dec)
    (hlen : dec.length ≤ opt.maxStringBytes) (hnodes : 0 < opt.maxNodes) :
    ∃ r, parse opt (byte '"' :: (raw ++ [byte '"'])) = .ok r ∧ r.ok = true ∧
      r.value = .string dec :=
  ⟨_, parse_scalar (readsScalar_string (parseString_literal h hlen [])) hnodes, rfl, rfl⟩

/-- The escapes of the pair of U+1F600 are decoded to the six bytes of two surrogates, not to its
four bytes, and half of the pair is accepted as well. -/
theorem parse_surrogates :
    (∃ r, parse {} (str "\"\\ud83d\\ude00\"") = .ok r ∧ r.ok = true ∧
      r.value = .string [0xED, 0xA0, 0xBD, 0xED, 0xB8, 0x80] ∧
      ¬ IsUtf8 [0xED, 0xA0, 0xBD, 0xED, 0xB8, 0x80] ∧
      Utf16Body (str "\\ud83d\\ude00") [0xF0, 0x9F, 0x98, 0x80]) ∧
    ∃ r, parse {} (str "\"\\ud83d\"") = .ok r ∧ r.ok = true ∧
      r.value = .string [0xED, 0xA0, 0xBD] := by
  have hhigh : hexCodePoint (byte 'd') (byte '8') (byte '3') (byte 'd') = some 0xD83D := by decide
  have hlow : hexCodePoint (byte 'd') (byte 'e') (byte '0') (byte '0') = some 0xDE00 := by decide
  -- every escape is decoded on its own
  have hhalf : StringBody (str "\\ud83d") [0xED, 0xA0, 0xBD] := .cons (.unicode hhigh) .nil
  have hother : StringBody (str "\\ude00") [0xED, 0xB8, 0x80] := .cons (.unicode hlow) .nil
  have hpair : str "\"\\ud83d\\ude00\"" =
      byte '"' :: ((str "\\ud83d" ++ str "\\ude00") ++ [byte '"']) := by decide
  have hlone : str "\"\\ud83d\"" = byte '"' :: (str "\\ud83d" ++ [byte '"']) := by decide
  rw [hpair, hlone]
  refine ⟨?_, parse_literal {} hhalf (by decide) (by decide)⟩
  obtain ⟨r, hr, hok, hvalue⟩ := parse_literal {} (hhalf.append hother) (by decide)
    (by decide)
  refine ⟨r, hr, hok, hvalue, not_isUtf8_surrogate (by decide) _, ?_⟩
  have hraw : str "\\ud83d\\ude00" =
      [byte '\\', byte 'u', byte 'd', byte '8', byte '3', byte 'd'] ++
        ([byte '\\', byte 'u', byte 'd', byte 'e', byte '0', byte '0'] ++ []) := by decide
  have hdec : [0xF0, 0x9F, 0x98, 0x80] = String.utf8EncodeChar
      (Char.ofNat (0x10000 + (0xD83D - 0xD800) * 0x400 + (0xDE00 - 0xDC00))) ++ [] := by decide
  rw [hraw, hdec]
  exact .pair hhigh hlow (by decide) (by decide) .nil

end TopologyFabric.Json

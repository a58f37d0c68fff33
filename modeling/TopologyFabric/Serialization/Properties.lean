import TopologyFabric.Serialization.Strings

/-!
# Property Values That Are Read Back

A property value is written as a JSON value, and the alternative it is read back as is recovered
from the text alone: a number without a sign is unsigned, and an array is one of strings iff its
first element is a string. So some values come back as another alternative, and the unsigned
numbers from `2 ^ 63` on come back as the greatest `int64_t`.

## Main results

- `propertyFromJson_written`: what a written property is read back as
- `property_survives_iff`: which properties come back as they are
-/

namespace TopologyFabric

open Library Json

namespace PropertyValue

/-- What a written property is read back as. -/
def reread : PropertyValue → PropertyValue
  | .int v => if v.toInt < 0 then .int v else .uint v.toUInt64
  | .uint v => .uint (UInt64.ofNat (min v.toNat (2 ^ 63 - 1)))
  | .stringArray [] => .intArray []
  | v => v

theorem reread_of_int (v : Int64) :
    reread (.int v) = if v.toInt < 0 then .int v else .uint v.toUInt64 := rfl

theorem reread_of_uint (v : UInt64) :
    reread (.uint v) = .uint (UInt64.ofNat (min v.toNat (2 ^ 63 - 1))) := rfl

/-- The text of the value tells its alternative: a signed number has a sign, an unsigned one is in
the range of an `int64_t`, and an array of strings has a first element. -/
def Distinguished : PropertyValue → Prop
  | .int v => v.toInt < 0
  | .uint v => v.toNat < 2 ^ 63
  | .stringArray v => v ≠ []
  | _ => True

instance (v : PropertyValue) : Decidable v.Distinguished := by
  cases v <;> unfold Distinguished <;> infer_instance

/-- A value comes back as it is iff its text tells its alternative. -/
theorem reread_eq_self_iff (v : PropertyValue) : v.reread = v ↔ v.Distinguished := by
  cases v with
  | int v =>
    rw [reread_of_int, Distinguished]
    -- a number without a sign is read as unsigned
    split
    · rename_i hneg
      exact iff_of_true rfl hneg
    · rename_i hneg
      exact iff_of_false (fun h => by cases h) hneg
  | uint v =>
    have hlt := v.toNat_lt
    rw [reread_of_uint, Distinguished, PropertyValue.uint.injEq, ← UInt64.toNat_inj,
      UInt64.toNat_ofNat_of_lt' (by simp only [UInt64.size]; omega)]
    omega
  | stringArray v =>
    cases v with
    | nil => exact iff_of_false (fun h => by cases h) fun h => h rfl
    | cons s v => exact iff_of_true rfl (List.cons_ne_nil s v)
  | _ => exact iff_of_true rfl trivial

/-- A property value that the text can carry: it is no double, its strings are ASCII, and it is
within the limits of the parser. -/
structure Portable (v : PropertyValue) : Prop where
  exact : ∀ d, v ≠ .double d
  ascii : ∀ s ∈ v.strings, IsAscii s
  short : ∀ s ∈ v.strings, s.length ≤ ({} : ParseOptions).maxStringBytes
  small : (propertyToJson v).count ≤ ({} : ParseOptions).maxNodes

/-- Writing the value, parsing the text and reading the property gives the value again. -/
def Survives (v : PropertyValue) (mode : WriteMode) : Prop :=
  ∃ r, parse {} (dump mode (propertyToJson v)) = .ok r ∧ r.ok = true ∧
    propertyFromJson r.value = .ok v

end PropertyValue

/-! ## Reading the written values -/

/-- A signed number is read back signed only if it has a sign. -/
private theorem reread_int (v : Int64) : (Value.int v).reread =
    if v.toInt < 0 then .int v else .uint v.toUInt64 := by
  have hlow : -2 ^ 63 ≤ v.toInt := v.le_toInt
  have hhigh : v.toInt < 2 ^ 63 := v.toInt_lt
  rw [Value.reread, intToString]
  -- the parser tells the two types of integers by the sign
  split
  · rename_i hneg
    have habs : -(v.toInt.natAbs : ℤ) = v.toInt := by omega
    rw [tokenValue_negative (by omega), habs, Int64.ofInt_toInt]
  · rename_i hneg
    have habs : (v.toInt.natAbs : ℤ) = v.toInt := by omega
    have hcast : UInt64.ofNat v.toInt.natAbs = v.toUInt64 :=
      calc UInt64.ofNat v.toInt.natAbs
          = (Int64.ofNat v.toInt.natAbs).toUInt64 := rfl
        _ = (Int64.ofInt (v.toInt.natAbs : ℤ)).toUInt64 := by rw [Int64.ofInt_eq_ofNat]
        _ = v.toUInt64 := by rw [habs, Int64.ofInt_toInt]
    rw [tokenValue_natToString (by omega), hcast]

/-- No number is read as a string. -/
private theorem isString_reread_int (v : Int64) : (Value.int v).reread.isString = false := by
  rw [reread_int]
  split <;> rfl

private theorem mapM_asString_strings (l : List Bytes) :
    (l.map Value.string).mapM Value.asString = .ok l := by
  induction l with
  | nil => rfl
  | cons s l ih =>
    rw [List.map_cons, List.mapM_cons, ih]
    rfl

/-- What a written property is read back as. -/
theorem propertyFromJson_written {v : PropertyValue} (hv : ∀ d, v ≠ .double d) :
    propertyFromJson (propertyToJson v).reread = .ok v.reread := by
  cases v with
  | double d => exact absurd rfl (hv d)
  | int v =>
    rw [propertyToJson, reread_int, PropertyValue.reread_of_int]
    split <;> rfl
  | uint v =>
    rw [propertyToJson, Value.reread, tokenValue_natToString_min]
    rfl
  | stringArray v =>
    cases v with
    | nil => rfl
    | cons s v =>
      -- the strings come back as they are, so the first element is a string again
      have hsame : (propertyToJson (.stringArray (s :: v))).reread =
          .array ((s :: v).map Value.string) := by
        rw [propertyToJson, Value.reread, Value.rereadElements_eq_map, List.map_map]
        rfl
      have hread := mapM_asString_strings (s :: v)
      rw [List.map_cons] at hread hsame
      have hfirst : (Value.string s :: v.map Value.string).head?.any Value.isString = true := rfl
      rw [hsame, propertyFromJson, if_pos hfirst, hread]
      rfl
  | intArray v =>
    have hints : (v.map fun i => (Value.int i).reread).map Value.integer = v := by
      rw [List.map_map]
      refine .trans (List.map_congr_left fun i _ => ?_) (List.map_id v)
      exact integer_tokenValue_intToString i
    have hfirst : (v.map fun i => (Value.int i).reread).head?.any Value.isString = false := by
      cases v with
      | nil => rfl
      | cons i v => exact isString_reread_int i
    have hsame : (propertyToJson (.intArray v)).reread =
        .array (v.map fun i => (Value.int i).reread) := by
      rw [propertyToJson, Value.reread, Value.rereadElements_eq_map, List.map_map]
      rfl
    rw [hsame, propertyFromJson, hfirst, if_neg Bool.noConfusion, hints]
    rfl
  | _ => rfl

/-! ## Whole texts -/

/-- A written property that the text can carry is parsed, and read back as another value or not. -/
theorem property_written {v : PropertyValue} (hv : v.Portable) (mode : WriteMode) :
    ∃ r, parse {} (dump mode (propertyToJson v)) = .ok r ∧ r.ok = true ∧
      propertyFromJson r.value = .ok v.reread := by
  have hfit : (propertyToJson v).Fits ({} : ParseOptions).maxDepth
      (fun s => s.length ≤ ({} : ParseOptions).maxStringBytes) 0 :=
    (propertyToJson_fits v (by decide)).mpr hv.short
  have hwritable : (propertyToJson v).Fits ({} : ParseOptions).maxDepth (Writable {}) 0 :=
    (propertyToJson_fits v (by decide)).mpr fun s hs => ⟨hv.ascii s hs, hv.short s hs⟩
  obtain ⟨r, hr, hok, hvalue⟩ := @parse_written_iff {} _ hfit mode
  have hparsed : r.ok = true := hok.mpr ⟨hwritable, hv.small⟩
  refine ⟨r, hr, hparsed, ?_⟩
  rw [hvalue hparsed]
  exact propertyFromJson_written hv.exact

/-- **Which properties survive.** A property comes back as it was iff its text tells its
alternative: a signed number is negative, an unsigned one is below `2 ^ 63`, and an array of strings
is not empty. -/
theorem property_survives_iff {v : PropertyValue} (hv : v.Portable) (mode : WriteMode) :
    v.Survives mode ↔ v.Distinguished := by
  rw [← v.reread_eq_self_iff]
  obtain ⟨r, hr, hok, hread⟩ := property_written hv mode
  constructor
  · rintro ⟨r', hr', -, hread'⟩
    rw [hr] at hr'
    obtain rfl := Outcome.ok.inj hr'
    rw [hread] at hread'
    exact Outcome.ok.inj hread'
  · intro hself
    rw [hself] at hread
    exact ⟨r, hr, hok, hread⟩

/-- An array of strings survives. -/
theorem property_survives_strings :
    (PropertyValue.stringArray [str "a", str "b"]).Portable ∧
      (PropertyValue.stringArray [str "a", str "b"]).Survives .compact := by
  have hv : (PropertyValue.stringArray [str "a", str "b"]).Portable :=
    ⟨fun d h => (by cases h), by decide, by decide, by decide⟩
  exact ⟨hv, (property_survives_iff hv .compact).mpr (by decide)⟩

/-- The number 0 is written as `0` and comes back unsigned. -/
theorem property_zero_fails :
    (PropertyValue.int 0).Portable ∧ ¬ (PropertyValue.int 0).Survives .compact := by
  refine ⟨⟨fun d h => (by cases h), by decide, by decide, by decide⟩, ?_⟩
  rintro ⟨r, hr, -, hread⟩
  have hparse : parse {} (dump .compact (propertyToJson (.int 0))) =
      .ok { value := .uint 0, consumed := 1 } := by rfl
  rw [hparse] at hr
  obtain rfl := Outcome.ok.inj hr
  cases hread

end TopologyFabric

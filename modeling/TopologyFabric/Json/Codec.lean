import TopologyFabric.Json.Integers

/-!
# The Image of the Codec

Which values come back from their text. An integer is read back as the kind that its sign says, and
exactly up to `2 ^ 63`; a string comes back iff it is ASCII. Everything else in a value without
doubles comes back by itself.

## Main results

- `reread_eq_self_iff`: when the numbers of a value come back
- `fits_writable_iff`: when its strings do
- `parse_dump_iff`: the values that are read back as they were
-/

namespace TopologyFabric.Json

open Library

namespace Value

/-! ## Properties of everything in a value -/

mutual

/-- All numbers and strings in the value, the keys included, have the property for their kind. -/
def Every (int : Int64 → Prop) (uint : UInt64 → Prop) (double : Double → Prop)
    (string : Bytes → Prop) : Value → Prop
  | .null => True
  | .bool _ => True
  | .int v => int v
  | .uint v => uint v
  | .double d => double d
  | .string s => string s
  | .array a => EveryElement int uint double string a
  | .object o => EveryMember int uint double string o

def EveryElement (int : Int64 → Prop) (uint : UInt64 → Prop) (double : Double → Prop)
    (string : Bytes → Prop) : List Value → Prop
  | [] => True
  | v :: a => Every int uint double string v ∧ EveryElement int uint double string a

def EveryMember (int : Int64 → Prop) (uint : UInt64 → Prop) (double : Double → Prop)
    (string : Bytes → Prop) : List (Bytes × Value) → Prop
  | [] => True
  | (k, v) :: o =>
    string k ∧ Every int uint double string v ∧ EveryMember int uint double string o

end

/-- No part of the value is a double. -/
def DoubleFree (v : Value) : Prop :=
  v.Every (fun _ => True) (fun _ => True) (fun _ => False) fun _ => True

/-- Every `Int` is negative and every `Uint` is below `2 ^ 63`. -/
def ExactNumbers (v : Value) : Prop :=
  v.Every (fun i => i.toInt < 0) (fun u => u.toNat < 2 ^ 63) (fun _ => True) fun _ => True

/-- Every string and every key is ASCII. -/
def AsciiStrings (v : Value) : Prop :=
  v.Every (fun _ => True) (fun _ => True) (fun _ => True) IsAscii

/-! ## Numbers -/

/-- An `Int` comes back iff it is negative: the others are read as `Uint`. -/
theorem reread_int_eq_self_iff (i : Int64) : (Value.int i).reread = .int i ↔ i.toInt < 0 := by
  have hlow : -2 ^ 63 ≤ i.toInt := i.le_toInt
  have hhigh : i.toInt < 2 ^ 63 := i.toInt_lt
  rw [reread, intToString]
  split_ifs with hneg
  · rw [tokenValue_negative (by omega), show (-(i.toInt.natAbs : ℤ)) = i.toInt by omega,
      Int64.ofInt_toInt]
    exact iff_of_true rfl hneg
  · rw [tokenValue_natToString (by omega)]
    exact iff_of_false Value.noConfusion hneg

/-- A `Uint` comes back iff `strtoll` can hold it. -/
theorem reread_uint_eq_self_iff (u : UInt64) :
    (Value.uint u).reread = .uint u ↔ u.toNat < 2 ^ 63 := by
  rw [reread, tokenValue_natToString_min, Value.uint.injEq]
  constructor
  · intro h
    have hnat := congrArg UInt64.toNat h
    rw [UInt64.toNat_ofNat'] at hnat
    omega
  · intro hlt
    rw [min_eq_left (by omega), UInt64.ofNat_toNat]

mutual

/-- Without doubles, a value comes back iff all its integers do. -/
theorem reread_eq_self_iff (v : Value) (h : v.DoubleFree) : v.reread = v ↔ v.ExactNumbers := by
  match v with
  | .null => exact iff_of_true rfl trivial
  | .bool _ => exact iff_of_true rfl trivial
  | .int i => exact reread_int_eq_self_iff i
  | .uint u => exact reread_uint_eq_self_iff u
  | .double _ => exact absurd h id
  | .string _ => exact iff_of_true rfl trivial
  | .array a =>
    rw [reread, Value.array.injEq]
    exact rereadElements_eq_self_iff a h
  | .object o =>
    rw [reread, Value.object.injEq]
    exact rereadMembers_eq_self_iff o h

theorem rereadElements_eq_self_iff (a : List Value)
    (h : EveryElement (fun _ => True) (fun _ => True) (fun _ => False) (fun _ => True) a) :
    rereadElements a = a ↔ EveryElement (fun i => i.toInt < 0) (fun u => u.toNat < 2 ^ 63)
      (fun _ => True) (fun _ => True) a := by
  match a with
  | [] => exact iff_of_true rfl trivial
  | v :: a =>
    rw [rereadElements, List.cons.injEq, EveryElement]
    exact and_congr (reread_eq_self_iff v h.1) (rereadElements_eq_self_iff a h.2)

theorem rereadMembers_eq_self_iff (o : List (Bytes × Value))
    (h : EveryMember (fun _ => True) (fun _ => True) (fun _ => False) (fun _ => True) o) :
    rereadMembers o = o ↔ EveryMember (fun i => i.toInt < 0) (fun u => u.toNat < 2 ^ 63)
      (fun _ => True) (fun _ => True) o := by
  match o with
  | [] => exact iff_of_true rfl trivial
  | (k, v) :: o =>
    rw [rereadMembers, List.cons.injEq, EveryMember, Prod.mk.injEq, true_and]
    exact and_congr ((and_iff_right rfl).trans (reread_eq_self_iff v h.2.1))
      (rereadMembers_eq_self_iff o h.2.2)

end

/-! ## Strings -/

variable {opt : ParseOptions}

mutual

/-- Strings of a value that are short enough can be written iff they are ASCII. -/
theorem fits_writable_iff (v : Value) (d : ℕ)
    (h : v.Fits opt.maxDepth (fun s => s.length ≤ opt.maxStringBytes) d) :
    v.Fits opt.maxDepth (Writable opt) d ↔ v.AsciiStrings := by
  match v with
  | .null => exact iff_of_true h trivial
  | .bool _ => exact iff_of_true h trivial
  | .int _ => exact iff_of_true h trivial
  | .uint _ => exact iff_of_true h trivial
  | .double _ => exact iff_of_true h trivial
  | .string s => exact ⟨fun hfit => hfit.2.1, fun hascii => ⟨h.1, hascii, h.2⟩⟩
  | .array a => exact (and_iff_right h.1).trans (fitElements_writable_iff a (d + 1) h.2)
  | .object o =>
    exact (and_iff_right h.1).trans
      ((and_iff_right h.2.1).trans (fitMembers_writable_iff o (d + 1) h.2.2))

theorem fitElements_writable_iff (a : List Value) (d : ℕ)
    (h : FitElements opt.maxDepth (fun s => s.length ≤ opt.maxStringBytes) d a) :
    FitElements opt.maxDepth (Writable opt) d a ↔
      EveryElement (fun _ => True) (fun _ => True) (fun _ => True) IsAscii a := by
  match a with
  | [] => exact Iff.rfl
  | v :: a =>
    exact and_congr (fits_writable_iff v d h.1) (fitElements_writable_iff a d h.2)

theorem fitMembers_writable_iff (o : List (Bytes × Value)) (d : ℕ)
    (h : FitMembers opt.maxDepth (fun s => s.length ≤ opt.maxStringBytes) d o) :
    FitMembers opt.maxDepth (Writable opt) d o ↔
      EveryMember (fun _ => True) (fun _ => True) (fun _ => True) IsAscii o := by
  match o with
  | [] => exact Iff.rfl
  | (k, v) :: o =>
    exact and_congr ⟨And.left, fun hascii => ⟨hascii, h.1⟩⟩
      (and_congr (fits_writable_iff v d h.2.1) (fitMembers_writable_iff o d h.2.2))

end

end Value

/-! ## Values that come back -/

/-- **The image of the codec.** A value without doubles that keeps to the limits is read back as it
was iff its `Int`s are negative, its `Uint`s are below `2 ^ 63`, and its strings and keys are
ASCII. -/
theorem parse_dump_iff {opt : ParseOptions} {v : Value} (hdouble : v.DoubleFree)
    (hfit : v.Fits opt.maxDepth (fun s => s.length ≤ opt.maxStringBytes) 0)
    (hcount : v.count ≤ opt.maxNodes) (mode : WriteMode) :
    ∃ r, parse opt (dump mode v) = .ok r ∧
      (r.ok = true ∧ r.value = v ↔ v.ExactNumbers ∧ v.AsciiStrings) := by
  obtain ⟨r, hr, hok, hvalue⟩ := parse_written_iff hfit mode
  refine ⟨r, hr, ?_⟩
  rw [Value.fits_writable_iff v 0 hfit, and_iff_left hcount] at hok
  constructor
  · rintro ⟨hparsed, hsame⟩
    refine ⟨(Value.reread_eq_self_iff v hdouble).mp ?_, hok.mp hparsed⟩
    rw [← hvalue hparsed]
    exact hsame
  · rintro ⟨hnumbers, hascii⟩
    have hparsed := hok.mpr hascii
    exact ⟨hparsed, (hvalue hparsed).trans ((Value.reread_eq_self_iff v hdouble).mpr hnumbers)⟩

/-- A value with one key and two numbers. -/
theorem parse_dump_iff_numbers :
    ∃ r, parse {} (dump .pretty (.object [(str "k", .array [.int (-1), .uint 7])])) = .ok r ∧
      (r.ok = true ∧ r.value = .object [(str "k", .array [.int (-1), .uint 7])] ↔
        (Value.object [(str "k", .array [.int (-1), .uint 7])]).ExactNumbers ∧
          (Value.object [(str "k", .array [.int (-1), .uint 7])]).AsciiStrings) :=
  parse_dump_iff (by simp [Value.DoubleFree, Value.Every, Value.EveryMember, Value.EveryElement])
    (by simp [Value.Fits, Value.FitMembers, Value.FitElements, SortedKeys]; decide)
    (by simp [Value.count, Value.countMembers, Value.countElements]) .pretty

end TopologyFabric.Json

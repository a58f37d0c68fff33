import TopologyFabric.Json.Written
import TopologyFabric.Serialization.Accepted

/-!
# Numbers That Are Read

Every number of a document goes through `Value::integer`, which gives zero for what is no number and
cuts a double, and is then cut to the width of its field. So a field has the number of the document
iff that number is an integer in the range of the field.

## Main results

- `Narrows.exact_iff`: when a number survives the two conversions
- `decodesFaithfully_iff`: when a snapshot has the numbers of its document
- `deserialize_faithful_iff`: the same for texts
-/

namespace TopologyFabric

open Library Json

/-! ## Integers -/

/-- The integer that a JSON number is. -/
def Json.Value.integral? : Value → Option ℤ
  | .int v => some v.toInt
  | .uint v => some v.toNat
  | .double (.fin q) => if q.den = 1 then some q.num else none
  | .double .negZero => some 0
  | _ => none

/-- The integer that a JSON number is, if it is in a range. -/
def Json.Value.inRange? (lo hi : ℤ) (v : Value) : Option ℤ :=
  v.integral?.filter fun i => decide (lo ≤ i ∧ i < hi)

/-- A cast from `int64_t` to a type with the given range, which it only gets wrong for numbers out of
that range. -/
structure Narrows {α : Type} (cut : Int64 → α) (value : α → ℤ) (lo hi : ℤ) : Prop where
  low : -2 ^ 63 ≤ lo
  high : hi ≤ 2 ^ 63
  range : ∀ a, lo ≤ value a ∧ value a < hi
  exact : ∀ x : Int64, lo ≤ x.toInt → x.toInt < hi → value (cut x) = x.toInt

/-- An integer in the range of an `int64_t` is read as it is. -/
theorem integer_of_exact {v : Value} {i : ℤ} (h : v.integral? = some i) (hlow : -2 ^ 63 ≤ i)
    (hhigh : i < 2 ^ 63) : v.integer.toInt = i := by
  cases v with
  | int x => exact Option.some.inj h
  | uint u =>
    obtain rfl := Option.some.inj h
    have hcast : u.toInt64 = Int64.ofInt u.toNat :=
      calc u.toInt64 = (UInt64.ofNat u.toNat).toInt64 := by rw [UInt64.ofNat_toNat]
        _ = Int64.ofNat u.toNat := rfl
        _ = Int64.ofInt u.toNat := Int64.ofInt_eq_ofNat.symm
    rw [Value.integer, hcast]
    exact Int64.toInt_ofInt_of_le hlow hhigh
  | double d =>
    cases d with
    | fin q =>
      rw [Value.integral?] at h
      split at h
      · rename_i hden
        obtain rfl := Option.some.inj h
        -- a whole number is not changed by the cut towards zero
        have hq : q = (q.num : ℚ) := ((Rat.den_eq_one_iff q).mp hden).symm
        have htrunc : (if 0 ≤ q then ⌊q⌋ else ⌈q⌉) = q.num := by
          rw [hq]
          split
          · exact Int.floor_intCast _
          · exact Int.ceil_intCast _
        rw [Value.integer, Value.doubleToInt64, htrunc]
        simp only [if_pos (And.intro hlow hhigh)]
        exact Int64.toInt_ofInt_of_le hlow hhigh
      · cases h
    | negZero =>
      obtain rfl := Option.some.inj h
      rfl
    | _ => cases h
  | _ => cases h

section Narrows

variable {α : Type} {cut : Int64 → α} {value : α → ℤ} {lo hi : ℤ}

/-- A number survives iff it is an integer in the range. -/
theorem Narrows.exact_iff (h : Narrows cut value lo hi) (v : Value) :
    v.integral? = some (value (cut v.integer)) ↔ (v.inRange? lo hi).isSome = true := by
  constructor
  · intro hexact
    rw [Value.inRange?, Option.filter_eq_some_iff.mpr ⟨hexact, decide_eq_true (h.range _)⟩]
    rfl
  · intro hsome
    obtain ⟨i, hi'⟩ := Option.isSome_iff_exists.mp hsome
    obtain ⟨hexact, hrange⟩ := Option.filter_eq_some_iff.mp hi'
    obtain ⟨hlow, hhigh⟩ := of_decide_eq_true hrange
    have hint : v.integer.toInt = i :=
      integer_of_exact hexact (h.low.trans hlow) (hhigh.trans_le h.high)
    rw [hexact, h.exact _ (hint ▸ hlow) (hint ▸ hhigh), hint]

/-- The number that is left of a value is the one in the range iff there is one. -/
theorem Narrows.inRange_iff (h : Narrows cut value lo hi) (v : Value) :
    some (value (cut v.integer)) = v.inRange? lo hi ↔ (v.inRange? lo hi).isSome = true := by
  constructor
  · intro heq
    rw [← heq]
    rfl
  · intro hsome
    have hexact := (h.exact_iff v).mpr hsome
    exact (Option.filter_eq_some_iff.mpr ⟨hexact, decide_eq_true (h.range _)⟩).symm

end Narrows

/-- A number that is not negative keeps its value without a sign. -/
theorem toNat_toUInt64 {x : Int64} (h : 0 ≤ x.toInt) : (x.toUInt64.toNat : ℤ) = x.toInt := by
  have hcast : x.toInt = (x.toUInt64.toNat : ℤ).bmod (2 ^ 64) := BitVec.toInt_eq_toNat_bmod _
  have hlt := x.toUInt64.toNat_lt
  rw [hcast] at h ⊢
  rw [Int.bmod_def] at h ⊢
  split at h <;> omega

theorem narrows_uint16 :
    Narrows (fun v => v.toUInt64.toUInt16) (fun a : UInt16 => (a.toNat : ℤ)) 0 (2 ^ 16) where
  low := by decide
  high := by decide
  range a := ⟨Int.natCast_nonneg _, by have := a.toNat_lt; omega⟩
  exact x hlow hhigh := by
    have hword := toNat_toUInt64 hlow
    rw [UInt64.toNat_toUInt16]
    omega

theorem narrows_uint32 :
    Narrows (fun v => v.toUInt64.toUInt32) (fun a : UInt32 => (a.toNat : ℤ)) 0 (2 ^ 32) where
  low := by decide
  high := by decide
  range a := ⟨Int.natCast_nonneg _, by have := a.toNat_lt; omega⟩
  exact x hlow hhigh := by
    have hword := toNat_toUInt64 hlow
    rw [UInt64.toNat_toUInt32]
    omega

theorem narrows_int32 : Narrows Int64.toInt32 Int32.toInt (-2 ^ 31) (2 ^ 31) where
  low := by decide
  high := by decide
  range a := ⟨a.le_toInt, a.toInt_lt⟩
  exact x hlow hhigh := by
    rw [Int64.toInt_toInt32]
    exact Int.bmod_eq_of_le (by omega) (by omega)

theorem narrows_int64 : Narrows id Int64.toInt (-2 ^ 63) (2 ^ 63) where
  low := by decide
  high := by decide
  range a := ⟨a.le_toInt, a.toInt_lt⟩
  exact x _ _ := rfl

/-! ## What a faithful snapshot is -/

/-- The value of a field of 16 bits. -/
def word16 (field : NativeIdentity → Option UInt16) (n : NativeIdentity) : Option ℤ :=
  (field n).map fun a => (a.toNat : ℤ)

/-- The value of a field of 32 bits. -/
def word32 (field : NativeIdentity → Option UInt32) (n : NativeIdentity) : Option ℤ :=
  (field n).map fun a => (a.toNat : ℤ)

/-- A numeric field of a native identity: its key, the bound of its type, and its value. -/
structure NativeNumber where
  key : Bytes
  bound : ℤ
  value : NativeIdentity → Option ℤ

def nativeNumbers : List NativeNumber :=
  [⟨str "pci_domain", 2 ^ 16, word16 NativeIdentity.pciDomain⟩,
    ⟨str "pci_bus", 2 ^ 16, word16 NativeIdentity.pciBus⟩,
    ⟨str "pci_device", 2 ^ 16, word16 NativeIdentity.pciDevice⟩,
    ⟨str "pci_function", 2 ^ 16, word16 NativeIdentity.pciFunction⟩,
    ⟨str "vendor_id", 2 ^ 16, word16 NativeIdentity.vendorId⟩,
    ⟨str "device_id", 2 ^ 16, word16 NativeIdentity.deviceId⟩,
    ⟨str "subsystem_id", 2 ^ 16, word16 NativeIdentity.subsystemId⟩,
    ⟨str "subsystem_vendor_id", 2 ^ 16, word16 NativeIdentity.subsystemVendorId⟩,
    ⟨str "numa_node", 2 ^ 32, word32 NativeIdentity.numaNode⟩,
    ⟨str "cpu_package", 2 ^ 32, word32 NativeIdentity.cpuPackage⟩,
    ⟨str "core_id", 2 ^ 32, word32 NativeIdentity.coreId⟩,
    ⟨str "processor_group", 2 ^ 32, word32 NativeIdentity.processorGroup⟩,
    ⟨str "logical_processor_index", 2 ^ 32, word32 NativeIdentity.logicalProcessorIndex⟩,
    ⟨str "cuda_ordinal", 2 ^ 32, word32 NativeIdentity.cudaOrdinal⟩]

/-- Every array of integers has the numbers of the array at its place. -/
def ArraysFaithful (entry : Value) (m : PropertyMap) : Prop :=
  ∀ k l, m.find? k = some (.intArray l) →
    ∃ a, (fieldOf entry (str "properties")).find k = some (.array a) ∧
      List.Forall₂ (fun v i => v.integral? = some (Int64.toInt i)) a l

/-- Every numeric field of the native identity is the integer at its place if that is in range, else
it is unset. -/
structure NodeFaithful (nv : Value) (n : TopologyNode) : Prop where
  native : ∀ f ∈ nativeNumbers,
    f.value n.native = ((fieldOf nv (str "native")).find f.key).bind (Value.inRange? 0 f.bound)
  arrays : ArraysFaithful nv n.properties

/-- A field that cannot be unset is the number at its place, or zero if there is none. -/
def IsNumberAt (place : Option Value) (i : ℤ) : Prop :=
  match place with
  | some w => w.integral? = some i
  | none => i = 0

structure EdgeFaithful (ev : Value) (e : TopologyEdge) : Prop where
  width : e.width.map Int32.toInt =
    (findNumber ev (str "width")).bind (Value.inRange? (-2 ^ 31) (2 ^ 31))
  pcieGeneration : e.pcieGeneration.map Int32.toInt =
    (findNumber ev (str "pcie_generation")).bind (Value.inRange? (-2 ^ 31) (2 ^ 31))
  hopCount : IsNumberAt (findNumber ev (str "hop_count")) e.hopCount.toInt
  policyVersion : IsNumberAt (findNumber ev (str "policy_version")) e.policyVersion.toNat
  arrays : ArraysFaithful ev e.properties

/-! ## Conversions of doubles -/

/-- No double out of the range of `int64_t`. -/
def Json.Value.convertible : Value → Bool
  | .double (.fin q) => decide (-2 ^ 63 ≤ q ∧ q < 2 ^ 63)
  | .double .negZero => true
  | .double _ => false
  | _ => true

/-- The numbers under some keys. -/
def numbersAt (o : Value) (keys : List Bytes) : List Value := keys.filterMap (findNumber o)

/-- The elements that a property converts: those of an array that does not start with a string. -/
def integerElements : Value → List Value
  | .array a => if a.head?.any Value.isString then [] else a
  | _ => []

def propertyElements (entry : Value) : List Value :=
  match fieldOf entry (str "properties") with
  | .object es => es.flatMap fun e => integerElements e.2
  | _ => []

/-- The numbers of a node that `Value::integer` is applied to. -/
def nodeConversions (nv : Value) : List Value :=
  numbersAt nv [str "capabilities"] ++
    numbersAt (fieldOf nv (str "native")) (nativeNumbers.map NativeNumber.key) ++
    numbersAt (fieldOf nv (str "provenance")) [str "timestamp_ms"] ++ propertyElements nv

/-- The numbers of an edge that `Value::integer` is applied to. -/
def edgeConversions (ev : Value) : List Value :=
  numbersAt ev [str "width", str "pcie_generation", str "hop_count", str "peer_capability",
    str "policy_version"] ++
    numbersAt (fieldOf ev (str "provenance")) [str "timestamp_ms"] ++ propertyElements ev

/-- The numbers of a document that `Value::integer` is applied to. -/
def conversions (root : Value) (nodes edges : List Value) : List Value :=
  numbersAt root [str "generation", str "created_ms"] ++ nodes.flatMap nodeConversions ++
    edges.flatMap edgeConversions

/-- The snapshot has the numbers of its document, and no double out of range was converted. -/
structure DecodesFaithfully (snap : TopologySnapshot) (root : Value) (nodes edges : List Value) :
    Prop where
  node : ∀ nv n, KeptEntry nodes nv → readId nv (str "id") = some n.id →
    snap.findNode n.id = some n → NodeFaithful nv n
  edge : List.Forall₂ EdgeFaithful edges snap.edges
  converted : ∀ v ∈ conversions root nodes edges, v.convertible = true

/-! ## When the numbers of a document are in range -/

/-- The arrays that do not start with a string have only integers in range. -/
def ArraysInRange (entry : Value) : Prop :=
  ∀ k a, (fieldOf entry (str "properties")).find k = some (.array a) →
    a.head?.any Value.isString = false → ∀ v ∈ a, (v.inRange? (-2 ^ 63) (2 ^ 63)).isSome = true

/-- The numeric fields of the native identity are absent, null, or integers in range. -/
structure NodeInRange (nv : Value) : Prop where
  native : ∀ f ∈ nativeNumbers, ∀ w, (fieldOf nv (str "native")).find f.key = some w →
    w = .null ∨ (w.inRange? 0 f.bound).isSome = true
  arrays : ArraysInRange nv

/-- A number under the key is an integer in range. -/
def InRangeAt (o : Value) (k : Bytes) (lo hi : ℤ) : Prop :=
  ∀ w, findNumber o k = some w → (w.inRange? lo hi).isSome = true

structure EdgeInRange (ev : Value) : Prop where
  width : InRangeAt ev (str "width") (-2 ^ 31) (2 ^ 31)
  pcieGeneration : InRangeAt ev (str "pcie_generation") (-2 ^ 31) (2 ^ 31)
  hopCount : InRangeAt ev (str "hop_count") (-2 ^ 31) (2 ^ 31)
  policyVersion : InRangeAt ev (str "policy_version") 0 (2 ^ 32)
  arrays : ArraysInRange ev

structure NumbersInRange (root : Value) (nodes edges : List Value) : Prop where
  node : ∀ nv, KeptEntry nodes nv → NodeInRange nv
  edge : ∀ ev ∈ edges, EdgeInRange ev
  converted : ∀ v ∈ conversions root nodes edges, v.convertible = true

/-! ## Entries -/

/-- An optional field without a check of its kind is faithful iff its number is in range. -/
theorem optUint_faithful_iff {α : Type} {cut : Int64 → α} {value : α → ℤ} {hi : ℤ}
    (h : Narrows cut value 0 hi) (o : Value) (k : Bytes) :
    (optUint o k cut).map value = (o.find k).bind (Value.inRange? 0 hi) ↔
      ∀ w, o.find k = some w → w = .null ∨ (w.inRange? 0 hi).isSome = true := by
  rw [optUint]
  -- the member is missing, is null, or has a value that is cut to the width of the field
  split
  · rename_i hnone
    rw [hnone]
    exact iff_of_true rfl fun w hw => by cases hw
  · rename_i hnull
    rw [hnull]
    exact iff_of_true rfl fun w hw => Or.inl (Option.some.inj hw).symm
  · rename_i v hne hv
    rw [hv, Option.map_some, Option.bind_some, h.inRange_iff]
    constructor
    · intro hsome w hw
      obtain rfl := Option.some.inj hw
      exact Or.inr hsome
    · intro hall
      refine (hall v rfl).resolve_left fun hnull => ?_
      subst hnull
      exact hne rfl

/-- Each numeric field of a native identity is read under its key. -/
theorem nativeNumbers_read (o : Value) : ∀ f ∈ nativeNumbers,
    f.value (nativeFromJson o) = (o.find f.key).bind (Value.inRange? 0 f.bound) ↔
      ∀ w, o.find f.key = some w → w = .null ∨ (w.inRange? 0 f.bound).isSome = true := by
  have h16 := fun k => optUint_faithful_iff narrows_uint16 o k
  have h32 := fun k => optUint_faithful_iff narrows_uint32 o k
  -- what is no object has no members, and all fields are left out
  by_cases hobject : o.isObject = false
  · have hfind : ∀ k, o.find k = none := by
      intro k
      cases o with
      | object es => cases hobject
      | _ => rfl
    intro f hf
    rw [hfind]
    refine iff_of_true ?_ fun w hw => by cases hw
    rw [nativeFromJson, if_pos hobject]
    revert f
    simp only [nativeNumbers, List.forall_mem_cons]
    exact ⟨rfl, rfl, rfl, rfl, rfl, rfl, rfl, rfl, rfl, rfl, rfl, rfl, rfl, rfl,
      fun _ h => by cases h⟩
  · rw [nativeFromJson, if_neg hobject]
    simp only [nativeNumbers, List.forall_mem_cons]
    exact ⟨h16 _, h16 _, h16 _, h16 _, h16 _, h16 _, h16 _, h16 _, h32 _, h32 _, h32 _, h32 _,
      h32 _, h32 _, fun _ h => by cases h⟩

theorem arraysFaithful_iff {entry : Value} {m : PropertyMap} (h : readProperties entry = .ok m) :
    ArraysFaithful entry m ↔ ArraysInRange entry := by
  constructor
  · intro hfaithful k a ha hfirst v hv
    -- an array that does not start with a string is read as integers
    have hread : propertyFromJson (.array a) = .ok (.intArray (a.map Value.integer)) := by
      rw [propertyFromJson, hfirst]
      rfl
    obtain ⟨a', ha', hall⟩ := hfaithful k _ ((readProperties_find h k _).mpr ⟨_, ha, hread⟩)
    obtain rfl : a = a' := Value.array.inj (Option.some.inj (ha.symm.trans ha'))
    rw [List.forall₂_map_right_iff, List.forall₂_same] at hall
    exact (narrows_int64.exact_iff v).mp (hall v hv)
  · intro hrange k l hl
    obtain ⟨v, hv, hread⟩ := (readProperties_find h k _).mp hl
    cases v with
    | array a =>
      rw [propertyFromJson] at hread
      by_cases hfirst : a.head?.any Value.isString = true
      · rw [if_pos hfirst] at hread
        obtain ⟨sv, -, hsv⟩ := Outcome.bind_eq_ok.mp hread
        cases hsv
      · rw [if_neg hfirst] at hread
        obtain rfl := PropertyValue.intArray.inj (Outcome.ok.inj hread)
        refine ⟨a, hv, ?_⟩
        rw [List.forall₂_map_right_iff, List.forall₂_same]
        exact fun v hv' => (narrows_int64.exact_iff v).mpr
          (hrange k a hv (Bool.not_eq_true _ ▸ hfirst) v hv')
    | _ => cases hread

theorem nodeFaithful_iff {nv : Value} {n : TopologyNode} (h : nodeFromJson nv = .ok n) :
    NodeFaithful nv n ↔ NodeInRange nv := by
  obtain ⟨-, hproperties, hnative, -⟩ := nodeFromJson_eq_ok h
  have hfields := nativeNumbers_read (fieldOf nv (str "native"))
  rw [← hnative] at hfields
  constructor
  · intro hfaithful
    exact ⟨fun f hf => (hfields f hf).mp (hfaithful.native f hf),
      (arraysFaithful_iff hproperties).mp hfaithful.arrays⟩
  · intro hrange
    exact ⟨fun f hf => (hfields f hf).mpr (hrange.native f hf),
      (arraysFaithful_iff hproperties).mpr hrange.arrays⟩

/-- An optional field that is only set for a number is faithful iff the number is in range. -/
theorem findNumber_faithful_iff {α : Type} {cut : Int64 → α} {value : α → ℤ} {lo hi : ℤ}
    (h : Narrows cut value lo hi) (o : Value) (k : Bytes) :
    ((findNumber o k).map fun v => cut v.integer).map value =
        (findNumber o k).bind (Value.inRange? lo hi) ↔ InRangeAt o k lo hi := by
  unfold InRangeAt
  cases findNumber o k with
  | none => exact iff_of_true rfl fun w hw => by cases hw
  | some v =>
    rw [Option.map_some, Option.map_some, Option.bind_some, h.inRange_iff]
    constructor
    · intro hsome w hw
      obtain rfl := Option.some.inj hw
      exact hsome
    · exact fun hall => hall v rfl

/-- A field that cannot be unset is faithful iff its number is in range. -/
theorem isNumberAt_iff {α : Type} {cut : Int64 → α} {value : α → ℤ} {lo hi : ℤ}
    (h : Narrows cut value lo hi) (hzero : value (cut 0) = 0) (o : Value) (k : Bytes) :
    IsNumberAt (findNumber o k) (value (cut (readInteger o k 0))) ↔ InRangeAt o k lo hi := by
  unfold InRangeAt readInteger
  cases findNumber o k with
  | none => exact iff_of_true hzero fun w hw => by cases hw
  | some v =>
    rw [Option.map_some, Option.getD_some, IsNumberAt, h.exact_iff]
    constructor
    · intro hsome w hw
      obtain rfl := Option.some.inj hw
      exact hsome
    · exact fun hall => hall v rfl

theorem edgeFaithful_iff {ev : Value} {e : TopologyEdge} (h : edgeFromJson ev = .ok e) :
    EdgeFaithful ev e ↔ EdgeInRange ev := by
  obtain ⟨hproperties, -, hwidth, hgeneration, hhops, hpolicy⟩ := edgeFromJson_eq_ok h
  -- each number on its own
  have hwidthIff := findNumber_faithful_iff narrows_int32 ev (str "width")
  have hgenerationIff := findNumber_faithful_iff narrows_int32 ev (str "pcie_generation")
  have hhopsIff := isNumberAt_iff narrows_int32 rfl ev (str "hop_count")
  have hpolicyIff := isNumberAt_iff narrows_uint32 rfl ev (str "policy_version")
  rw [← hwidth] at hwidthIff
  rw [← hgeneration] at hgenerationIff
  rw [← hhops] at hhopsIff
  rw [← hpolicy] at hpolicyIff
  constructor
  · intro hfaithful
    exact ⟨hwidthIff.mp hfaithful.width, hgenerationIff.mp hfaithful.pcieGeneration,
      hhopsIff.mp hfaithful.hopCount, hpolicyIff.mp hfaithful.policyVersion,
      (arraysFaithful_iff hproperties).mp hfaithful.arrays⟩
  · intro hrange
    exact ⟨hwidthIff.mpr hrange.width, hgenerationIff.mpr hrange.pcieGeneration,
      hhopsIff.mpr hrange.hopCount, hpolicyIff.mpr hrange.policyVersion,
      (arraysFaithful_iff hproperties).mpr hrange.arrays⟩

/-- Edges are faithful to the entries at their positions iff all numbers of these are in range. -/
theorem edgesFaithful_iff {edges : List Value} {es : List TopologyEdge}
    (h : ReadAs edgeFromJson edges es) :
    List.Forall₂ EdgeFaithful edges es ↔ ∀ ev ∈ edges, EdgeInRange ev := by
  induction h with
  | nil => simp
  | cons hread _ ih =>
    rw [List.forall₂_cons, List.forall_mem_cons, ih, edgeFaithful_iff hread]

/-! ## Documents -/

/-- A node is read from the kept entry with its id. -/
theorem ReadFrom.node_of_kept {snap : TopologySnapshot} {root : Value} {nodes edges : List Value}
    (hread : ReadFrom snap root nodes edges) {bounds : Bounds}
    (hdocument : AcceptedDocument bounds root nodes edges) {nv : Value} (hnv : KeptEntry nodes nv)
    {n : TopologyNode} (hid : readId nv (str "id") = some n.id)
    (hn : snap.findNode n.id = some n) : nodeFromJson nv = .ok n := by
  obtain ⟨m, hm⟩ := hdocument.node_read hnv.mem
  have hfind := (hread.node m).mpr ⟨nv, hnv, hm⟩
  have hsame : m.id = n.id :=
    Option.some.inj ((nodeFromJson_eq_ok hm).1.symm.trans hid)
  rw [hsame, hn] at hfind
  rw [Option.some.inj hfind]
  exact hm

/-- **When a snapshot has the numbers of its document.** -/
theorem decodesFaithfully_iff {snap : TopologySnapshot} {root : Value} {nodes edges : List Value}
    (hread : ReadFrom snap root nodes edges) {bounds : Bounds}
    (hdocument : AcceptedDocument bounds root nodes edges) :
    DecodesFaithfully snap root nodes edges ↔ NumbersInRange root nodes edges := by
  constructor
  · intro hfaithful
    refine ⟨fun nv hnv => ?_, fun ev hev => ?_, hfaithful.converted⟩
    · obtain ⟨n, hn⟩ := hdocument.node_read hnv.mem
      exact (nodeFaithful_iff hn).mp (hfaithful.node nv n hnv (nodeFromJson_eq_ok hn).1
        ((hread.node n).mpr ⟨nv, hnv, hn⟩))
    · exact (edgesFaithful_iff hread.edges).mp hfaithful.edge ev hev
  · intro hrange
    refine ⟨fun nv n hnv hid hn => ?_, (edgesFaithful_iff hread.edges).mpr hrange.edge,
      hrange.converted⟩
    exact (nodeFaithful_iff (hread.node_of_kept hdocument hnv hid hn)).mpr (hrange.node nv hnv)

/-- The numbers of every snapshot that is read from the text are those of its document. -/
def DecodesText (order : IterationOrder) (jsonText : Bytes) (bounds : Bounds) : Prop :=
  ∀ snap root nodes edges, deserializeSnapshotJson order jsonText bounds = .ok snap →
    AcceptedText bounds jsonText root nodes edges → DecodesFaithfully snap root nodes edges

/-- **When numbers are decoded faithfully**: exactly when the text is not accepted, or all the
numbers of its document that are kept are integers in the range of their fields and no double that
is converted is out of range. -/
theorem deserialize_faithful_iff (order : IterationOrder) (jsonText : Bytes) (bounds : Bounds) :
    DecodesText order jsonText bounds ↔
      ∀ root nodes edges, AcceptedText bounds jsonText root nodes edges →
        NumbersInRange root nodes edges := by
  constructor
  · intro hdecodes root nodes edges haccepted
    obtain ⟨snap, hsnap⟩ := (deserialize_returns_iff order jsonText bounds).mpr
      ⟨root, nodes, edges, haccepted⟩
    obtain ⟨root', nodes', edges', haccepted', hread⟩ := deserialize_contents hsnap
    obtain ⟨rfl, rfl, rfl⟩ := haccepted.unique haccepted'
    exact (decodesFaithfully_iff hread haccepted.document).mp
      (hdecodes snap root nodes edges hsnap haccepted)
  · intro hrange snap root nodes edges hsnap haccepted
    obtain ⟨root', nodes', edges', haccepted', hread⟩ := deserialize_contents hsnap
    obtain ⟨rfl, rfl, rfl⟩ := haccepted.unique haccepted'
    exact (decodesFaithfully_iff hread haccepted.document).mpr (hrange root nodes edges haccepted)

/-- A document with one PCI device on bus 65537. -/
def wrappedBusDocument : Bytes :=
  str "\x7b\"format\":\"topology_fabric_snapshot\",\"nodes\":[\x7b\"id\":" ++
    str "\"00000000000000000000000000000001\",\"native\":\x7b\"pci_bus\":65537\x7d\x7d]," ++
    str "\"edges\":[]\x7d"

/-- The bus of the first node of a parsed document, if it fits its field. -/
def firstBus (root : Value) : Option (Option ℤ) :=
  ((findArray root (str "nodes")).bind List.head?).bind fun nv =>
    ((fieldOf nv (str "native")).find (str "pci_bus")).map (Value.inRange? 0 (2 ^ 16))

/-- It is accepted, with a device on bus 1. -/
theorem deserialize_faithful_fails : ¬ DecodesText .insertion wrappedBusDocument {} := by
  have hone : (match deserializeSnapshotJson .insertion wrappedBusDocument {} with
      | .ok snap => snap.nodes.entries.all fun e => decide (e.2.native.pciBus = some 1)
      | _ => false) = true := by decide +kernel
  have hbus : (match parse {} wrappedBusDocument with
      | .ok r => decide (firstBus r.value = some none)
      | _ => false) = true := by decide +kernel
  intro hdecodes
  cases hsnap : deserializeSnapshotJson .insertion wrappedBusDocument {} with
  | ok snap =>
    obtain ⟨root, nodes, edges, haccepted, hread⟩ := deserialize_contents hsnap
    obtain ⟨r, hr, -, rfl⟩ := haccepted.parsed
    rw [hr] at hbus
    rw [hsnap] at hone
    have hfirst : firstBus r.value = some none := of_decide_eq_true hbus
    rw [firstBus, haccepted.document.findNodes] at hfirst
    obtain ⟨nv, hhead, hbusOut⟩ := Option.bind_eq_some_iff.mp hfirst
    obtain ⟨w, hw, hout⟩ := Option.map_eq_some_iff.mp hbusOut
    -- the first node is kept, and its bus cannot be what is written in the document
    have hkept : KeptEntry nodes nv := by
      obtain ⟨rest, rfl⟩ := List.head?_eq_some_iff.mp hhead
      exact ⟨[], rest, rfl, fun w hw => by cases hw⟩
    obtain ⟨n, hn⟩ := haccepted.document.node_read hkept.mem
    have hfind := (hread.node n).mpr ⟨nv, hkept, hn⟩
    have hfaithful := (hdecodes snap _ nodes edges hsnap haccepted).node nv n hkept
      (nodeFromJson_eq_ok hn).1 hfind
    have hset : n.native.pciBus = some 1 := by
      have hmem := HashMap.find?_eq_some.mp hfind
      exact of_decide_eq_true (List.all_eq_true.mp hone _ hmem)
    have hunset : word16 NativeIdentity.pciBus n.native =
        ((fieldOf nv (str "native")).find (str "pci_bus")).bind (Value.inRange? 0 (2 ^ 16)) :=
      hfaithful.native ⟨str "pci_bus", 2 ^ 16, word16 NativeIdentity.pciBus⟩
        (by simp [nativeNumbers])
    rw [hw, Option.bind_some, hout, word16, hset] at hunset
    cases hunset
  | throws e =>
    rw [hsnap] at hone
    cases hone
  | stuck =>
    rw [hsnap] at hone
    cases hone

end TopologyFabric

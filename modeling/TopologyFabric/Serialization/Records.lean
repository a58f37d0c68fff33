import TopologyFabric.Serialization.Rejection
import TopologyFabric.Serialization.Strings

/-!
# Records That Are Read Back

What the readers of the records make of a written record: strings, enumerations, flags, optional
numbers and ids are all found under the key they were written under and keep their values.

## Main results

- `find_written`: what is found in a written object
- `nativeFromJson_written`, `provenanceFromJson_written`: the parts of a record are read back
- `nodeFromJson_written`, `edgeFromJson_written`: an entry is read back up to its properties and the
  facts of its link
-/

namespace TopologyFabric

open Library Json

/-! ## Fields -/

/-- Under the key of a field its value is found. -/
theorem find_written {fields : List (Bytes × Value)} (hkeys : (fields.map Prod.fst).Nodup)
    {k : Bytes} {v : Value} (h : (k, v) ∈ fields) :
    (objectOf fields).reread.find k = some v.reread := by
  have hsorted := sortedKeys_foldl_insertEntry (sortedKeys_nil (K := Bytes) (V := Value)) fields
  rw [objectOf, Value.reread, Value.find, Value.rereadMembers_eq_map, findEntry_map,
    findEntry_of_mem hsorted ((objectOf_perm hkeys).mem_iff.mpr h), Option.map_some]

/-- The same for a record. -/
theorem find_record (o : Value) {fields : List (Bytes × Value)} (ho : o = objectOf fields)
    (hkeys : RecordKeys (fields.map Prod.fst)) (k : Bytes) (v : Value) (h : (k, v) ∈ fields) :
    o.reread.find k = some v.reread := by
  rw [ho]
  exact find_written hkeys.1 h

section Fields

variable {o : Value} {k : Bytes}

theorem readString_written {s : Bytes} (h : o.find k = some (Value.string s).reread)
    (default : Bytes) : readString o k default = s := by
  rw [readString, h]
  rfl

theorem readEnum_written {α : Type} {fromString : Bytes → α} {toString : α → Bytes}
    (hread : ∀ a, fromString (toString a) = a) {a : α}
    (h : o.find k = some (Value.string (toString a)).reread) (default : α) :
    readEnum o k fromString default = a := by
  rw [readEnum, h]
  exact hread a

theorem readBool_written {b : Bool} (h : o.find k = some (Value.bool b).reread) (default : Bool) :
    readBool o k default = b := by
  rw [readBool, h]
  rfl

theorem readId_written {id : TopologyNodeId} (h : o.find k = some (Value.string id.toHex).reread) :
    readId o k = some id := by
  rw [readId, h]
  exact id.tryFromHex_toHex

theorem readRecord_written {α : Type} {fromJson : Value → α} {toJson : α → Value}
    (hread : ∀ a, fromJson (toJson a).reread = a) {a : α}
    (h : o.find k = some (toJson a).reread) (default : α) : readRecord o k fromJson default = a := by
  rw [readRecord, h, Option.map_some, hread]
  rfl

/-- A field that is a number is found as it is. -/
private theorem findNumber_of_isNumber {v : Value} (h : o.find k = some v) (hv : IsNumber v) :
    findNumber o k = some v := by
  rw [findNumber, h]
  rcases hv with ⟨i, rfl⟩ | ⟨u, rfl⟩ | ⟨d, rfl⟩ <;> rfl

theorem readInteger_written {i : Int64} (h : o.find k = some (Value.int i).reread)
    (default : Int64) : readInteger o k default = i := by
  have hnumber : IsNumber (Value.int i).reread := isNumber_tokenValue (numberToken_intToString _)
  rw [readInteger, findNumber_of_isNumber h hnumber]
  exact integer_tokenValue_intToString i

/-- An unsigned number below `2 ^ 63` is read back as it is. -/
theorem reread_uint {u : UInt64} (hu : u.toNat < 2 ^ 63) :
    (Value.uint u).reread = .uint u := by
  rw [Value.reread, tokenValue_natToString hu, UInt64.ofNat_toNat]

theorem readInteger_written_uint {u : UInt64} (hu : u.toNat < 2 ^ 63)
    (h : o.find k = some (Value.uint u).reread) (default : Int64) :
    readInteger o k default = u.toInt64 := by
  rw [reread_uint hu] at h
  rw [readInteger, findNumber_of_isNumber h (Or.inr (Or.inl ⟨u, rfl⟩))]
  rfl

theorem optU16_written {v : Option UInt16} (h : o.find k = some (put UInt16.toUInt64 v).reread) :
    optU16 o k = v := by
  cases v with
  | none =>
    rw [optU16, optUint, h]
    rfl
  | some x =>
    have hx : x.toUInt64.toNat < 2 ^ 63 := by
      have := x.toNat_lt
      rw [UInt16.toNat_toUInt64]
      omega
    rw [put, reread_uint hx] at h
    rw [optU16, optUint, h]
    simp [Value.integer]

theorem optU32_written {v : Option UInt32} (h : o.find k = some (put UInt32.toUInt64 v).reread) :
    optU32 o k = v := by
  cases v with
  | none =>
    rw [optU32, optUint, h]
    rfl
  | some x =>
    have hx : x.toUInt64.toNat < 2 ^ 63 := by
      have := x.toNat_lt
      rw [UInt32.toNat_toUInt64]
      omega
    rw [put, reread_uint hx] at h
    rw [optU32, optUint, h]
    simp [Value.integer]

end Fields

/-! ## Parts of records -/

theorem nativeFromJson_written (n : NativeIdentity) :
    nativeFromJson (nativeToJson n).reread = n := by
  have hfind := find_record (nativeToJson n) rfl
    (by simp only [List.map_cons, List.map_nil]; decide +kernel)
  have hobject : (nativeToJson n).reread.isObject = true := rfl
  unfold nativeFromJson
  rw [if_neg (by rw [hobject]; exact Bool.noConfusion)]
  generalize (nativeToJson n).reread = o at hfind ⊢
  cases n
  rw [NativeIdentity.mk.injEq]
  refine ⟨?_, ?_, ?_, ?_, ?_, ?_, ?_, ?_, ?_, ?_, ?_, ?_, ?_, ?_, ?_, ?_, ?_, ?_, ?_, ?_, ?_, ?_⟩
  -- eight 16-bit numbers, six 32-bit numbers, eight strings
  iterate 8 exact optU16_written (hfind _ _ (by simp only [List.mem_cons, true_or, or_true]))
  iterate 6 exact optU32_written (hfind _ _ (by simp only [List.mem_cons, true_or, or_true]))
  iterate 8 exact readString_written (hfind _ _ (by simp only [List.mem_cons, true_or, or_true])) _

theorem provenanceFromJson_written (p : Provenance) :
    provenanceFromJson (provenanceToJson p).reread = p := by
  have hfind := find_record (provenanceToJson p) rfl
    (by simp only [List.map_cons, List.map_nil]; decide +kernel)
  have hobject : (provenanceToJson p).reread.isObject = true := rfl
  unfold provenanceFromJson
  rw [if_neg (by rw [hobject]; exact Bool.noConfusion)]
  -- of the document only the values of its members are used
  generalize (provenanceToJson p).reread = o at hfind ⊢
  have htext : ∀ k s default, _ → readString o k default = s :=
    fun k s default h => readString_written (hfind k (.string s) h) default
  cases p
  rw [Provenance.mk.injEq]
  refine ⟨?_, ?_, ?_, ?_, ?_, ?_, ?_, ?_⟩
  · exact readEnum_written ProvenanceKind.fromString_toString
      (hfind _ _ (by simp only [List.mem_cons, true_or])) _
  · exact readEnum_written Confidence.fromString_toString
      (hfind _ _ (by simp only [List.mem_cons, true_or, or_true])) _
  · exact htext _ _ _ (by simp only [List.mem_cons, true_or, or_true])
  · exact htext _ _ _ (by simp only [List.mem_cons, true_or, or_true])
  · exact htext _ _ _ (by simp only [List.mem_cons, true_or, or_true])
  · exact readInteger_written (hfind _ _ (by simp only [List.mem_cons, true_or, or_true])) _
  · exact htext _ _ _ (by simp only [List.mem_cons, true_or, or_true])
  · exact htext _ _ _ (by simp only [List.mem_cons, true_or, or_true])

/-! ## Properties -/

/-- A number is neither a string nor an array. -/
private theorem isNumber_kind {v : Value} (h : IsNumber v) :
    v.isString = false ∧ ∀ a, v ≠ .array a := by
  rcases h with ⟨i, rfl⟩ | ⟨u, rfl⟩ | ⟨d, rfl⟩ <;> exact ⟨rfl, fun a ha => Value.noConfusion ha⟩

/-- A written property is no mixed array. -/
theorem not_mixed_written (v : PropertyValue) : ¬ MixedArray (propertyToJson v).reread := by
  rintro ⟨s, a, hv, e, he, hnot⟩
  have hnumber : ∀ {tok : Bytes}, NumberToken tok → tokenValue tok ≠ .array (.string s :: a) :=
    fun htok => (isNumber_kind (isNumber_tokenValue htok)).2 _
  cases v with
  | null => cases hv
  | bool b => cases hv
  | int i => exact hnumber (numberToken_intToString _) hv
  | uint u => exact hnumber (numberToken_natToString _) hv
  | double x =>
    rw [propertyToJson, Value.reread] at hv
    split_ifs at hv with hx
    exact hnumber (numberToken_writeDouble hx) hv
  | string t => cases hv
  | stringArray l =>
    -- all elements are strings
    rw [propertyToJson, Value.reread, Value.rereadElements_eq_map, List.map_map] at hv
    have hmem : e ∈ Value.string s :: a := List.mem_cons_of_mem _ he
    rw [← Value.array.inj hv] at hmem
    obtain ⟨t, -, rfl⟩ := List.mem_map.mp hmem
    exact Bool.noConfusion hnot
  | intArray l =>
    -- the first element is a number
    rw [propertyToJson, Value.reread, Value.rereadElements_eq_map, List.map_map] at hv
    have hmem : Value.string s ∈ Value.string s :: a := List.mem_cons_self ..
    rw [← Value.array.inj hv] at hmem
    obtain ⟨i, -, hi⟩ := List.mem_map.mp hmem
    have hkind := (isNumber_kind (isNumber_tokenValue (numberToken_intToString i.toInt))).1
    rw [show tokenValue (intToString i.toInt) = .string s from hi] at hkind
    exact Bool.noConfusion hkind

/-- Written properties are read. -/
theorem readProperties_written {o : Value} {m : PropertyMap}
    (h : o.find (str "properties") = some (propertiesToJson m).reread) :
    ∃ m', readProperties o = .ok m' := by
  rcases readProperties_cases o with ⟨hread, -⟩ | ⟨-, es, hes, e, he, hmixed⟩
  · exact hread
  · exfalso
    rw [h, propertiesToJson, objectOf, Value.reread, Value.rereadMembers_eq_map,
      Option.some.injEq] at hes
    rw [← Value.object.inj hes] at he
    obtain ⟨f, hf, rfl⟩ := List.mem_map.mp he
    have hkeys : ((m.entries.map fun e => (e.1, propertyToJson e.2)).map Prod.fst).Nodup :=
      propertyKeys_nodup m
    obtain ⟨p, -, rfl⟩ := List.mem_map.mp ((objectOf_perm hkeys).mem_iff.mp hf)
    exact not_mixed_written p.2 hmixed

/-! ## Entries -/

/-- What a document keeps of a node, but for its id and its properties. -/
structure NodeRecord where
  type : NodeType
  category : Bytes
  name : Bytes
  displayName : Bytes
  native : NativeIdentity
  confidence : Confidence
  provenance : Provenance
  synthetic : Bool
  deriving DecidableEq

def TopologyNode.record (n : TopologyNode) : NodeRecord :=
  ⟨n.type, n.category, n.name, n.displayName, n.native, n.confidence, n.provenance, n.synthetic⟩

/-- What a document keeps of an edge, but for the facts of its link and its properties. -/
structure EdgeRecord where
  source : TopologyNodeId
  target : TopologyNodeId
  type : EdgeType
  direction : EdgeDirection
  accessible : Bool
  confidence : Confidence
  provenance : Provenance
  hopCount : Int32
  policyVersion : UInt32
  deriving DecidableEq

def TopologyEdge.record (e : TopologyEdge) : EdgeRecord :=
  ⟨e.source, e.target, e.type, e.direction, e.accessible, e.confidence, e.provenance, e.hopCount,
    e.policyVersion⟩

theorem nodeFromJson_written (id : TopologyNodeId) (n : TopologyNode) :
    ∃ n', nodeFromJson (nodeToJson id n).reread = .ok n' ∧ n'.id = id ∧ n'.record = n.record := by
  have hfind := find_record (nodeToJson id n) rfl
    (by simp only [List.map_cons, List.map_nil]; decide +kernel)
  have hobject : (nodeToJson id n).reread.isObject = true := rfl
  unfold nodeFromJson
  rw [if_neg (by rw [hobject]; exact Bool.noConfusion)]
  -- from here on only what the entries say is used
  generalize (nodeToJson id n).reread = o at hfind ⊢
  obtain ⟨m, hm⟩ := readProperties_written (o := o) (m := n.properties)
    (hfind _ _ (by simp only [List.mem_cons, true_or, or_true]))
  have hid : readId o (str "id") = some id :=
    readId_written (hfind _ _ (by simp only [List.mem_cons, true_or]))
  rw [hid, hm]
  refine ⟨_, rfl, rfl, ?_⟩
  cases n
  rw [TopologyNode.record, TopologyNode.record, NodeRecord.mk.injEq]
  refine ⟨?_, ?_, ?_, ?_, ?_, ?_, ?_, ?_⟩
  · exact readEnum_written NodeType.fromString_toString
      (hfind _ _ (by simp only [List.mem_cons, true_or, or_true])) _
  · exact readString_written (hfind _ _ (by simp only [List.mem_cons, true_or, or_true])) _
  · exact readString_written (hfind _ _ (by simp only [List.mem_cons, true_or, or_true])) _
  · exact readString_written (hfind _ _ (by simp only [List.mem_cons, true_or, or_true])) _
  · exact readRecord_written nativeFromJson_written
      (hfind _ _ (by simp only [List.mem_cons, true_or, or_true])) _
  · exact readEnum_written Confidence.fromString_toString
      (hfind _ _ (by simp only [List.mem_cons, true_or, or_true])) _
  · exact readRecord_written provenanceFromJson_written
      (hfind _ _ (by simp only [List.mem_cons, true_or, or_true])) _
  · exact readBool_written (hfind _ _ (by simp only [List.mem_cons, true_or, or_true])) _

theorem edgeFromJson_written (e : TopologyEdge) :
    ∃ e', edgeFromJson (edgeToJson e).reread = .ok e' ∧ e'.record = e.record := by
  have hfind := find_record (edgeToJson e) (edgeToJson_eq e) (edgeFields_keys e)
  have hobject : (edgeToJson e).reread.isObject = true := rfl
  unfold edgeFromJson
  rw [if_neg (by rw [hobject]; exact Bool.noConfusion)]
  -- from here on only what the entries say is used
  generalize (edgeToJson e).reread = o at hfind ⊢
  simp only [edgeFields, List.mem_append, List.mem_cons] at hfind
  obtain ⟨m, hm⟩ := readProperties_written (o := o) (m := e.properties)
    (hfind _ _ (by simp only [true_or, or_true]))
  have hsource : readId o (str "source") = some e.source :=
    readId_written (hfind _ _ (by simp only [true_or]))
  have htarget : readId o (str "target") = some e.target :=
    readId_written (hfind _ _ (by simp only [true_or, or_true]))
  -- the two numbers go through `int64_t`, which holds them
  have hhop : readInteger o (str "hop_count") 0 = e.hopCount.toInt64 :=
    readInteger_written (hfind _ _ (by simp only [true_or, or_true])) _
  have hpolicy : readInteger o (str "policy_version") 0 = e.policyVersion.toUInt64.toInt64 := by
    refine readInteger_written_uint ?_ (hfind _ _ (by simp only [true_or, or_true])) _
    have := e.policyVersion.toNat_lt
    rw [UInt32.toNat_toUInt64]
    omega
  rw [hsource, htarget, hm]
  refine ⟨_, rfl, ?_⟩
  rw [TopologyEdge.record, TopologyEdge.record, EdgeRecord.mk.injEq]
  refine ⟨rfl, rfl, ?_, ?_, ?_, ?_, ?_, ?_, ?_⟩
  · exact readEnum_written EdgeType.fromString_toString
      (hfind _ _ (by simp only [true_or, or_true])) _
  · exact readEnum_written EdgeDirection.fromString_toString
      (hfind _ _ (by simp only [true_or, or_true])) _
  · exact readBool_written (hfind _ _ (by simp only [true_or, or_true])) _
  · exact readEnum_written Confidence.fromString_toString
      (hfind _ _ (by simp only [true_or, or_true])) _
  · exact readRecord_written provenanceFromJson_written
      (hfind _ _ (by simp only [true_or, or_true])) _
  · show (readInteger o (str "hop_count") 0).toInt32 = e.hopCount
    rw [hhop]
    simp
  · show (readInteger o (str "policy_version") 0).toUInt64.toUInt32 = e.policyVersion
    rw [hpolicy]
    simp

end TopologyFabric

import TopologyFabric.Merge.Resources

/-!
# Authority in the Merge

A merged node takes each fact from the most authoritative member that knows it. The code keeps the
first value of every fact while it goes through the members best first, so this holds because
the members are sorted before.

## Main results

- `find?_mergeProperties`, `mergeNative_optional`, `mergeNative_text`: keeping the first value is
  a search
- `mergeContributions_authority`: no value of a less authoritative member wins
-/

namespace TopologyFabric

open Library

/-! ## The first member that knows a fact -/

/-- A fact that no member knows is unknown, and one that some member knows is as the first such
member says. -/
structure FirstKnown {α : Type} (members : List Member) (fact : Member → Option α)
    (v : Option α) : Prop where
  unknown : v = none ↔ ∀ m ∈ members, fact m = none
  known : ∀ x, v = some x →
    ∃ m, IsFirst Precedes members (fun m => (fact m).isSome = true) m ∧ fact m = some x

/-- Searching the members best first finds what the first member that knows the fact says. -/
theorem firstKnown_findSome? {α : Type} {members : List Member}
    (hpositions : members.Pairwise ReadBefore) (fact : Member → Option α) :
    FirstKnown members fact ((sortMembers members).findSome? fact) := by
  have hperm := sortMembers_perm members
  constructor
  · rw [List.findSome?_eq_none_iff]
    simp only [hperm.mem_iff]
  · intro x hx
    obtain ⟨m, hfirst, hm⟩ := isFirst_of_findSome? (sortMembers_sorted hpositions) hx
    exact ⟨m, hfirst.of_perm hperm, hm⟩

/-! ## Properties -/

/-- What is recorded for a property that is there already. -/
def conflictMessage (key k : Bytes) : Bytes :=
  str "property '" ++ k ++ str "' conflict on group '" ++ key ++
    str "'; keeping higher-confidence value"

/-- Add one property of a member. -/
def addProperty (key : Bytes) (s : PropertyMap × List Bytes) (e : Bytes × PropertyValue) :
    PropertyMap × List Bytes :=
  match s.1.find? e.1 with
  | none => (s.1.emplace e.1 e.2, s.2)
  | some _ => (s.1, s.2 ++ [conflictMessage key e.1])

theorem mergeProperties_eq (key : Bytes) (members : List Member) : mergeProperties key members =
    members.foldl (fun s m => m.node.properties.entries.foldl (addProperty key) s)
      (OrderedMap.empty, []) := rfl

theorem find?_addProperty (key k : Bytes) (s : PropertyMap × List Bytes)
    (e : Bytes × PropertyValue) : (addProperty key s e).1.find? k =
      (s.1.find? k).or (if e.1 = k then some e.2 else none) := by
  unfold addProperty
  -- what was there first stays
  cases hfind : s.1.find? e.1 with
  | none =>
    simp only [OrderedMap.find?_emplace, hfind, Option.getD_none]
    by_cases hk : k = e.1
    · subst hk
      simp [hfind]
    · rw [if_neg hk, if_neg (Ne.symm hk), Option.or_none]
  | some v =>
    by_cases hk : e.1 = k
    · subst hk
      simp [hfind]
    · rw [if_neg hk, Option.or_none]

/-- Adding the properties of one member keeps those that are there. -/
theorem find?_addProperties (key k : Bytes) (l : List (Bytes × PropertyValue))
    (s : PropertyMap × List Bytes) :
    (l.foldl (addProperty key) s).1.find? k = (s.1.find? k).or (findEntry k l) := by
  induction l generalizing s with
  | nil => simp
  | cons e l ih =>
    rw [List.foldl_cons, ih, find?_addProperty, findEntry_cons, Option.or_assoc]
    congr 1
    split_ifs <;> rfl

/-- A merged property is that of the first member that has it. -/
theorem find?_mergeProperties (key : Bytes) (members : List Member) (k : Bytes) :
    (mergeProperties key members).1.find? k =
      members.findSome? fun m => m.node.properties.find? k := by
  have hfold : ∀ (members : List Member) (s : PropertyMap × List Bytes),
      (members.foldl (fun s m => m.node.properties.entries.foldl (addProperty key) s) s).1.find? k =
        (s.1.find? k).or (members.findSome? fun m => m.node.properties.find? k) := by
    intro members
    induction members with
    | nil => intro s; simp
    | cons m members ih =>
      intro s
      rw [List.foldl_cons, ih, find?_addProperties, List.findSome?_cons, Option.or_assoc]
      show _ = (s.1.find? k).or _
      cases hm : m.node.properties.find? k with
      | none => rw [show findEntry k m.node.properties.entries = none from hm, Option.none_or]
      | some v => rw [show findEntry k m.node.properties.entries = some v from hm, Option.some_or]
  exact (hfold members (OrderedMap.empty, [])).trans (Option.none_or ..)

/-- The two properties that the merge adds hide no other one. -/
theorem find?_groupNode_properties (key : Bytes) (members : List Member) {k : Bytes}
    (hproviders : k ≠ str "tf.merged_providers") (hmembers : k ≠ str "tf.merged_members") :
    (groupNode (key, members)).properties.find? k =
      (sortMembers members).findSome? fun m => m.node.properties.find? k := by
  rw [← find?_mergeProperties key]
  show (((mergeProperties key (sortMembers members)).1.emplace _ _).emplace _ _).find? k = _
  rw [OrderedMap.find?_emplace, if_neg hmembers, OrderedMap.find?_emplace, if_neg hproviders]

/-! ## Native identity -/

namespace NativeIdentity

/-- The native fields that are optional 16-bit numbers. -/
def words : List (NativeIdentity → Option UInt16) :=
  [pciDomain, pciBus, pciDevice, pciFunction, vendorId, deviceId, subsystemId, subsystemVendorId]

/-- The native fields that are optional 32-bit numbers. -/
def numbers : List (NativeIdentity → Option UInt32) :=
  [numaNode, cpuPackage, coreId, processorGroup, logicalProcessorIndex, cudaOrdinal]

/-- The native fields that are strings, empty where nothing is known. -/
def texts : List (NativeIdentity → Bytes) :=
  [cudaUuid, name, networkInterfaceName, networkHardwareId, storageId, storageDevicePath,
    machineName, osVersion]

end NativeIdentity

/-- A string as a fact: the empty string says nothing. -/
def nonempty? (s : Bytes) : Option Bytes := if s = [] then none else some s

theorem nonempty?_firstNonempty (out n : Bytes) :
    nonempty? (firstNonempty out n) = (nonempty? out).or (nonempty? n) := by
  unfold firstNonempty nonempty?
  by_cases h : out = []
  · simp [h]
  · simp [h]

theorem firstSome_eq_or {α : Type} (out n : Option α) : firstSome out n = out.or n := by
  cases out <;> rfl

theorem mergeNative_concat (members : List Member) (m : Member) :
    (∀ field ∈ NativeIdentity.words, field (mergeNative (members ++ [m])) =
      firstSome (field (mergeNative members)) (field m.node.native)) ∧
    (∀ field ∈ NativeIdentity.numbers, field (mergeNative (members ++ [m])) =
      firstSome (field (mergeNative members)) (field m.node.native)) ∧
    (∀ field ∈ NativeIdentity.texts, field (mergeNative (members ++ [m])) =
      firstNonempty (field (mergeNative members)) (field m.node.native)) := by
  have hstep : mergeNative (members ++ [m]) = _ := List.foldl_append
  simp only [NativeIdentity.words, NativeIdentity.numbers, NativeIdentity.texts, hstep,
    List.forall_mem_cons, List.foldl_cons, List.foldl_nil, List.not_mem_nil, false_imp_iff,
    implies_true, and_true]
  refine ⟨?_, ?_, ?_⟩
  all_goals repeat' constructor

/-- A field that keeps the first value that is set is found by searching. -/
theorem mergeNative_optional {α : Type} {field : NativeIdentity → Option α}
    (hinit : field {} = none) (hstep : ∀ members m, field (mergeNative (members ++ [m])) =
      firstSome (field (mergeNative members)) (field m.node.native)) (members : List Member) :
    field (mergeNative members) = members.findSome? fun m => field m.node.native := by
  induction members using List.reverseRecOn with
  | nil => exact hinit
  | append_singleton members m ih =>
    rw [hstep, firstSome_eq_or, ih, List.findSome?_append]
    cases hm : field m.node.native <;> simp [hm]

theorem mergeNative_text {field : NativeIdentity → Bytes} (hinit : field {} = [])
    (hstep : ∀ members m, field (mergeNative (members ++ [m])) =
      firstNonempty (field (mergeNative members)) (field m.node.native)) (members : List Member) :
    nonempty? (field (mergeNative members)) =
      members.findSome? fun m => nonempty? (field m.node.native) := by
  induction members using List.reverseRecOn with
  | nil =>
    show nonempty? (field {}) = none
    rw [hinit]
    rfl
  | append_singleton members m ih =>
    rw [hstep, nonempty?_firstNonempty, ih, List.findSome?_append]
    cases hm : nonempty? (field m.node.native) <;> simp [hm]

theorem mergeNative_word {field : NativeIdentity → Option UInt16}
    (h : field ∈ NativeIdentity.words) (members : List Member) :
    field (mergeNative members) = members.findSome? fun m => field m.node.native := by
  refine mergeNative_optional ?_ (fun members m => (mergeNative_concat members m).1 field h) members
  simp only [NativeIdentity.words, List.mem_cons, List.not_mem_nil, or_false] at h
  rcases h with rfl | rfl | rfl | rfl | rfl | rfl | rfl | rfl <;> rfl

theorem mergeNative_number {field : NativeIdentity → Option UInt32}
    (h : field ∈ NativeIdentity.numbers) (members : List Member) :
    field (mergeNative members) = members.findSome? fun m => field m.node.native := by
  refine mergeNative_optional ?_ (fun members m => (mergeNative_concat members m).2.1 field h)
    members
  simp only [NativeIdentity.numbers, List.mem_cons, List.not_mem_nil, or_false] at h
  rcases h with rfl | rfl | rfl | rfl | rfl | rfl <;> rfl

theorem mergeNative_textField {field : NativeIdentity → Bytes}
    (h : field ∈ NativeIdentity.texts) (members : List Member) :
    nonempty? (field (mergeNative members)) =
      members.findSome? fun m => nonempty? (field m.node.native) := by
  refine mergeNative_text ?_ (fun members m => (mergeNative_concat members m).2.2 field h) members
  simp only [NativeIdentity.texts, List.mem_cons, List.not_mem_nil, or_false] at h
  rcases h with rfl | rfl | rfl | rfl | rfl | rfl | rfl | rfl <;> rfl

/-! ## Authority -/

/-- Every fact of a merged node is as the first member of its group that knows it says; members
come by confidence, then by position. -/
structure AuthorityKept (members : List Member) (n : TopologyNode) : Prop where
  properties : ∀ k, k ≠ str "tf.merged_providers" → k ≠ str "tf.merged_members" →
    FirstKnown members (fun m => m.node.properties.find? k) (n.properties.find? k)
  words : ∀ field ∈ NativeIdentity.words,
    FirstKnown members (fun m => field m.node.native) (field n.native)
  numbers : ∀ field ∈ NativeIdentity.numbers,
    FirstKnown members (fun m => field m.node.native) (field n.native)
  texts : ∀ field ∈ NativeIdentity.texts,
    FirstKnown members (fun m => nonempty? (field m.node.native)) (nonempty? (field n.native))
  provenance : ∃ m, IsFirst Precedes members (fun _ => True) m ∧ n.provenance = m.node.provenance

theorem groupNode_authority {key : Bytes} {members : List Member} (hne : members ≠ [])
    (hpositions : members.Pairwise ReadBefore) :
    AuthorityKept members (groupNode (key, members)) := by
  refine ⟨fun k hproviders hmembers => ?_, fun field h => ?_, fun field h => ?_,
    fun field h => ?_, ?_⟩
  · rw [find?_groupNode_properties key members hproviders hmembers]
    exact firstKnown_findSome? hpositions _
  · have hfield : field (groupNode (key, members)).native = _ :=
      mergeNative_word h (sortMembers members)
    rw [hfield]
    exact firstKnown_findSome? hpositions _
  · have hfield : field (groupNode (key, members)).native = _ :=
      mergeNative_number h (sortMembers members)
    rw [hfield]
    exact firstKnown_findSome? hpositions _
  · -- an empty text counts as unknown
    have hfield : nonempty? (field (groupNode (key, members)).native) = _ :=
      mergeNative_textField h (sortMembers members)
    rw [hfield]
    exact firstKnown_findSome? hpositions _
  · -- the provenance is that of the member that is read first
    have hperm := sortMembers_perm members
    have hsorted := sortMembers_sorted hpositions
    obtain ⟨m, rest, hsort⟩ :=
      List.exists_cons_of_ne_nil fun h : sortMembers members = [] => hne (by simpa [h] using hperm)
    refine ⟨m, IsFirst.of_perm ?_ hperm, ?_⟩
    · rw [hsort] at hsorted ⊢
      exact isFirst_cons hsorted trivial
    · show ((sortMembers members).head?.map fun m => m.node.provenance).getD {} = _
      rw [hsort]
      rfl

/-- **Authority is kept**: with room for all keys, every merged node has of every property, native
field and provenance what the most authoritative member says that knows it. -/
theorem mergeContributions_authority {order : IterationOrder} {bounds : Bounds}
    {contributions : List Contribution} (hnodes : WithinNodes bounds contributions) :
    ∀ e ∈ (mergeContributions order contributions bounds).nodes.entries,
      ∃ key, IsLeast {k | k ∈ contributedKeys contributions ∧ groupId k = e.1} key ∧
        AuthorityKept (groupMembers contributions key) e.2 := by
  rintro ⟨id, n⟩ hn
  obtain ⟨key, hleast, rfl⟩ := (mem_mergedNodes hnodes).mp hn
  refine ⟨key, hleast, ?_⟩
  exact groupNode_authority (mem_contributedKeys.mp hleast.1.1) (groupMembers_positions _ _)

/-- The shared device takes its provenance from the provider with high confidence. -/
theorem mergeContributions_authority_shared : WithinNodes {} sharedDevice ∧
    ∀ e ∈ (mergeContributions IterationOrder.insertion sharedDevice {}).nodes.entries,
      ∃ key, IsLeast {k | k ∈ contributedKeys sharedDevice ∧ groupId k = e.1} key ∧
        AuthorityKept (groupMembers sharedDevice key) e.2 := by
  have hnodes : WithinNodes {} sharedDevice := by decide +kernel
  exact ⟨hnodes, mergeContributions_authority hnodes⟩

end TopologyFabric

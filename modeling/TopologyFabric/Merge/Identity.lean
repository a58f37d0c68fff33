import TopologyFabric.Core.Validation
import TopologyFabric.Merge.Authority

/-!
# Merged Identities

The members of a group have one canonical key. The key of the merged identity is the same, unless
the members know a PCI address only together: then the parts of several members make an address
that no member has, and it takes priority over the key of the group.

## Main results

- `canonicalKey_mergeNative`: when the merged identity keeps the key of its group
- `mergedIdentity_kept_iff`: when all merged identities keep the keys of their groups
- `mergedIdentity_lost`: an address made of the parts of two members
-/

namespace TopologyFabric

open Library

namespace NativeIdentity

/-! ## The canonical key as a search -/

/-- The keys that are tried in turn when no PCI address is known. -/
def alternatives : List (NativeIdentity → Option Bytes) :=
  [fun n => (nonempty? n.storageId).map (str "storage:" ++ ·),
    fun n => (nonempty? n.storageDevicePath).map (str "storage:" ++ ·),
    fun n => (nonempty? n.networkHardwareId).map (str "net:" ++ ·),
    fun n => (nonempty? n.networkInterfaceName).map (str "net:" ++ ·),
    fun n => (nonempty? n.cudaUuid).map (str "cuda:" ++ ·),
    fun n => n.cudaOrdinal.map fun ordinal => str "cuda-ord:" ++ natToString ordinal.toNat,
    fun n => (nonempty? n.machineName).map (str "machine:" ++ ·)]

theorem canonicalKey_of_pci {n : NativeIdentity} (h : n.hasPci = true) :
    n.canonicalKey = str "pci:" ++ n.pciBdfString := by
  rw [canonicalKey, if_pos h]

private theorem getD_text_or (label s : Bytes) (rest : Option Bytes) :
    (((nonempty? s).map (label ++ ·)).or rest).getD [] =
      if s ≠ [] then label ++ s else rest.getD [] := by
  by_cases hs : s = []
  · rw [nonempty?, if_pos hs, if_neg (not_not.mpr hs), Option.map_none, Option.none_or]
  · rw [nonempty?, if_neg hs, if_pos hs, Option.map_some, Option.some_or, Option.getD_some]

private theorem getD_ordinal_or (ordinal? : Option UInt32) (rest : Option Bytes) :
    ((ordinal?.map fun ordinal => str "cuda-ord:" ++ natToString ordinal.toNat).or rest).getD [] =
      match ordinal? with
      | some ordinal => str "cuda-ord:" ++ natToString ordinal.toNat
      | none => rest.getD [] := by
  cases ordinal? <;> rfl

theorem canonicalKey_of_not_pci {n : NativeIdentity} (h : n.hasPci = false) :
    n.canonicalKey = (alternatives.findSome? fun a => a n).getD [] := by
  rw [canonicalKey, if_neg (by simp [h])]
  simp only [alternatives, findSome?_cons_or, getD_text_or, getD_ordinal_or]
  rfl

/-- The first letter of a key tells the keys of PCI addresses from all others. -/
theorem head_canonicalKey {n : NativeIdentity} {c : UInt8} (hc : n.canonicalKey.head? = some c) :
    n.hasPci = true ∧ c = byte 'p' ∨
      n.hasPci = false ∧ c ∈ [byte 's', byte 'n', byte 'c', byte 'm'] := by
  by_cases hpci : n.hasPci = true
  · left
    rw [canonicalKey_of_pci hpci] at hc
    exact ⟨hpci, (Option.some.inj hc).symm⟩
  · right
    rw [Bool.not_eq_true] at hpci
    refine ⟨hpci, ?_⟩
    rw [canonicalKey_of_not_pci hpci] at hc
    cases hfind : alternatives.findSome? fun a => a n with
    | none =>
      rw [hfind] at hc
      exact absurd hc (by simp)
    | some text =>
      rw [hfind, Option.getD_some] at hc
      obtain ⟨a, ha, htext⟩ := List.exists_of_findSome?_eq_some hfind
      simp only [alternatives, List.mem_cons, List.not_mem_nil, or_false] at ha
      -- every alternative has a label of its own
      rcases ha with rfl | rfl | rfl | rfl | rfl | rfl | rfl
      all_goals
        obtain ⟨s, -, rfl⟩ := Option.map_eq_some_iff.mp htext
        obtain rfl := Option.some.inj hc
        decide

theorem head?_canonicalKey {n : NativeIdentity} :
    n.canonicalKey.head? = some (byte 'p') ↔ n.hasPci = true := by
  constructor
  · intro h
    rcases head_canonicalKey h with ⟨hpci, -⟩ | ⟨-, hc⟩
    · exact hpci
    · exact absurd hc (by decide)
  · intro h
    rw [canonicalKey_of_pci h]
    rfl

theorem hasPci_iff {n : NativeIdentity} : n.hasPci = true ↔
    n.pciBus.isSome = true ∧ n.pciDevice.isSome = true ∧ n.pciFunction.isSome = true := by
  simp [hasPci, and_assoc]

/-- The address is determined by its text; no domain is domain 0. -/
theorem pciBdfString_inj {a b : NativeIdentity} (ha : a.hasPci = true) (hb : b.hasPci = true) :
    a.pciBdfString = b.pciBdfString ↔ a.pciDomain.getD 0 = b.pciDomain.getD 0 ∧
      a.pciBus = b.pciBus ∧ a.pciDevice = b.pciDevice ∧ a.pciFunction = b.pciFunction := by
  obtain ⟨hbus, hdev, hfn⟩ := hasPci_iff.mp ha
  obtain ⟨hbus', hdev', hfn'⟩ := hasPci_iff.mp hb
  obtain ⟨bus, hbus⟩ := Option.isSome_iff_exists.mp hbus
  obtain ⟨dev, hdev⟩ := Option.isSome_iff_exists.mp hdev
  obtain ⟨fn, hfn⟩ := Option.isSome_iff_exists.mp hfn
  obtain ⟨bus', hbus'⟩ := Option.isSome_iff_exists.mp hbus'
  obtain ⟨dev', hdev'⟩ := Option.isSome_iff_exists.mp hdev'
  obtain ⟨fn', hfn'⟩ := Option.isSome_iff_exists.mp hfn'
  simp only [pciBdfString, hbus, hdev, hfn, hbus', hdev', hfn', Option.some.injEq]
  constructor
  · intro h
    -- hexadecimal digits are no separators, so the parts are found again
    have hcolon := @TopologyNodeId.notMem_hexPadded (byte ':') (by decide)
    have hdot := @TopologyNodeId.notMem_hexPadded (byte '.') (by decide)
    simp only [List.append_assoc] at h
    obtain ⟨hdomain, h⟩ := append_sep_inj (hcolon 4 _) (hcolon 4 _) h
    obtain ⟨hbus, h⟩ := append_sep_inj (hcolon 2 _) (hcolon 2 _) h
    obtain ⟨hdev, hfn⟩ := append_sep_inj (hdot 2 _) (hdot 2 _) h
    exact ⟨TopologyNodeId.hexPadded_inj hdomain, TopologyNodeId.hexPadded_inj hbus,
      TopologyNodeId.hexPadded_inj hdev, TopologyNodeId.hexPadded_inj hfn⟩
  · rintro ⟨hdomain, rfl, rfl, rfl⟩
    rw [hdomain]

end NativeIdentity

open NativeIdentity

/-! ## The key of a merged identity -/

/-- If all members agree on the first alternative that they know, then so does the union of what
they know. -/
theorem getD_findSome?_union {A M V : Type} {as : List A} {f : A → M → Option V} {F : A → Option V}
    {members : List M} {d k : V} (hne : members ≠ [])
    (hF : ∀ a ∈ as, F a = members.findSome? (f a))
    (hk : ∀ m ∈ members, (as.findSome? fun a => f a m).getD d = k) :
    (as.findSome? F).getD d = k := by
  cases hunion : as.findSome? F with
  | none =>
    obtain ⟨m, hm⟩ := List.exists_mem_of_ne_nil members hne
    have hnone : (as.findSome? fun a => f a m) = none := by
      rw [List.findSome?_eq_none_iff] at hunion ⊢
      intro a ha
      exact List.findSome?_eq_none_iff.mp ((hF a ha).symm.trans (hunion a ha)) m hm
    rw [← hk m hm, hnone]
  | some v =>
    -- the member that knows the first alternative of all knows none before it
    obtain ⟨pre, a, post, rfl, ha, hpre⟩ := List.findSome?_eq_some_iff.mp hunion
    rw [hF a (by simp)] at ha
    obtain ⟨m, hm, hv⟩ := List.exists_of_findSome?_eq_some ha
    have hsome : ((pre ++ a :: post).findSome? fun a => f a m) = some v := by
      refine List.findSome?_eq_some_iff.mpr ⟨pre, a, post, rfl, hv, fun b hb => ?_⟩
      exact List.findSome?_eq_none_iff.mp ((hF b (by simp [hb])).symm.trans (hpre b hb)) m hm
    rw [← hk m hm, hsome]

theorem mergeNative_alternative {a : NativeIdentity → Option Bytes} (ha : a ∈ alternatives)
    (members : List Member) :
    a (mergeNative members) = members.findSome? fun m => a m.node.native := by
  -- all alternatives but one are texts
  have htext : ∀ (field : NativeIdentity → Bytes) (g : Bytes → Bytes),
      field ∈ NativeIdentity.texts → (nonempty? (field (mergeNative members))).map g =
        members.findSome? fun m => (nonempty? (field m.node.native)).map g := by
    intro field g h
    rw [mergeNative_textField h, List.map_findSome?]
    rfl
  simp only [alternatives, List.mem_cons, List.not_mem_nil, or_false] at ha
  rcases ha with rfl | rfl | rfl | rfl | rfl | rfl | rfl
  · exact htext storageId _ (by simp [texts])
  · exact htext storageDevicePath _ (by simp [texts])
  · exact htext networkHardwareId _ (by simp [texts])
  · exact htext networkInterfaceName _ (by simp [texts])
  · exact htext cudaUuid _ (by simp [texts])
  · show (mergeNative members).cudaOrdinal.map _ = _
    rw [mergeNative_number (show cudaOrdinal ∈ numbers by simp [numbers]), List.map_findSome?]
    rfl
  · exact htext machineName _ (by simp [texts])

/-- Some members know the bus, some the device and some the function of a PCI address. -/
def KnowsPci (members : List Member) : Prop :=
  (∃ m ∈ members, m.node.native.pciBus.isSome = true) ∧
    (∃ m ∈ members, m.node.native.pciDevice.isSome = true) ∧
      ∃ m ∈ members, m.node.native.pciFunction.isSome = true

instance (members : List Member) : Decidable (KnowsPci members) :=
  inferInstanceAs (Decidable (_ ∧ _ ∧ _))

theorem hasPci_mergeNative (members : List Member) :
    (mergeNative members).hasPci = true ↔ KnowsPci members := by
  rw [hasPci_iff, mergeNative_word (show pciBus ∈ words by simp [words]),
    mergeNative_word (show pciDevice ∈ words by simp [words]),
    mergeNative_word (show pciFunction ∈ words by simp [words])]
  simp only [List.findSome?_isSome_iff]
  exact Iff.rfl

section Merged

variable {members : List Member} {key : Bytes}

/-- What all members say of a fact is found. -/
private theorem findSome?_agree {α : Type} {fact : Member → Option α} {v : Option α}
    (hne : members ≠ []) (hv : ∀ m ∈ members, fact m = v) : members.findSome? fact = v := by
  obtain ⟨m, rest, rfl⟩ := List.exists_cons_of_ne_nil hne
  cases v with
  | none => exact List.findSome?_eq_none_iff.mpr hv
  | some v => rw [List.findSome?_cons, hv m (List.mem_cons_self ..)]

/-- Members with one PCI address are merged to that address. -/
theorem canonicalKey_mergeNative_of_pci (hne : members ≠ [])
    (hpci : ∀ m ∈ members, m.node.native.hasPci = true)
    (hkey : ∀ m ∈ members, m.node.native.canonicalKey = key) :
    (mergeNative members).canonicalKey = key := by
  obtain ⟨m, hm⟩ := List.exists_mem_of_ne_nil members hne
  have hsame : ∀ m' ∈ members, m'.node.native.pciDomain.getD 0 = m.node.native.pciDomain.getD 0 ∧
      m'.node.native.pciBus = m.node.native.pciBus ∧
        m'.node.native.pciDevice = m.node.native.pciDevice ∧
          m'.node.native.pciFunction = m.node.native.pciFunction := by
    intro m' hm'
    rw [← pciBdfString_inj (hpci m' hm') (hpci m hm)]
    have h := (hkey m' hm').trans (hkey m hm).symm
    rw [canonicalKey_of_pci (hpci m' hm'), canonicalKey_of_pci (hpci m hm)] at h
    exact List.append_cancel_left h
  obtain ⟨hbus, hdev, hfn⟩ := hasPci_iff.mp (hpci m hm)
  have hmerged : (mergeNative members).hasPci = true :=
    (hasPci_mergeNative members).mpr ⟨⟨m, hm, hbus⟩, ⟨m, hm, hdev⟩, m, hm, hfn⟩
  rw [← hkey m hm, canonicalKey_of_pci hmerged, canonicalKey_of_pci (hpci m hm),
    (pciBdfString_inj hmerged (hpci m hm)).mpr]
  refine ⟨?_, ?_, ?_, ?_⟩
  · rw [mergeNative_word (show pciDomain ∈ words by simp [words])]
    -- a member without a domain says domain 0
    cases hdomain : members.findSome? fun m => m.node.native.pciDomain with
    | none => rw [List.findSome?_eq_none_iff.mp hdomain m hm]
    | some d =>
      obtain ⟨m', hm', hd⟩ := List.exists_of_findSome?_eq_some hdomain
      rw [← (hsame m' hm').1, hd]
  · rw [mergeNative_word (show pciBus ∈ words by simp [words])]
    exact findSome?_agree hne fun m' hm' => (hsame m' hm').2.1
  · rw [mergeNative_word (show pciDevice ∈ words by simp [words])]
    exact findSome?_agree hne fun m' hm' => (hsame m' hm').2.2.1
  · rw [mergeNative_word (show pciFunction ∈ words by simp [words])]
    exact findSome?_agree hne fun m' hm' => (hsame m' hm').2.2.2

/-- **The key of a merged identity** is the key of its members, unless they know a PCI address only
together. -/
theorem canonicalKey_mergeNative (hne : members ≠ [])
    (hkey : ∀ m ∈ members, m.node.native.canonicalKey = key) :
    (mergeNative members).canonicalKey = key ↔
      (KnowsPci members → ∀ m ∈ members, m.node.native.hasPci = true) := by
  constructor
  · intro hkept hknows m hm
    rw [← hasPci_mergeNative, ← head?_canonicalKey, hkept] at hknows
    rw [← head?_canonicalKey, hkey m hm]
    exact hknows
  · intro hknows
    by_cases hmerged : KnowsPci members
    · exact canonicalKey_mergeNative_of_pci hne (hknows hmerged) hkey
    · -- without a PCI address in the group none of its members has one
      have hnot : ∀ m ∈ members, m.node.native.hasPci = false := by
        intro m hm
        by_contra hpci
        obtain ⟨hbus, hdev, hfn⟩ := hasPci_iff.mp (Bool.not_eq_false _ ▸ hpci)
        exact hmerged ⟨⟨m, hm, hbus⟩, ⟨m, hm, hdev⟩, m, hm, hfn⟩
      have hmerged' : (mergeNative members).hasPci = false := by
        rw [← Bool.not_eq_true, hasPci_mergeNative]
        exact hmerged
      rw [canonicalKey_of_not_pci hmerged']
      refine getD_findSome?_union hne (fun a ha => mergeNative_alternative ha members) ?_
      intro m hm
      rw [← canonicalKey_of_not_pci (hnot m hm), hkey m hm]

end Merged

/-! ## All merged identities -/

/-- The key of a group is the canonical key of its members, where that is not empty. -/
theorem canonicalKey_of_key {m m' : Member} (h : m.key = m'.key) :
    m.node.native.canonicalKey = m'.node.native.canonicalKey := by
  -- the key of a node without facts starts with a letter that no canonical key starts with
  have hlabel : ∀ (n n' : ContributedNode), n.native.canonicalKey = [] →
      groupKey n = groupKey n' → n'.native.canonicalKey = [] := by
    intro n n' hn hkey
    by_contra hn'
    simp only [groupKey, if_pos hn, if_neg hn'] at hkey
    have hhead := congrArg List.head? hkey
    have htype : n'.native.canonicalKey.head? = some (byte 't') := hhead.symm
    rcases head_canonicalKey htype with ⟨-, hc⟩ | ⟨-, hc⟩
    · exact absurd hc (by decide)
    · exact absurd hc (by decide)
  by_cases hm : m.node.native.canonicalKey = []
  · rw [hm, hlabel m.node m'.node hm h]
  · have hm' : m'.node.native.canonicalKey ≠ [] := fun hm' => hm (hlabel m'.node m.node hm' h.symm)
    simpa only [Member.key, groupKey, if_neg hm, if_neg hm'] using h

/-- The merged nodes have the canonical keys of their members, no two share one, and the identity
check of a snapshot with these nodes finds nothing. -/
structure IdentityKept (order : IterationOrder) (contributions : List Contribution)
    (bounds : Bounds) : Prop where
  key : ∀ m ∈ contributedMembers contributions, ∃ n,
    (mergeContributions order contributions bounds).nodes.find? (groupId m.key) = some n ∧
      n.native.canonicalKey = m.node.native.canonicalKey
  distinct : DistinctKeys (mergeContributions order contributions bounds).nodes.entries
  checked : ∀ (mapOrder : IterationOrder) (v : ValidationResult), v.ok = true →
    (checkIdentity ((mergeContributions order contributions bounds).nodes.reorder mapOrder)
      v).2.ok = true

/-- No group with another key than a PCI address knows a PCI address from its members together. -/
def NoJoinedPci (contributions : List Contribution) : Prop :=
  ∀ m ∈ contributedMembers contributions, KnowsPci (groupMembers contributions m.key) →
    m.node.native.hasPci = true

section Kept

variable {order : IterationOrder} {bounds : Bounds} {contributions : List Contribution}

/-- The node of a group has the key of a member iff the members do not join a PCI address. -/
theorem canonicalKey_groupNode {m : Member} (hm : m ∈ contributedMembers contributions) :
    (groupNode (m.key, groupMembers contributions m.key)).native.canonicalKey =
        m.node.native.canonicalKey ↔
      (KnowsPci (groupMembers contributions m.key) → m.node.native.hasPci = true) := by
  have hperm := sortMembers_perm (groupMembers contributions m.key)
  have hself : m ∈ groupMembers contributions m.key := mem_groupMembers.mpr ⟨hm, rfl⟩
  -- the members of a group have one key, whichever order they are merged in
  have hkey : ∀ m' ∈ sortMembers (groupMembers contributions m.key),
      m'.node.native.canonicalKey = m.node.native.canonicalKey := by
    intro m' hm'
    exact canonicalKey_of_key (mem_groupMembers.mp (hperm.mem_iff.mp hm')).2
  have hne : sortMembers (groupMembers contributions m.key) ≠ [] :=
    List.ne_nil_of_mem (hperm.mem_iff.mpr hself)
  refine (canonicalKey_mergeNative hne hkey).trans ?_
  have hknows : KnowsPci (sortMembers (groupMembers contributions m.key)) ↔
      KnowsPci (groupMembers contributions m.key) := by
    simp only [KnowsPci, hperm.mem_iff]
  rw [hknows]
  constructor
  · intro h hpci
    exact h hpci m (hperm.mem_iff.mpr hself)
  · intro h hpci m' hm'
    rw [← head?_canonicalKey, hkey m' hm', head?_canonicalKey]
    exact h hpci

/-- **When merged identities keep their keys**: with room for all keys and distinct ids, iff no
group joins a PCI address out of the parts that its members know. -/
theorem mergedIdentity_kept_iff (hnodes : WithinNodes bounds contributions)
    (hinj : Set.InjOn groupId {key | key ∈ contributedKeys contributions}) :
    IdentityKept order contributions bounds ↔ NoJoinedPci contributions := by
  have hfind : ∀ m ∈ contributedMembers contributions,
      (mergeContributions order contributions bounds).nodes.find? (groupId m.key) =
        some (groupNode (m.key, groupMembers contributions m.key)) := fun m hm =>
    find?_mergedNodes hnodes hinj (List.mem_map_of_mem hm)
  constructor
  · intro h m hm
    obtain ⟨n, hn, hkey⟩ := h.key m hm
    rw [hfind m hm, Option.some.injEq] at hn
    exact (canonicalKey_groupNode hm).mp (hn ▸ hkey)
  · intro h
    have hkept := fun m hm => (canonicalKey_groupNode hm).mpr (h m hm)
    -- two nodes with one key would be two groups of that key
    have hdistinct : DistinctKeys (mergeContributions order contributions bounds).nodes.entries := by
      rintro ⟨id, n⟩ hn ⟨id', n'⟩ hn' hne heq
      obtain ⟨key, ⟨⟨hkey, rfl⟩, -⟩, rfl⟩ := (mem_mergedNodes hnodes).mp hn
      obtain ⟨key', ⟨⟨hkey', rfl⟩, -⟩, rfl⟩ := (mem_mergedNodes hnodes).mp hn'
      obtain ⟨m, hm, rfl⟩ := List.mem_map.mp hkey
      obtain ⟨m', hm', rfl⟩ := List.mem_map.mp hkey'
      simp only [hkept m hm, hkept m' hm'] at heq ⊢
      by_contra hnonempty
      refine hne ?_
      show groupId (groupKey m.node) = groupId (groupKey m'.node)
      simp only [groupKey, if_neg (heq ▸ hnonempty), heq]
    refine ⟨fun m hm => ⟨_, hfind m hm, hkept m hm⟩, hdistinct, fun mapOrder v hv => ?_⟩
    rw [checkIdentity_ok]
    refine ⟨hv, fun x hx y hy => ?_⟩
    exact hdistinct x (HashMap.mem_reorder.mp hx) y (HashMap.mem_reorder.mp hy)

end Kept

/-- Two reports of one whole address keep it. -/
theorem mergedIdentity_kept_iff_shared :
    IdentityKept IterationOrder.insertion sharedDevice {} ↔ NoJoinedPci sharedDevice := by
  have hdistinct : ∀ a ∈ contributedKeys sharedDevice, ∀ b ∈ contributedKeys sharedDevice,
      groupId a = groupId b → a = b := by
    decide +kernel
  exact mergedIdentity_kept_iff (by decide +kernel) fun a ha b hb => hdistinct a ha b hb

/-- A provider that knows the bus and the device of an accelerator. -/
def busNode : ContributedNode where
  ref := str "bus"
  native := { cudaUuid := str "U", pciBus := some 1, pciDevice := some 0 }

/-- A provider that knows its function. -/
def functionNode : ContributedNode where
  ref := str "function"
  native := { cudaUuid := str "U", pciFunction := some 0 }

/-- Two halves of a PCI address under one accelerator id, and a PCI device with that address. -/
def joinedAddress : List Contribution :=
  [{ nodes := [busNode] }, { nodes := [functionNode] }, { nodes := [slotNode] }]

/-- The accelerator and the PCI device are two nodes with one canonical key. -/
theorem mergedIdentity_lost :
    WithinNodes {} joinedAddress ∧
      Set.InjOn groupId {key | key ∈ contributedKeys joinedAddress} ∧
        ¬ IdentityKept IterationOrder.insertion joinedAddress {} := by
  have hdistinct : ∀ a ∈ contributedKeys joinedAddress, ∀ b ∈ contributedKeys joinedAddress,
      groupId a = groupId b → a = b := by
    decide +kernel
  refine ⟨by decide +kernel, fun a ha b hb => hdistinct a ha b hb, fun h => ?_⟩
  have hchecked := h.checked IterationOrder.insertion {} rfl
  revert hchecked
  decide +kernel

end TopologyFabric

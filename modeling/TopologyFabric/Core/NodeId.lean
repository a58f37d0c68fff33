import TopologyFabric.Core.Bytes

/-!
# Node Identifiers

The opaque 128-bit identity of a graph object: its order, its hex text and its derivation from
native identity.

## Main result

- `TopologyNodeId.tryFromHex_toHex`: the hex text of an identifier is read back
-/

namespace TopologyFabric

structure TopologyNodeId where
  high : UInt64
  low : UInt64
  deriving DecidableEq, Repr

/-- The null sentinel, which is also the default value. -/
def kNullNodeId : TopologyNodeId := ⟨0, 0⟩

instance : Inhabited TopologyNodeId := ⟨kNullNodeId⟩

namespace TopologyNodeId

/-- `operator<`: by the high word, then by the low word. -/
def less (a b : TopologyNodeId) : Bool := a.high < b.high || (a.high == b.high && a.low < b.low)

theorem less_iff {a b : TopologyNodeId} :
    a.less b = true ↔
      a.high.toNat < b.high.toNat ∨ (a.high.toNat = b.high.toNat ∧ a.low.toNat < b.low.toNat) := by
  simp [less, UInt64.lt_iff_toNat_lt, UInt64.toNat_inj]

instance : LinearOrder TopologyNodeId where
  le a b := ¬ (b.less a = true)
  lt a b := a.less b = true
  le_refl a := by
    rw [less_iff]
    omega
  le_trans a b c := by
    simp only [less_iff]
    omega
  le_antisymm a b := by
    simp only [less_iff]
    intro hab hba
    have h : a.high.toNat = b.high.toNat ∧ a.low.toNat = b.low.toNat := by omega
    cases a
    cases b
    simpa [UInt64.toNat_inj] using h
  le_total a b := by
    simp only [less_iff]
    omega
  lt_iff_le_not_ge a b := by
    simp only [less_iff]
    omega
  toDecidableLE := fun a b => inferInstanceAs (Decidable (¬ (b.less a = true)))
  toDecidableEq := inferInstance
  toDecidableLT := fun a b => inferInstanceAs (Decidable (a.less b = true))

/-! ## Hex text -/

/-- 32 lowercase hex digits. -/
def toHex (id : TopologyNodeId) : Bytes :=
  hexPadded 16 id.high.toNat ++ hexPadded 16 id.low.toNat

/-- The lambda `parse` of `try_from_hex`: `UINT64_MAX` at the first character that is no hex
digit. -/
def parseHex : Bytes → UInt64 → UInt64
  | [], v => v
  | c :: part, v =>
    match hexValue? c with
    | some d => parseHex part (v * 16 + d.toUInt64)
    | none => UInt64.ofNat (2 ^ 64 - 1)

def tryFromHex (s : Bytes) : Option TopologyNodeId :=
  if s.length ≠ 32 then none
  else
    let h := parseHex (s.take 16) 0
    let l := parseHex ((s.drop 16).take 16) 0
    if h = UInt64.ofNat (2 ^ 64 - 1) ∧ s.take 16 ≠ str "ffffffffffffffff" then none
    else if l = UInt64.ofNat (2 ^ 64 - 1) ∧ (s.drop 16).take 16 ≠ str "ffffffffffffffff" then none
    else some ⟨h, l⟩

private theorem parseHex_append {l : Bytes} (hl : ∀ c ∈ l, (hexValue? c).isSome) (t : Bytes)
    (v : UInt64) : parseHex (l ++ t) v = parseHex t (parseHex l v) := by
  induction l generalizing v with
  | nil => rfl
  | cons c l ih =>
    obtain ⟨d, hd⟩ := Option.isSome_iff_exists.mp (hl c (List.mem_cons_self ..))
    simp only [List.cons_append, parseHex, hd]
    exact ih (fun e he => hl e (List.mem_cons_of_mem _ he)) _

private theorem hexValue?_digitChar {d : ℕ} (hd : d < 16) :
    hexValue? (byte d.digitChar) = some d := by
  interval_cases d <;> decide

/-- The characters that hex text is made of. -/
theorem exists_digitChar_of_mem_toDigits (n : ℕ) :
    ∀ c ∈ Nat.toDigits 16 n, ∃ d < 16, c = d.digitChar := by
  induction n using Nat.strongRecOn with
  | _ n ih =>
    intro c hc
    by_cases hn : n < 16
    · rw [Nat.toDigits_of_lt_base hn] at hc
      exact ⟨n, hn, List.mem_singleton.mp hc⟩
    · rw [Nat.toDigits_of_base_le (by norm_num) (by omega), List.mem_append] at hc
      rcases hc with hc | hc
      · exact ih (n / 16) (by omega) c hc
      · exact ⟨n % 16, Nat.mod_lt _ (by norm_num), List.mem_singleton.mp hc⟩

private theorem hexValue?_of_mem_toDigits (n : ℕ) :
    ∀ c ∈ (Nat.toDigits 16 n).map byte, (hexValue? c).isSome := by
  intro c hc
  obtain ⟨x, hx, rfl⟩ := List.mem_map.mp hc
  obtain ⟨d, hd, rfl⟩ := exists_digitChar_of_mem_toDigits n x hx
  rw [hexValue?_digitChar hd]
  rfl

private theorem parseHex_toDigits (n : ℕ) :
    parseHex ((Nat.toDigits 16 n).map byte) 0 = n.toUInt64 := by
  induction n using Nat.strongRecOn with
  | _ n ih =>
    by_cases hn : n < 16
    · rw [Nat.toDigits_of_lt_base hn]
      simp [parseHex, hexValue?_digitChar hn]
    · have hmod : n % 16 < 16 := Nat.mod_lt _ (by norm_num)
      rw [Nat.toDigits_of_base_le (by norm_num) (by omega), List.map_append,
        parseHex_append (hexValue?_of_mem_toDigits _), ih (n / 16) (by omega)]
      simp only [List.map_cons, List.map_nil, parseHex, hexValue?_digitChar hmod]
      apply UInt64.toNat_inj.mp
      simp only [Nat.toUInt64, UInt64.toNat_add, UInt64.toNat_mul, UInt64.toNat_ofNat',
        UInt64.reduceToNat]
      omega

private theorem parseHex_zeros (k : ℕ) (t : Bytes) :
    parseHex (List.replicate k (byte '0') ++ t) 0 = parseHex t 0 := by
  induction k with
  | zero => rfl
  | succ k ih =>
    rw [List.replicate_succ, List.cons_append, parseHex]
    exact ih

theorem parseHex_hexPadded (width n : ℕ) : parseHex (hexPadded width n) 0 = n.toUInt64 := by
  rw [hexPadded, parseHex_zeros, parseHex_toDigits]

/-- The padded text of a 16-bit number determines it. -/
theorem hexPadded_inj {width : ℕ} {a b : UInt16}
    (h : hexPadded width a.toNat = hexPadded width b.toNat) : a = b := by
  have hval := congrArg (fun s => (parseHex s 0).toNat) h
  have ha := a.toNat_lt
  have hb := b.toNat_lt
  simp only [parseHex_hexPadded, Nat.toUInt64, UInt64.toNat_ofNat'] at hval
  apply UInt16.toNat_inj.mp
  omega

/-- Hex text has no separators. -/
theorem notMem_hexPadded {c : UInt8} (hc : hexValue? c = none) (width n : ℕ) :
    c ∉ hexPadded width n := by
  intro h
  rcases List.mem_append.mp h with h | h
  · rw [(List.mem_replicate.mp h).2] at hc
    exact absurd hc (by decide)
  · have hdigit := hexValue?_of_mem_toDigits n c h
    rw [hc] at hdigit
    exact absurd hdigit (by decide)

theorem length_hexPadded (x : UInt64) : (hexPadded 16 x.toNat).length = 16 := by
  have h : (Nat.toDigits 16 x.toNat).length ≤ 16 :=
    Nat.toDigits_length _ _ _ (by norm_num) (lt_of_lt_of_le x.toNat_lt (by norm_num))
  simp only [hexPadded, List.length_append, List.length_replicate, List.length_map]
  omega

theorem length_toHex (id : TopologyNodeId) : id.toHex.length = 32 := by
  simp [toHex, length_hexPadded]

theorem isAscii_toHex (id : TopologyNodeId) : IsAscii id.toHex := by
  have hpadded : ∀ n, IsAscii (hexPadded 16 n) := by
    intro n c hc
    cases hvalue : hexValue? c with
    | none => exact absurd hc (notMem_hexPadded hvalue 16 n)
    | some d => exact hexValue?_ascii hvalue
  exact isAscii_append.mpr ⟨hpadded _, hpadded _⟩

/-- The sentinel comparison lets the one word through whose text is the sentinel itself. -/
theorem hexPadded_of_max {x : UInt64} (hx : x = UInt64.ofNat (2 ^ 64 - 1)) :
    hexPadded 16 x.toNat = str "ffffffffffffffff" := by
  subst hx
  decide

/-- The hex text of an identifier is read back. -/
theorem tryFromHex_toHex (id : TopologyNodeId) : tryFromHex id.toHex = some id := by
  have htake : id.toHex.take 16 = hexPadded 16 id.high.toNat :=
    List.take_left' (length_hexPadded id.high)
  have hdrop : (id.toHex.drop 16).take 16 = hexPadded 16 id.low.toNat := by
    rw [toHex, List.drop_left' (length_hexPadded id.high)]
    exact List.take_of_length_le (length_hexPadded id.low).le
  have hhigh : ¬ (id.high = UInt64.ofNat (2 ^ 64 - 1) ∧
      hexPadded 16 id.high.toNat ≠ str "ffffffffffffffff") := fun h => h.2 (hexPadded_of_max h.1)
  have hlow : ¬ (id.low = UInt64.ofNat (2 ^ 64 - 1) ∧
      hexPadded 16 id.low.toNat ≠ str "ffffffffffffffff") := fun h => h.2 (hexPadded_of_max h.1)
  unfold tryFromHex
  rw [if_neg (by simp [length_toHex])]
  simp only [htake, hdrop, parseHex_hexPadded, Nat.toUInt64, UInt64.ofNat_toNat]
  rw [if_neg hhigh, if_neg hlow]

end TopologyNodeId

/-! ## Derivation -/

/-- The splitmix64 finalizer. -/
def splitmix64 (x : UInt64) : UInt64 :=
  let x := x + 0x9e3779b97f4a7c15
  let x := (x ^^^ (x >>> 30)) * 0xbf58476d1ce4e5b9
  let x := (x ^^^ (x >>> 27)) * 0x94d049bb133111eb
  x ^^^ (x >>> 31)

def mixIn (state : UInt64) (c : UInt8) : UInt64 :=
  let state := state ^^^ c.toUInt64
  let state := (state <<< 8) ||| (state >>> 56)
  state * 0x100000001b3

def stableHash128 (bytes : Bytes) (seedA seedB : UInt64) : TopologyNodeId :=
  let a := bytes.foldl mixIn (0xcbf29ce484222325 ^^^ seedA)
  let b := bytes.foldl (fun b c => mixIn b (~~~ c)) (0x9e3779b97f4a7c15 ^^^ seedB)
  let a := splitmix64 (a ^^^ (a >>> 32))
  let b := splitmix64 (b ^^^ (b >>> 32) ^^^ a)
  let a := a ^^^ splitmix64 (b ^^^ (b >>> 32))
  ⟨a, b⟩

def deriveNodeId (namespaceKey category nativeIdentity : Bytes) : TopologyNodeId :=
  stableHash128 (namespaceKey ++ str "|" ++ category ++ str "|" ++ nativeIdentity)
    0x746f706f6c6f6779 0x6661627269633130

end TopologyFabric

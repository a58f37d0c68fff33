import TopologyFabric.Cli.Commands
import TopologyFabric.Serialization.Records

/-!
# Listings That Are Read Back

The commands that list nodes print one object for each of them. A script that reads the text with
the parser of the library gets every node once, and can hand each id back to another command.

## Main result

- `listing_reread`: when a listing is read back, and what it says then
-/

namespace TopologyFabric

open Library Json

/-! ## Addresses -/

theorem isAscii_hexPadded (width n : ℕ) : IsAscii (hexPadded width n) := by
  intro c hc
  cases hvalue : hexValue? c with
  | none => exact absurd hc (TopologyNodeId.notMem_hexPadded hvalue width n)
  | some d => exact hexValue?_ascii hvalue

theorem length_hexPadded_le {width : ℕ} (hwidth : width ≤ 4) (x : UInt16) :
    (hexPadded width x.toNat).length ≤ 4 := by
  have hdigits : (Nat.toDigits 16 x.toNat).length ≤ 4 :=
    Nat.toDigits_length _ _ _ (by norm_num) (lt_of_lt_of_le x.toNat_lt (by norm_num))
  simp only [hexPadded, List.length_append, List.length_replicate, List.length_map]
  omega

/-- An address is a short ASCII string. -/
theorem admits_pciBdfString {P : Bytes → Prop} (hP : AdmitsShort P) (n : NativeIdentity) :
    P n.pciBdfString := by
  unfold NativeIdentity.pciBdfString
  split
  · rename_i bus dev fn _ _ _
    apply hP
    · have hsep : IsAscii (str ":") ∧ IsAscii (str ".") := by decide
      simp only [isAscii_append, isAscii_hexPadded, hsep, and_self]
    · have hdomain := length_hexPadded_le le_rfl (n.pciDomain.getD 0)
      have hbus : (hexPadded 2 bus.toNat).length ≤ 4 := length_hexPadded_le (by norm_num) bus
      have hdev : (hexPadded 2 dev.toNat).length ≤ 4 := length_hexPadded_le (by norm_num) dev
      have hfn : (hexPadded 1 fn.toNat).length ≤ 4 := length_hexPadded_le (by norm_num) fn
      have hsep : (str ":").length = 1 ∧ (str ".").length = 1 := by decide
      simp only [List.length_append, hsep]
      omega
  · exact hP _ (by decide) (by decide)

/-! ## One node -/

section Node

variable {cmd : Command} {e : TopologyNodeId × TopologyNode}

/-- The fields of a listed node. -/
def listedFields (cmd : Command) (e : TopologyNodeId × TopologyNode) : List (Bytes × Value) :=
  [(str "id", .string e.1.toHex), (str "type", .string e.2.type.toString),
    (str "name", .string e.2.name)] ++
  if cmd = .devices ∨ e.2.native.hasPci = true then
    [(str "bdf", .string e.2.native.pciBdfString)]
  else []

theorem listedFields_keys : RecordKeys ((listedFields cmd e).map Prod.fst) := by
  unfold listedFields
  split_ifs
  · simp only [List.map_append, List.map_cons, List.map_nil]
    decide +kernel
  · simp only [List.map_append, List.map_cons, List.map_nil]
    decide +kernel

/-- A limit on a listed node is one on its name. -/
theorem listedNodeToJson_fits {maxDepth d : ℕ} {P : Bytes → Prop} (hP : AdmitsShort P)
    (hd : d + 1 ≤ maxDepth) :
    (listedNodeToJson cmd e).Fits maxDepth P d ↔ P e.2.name := by
  have hlisted : listedNodeToJson cmd e = objectOf (listedFields cmd e) := rfl
  rw [hlisted, record_fits hP listedFields_keys (by omega), listedFields]
  obtain ⟨htype, -⟩ := admits_names hP
  split_ifs <;>
    simp [Value.Fits, hd, admits_toHex hP, htype, admits_pciBdfString hP]

/-- What is found in a listed node that is read back. -/
theorem readString_listed {k s : Bytes} (h : (k, Value.string s) ∈ listedFields cmd e) :
    readString (listedNodeToJson cmd e).reread k [] = s :=
  readString_written (find_record _ rfl listedFields_keys _ _ h) []

end Node

/-! ## All listed nodes -/

/-- The commands that list nodes. -/
def isListing : Command → Bool
  | .nodes | .devices | .cpus | .numa | .pci | .accelerators | .storage | .network => true
  | _ => false

/-- The objects are the listed nodes, each once, and their ids lead back to the nodes. -/
structure ListsNodes (snap : TopologySnapshot) (cmd : Command) (l : List Value) : Prop where
  once : (l.map fun o => readString o (str "id") []).Nodup
  node : ∀ o ∈ l, ∃ id n, snap.findNode id = some n ∧ lists cmd n = true ∧
    readString o (str "type") [] = n.type.toString ∧ readString o (str "name") [] = n.name ∧
    ∀ order, resolveId order snap (readString o (str "id") []) = id
  all : ∀ id n, snap.findNode id = some n → lists cmd n = true →
    ∃ o ∈ l, readString o (str "id") [] = id.toHex

section Listing

variable {snap : TopologySnapshot} {cmd : Command} {order : IterationOrder}

/-- What holds of all listed entries holds of all listed nodes. -/
theorem forall_listed_iff (order : IterationOrder) {P : TopologyNode → Prop} :
    (∀ e ∈ (snap.nodes.reorder order).entries.filter fun e => lists cmd e.2, P e.2) ↔
      ∀ id n, snap.findNode id = some n → lists cmd n = true → P n := by
  simp [TopologySnapshot.findNode, HashMap.find?_eq_some, HashMap.mem_reorder]

/-- A limit on a listing is one on the listed names. -/
theorem listing_fits {P : Bytes → Prop} (hP : AdmitsShort P) :
    (Value.array (listing order snap cmd)).Fits ({} : ParseOptions).maxDepth P 0 ↔
      ∀ id n, snap.findNode id = some n → lists cmd n = true → P n.name := by
  have hdepth : 1 + 1 ≤ ({} : ParseOptions).maxDepth := by decide
  rw [Value.Fits, Value.fitElements_iff, listing, List.forall_mem_map,
    ← forall_listed_iff order]
  simp only [listedNodeToJson_fits hP hdepth, Nat.zero_le, true_and, Nat.zero_add]

/-- The ids of a listing are those of its nodes. -/
theorem readString_id (e : TopologyNodeId × TopologyNode) :
    readString (listedNodeToJson cmd e).reread (str "id") [] = e.1.toHex :=
  readString_listed (by simp [listedFields])

theorem toHex_injective {a b : TopologyNodeId} (h : a.toHex = b.toHex) : a = b :=
  Option.some.inj (by
    rw [← TopologyNodeId.tryFromHex_toHex a, h, TopologyNodeId.tryFromHex_toHex])

/-- **A listing that is read back** has each listed node once. -/
theorem listsNodes_listing : ListsNodes snap cmd ((listing order snap cmd).map Value.reread) where
  once := by
    rw [listing, List.map_map, List.map_map]
    have hids : ((snap.nodes.reorder order).entries.filter fun e => lists cmd e.2).Pairwise
        fun a b => a.1 ≠ b.1 :=
      List.pairwise_map.mp ((snap.nodes.reorder order).nodup.sublist (List.filter_sublist.map _))
    apply List.Pairwise.map _ _ hids
    intro a b hne heq
    simp only [Function.comp_apply, readString_id] at heq
    exact hne (toHex_injective heq)
  node o ho := by
    obtain ⟨v, hv, rfl⟩ := List.mem_map.mp ho
    obtain ⟨e, he, rfl⟩ := List.mem_map.mp hv
    obtain ⟨hmem, hlists⟩ := List.mem_filter.mp he
    refine ⟨e.1, e.2, HashMap.find?_eq_some.mpr (HashMap.mem_reorder.mp hmem), hlists, ?_, ?_, ?_⟩
    · exact readString_listed (by simp [listedFields])
    · exact readString_listed (by simp [listedFields])
    · intro order'
      -- the printed id is taken as an id
      rw [readString_id, resolveId, TopologyNodeId.tryFromHex_toHex]
  all id n hn hlists := by
    have hmem : (id, n) ∈ (snap.nodes.reorder order).entries.filter fun e => lists cmd e.2 :=
      List.mem_filter.mpr ⟨HashMap.mem_reorder.mpr (HashMap.find?_eq_some.mp hn), hlists⟩
    exact ⟨_, List.mem_map_of_mem (List.mem_map_of_mem hmem), readString_id _⟩

end Listing

/-- **Listings are read back** iff the listed names are ASCII and there are not too many values, as
long as no name is longer than the parser allows. Then every listed node is found once, with its type
and its name, and its id names it on the command line. -/
theorem listing_reread {snap : TopologySnapshot} {cmd : Command} (hcmd : isListing cmd = true)
    (hnames : ∀ id n, snap.findNode id = some n → lists cmd n = true →
      n.name.length ≤ ({} : ParseOptions).maxStringBytes)
    {args : List Bytes} (hjson : hasOpt args (str "--json") = true) (bounds : Bounds)
    (order : IterationOrder) (fuel : ℕ) (again : CallInputs) :
    ∃ text r, runCommand bounds order fuel snap again cmd args =
        .ok { json := some (text ++ [10]) } ∧
      parse {} text = .ok r ∧
      (r.ok = true ↔
        (∀ id n, snap.findNode id = some n → lists cmd n = true → IsAscii n.name) ∧
          (Value.array (listing order snap cmd)).count ≤ ({} : ParseOptions).maxNodes) ∧
      (r.ok = true → ∃ l, r.value = .array l ∧ ListsNodes snap cmd l) := by
  have hshort : AdmitsShort fun s => s.length ≤ ({} : ParseOptions).maxStringBytes :=
    fun s _ hs => hs.trans (by decide)
  have hwritable : AdmitsShort (Writable {}) := fun s hascii hs => ⟨hascii, hs.trans (by decide)⟩
  have hfits : (Value.array (listing order snap cmd)).Fits ({} : ParseOptions).maxDepth _ 0 :=
    (listing_fits hshort).mpr hnames
  obtain ⟨r, hr, hok, hvalue⟩ := parse_written_iff hfits .pretty
  refine ⟨dump .pretty (.array (listing order snap cmd)), r, ?_, hr, ?_, fun h => ?_⟩
  · cases cmd <;> simp_all [runCommand, Reply.printing, isListing]
  · -- the names are short enough, so a writable listing is one with ASCII names
    rw [hok, listing_fits hwritable]
    refine and_congr_left fun _ => forall_congr' fun id => forall_congr' fun n => ?_
    refine forall_congr' fun hn => forall_congr' fun hlists => ?_
    exact and_iff_left (hnames id n hn hlists)
  · refine ⟨(listing order snap cmd).map Value.reread, ?_, listsNodes_listing⟩
    rw [hvalue h, Value.reread, Value.rereadElements_eq_map]

/-- The devices of two joined nodes. -/
theorem listing_reread_pair :
    ∃ text r, runCommand {} .insertion 0 pairSnapshot sharedCall .devices [str "--json"] =
        .ok { json := some (text ++ [10]) } ∧
      parse {} text = .ok r ∧
      (r.ok = true ↔
        (∀ id n, pairSnapshot.findNode id = some n → lists .devices n = true → IsAscii n.name) ∧
          (Value.array (listing .insertion pairSnapshot .devices)).count ≤
            ({} : ParseOptions).maxNodes) ∧
      (r.ok = true → ∃ l, r.value = .array l ∧ ListsNodes pairSnapshot .devices l) := by
  refine listing_reread rfl (fun id n hn _ => ?_) (by decide) {} .insertion 0 sharedCall
  have hname : ∀ e ∈ pairSnapshot.nodes.entries, e.2.name = [] := by decide
  rw [hname _ (HashMap.find?_eq_some.mp hn)]
  exact Nat.zero_le _

end TopologyFabric

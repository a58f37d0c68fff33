import TopologyFabric.Diff.Laws
import TopologyFabric.Library.Versions
import TopologyFabric.Runtime.Interleaving

/-!
# The Generation as a Version of the Content

`discover` compares a new snapshot with the published one only, and keeps the generation when the
difference is immaterial. Since immaterial differences compose, the generation identifies what a
comparison looks at over a whole run, whatever was published in between.

## Main results

- `Immaterial.trans`: immaterial differences compose
- `generation_identifies_content`: what the generations of two published snapshots say
-/

namespace TopologyFabric

open Library

/-! ## Immaterial differences compose -/

theorem SameFacts.trans {na nb nc : TopologyNode} (hab : SameFacts na nb) (hbc : SameFacts nb nc) :
    SameFacts na nc where
  capabilities := hab.capabilities.trans hbc.capabilities
  numaNode := hab.numaNode.trans hbc.numaNode
  cpuPackage := hab.cpuPackage.trans hbc.cpuPackage
  coreId := hab.coreId.trans hbc.coreId
  provider := hab.provider.trans hbc.provider

/-- The edge that a comparison finds for a key, where there is one. -/
theorem exists_find?_key {edges : List TopologyEdge} {k : EdgeKey}
    (h : k ∈ edges.map TopologyEdge.key) :
    ∃ e ∈ edges, e.key = k ∧ (edges.find? fun ae => ae.key = k) = some e := by
  obtain ⟨e₀, he₀, hkey₀⟩ := List.mem_map.mp h
  obtain ⟨e, hfind⟩ : ∃ e, (edges.find? fun ae => ae.key = k) = some e := by
    rw [← Option.isSome_iff_exists, List.find?_isSome]
    exact ⟨e₀, he₀, decide_eq_true hkey₀⟩
  exact ⟨e, List.mem_of_find?_eq_some hfind, by simpa using List.find?_some hfind, hfind⟩

/-- **Immaterial differences compose**, also where a snapshot has parallel edges: the link that
stands for a key in the middle snapshot is compared on both sides. -/
theorem Immaterial.trans {a b c : TopologySnapshot} (hab : Immaterial a b) (hbc : Immaterial b c) :
    Immaterial a c where
  nodeIds := fun id => (hab.nodeIds id).trans (hbc.nodeIds id)
  edgeKeys := fun k => (hab.edgeKeys k).trans (hbc.edgeKeys k)
  facts := by
    intro id na nc hna hnc
    have hmem : id ∈ b.nodes.keys := (hab.nodeIds id).mp (HashMap.mem_keys_iff.mpr ⟨na, hna⟩)
    obtain ⟨nb, hnb⟩ := HashMap.mem_keys_iff.mp hmem
    exact (hab.facts id na nb hna hnb).trans (hbc.facts id nb nc hnb hnc)
  links := by
    intro e he ea hea
    have hmem : e.key ∈ b.edges.map TopologyEdge.key :=
      (hbc.edgeKeys e.key).mpr (List.mem_map_of_mem he)
    obtain ⟨eb, heb, hkey, hfind⟩ := exists_find?_key hmem
    have hab' : linkChanged ea eb = false := by
      apply hab.links eb heb ea
      rw [hkey]
      exact hea
    exact linkChanged_trans hab' (hbc.links e he eb hfind)

/-- Whether the comparison of two snapshots is material. -/
def materiallyChanged (a b : TopologySnapshot) : Bool := (compareSnapshots a b).materialChange

theorem materiallyChanged_trans (a b c : TopologySnapshot) (hab : materiallyChanged a b = false)
    (hbc : materiallyChanged b c = false) : materiallyChanged a c = false :=
  materialChange_eq_false_iff.mpr
    ((materialChange_eq_false_iff.mp hab).trans (materialChange_eq_false_iff.mp hbc))

/-! ## Published snapshots -/

variable {bounds : Bounds} {s : RuntimeState}

/-- What has been published is a log with the generation as its version. -/
theorem Reachable.versioned (h : Reachable bounds s) :
    Versioned (fun snap : TopologySnapshot => snap.metadata.generation) materiallyChanged
      s.history.published := by
  intro k a b ha hb
  have hfollows := h.invariant.follows (k + 1) b hb
  rw [List.getLast?_take, if_neg (Nat.succ_ne_zero k), Nat.add_sub_cancel, ha,
    Option.some_or] at hfollows
  exact hfollows

/-- **The generation identifies the content.** In any interleaving of any number of threads, the
generations of two published snapshots are apart by the number of material changes that were
published between them; and two published snapshots with one generation have no material
difference, although no call has compared them. -/
theorem generation_identifies_content (h : Reachable bounds s) {i n : ℕ}
    {a b : TopologySnapshot} (ha : s.history.published[i]? = some a)
    (hb : s.history.published[i + (n + 1)]? = some b) :
    b.metadata.generation = a.metadata.generation +
        changesFrom materiallyChanged s.history.published i (n + 1) ∧
      (a.metadata.generation = b.metadata.generation →
        (compareSnapshots a b).materialChange = false ∧ Immaterial a b) := by
  refine ⟨h.versioned.version_add ha hb, ?_⟩
  intro hgen
  have hsame : materiallyChanged a b = false :=
    h.versioned.unchanged_of_version_eq materiallyChanged_trans ha hb hgen
  exact ⟨hsame, materialChange_eq_false_iff.mp hsame⟩

/-- Of three calls the second one finds two devices; the first and the last snapshot are compared
through their generations. -/
theorem generation_identifies_content_found : ∃ s a b, Reachable {} s ∧
    s.history.published[0]? = some a ∧ s.history.published[0 + (1 + 1)]? = some b ∧
    b.metadata.generation = a.metadata.generation +
        changesFrom materiallyChanged s.history.published 0 (1 + 1) ∧
      (a.metadata.generation = b.metadata.generation →
        (compareSnapshots a b).materialChange = false ∧ Immaterial a b) := by
  obtain ⟨s, snap₁, snap₂, snap₃, hreach, hpublished, -⟩ := exists_three_calls
  have hfirst : s.history.published[0]? = some snap₁ := by rw [hpublished]; rfl
  have hlast : s.history.published[0 + (1 + 1)]? = some snap₃ := by rw [hpublished]; rfl
  exact ⟨s, snap₁, snap₃, hreach, hfirst, hlast,
    generation_identifies_content hreach hfirst hlast⟩

end TopologyFabric

import TopologyFabric.Diff.Compare

/-!
# What a Diff Says

When the comparison of two snapshots is silent, when it is immaterial, and which laws of a
difference that makes true. An edge is compared with the first edge on the other side that has its
key, and the properties of a node are looked up from the later snapshot only. So a snapshot with
parallel edges can differ from itself, and a property that disappears is not reported.

## Main results

- `materialChange_eq_false_iff`, `events_eq_nil_iff`: silence and immateriality
- `compareSnapshots_refl_iff`: which snapshots do not differ from themselves
- `compareSnapshots_complete_iff`: for which snapshots silence means agreement
-/

namespace TopologyFabric

open Library

/-! ## Equal values -/

namespace Double

theorem ne_eq_false {x y : Double} : x.ne y = false ↔ ∃ r, x.rank = some r ∧ y.rank = some r := by
  unfold Double.ne
  cases x.rank with
  | none => simp
  | some a =>
    cases y.rank with
    | none => simp
    | some b =>
      simp only [ne_eq, decide_eq_false_iff_not, not_not, Option.some.injEq, exists_eq_left']
      exact eq_comm

theorem ne_self {x : Double} : x.ne x = false ↔ x ≠ .nan := by
  cases x <;> simp [ne_eq_false, rank]

theorem ne_symm {x y : Double} (h : x.ne y = false) : y.ne x = false := by
  obtain ⟨r, hx, hy⟩ := ne_eq_false.mp h
  exact ne_eq_false.mpr ⟨r, hy, hx⟩

theorem ne_trans {x y z : Double} (hxy : x.ne y = false) (hyz : y.ne z = false) :
    x.ne z = false := by
  obtain ⟨r, hx, hy⟩ := ne_eq_false.mp hxy
  obtain ⟨r', hy', hz⟩ := ne_eq_false.mp hyz
  obtain rfl := Option.some.inj (hy.symm.trans hy')
  exact ne_eq_false.mpr ⟨r, hx, hz⟩

end Double

/-- The two optional numbers compare equal. -/
theorem optionalNe_eq_false {x y : Option Double} : optionalNe Double.ne x y = false ↔
    (x = none ∧ y = none) ∨ ∃ a b, x = some a ∧ y = some b ∧ a.ne b = false := by
  cases x <;> cases y <;> simp [optionalNe]

theorem optionalNe_symm {x y : Option Double} (h : optionalNe Double.ne x y = false) :
    optionalNe Double.ne y x = false := by
  rw [optionalNe_eq_false] at h ⊢
  rcases h with ⟨hx, hy⟩ | ⟨a, b, hx, hy, hab⟩
  · exact Or.inl ⟨hy, hx⟩
  · exact Or.inr ⟨b, a, hy, hx, Double.ne_symm hab⟩

private theorem optionalNe_trans {x y z : Option Double} (hxy : optionalNe Double.ne x y = false)
    (hyz : optionalNe Double.ne y z = false) : optionalNe Double.ne x z = false := by
  rw [optionalNe_eq_false] at hxy hyz ⊢
  rcases hxy with ⟨rfl, rfl⟩ | ⟨a, b, rfl, rfl, hab⟩
  · exact hyz
  · rcases hyz with ⟨h, -⟩ | ⟨b', c, hb, rfl, hbc⟩
    · cases h
    · obtain rfl := Option.some.inj hb
      exact Or.inr ⟨a, c, rfl, rfl, Double.ne_trans hab hbc⟩

theorem linkChanged_eq_false {a b : TopologyEdge} : linkChanged a b = false ↔
    optionalNe Double.ne a.bandwidthBytesPerSec b.bandwidthBytesPerSec = false ∧
      optionalNe Double.ne a.latencyNs b.latencyNs = false ∧ a.width = b.width ∧
      a.pcieGeneration = b.pcieGeneration ∧ a.accessible = b.accessible := by
  simp only [linkChanged, Bool.or_eq_false_iff, decide_eq_false_iff_not, not_not, and_assoc]

/-- Edges with equal link facts are also equal to each other the other way round. -/
theorem linkChanged_symm {a b : TopologyEdge} (h : linkChanged a b = false) :
    linkChanged b a = false := by
  rw [linkChanged_eq_false] at h ⊢
  obtain ⟨hbandwidth, hlatency, hwidth, hgeneration, haccessible⟩ := h
  exact ⟨optionalNe_symm hbandwidth, optionalNe_symm hlatency, hwidth.symm, hgeneration.symm,
    haccessible.symm⟩

theorem linkChanged_trans {a b c : TopologyEdge} (hab : linkChanged a b = false)
    (hbc : linkChanged b c = false) : linkChanged a c = false := by
  rw [linkChanged_eq_false] at hab hbc ⊢
  obtain ⟨hbandwidth, hlatency, hwidth, hgeneration, haccessible⟩ := hab
  obtain ⟨hbandwidth', hlatency', hwidth', hgeneration', haccessible'⟩ := hbc
  exact ⟨optionalNe_trans hbandwidth hbandwidth', optionalNe_trans hlatency hlatency',
    hwidth.trans hwidth', hgeneration.trans hgeneration', haccessible.trans haccessible'⟩

theorem PropertyValue.equal_self {v : PropertyValue} : v.equal v = true ↔ v ≠ .double .nan := by
  cases v with
  | double x => simp [PropertyValue.equal, Double.ne_self]
  | _ => simp [PropertyValue.equal]

/-! ## When there are no events -/

/-- The facts of a common node that the comparison looks at. -/
structure SameFacts (na nb : TopologyNode) : Prop where
  capabilities : na.capabilities = nb.capabilities
  numaNode : na.native.numaNode = nb.native.numaNode
  cpuPackage : na.native.cpuPackage = nb.native.cpuPackage
  coreId : na.native.coreId = nb.native.coreId
  provider : na.provenance.provider = nb.provenance.provider

/-- Two snapshots without a material difference. -/
structure Immaterial (a b : TopologySnapshot) : Prop where
  nodeIds : ∀ id, id ∈ a.nodes.keys ↔ id ∈ b.nodes.keys
  facts : ∀ id na nb, a.nodes.find? id = some na → b.nodes.find? id = some nb → SameFacts na nb
  edgeKeys : ∀ k, k ∈ a.edges.map TopologyEdge.key ↔ k ∈ b.edges.map TopologyEdge.key
  links : ∀ e ∈ b.edges, ∀ ea, (a.edges.find? fun ae => ae.key = e.key) = some ea →
    linkChanged ea e = false

/-- Every property of the later node is there in the earlier one, with an equal value. -/
def PropertiesKept (na nb : TopologyNode) : Prop :=
  ∀ e ∈ nb.properties.entries, ∃ va, na.properties.find? e.1 = some va ∧ va.equal e.2 = true

section Events

variable {A B : NodeMap} {EA EB : List TopologyEdge}

theorem nodeAddedEvents_eq_nil :
    nodeAddedEvents A B = [] ↔ ∀ id ∈ B.keys, id ∈ A.keys := by
  simp only [nodeAddedEvents, List.filterMap_eq_nil_iff, HashMap.keys, List.forall_mem_map]
  refine forall₂_congr fun e _ => ?_
  rw [← HashMap.keys, ← HashMap.contains_iff]
  cases A.contains e.1 <;> simp

theorem nodeRemovedEvents_eq_nil :
    nodeRemovedEvents A B = [] ↔ ∀ id ∈ A.keys, id ∈ B.keys := by
  simp only [nodeRemovedEvents, List.filterMap_eq_nil_iff, HashMap.keys, List.forall_mem_map]
  refine forall₂_congr fun e _ => ?_
  rw [← HashMap.keys, ← HashMap.contains_iff]
  cases B.contains e.1 <;> simp

theorem edgesMissingFrom_eq_nil {kind : DiffEventKind} : edgesMissingFrom kind EA EB = [] ↔
    ∀ k ∈ EB.map TopologyEdge.key, k ∈ EA.map TopologyEdge.key := by
  simp only [edgesMissingFrom, List.filterMap_eq_nil_iff]
  rw [List.forall_mem_map]
  refine forall₂_congr fun e _ => ?_
  split_ifs with h <;> simp [h]

theorem linkChangedEvents_eq_nil : linkChangedEvents EA EB = [] ↔
    ∀ e ∈ EB, ∀ ea, (EA.find? fun ae => ae.key = e.key) = some ea → linkChanged ea e = false := by
  simp only [linkChangedEvents, List.filterMap_eq_nil_iff]
  refine forall₂_congr fun e _ => ?_
  cases EA.find? fun ae => ae.key = e.key with
  | none => simp
  | some ea => simp

private theorem localityChanged_eq_false {na nb : TopologyNode} : localityChanged na nb = false ↔
    na.native.numaNode = nb.native.numaNode ∧ na.native.cpuPackage = nb.native.cpuPackage ∧
      na.native.coreId = nb.native.coreId := by
  simp only [localityChanged, Bool.or_eq_false_iff, decide_eq_false_iff_not, not_not, and_assoc]

theorem sameFacts_iff {na nb : TopologyNode} : SameFacts na nb ↔
    na.capabilities = nb.capabilities ∧ localityChanged na nb = false ∧
      na.provenance.provider = nb.provenance.provider := by
  rw [localityChanged_eq_false]
  constructor
  · intro h
    exact ⟨h.capabilities, ⟨h.numaNode, h.cpuPackage, h.coreId⟩, h.provider⟩
  · rintro ⟨hcaps, ⟨hnuma, hpackage, hcore⟩, hprovider⟩
    exact ⟨hcaps, hnuma, hpackage, hcore, hprovider⟩

private theorem propertyEvents_immaterial (id : TopologyNodeId) (na nb : TopologyNode) :
    ((nb.properties.entries.filterMap fun (k, vb) =>
      if (na.properties.find? k).any fun va => va.equal vb then none
      else some ({ kind := .propertyChanged, node := id, key := k, onEdge := false } :
        DiffEvent)).any isMaterialEvent) = false := by
  rw [List.any_eq_false]
  intro e he
  obtain ⟨p, -, hp⟩ := List.mem_filterMap.mp he
  dsimp only at hp
  split_ifs at hp
  obtain rfl := Option.some.inj hp
  simp [isMaterialEvent]

private theorem propertyEvents_eq_nil (id : TopologyNodeId) (na nb : TopologyNode) :
    (nb.properties.entries.filterMap fun (k, vb) =>
      if (na.properties.find? k).any fun va => va.equal vb then none
      else some ({ kind := .propertyChanged, node := id, key := k, onEdge := false } :
        DiffEvent)) = [] ↔ PropertiesKept na nb := by
  simp only [List.filterMap_eq_nil_iff, PropertiesKept]
  refine forall₂_congr fun e _ => ?_
  cases na.properties.find? e.1 with
  | none => simp
  | some va => simp

/-- The events of a common node, but for its properties, are material. -/
theorem nodeChangedEvents_material {id : TopologyNodeId} {na nb : TopologyNode}
    (hna : A.find? id = some na) :
    (nodeChangedEvents A (id, nb)).any isMaterialEvent = false ↔ SameFacts na nb := by
  rw [sameFacts_iff, nodeChangedEvents]
  simp only [hna, List.any_append, propertyEvents_immaterial id na nb, Bool.or_false]
  by_cases hcaps : na.capabilities = nb.capabilities <;>
    by_cases hprovider : na.provenance.provider = nb.provenance.provider <;>
    cases localityChanged na nb <;> simp [hcaps, hprovider, isMaterialEvent]

theorem nodeChangedEvents_eq_nil {id : TopologyNodeId} {na nb : TopologyNode}
    (hna : A.find? id = some na) :
    nodeChangedEvents A (id, nb) = [] ↔ SameFacts na nb ∧ PropertiesKept na nb := by
  rw [sameFacts_iff, nodeChangedEvents]
  simp only [hna, List.append_eq_nil_iff, propertyEvents_eq_nil id na nb]
  by_cases hcaps : na.capabilities = nb.capabilities <;>
    by_cases hprovider : na.provenance.provider = nb.provenance.provider <;>
    cases localityChanged na nb <;> simp [hcaps, hprovider]

end Events

/-- Among events that are all material, none is material iff there are none. -/
private theorem any_material {l : List DiffEvent} (h : ∀ e ∈ l, isMaterialEvent e = true) :
    l.any isMaterialEvent = false ↔ l = [] := by
  cases l with
  | nil => simp
  | cons e l => simp [h e (List.mem_cons_self ..)]

section Snapshots

variable {a b : TopologySnapshot}

private theorem filterMap_material {α : Type} {f : α → Option DiffEvent} {l : List α}
    (h : ∀ x e, f x = some e → isMaterialEvent e = true) :
    ∀ e ∈ l.filterMap f, isMaterialEvent e = true := by
  intro e he
  obtain ⟨x, -, hx⟩ := List.mem_filterMap.mp he
  exact h x e hx

/-- When a difference is immaterial. -/
theorem materialChange_eq_false_iff :
    (compareSnapshots a b).materialChange = false ↔ Immaterial a b := by
  have hadded : (nodeAddedEvents a.nodes b.nodes).any isMaterialEvent = false ↔ _ :=
    (any_material (filterMap_material fun x e h => by
      dsimp only at h
      split_ifs at h
      exact Option.some.inj h ▸ rfl)).trans nodeAddedEvents_eq_nil
  have hremoved : (nodeRemovedEvents a.nodes b.nodes).any isMaterialEvent = false ↔ _ :=
    (any_material (filterMap_material fun x e h => by
      dsimp only at h
      split_ifs at h
      exact Option.some.inj h ▸ rfl)).trans nodeRemovedEvents_eq_nil
  have hmissing : ∀ kind EA EB, kind ≠ .propertyChanged →
      ((edgesMissingFrom kind EA EB).any isMaterialEvent = false ↔
        ∀ k ∈ EB.map TopologyEdge.key, k ∈ EA.map TopologyEdge.key) := fun kind EA EB hkind =>
    (any_material (filterMap_material fun x e h => by
      split_ifs at h
      obtain rfl := Option.some.inj h
      cases kind <;> simp_all [isMaterialEvent, edgeEvent])).trans edgesMissingFrom_eq_nil
  have hlinks : (linkChangedEvents a.edges b.edges).any isMaterialEvent = false ↔ _ :=
    (any_material (filterMap_material fun x e h => by
      split_ifs at h
      exact Option.some.inj h ▸ rfl)).trans linkChangedEvents_eq_nil
  have hchanged : (b.nodes.entries.flatMap (nodeChangedEvents a.nodes)).any isMaterialEvent = false ↔
      ∀ id na nb, a.nodes.find? id = some na → b.nodes.find? id = some nb → SameFacts na nb := by
    rw [List.any_flatMap, List.any_eq_false]
    constructor
    · intro h id na nb hna hnb
      have hentry := h (id, nb) (HashMap.find?_eq_some.mp hnb)
      exact (nodeChangedEvents_material hna).mp (by simpa using hentry)
    · rintro h ⟨id, nb⟩ hmem
      cases hna : a.nodes.find? id with
      | none => simp [nodeChangedEvents, hna]
      | some na =>
        rw [(nodeChangedEvents_material hna).mpr (h id na nb hna (HashMap.find?_eq_some.mpr hmem))]
        exact Bool.false_ne_true
  -- no loop may emit a material event
  rw [compareSnapshots_materialChange, diffEvents]
  simp only [List.any_append, Bool.or_eq_false_iff, hadded, hremoved, hchanged, hlinks,
    hmissing .edgeAdded _ _ (by decide), hmissing .edgeRemoved _ _ (by decide)]
  constructor
  · rintro ⟨⟨⟨⟨⟨hnew, hold⟩, hfacts⟩, hadd⟩, hrem⟩, hlink⟩
    exact ⟨fun id => ⟨hold id, hnew id⟩, hfacts, fun k => ⟨hrem k, hadd k⟩, hlink⟩
  · intro h
    exact ⟨⟨⟨⟨⟨fun id => (h.nodeIds id).mpr, fun id => (h.nodeIds id).mp⟩, h.facts⟩,
      fun k => (h.edgeKeys k).mpr⟩, fun k => (h.edgeKeys k).mp⟩, h.links⟩

/-- When there is no event at all. -/
theorem events_eq_nil_iff : (compareSnapshots a b).events = [] ↔ Immaterial a b ∧
    ∀ id na nb, a.nodes.find? id = some na → b.nodes.find? id = some nb →
      PropertiesKept na nb := by
  -- sorting neither adds an event nor drops one
  have hsorted : (compareSnapshots a b).events = [] ↔
      diffEvents a.nodes b.nodes a.edges b.edges = [] := by
    rw [compareSnapshots]
    exact ⟨fun h => List.perm_nil.mp (h ▸ (List.perm_insertionSort _ _).symm),
      fun h => by rw [h]; rfl⟩
  have hchanged : b.nodes.entries.flatMap (nodeChangedEvents a.nodes) = [] ↔
      ∀ id na nb, a.nodes.find? id = some na → b.nodes.find? id = some nb →
        SameFacts na nb ∧ PropertiesKept na nb := by
    rw [List.flatMap_eq_nil_iff]
    constructor
    · intro h id na nb hna hnb
      exact (nodeChangedEvents_eq_nil hna).mp (h (id, nb) (HashMap.find?_eq_some.mp hnb))
    · rintro h ⟨id, nb⟩ hmem
      cases hna : a.nodes.find? id with
      | none => simp [nodeChangedEvents, hna]
      | some na =>
        exact (nodeChangedEvents_eq_nil hna).mpr (h id na nb hna (HashMap.find?_eq_some.mpr hmem))
  rw [hsorted, diffEvents]
  simp only [List.append_eq_nil_iff, nodeAddedEvents_eq_nil, nodeRemovedEvents_eq_nil, hchanged,
    edgesMissingFrom_eq_nil, linkChangedEvents_eq_nil]
  constructor
  · rintro ⟨⟨⟨⟨⟨hnew, hold⟩, hboth⟩, hadd⟩, hrem⟩, hlink⟩
    refine ⟨⟨fun id => ⟨hold id, hnew id⟩, fun id na nb hna hnb => (hboth id na nb hna hnb).1,
      fun k => ⟨hrem k, hadd k⟩, hlink⟩, fun id na nb hna hnb => (hboth id na nb hna hnb).2⟩
  · rintro ⟨h, hkept⟩
    exact ⟨⟨⟨⟨⟨fun id => (h.nodeIds id).mpr, fun id => (h.nodeIds id).mp⟩,
      fun id na nb hna hnb => ⟨h.facts id na nb hna hnb, hkept id na nb hna hnb⟩⟩,
      fun k => (h.edgeKeys k).mpr⟩, fun k => (h.edgeKeys k).mp⟩, h.links⟩

end Snapshots

/-! ## A snapshot and itself -/

/-- Edges with one key have equal link facts, and no link fact is NaN. -/
def ParallelEdgesAgree (edges : List TopologyEdge) : Prop :=
  ∀ e ∈ edges, ∀ e' ∈ edges, e.key = e'.key → linkChanged e e' = false

/-- No property of a node is NaN. -/
def NoNanProperty (nodes : NodeMap) : Prop :=
  ∀ e ∈ nodes.entries, ∀ p ∈ e.2.properties.entries, p.2 ≠ .double .nan

/-- Comparing every edge with the first one that has its key compares all edges with one key. -/
theorem parallelEdgesAgree_iff {edges : List TopologyEdge} : ParallelEdgesAgree edges ↔
    ∀ e ∈ edges, ∀ ea, (edges.find? fun ae => ae.key = e.key) = some ea →
      linkChanged ea e = false := by
  constructor
  · intro h e he ea hea
    have hkey : ea.key = e.key := by simpa using List.find?_some hea
    exact h ea (List.mem_of_find?_eq_some hea) e he hkey
  · intro h e he e' he' hkey
    -- both agree with the first edge that has their key
    obtain ⟨ea, hea⟩ : ∃ ea, (edges.find? fun ae => ae.key = e.key) = some ea := by
      apply Option.isSome_iff_exists.mp
      rw [List.find?_isSome]
      exact ⟨e, he, by simp⟩
    exact linkChanged_trans (linkChanged_symm (h e he ea hea)) (h e' he' ea (hkey ▸ hea))

theorem immaterial_self_iff {s : TopologySnapshot} :
    Immaterial s s ↔ ParallelEdgesAgree s.edges := by
  rw [parallelEdgesAgree_iff]
  constructor
  · exact Immaterial.links
  · intro hlinks
    refine ⟨fun _ => Iff.rfl, fun id na nb hna hnb => ?_, fun _ => Iff.rfl, hlinks⟩
    obtain rfl := Option.some.inj (hna.symm.trans hnb)
    exact ⟨rfl, rfl, rfl, rfl, rfl⟩

/-- **A snapshot does not differ from itself** exactly when its parallel edges agree and no
property of its nodes is NaN; with a material difference exactly when its parallel edges do not
agree. -/
theorem compareSnapshots_refl_iff (s : TopologySnapshot) :
    ((compareSnapshots s s).events = [] ∧ (compareSnapshots s s).materialChange = false ↔
      ParallelEdgesAgree s.edges ∧ NoNanProperty s.nodes) ∧
    ((compareSnapshots s s).materialChange = false ↔ ParallelEdgesAgree s.edges) := by
  -- a property is equal to itself unless it is NaN
  have hkept : (∀ id na nb, s.nodes.find? id = some na → s.nodes.find? id = some nb →
      PropertiesKept na nb) ↔ NoNanProperty s.nodes := by
    constructor
    · rintro h ⟨id, n⟩ hmem ⟨k, v⟩ hv
      have hn : s.nodes.find? id = some n := HashMap.find?_eq_some.mpr hmem
      obtain ⟨va, hva, hequal⟩ := h id n n hn hn (k, v) hv
      rw [OrderedMap.find?_eq_some.mpr hv] at hva
      obtain rfl := Option.some.inj hva
      exact PropertyValue.equal_self.mp hequal
    · rintro h id na nb hna hnb ⟨k, v⟩ hv
      obtain rfl := Option.some.inj (hna.symm.trans hnb)
      exact ⟨v, OrderedMap.find?_eq_some.mpr hv,
        PropertyValue.equal_self.mpr (h (id, na) (HashMap.find?_eq_some.mp hna) (k, v) hv)⟩
  rw [events_eq_nil_iff, materialChange_eq_false_iff, immaterial_self_iff, hkept]
  exact ⟨⟨And.left, fun h => ⟨h, h.1⟩⟩, Iff.rfl⟩

/-- Two nodes with two parallel links of different width. -/
def parallelBuilder : SnapshotBuilder :=
  let b := ((SnapshotBuilder.new {}).addNode { id := ⟨0, 1⟩, name := str "a" }).2
  let b := (b.addNode { id := ⟨0, 2⟩, name := str "b" }).2
  let b := (b.addEdge { source := ⟨0, 1⟩, target := ⟨0, 2⟩, width := some 8 }).2
  (b.addEdge { source := ⟨0, 1⟩, target := ⟨0, 2⟩, width := some 16 }).2

/-- The snapshot with the two links differs from itself. -/
theorem compareSnapshots_not_reflexive : ∃ snap, parallelBuilder.take .insertion = .ok snap ∧
    ¬ ((compareSnapshots snap snap).events = [] ∧
      (compareSnapshots snap snap).materialChange = false) := by
  obtain ⟨snap, hsnap⟩ := SnapshotBuilder.take_returns (b := parallelBuilder) rfl .insertion
  refine ⟨snap, hsnap, fun h => ?_⟩
  have hagree := immaterial_self_iff.mp (materialChange_eq_false_iff.mp h.2)
  rw [(SnapshotBuilder.take_eq_ok hsnap).2.1] at hagree
  have hlinks := hagree { source := ⟨0, 1⟩, target := ⟨0, 2⟩, width := some 8 } (by decide)
    { source := ⟨0, 1⟩, target := ⟨0, 2⟩, width := some 16 } (by decide) rfl
  exact absurd hlinks (by decide)

/-! ## Completeness -/

/-- The two maps have the same keys with equal values. -/
def SameProperties (na nb : TopologyNode) : Prop :=
  (∀ k, (na.properties.find? k).isSome = (nb.properties.find? k).isSome) ∧
    ∀ k va vb, na.properties.find? k = some va → nb.properties.find? k = some vb →
      va.equal vb = true

/-- What a complete comparison without events would say. -/
structure SnapshotsAgree (a b : TopologySnapshot) : Prop where
  nodeIds : ∀ id, id ∈ a.nodes.keys ↔ id ∈ b.nodes.keys
  edgeKeys : ∀ k, k ∈ a.edges.map TopologyEdge.key ↔ k ∈ b.edges.map TopologyEdge.key
  facts : ∀ id na nb, a.nodes.find? id = some na → b.nodes.find? id = some nb → SameFacts na nb
  properties : ∀ id na nb, a.nodes.find? id = some na → b.nodes.find? id = some nb →
    SameProperties na nb

/-- Nothing that is compared differs, but a common node has lost a property. -/
structure OnlyPropertiesLost (a b : TopologySnapshot) : Prop where
  immaterial : Immaterial a b
  kept : ∀ id na nb, a.nodes.find? id = some na → b.nodes.find? id = some nb → PropertiesKept na nb
  lost : ∃ id na nb k, a.nodes.find? id = some na ∧ b.nodes.find? id = some nb ∧
    (na.properties.find? k).isSome = true ∧ nb.properties.find? k = none

/-- With all later properties kept, the properties are the same unless one has been lost. -/
private theorem sameProperties_iff {na nb : TopologyNode} (hkept : PropertiesKept na nb) :
    SameProperties na nb ↔
      ¬ ∃ k, (na.properties.find? k).isSome = true ∧ nb.properties.find? k = none := by
  constructor
  · rintro ⟨hkeys, -⟩ ⟨k, hsome, hnone⟩
    rw [hkeys k, hnone] at hsome
    exact Bool.false_ne_true hsome
  · -- what is compared is what the new snapshot has; only a property that is lost goes unseen
    intro hlost
    refine ⟨fun k => ?_, fun k va vb hva hvb => ?_⟩
    · cases hb : nb.properties.find? k with
      | none =>
        by_contra hne
        exact hlost ⟨k, by simpa [Option.isSome_iff_ne_none] using hne, hb⟩
      | some vb =>
        obtain ⟨va, hva, -⟩ := hkept (k, vb) (OrderedMap.find?_eq_some.mp hb)
        simp only [hva, Option.isSome_some]
    · obtain ⟨va', hva', hequal⟩ := hkept (k, vb) (OrderedMap.find?_eq_some.mp hvb)
      rw [hva] at hva'
      obtain rfl := Option.some.inj hva'
      exact hequal

/-- **Completeness.** Silence means agreement, except where the only difference is a property that
a common node has lost. -/
theorem compareSnapshots_complete_iff (a b : TopologySnapshot) :
    ((compareSnapshots a b).events = [] → SnapshotsAgree a b) ↔ ¬ OnlyPropertiesLost a b := by
  rw [events_eq_nil_iff]
  constructor
  · rintro h ⟨himmaterial, hkept, id, na, nb, k, hna, hnb, hlost⟩
    have hagree := (h ⟨himmaterial, hkept⟩).properties id na nb hna hnb
    exact (sameProperties_iff (hkept id na nb hna hnb)).mp hagree ⟨k, hlost⟩
  · rintro h ⟨himmaterial, hkept⟩
    refine ⟨himmaterial.nodeIds, himmaterial.edgeKeys, himmaterial.facts,
      fun id na nb hna hnb => (sameProperties_iff (hkept id na nb hna hnb)).mpr ?_⟩
    rintro ⟨k, hsome, hnone⟩
    exact h ⟨himmaterial, hkept, id, na, nb, k, hna, hnb, hsome, hnone⟩

/-- A machine with the given properties. -/
def machineBuilder (properties : PropertyMap) : SnapshotBuilder :=
  ((SnapshotBuilder.new {}).addNode
    { id := ⟨0, 1⟩, type := .machine, name := str "m", properties := properties }).2

/-- A machine that loses its only property is compared without an event. -/
theorem compareSnapshots_incomplete :
    ∃ a b, (machineBuilder (OrderedMap.empty.insert (str "v") (.int 1))).take .insertion = .ok a ∧
      (machineBuilder OrderedMap.empty).take .insertion = .ok b ∧
      ¬ ((compareSnapshots a b).events = [] → SnapshotsAgree a b) := by
  obtain ⟨a, ha⟩ := SnapshotBuilder.take_returns
    (b := machineBuilder (OrderedMap.empty.insert (str "v") (.int 1))) rfl .insertion
  obtain ⟨b, hb⟩ := SnapshotBuilder.take_returns (b := machineBuilder OrderedMap.empty) rfl .insertion
  refine ⟨a, b, ha, hb, fun h => ?_⟩
  let has (s : TopologySnapshot) : Option Bool :=
    (s.nodes.find? ⟨0, 1⟩).map fun n => (n.properties.find? (str "v")).isSome
  -- the two snapshots differ in a property only, and no event is reported
  have hrun : (match (machineBuilder (OrderedMap.empty.insert (str "v") (.int 1))).take .insertion,
      (machineBuilder OrderedMap.empty).take .insertion with
    | .ok a, .ok b => decide ((compareSnapshots a b).events = [] ∧ has a = some true ∧
        has b = some false)
    | _, _ => false) = true := by decide +kernel
  rw [ha, hb] at hrun
  obtain ⟨hevents, hhasA, hhasB⟩ := of_decide_eq_true hrun
  obtain ⟨na, hna, hva⟩ := Option.map_eq_some_iff.mp hhasA
  obtain ⟨nb, hnb, hvb⟩ := Option.map_eq_some_iff.mp hhasB
  have hsame := ((h hevents).properties ⟨0, 1⟩ na nb hna hnb).1 (str "v")
  rw [hva, hvb] at hsame
  exact Bool.noConfusion hsame

end TopologyFabric

import TopologyFabric.Diff.Compare
import TopologyFabric.Library.Sorting

/-!
# Events That Tie

The events are sorted by their kind, their nodes, their key and the value before. That leaves out
the value after and whether the event is about an edge, and `std::sort` arranges events that tie as
it likes. The value after is determined by the later snapshot. A changed property `edge.link` of a
node ties with a changed link from the node to the null identifier, and with nothing else.

## Main results

- `Reported`: what an event says about the two snapshots
- `keyInjOn_iff`: when events that tie are the same event
-/

namespace TopologyFabric

open Library

/-! ## The comparison -/

/-- What an event is sorted by. -/
def eventKey (e : DiffEvent) :
    ℕ ×ₗ TopologyNodeId ×ₗ TopologyNodeId ×ₗ Bytes ×ₗ Bytes :=
  toLex (e.kind.toNat, toLex (e.node, toLex (e.node2, toLex (e.key, e.before))))

theorem DiffEventKind.toNat_injective : Function.Injective DiffEventKind.toNat := by
  intro a b h
  cases a <;> cases b <;> first | rfl | exact absurd h (by decide)

theorem eventKey_inj {a b : DiffEvent} : eventKey a = eventKey b ↔
    a.kind = b.kind ∧ a.node = b.node ∧ a.node2 = b.node2 ∧ a.key = b.key ∧
      a.before = b.before := by
  simp only [eventKey, EmbeddingLike.apply_eq_iff_eq, Prod.mk.injEq,
    DiffEventKind.toNat_injective.eq_iff]

/-- One stage of the comparison. -/
private theorem stage_eq_false {α : Type} [LinearOrder α] (x y : α) [Decidable (y ≠ x)]
    [Decidable (y < x)] {rest : Bool} :
    (if y ≠ x then decide (y < x) else rest) = false ↔ x < y ∨ x = y ∧ rest = false := by
  by_cases h : x = y
  · simp [h]
  · rw [if_pos (Ne.symm h), decide_eq_false_iff_not, not_lt, le_iff_lt_or_eq]
    simp [h]

/-- The comparison of events is that of their keys. -/
theorem eventBefore_eq_false_iff {a b : DiffEvent} :
    eventBefore b a = false ↔ eventKey a ≤ eventKey b := by
  have hkind : (b.kind ≠ a.kind) = (b.kind.toNat ≠ a.kind.toNat) :=
    propext DiffEventKind.toNat_injective.ne_iff.symm
  simp only [eventKey, Prod.Lex.toLex_le_toLex]
  unfold eventBefore
  simp only [hkind]
  -- the five stages of `event_before`, in its order
  refine (stage_eq_false a.kind.toNat b.kind.toNat).trans (or_congr_right (and_congr_right' ?_))
  refine (stage_eq_false a.node b.node).trans (or_congr_right (and_congr_right' ?_))
  refine (stage_eq_false a.node2 b.node2).trans (or_congr_right (and_congr_right' ?_))
  refine (stage_eq_false a.key b.key).trans (or_congr_right (and_congr_right' ?_))
  exact decide_eq_false_iff_not.trans not_lt

/-! ## What an event says -/

/-- The ways in which an event comes about. -/
inductive Reported (A B : NodeMap) (EA EB : List TopologyEdge) : DiffEvent → Prop
  | nodeAdded {id : TopologyNodeId} {n : TopologyNode} : B.find? id = some n →
      Reported A B EA EB { kind := .nodeAdded, node := id, after := n.type.toString }
  | nodeRemoved {id : TopologyNodeId} {n : TopologyNode} : A.find? id = some n →
      Reported A B EA EB { kind := .nodeRemoved, node := id, before := n.type.toString }
  | capabilities {id : TopologyNodeId} {na nb : TopologyNode} : A.find? id = some na →
      B.find? id = some nb →
      Reported A B EA EB { kind := .capabilityChanged, node := id,
                           before := natToString na.capabilities.toNat,
                           after := natToString nb.capabilities.toNat }
  | locality {id : TopologyNodeId} {na nb : TopologyNode} : A.find? id = some na →
      B.find? id = some nb →
      Reported A B EA EB { kind := .localityChanged, node := id,
                           before := na.native.canonicalKey, after := nb.native.canonicalKey }
  | provider {id : TopologyNodeId} {na nb : TopologyNode} : A.find? id = some na →
      B.find? id = some nb →
      Reported A B EA EB { kind := .providerChanged, node := id,
                           before := na.provenance.provider, after := nb.provenance.provider }
  | property {id : TopologyNodeId} {na nb : TopologyNode} {k : Bytes} {v : PropertyValue} :
      A.find? id = some na → B.find? id = some nb → nb.properties.find? k = some v →
      ((na.properties.find? k).any fun va => va.equal v) = false →
      Reported A B EA EB { kind := .propertyChanged, node := id, key := k, onEdge := false }
  | edgeAdded {e : TopologyEdge} : e ∈ EB →
      Reported A B EA EB (edgeEvent .edgeAdded e.type.toString e)
  | edgeRemoved {e : TopologyEdge} : e ∈ EA →
      Reported A B EA EB (edgeEvent .edgeRemoved e.type.toString e)
  | link {e ea : TopologyEdge} : e ∈ EB → (EA.find? fun ae => ae.key = e.key) = some ea →
      linkChanged ea e = true →
      Reported A B EA EB (edgeEvent .propertyChanged (str "edge.link") e)

section Events

variable {A B : NodeMap} {EA EB : List TopologyEdge} {e : DiffEvent}

private theorem reported_of_changed (h : e ∈ B.entries.flatMap (nodeChangedEvents A)) :
    Reported A B EA EB e := by
  obtain ⟨⟨id, nb⟩, hmem, he⟩ := List.mem_flatMap.mp h
  have hnb : B.find? id = some nb := HashMap.find?_eq_some.mpr hmem
  cases hna : A.find? id with
  | none => simp [nodeChangedEvents, hna] at he
  | some na =>
    simp only [nodeChangedEvents, hna, List.mem_append] at he
    -- capabilities, locality, provider, then the properties one by one
    rcases he with ((he | he) | he) | he
    · split_ifs at he
      · exact List.mem_singleton.mp he ▸ .capabilities hna hnb
      · exact absurd he (List.not_mem_nil)
    · split_ifs at he
      · exact List.mem_singleton.mp he ▸ .locality hna hnb
      · exact absurd he (List.not_mem_nil)
    · split_ifs at he
      · exact List.mem_singleton.mp he ▸ .provider hna hnb
      · exact absurd he (List.not_mem_nil)
    · obtain ⟨⟨k, v⟩, hv, hp⟩ := List.mem_filterMap.mp he
      dsimp only at hp
      split_ifs at hp with hequal
      obtain rfl := Option.some.inj hp
      exact .property hna hnb (OrderedMap.find?_eq_some.mpr hv) (Bool.eq_false_iff.mpr hequal)

theorem reported_of_mem (h : e ∈ diffEvents A B EA EB) : Reported A B EA EB e := by
  simp only [diffEvents, List.mem_append] at h
  -- one case for each loop of `compare_snapshots`
  rcases h with ((((h | h) | h) | h) | h) | h
  · obtain ⟨⟨id, n⟩, hmem, he⟩ := List.mem_filterMap.mp h
    dsimp only at he
    split_ifs at he
    exact Option.some.inj he ▸ .nodeAdded (HashMap.find?_eq_some.mpr hmem)
  · obtain ⟨⟨id, n⟩, hmem, he⟩ := List.mem_filterMap.mp h
    dsimp only at he
    split_ifs at he
    exact Option.some.inj he ▸ .nodeRemoved (HashMap.find?_eq_some.mpr hmem)
  · exact reported_of_changed h
  · obtain ⟨edge, hmem, he⟩ := List.mem_filterMap.mp h
    split_ifs at he
    exact Option.some.inj he ▸ .edgeAdded hmem
  · obtain ⟨edge, hmem, he⟩ := List.mem_filterMap.mp h
    split_ifs at he
    exact Option.some.inj he ▸ .edgeRemoved hmem
  · obtain ⟨edge, hmem, he⟩ := List.mem_filterMap.mp h
    split_ifs at he with hany
    obtain ⟨ea, hea, hchanged⟩ := (Option.any_eq_true _ _).mp hany
    exact Option.some.inj he ▸ .link hmem hea hchanged

/-- The value after an event, as the later snapshot has it. -/
def valueAfter (B : NodeMap) (kind : DiffEventKind) (id : TopologyNodeId) : Bytes :=
  let value (f : TopologyNode → Bytes) : Bytes := ((B.find? id).map f).getD []
  match kind with
  | .nodeAdded => value fun n => n.type.toString
  | .capabilityChanged => value fun n => natToString n.capabilities.toNat
  | .localityChanged => value fun n => n.native.canonicalKey
  | .providerChanged => value fun n => n.provenance.provider
  | _ => []

/-- What the sorting leaves out is determined, but for property changes. -/
theorem Reported.after_eq (h : Reported A B EA EB e) : e.after = valueAfter B e.kind e.node := by
  cases h with
  | nodeAdded hn => simp [valueAfter, hn]
  | capabilities _ hnb => simp [valueAfter, hnb]
  | locality _ hnb => simp [valueAfter, hnb]
  | provider _ hnb => simp [valueAfter, hnb]
  | nodeRemoved | property | edgeAdded | edgeRemoved | link => rfl

theorem Reported.onEdge_eq (h : Reported A B EA EB e) (hkind : e.kind ≠ .propertyChanged) :
    e.onEdge = (e.kind == .edgeAdded || e.kind == .edgeRemoved) := by
  cases h with
  | property => exact absurd rfl hkind
  | link => exact absurd rfl hkind
  | nodeAdded | nodeRemoved | capabilities | locality | provider | edgeAdded | edgeRemoved => rfl

/-! ## Ties -/

/-- A common node has a new or changed property of this name. -/
def PropertyReported (A B : NodeMap) (id : TopologyNodeId) (k : Bytes) : Prop :=
  ∃ na nb v, A.find? id = some na ∧ B.find? id = some nb ∧ nb.properties.find? k = some v ∧
    ((na.properties.find? k).any fun va => va.equal v) = false

/-- A common edge between these nodes, as the later snapshot writes it, has changed its link
facts. -/
def LinkReported (EA EB : List TopologyEdge) (source target : TopologyNodeId) : Prop :=
  ∃ e ea, e ∈ EB ∧ e.source = source ∧ e.target = target ∧
    (EA.find? fun ae => ae.key = e.key) = some ea ∧ linkChanged ea e = true

/-- The property `edge.link` of a node and a link from the node to the null identifier have both
changed. -/
def LinkTie (A B : NodeMap) (EA EB : List TopologyEdge) : Prop :=
  ∃ id, PropertyReported A B id (str "edge.link") ∧ LinkReported EA EB id kNullNodeId

theorem mem_of_propertyReported {id : TopologyNodeId} {k : Bytes}
    (h : PropertyReported A B id k) :
    { kind := .propertyChanged, node := id, key := k, onEdge := false } ∈
      diffEvents A B EA EB := by
  obtain ⟨na, nb, v, hna, hnb, hv, hchanged⟩ := h
  have hchanges : { kind := .propertyChanged, node := id, key := k, onEdge := false } ∈
      nodeChangedEvents A (id, nb) := by
    simp only [nodeChangedEvents, hna]
    apply List.mem_append_right
    exact List.mem_filterMap.mpr ⟨(k, v), OrderedMap.find?_eq_some.mp hv, by simp [hchanged]⟩
  have hmem := List.mem_flatMap.mpr ⟨(id, nb), HashMap.find?_eq_some.mp hnb, hchanges⟩
  simp only [diffEvents, List.mem_append]
  exact Or.inl (Or.inl (Or.inl (Or.inr hmem)))

theorem mem_of_linkReported {source target : TopologyNodeId} (h : LinkReported EA EB source target) :
    { kind := .propertyChanged, node := source, node2 := target, key := str "edge.link",
      onEdge := true } ∈ diffEvents A B EA EB := by
  obtain ⟨e, ea, he, rfl, rfl, hea, hchanged⟩ := h
  apply List.mem_append_right
  exact List.mem_filterMap.mpr ⟨e, he, by simp [hea, hchanged, edgeEvent]⟩

theorem Reported.of_property (h : Reported A B EA EB e) (hkind : e.kind = .propertyChanged)
    (hnode : e.onEdge = false) : e.node2 = kNullNodeId ∧ PropertyReported A B e.node e.key := by
  cases h with
  | property hna hnb hv hchanged => exact ⟨rfl, _, _, _, hna, hnb, hv, hchanged⟩
  | link => cases hnode
  | nodeAdded | nodeRemoved | capabilities | locality | provider | edgeAdded | edgeRemoved =>
    cases hkind

theorem Reported.of_link (h : Reported A B EA EB e) (hkind : e.kind = .propertyChanged)
    (hedge : e.onEdge = true) :
    e.key = str "edge.link" ∧ LinkReported EA EB e.node e.node2 := by
  cases h with
  | property => cases hedge
  | link he hea hchanged => exact ⟨rfl, _, _, he, rfl, rfl, hea, hchanged⟩
  | nodeAdded | nodeRemoved | capabilities | locality | provider | edgeAdded | edgeRemoved =>
    cases hkind

/-- A property change and a link change that tie. -/
private theorem linkTie_of_eventKey {x y : DiffEvent} (hx : Reported A B EA EB x)
    (hy : Reported A B EA EB y) (hkey : eventKey x = eventKey y)
    (hkind : x.kind = .propertyChanged) (hnode : x.onEdge = false) (hedge : y.onEdge = true) :
    LinkTie A B EA EB := by
  obtain ⟨hkinds, hnodes, hnodes2, hkeys, -⟩ := eventKey_inj.mp hkey
  obtain ⟨hnull, hproperty⟩ := hx.of_property hkind hnode
  obtain ⟨hname, hlink⟩ := hy.of_link (hkinds ▸ hkind) hedge
  rw [hkeys, hname] at hproperty
  rw [← hnodes, ← hnodes2, hnull] at hlink
  exact ⟨_, hproperty, hlink⟩

/-- Events that tie and are both about edges, or both about nodes, are the same event. -/
theorem eq_of_eventKey {x y : DiffEvent} (hx : x ∈ diffEvents A B EA EB)
    (hy : y ∈ diffEvents A B EA EB) (hkey : eventKey x = eventKey y) (hedge : x.onEdge = y.onEdge) :
    x = y := by
  obtain ⟨hkind, hnode, hnode2, hname, hbefore⟩ := eventKey_inj.mp hkey
  have hafter : x.after = y.after := by
    rw [(reported_of_mem hx).after_eq, (reported_of_mem hy).after_eq, hkind, hnode]
  cases x
  cases y
  simp only [DiffEvent.mk.injEq]
  exact ⟨hkind, hnode, hnode2, hname, hbefore, hafter, hedge⟩

/-- Events that tie are the same event, unless a property and a link tie. -/
theorem keyInjOn_iff : KeyInjOn eventKey (diffEvents A B EA EB) ↔ ¬ LinkTie A B EA EB := by
  constructor
  · rintro hinj ⟨id, hproperty, hlink⟩
    have hsame := hinj _ (mem_of_propertyReported hproperty) _ (mem_of_linkReported hlink) rfl
    exact Bool.false_ne_true (congrArg DiffEvent.onEdge hsame)
  · intro htie x hx y hy hkey
    have hkind : x.kind = y.kind := (eventKey_inj.mp hkey).1
    have hx' := reported_of_mem hx
    have hy' := reported_of_mem hy
    apply eq_of_eventKey hx hy hkey
    -- only a property of a node and the link facts of an edge can share a key
    by_cases hproperty : x.kind = .propertyChanged
    · cases hxe : x.onEdge <;> cases hye : y.onEdge
      · rfl
      · exact absurd (linkTie_of_eventKey hx' hy' hkey hproperty hxe hye) htie
      · exact absurd (linkTie_of_eventKey hy' hx' hkey.symm (hkind ▸ hproperty) hye hxe) htie
      · rfl
    · rw [hx'.onEdge_eq hproperty, hy'.onEdge_eq (hkind ▸ hproperty), hkind]

end Events

end TopologyFabric

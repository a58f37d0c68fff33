import Mathlib.Data.Sym.Sym2
import TopologyFabric.Diff.EventOrder
import TopologyFabric.Merge.Resources
import TopologyFabric.Runtime.Versions

/-!
# Watching the Published Snapshots

Who compares every published snapshot with the one before it misses nothing. What the comparison of
two snapshots far apart reports was also reported on the way, about the same node or the same two
ends: as the same kind of change, or as a removal, after which the node or the edge has come back.

## Main results

- `events_compose`: a comparison over a snapshot in between
- `published_watched`: what a watcher of a run gets to see
-/

namespace TopologyFabric

open Library

/-! ## Events that account for others -/

/-- An event about the same node, or about links between the same ends, that reports the same kind
of change under the same key, or a removal. -/
structure DiffEvent.AccountsFor (e' e : DiffEvent) : Prop where
  onEdge : e'.onEdge = e.onEdge
  ends : s(e'.node, e'.node2) = s(e.node, e.node2)
  report : (e'.kind = e.kind ∧ e'.key = e.key) ∨ e'.kind = .nodeRemoved ∨ e'.kind = .edgeRemoved

namespace DiffEvent.AccountsFor

variable {e e' e'' : DiffEvent}

theorem refl (e : DiffEvent) : e.AccountsFor e := ⟨rfl, rfl, .inl ⟨rfl, rfl⟩⟩

theorem trans (h : e'.AccountsFor e) (h' : e''.AccountsFor e') : e''.AccountsFor e where
  onEdge := h'.onEdge.trans h.onEdge
  ends := h'.ends.trans h.ends
  report := by
    rcases h'.report with ⟨hkind, hkey⟩ | hremoval
    · rw [hkind, hkey]
      exact h.report
    · exact .inr hremoval

/-- A removal is material, and the same kind of change is as material. -/
theorem material (h : e'.AccountsFor e) (he : isMaterialEvent e = true) :
    isMaterialEvent e' = true := by
  rcases h.report with ⟨hkind, -⟩ | hkind | hkind
  · simp only [isMaterialEvent, hkind, h.onEdge]
    exact he
  · simp only [isMaterialEvent, hkind]
  · simp only [isMaterialEvent, hkind]

end DiffEvent.AccountsFor

/-! ## Two comparisons in a row -/

/-- The values compare equal to the same value. -/
theorem PropertyValue.equal_trans {u v w : PropertyValue} (huv : u.equal v = true)
    (hvw : v.equal w = true) : u.equal w = true := by
  cases u <;> cases v <;> cases w <;>
    simp only [PropertyValue.equal, decide_eq_true_eq, reduceCtorEq, Bool.not_eq_true'] at *
  case double.double.double x y z => exact Double.ne_trans huv hvw
  all_goals exact huv.trans hvw

/-- Edges with one key join the same ends. -/
theorem ends_eq_of_key {e e' : TopologyEdge} (h : e'.key = e.key) :
    s(e'.source, e'.target) = s(e.source, e.target) := by
  have hends : ∀ e : TopologyEdge, s(e.key.source, e.key.target) = s(e.source, e.target) := by
    intro e
    rw [TopologyEdge.key]
    split_ifs
    · exact Sym2.eq_swap
    · rfl
  rw [← hends e', ← hends e, h]

theorem type_eq_of_key {e e' : TopologyEdge} (h : e'.key = e.key) : e'.type = e.type := by
  have htype : ∀ e : TopologyEdge, e.key.type = e.type := by
    intro e
    rw [TopologyEdge.key]
    split_ifs <;> rfl
  rw [← htype e', ← htype e, h]

/-- An event of the loop over one of the edge lists, for the edge that it names. -/
theorem edgeEvent_accountsFor {kind kind' : DiffEventKind} {text text' : Bytes}
    {e e' : TopologyEdge} (hkey : e'.key = e.key)
    (h : (kind' = kind ∧ text' = text) ∨ kind' = .nodeRemoved ∨ kind' = .edgeRemoved) :
    (edgeEvent kind' text' e').AccountsFor (edgeEvent kind text e) :=
  ⟨rfl, ends_eq_of_key hkey, h⟩

section Middle

variable {A B C : NodeMap} {EA EB EC : List TopologyEdge} {e : DiffEvent}

theorem mem_nodeAddedEvents : e ∈ nodeAddedEvents A B ↔ ∃ id n, B.find? id = some n ∧
    id ∉ A.keys ∧ e = { kind := .nodeAdded, node := id, after := n.type.toString } := by
  simp only [nodeAddedEvents, List.mem_filterMap, Prod.exists, HashMap.find?_eq_some]
  refine exists₂_congr fun id n => and_congr_right fun _ => ?_
  rw [← HashMap.contains_iff]
  cases A.contains id <;> simp [eq_comm]

theorem mem_nodeRemovedEvents : e ∈ nodeRemovedEvents A B ↔ ∃ id n, A.find? id = some n ∧
    id ∉ B.keys ∧ e = { kind := .nodeRemoved, node := id, before := n.type.toString } := by
  simp only [nodeRemovedEvents, List.mem_filterMap, Prod.exists, HashMap.find?_eq_some]
  refine exists₂_congr fun id n => and_congr_right fun _ => ?_
  rw [← HashMap.contains_iff]
  cases B.contains id <;> simp [eq_comm]

theorem mem_edgesMissingFrom {kind : DiffEventKind} : e ∈ edgesMissingFrom kind EA EB ↔
    ∃ x ∈ EB, x.key ∉ EA.map TopologyEdge.key ∧ e = edgeEvent kind x.type.toString x := by
  simp only [edgesMissingFrom, List.mem_filterMap]
  refine exists_congr fun x => and_congr_right fun _ => ?_
  split_ifs with h <;> simp [h, eq_comm]

theorem mem_linkChangedEvents : e ∈ linkChangedEvents EA EB ↔ ∃ x ∈ EB, ∃ ea,
    (EA.find? fun ae => ae.key = x.key) = some ea ∧ linkChanged ea x = true ∧
      e = edgeEvent .propertyChanged (str "edge.link") x := by
  simp only [linkChangedEvents, List.mem_filterMap]
  generalize str "edge.link" = text
  refine exists_congr fun x => and_congr_right fun _ => ?_
  cases EA.find? fun ae => ae.key = x.key with
  | none => simp
  | some ea =>
    cases hchanged : linkChanged ea x with
    | false => simp [hchanged]
    | true => simp [hchanged, eq_comm (a := e)]

/-- The events about a node that both snapshots have. -/
theorem mem_changedEvents : e ∈ B.entries.flatMap (nodeChangedEvents A) ↔
    ∃ id na nb, A.find? id = some na ∧ B.find? id = some nb ∧ e ∈ nodeChangedEvents A (id, nb) := by
  simp only [List.mem_flatMap, Prod.exists, HashMap.find?_eq_some]
  constructor
  · rintro ⟨id, nb, hnb, he⟩
    cases hna : A.find? id with
    | none => simp [nodeChangedEvents, hna] at he
    | some na => exact ⟨id, na, nb, HashMap.find?_eq_some.mp hna, hnb, he⟩
  · rintro ⟨id, -, nb, -, hnb, he⟩
    exact ⟨id, nb, hnb, he⟩

/-- What can have changed about a node that both snapshots have. -/
inductive NodeChange (id : TopologyNodeId) (na nb : TopologyNode) : DiffEvent → Prop
  | capabilities (h : na.capabilities ≠ nb.capabilities) :
      NodeChange id na nb { kind := .capabilityChanged, node := id,
                            before := natToString na.capabilities.toNat,
                            after := natToString nb.capabilities.toNat }
  | locality (h : localityChanged na nb = true) :
      NodeChange id na nb { kind := .localityChanged, node := id,
                            before := na.native.canonicalKey, after := nb.native.canonicalKey }
  | provider (h : na.provenance.provider ≠ nb.provenance.provider) :
      NodeChange id na nb { kind := .providerChanged, node := id,
                            before := na.provenance.provider, after := nb.provenance.provider }
  | property {k : Bytes} {v : PropertyValue} (hv : nb.properties.find? k = some v)
      (h : ((na.properties.find? k).any fun va => va.equal v) = false) :
      NodeChange id na nb { kind := .propertyChanged, node := id, key := k, onEdge := false }

theorem mem_nodeChangedEvents {id : TopologyNodeId} {na nb : TopologyNode}
    (hna : A.find? id = some na) :
    e ∈ nodeChangedEvents A (id, nb) ↔ NodeChange id na nb e := by
  simp only [nodeChangedEvents, hna, List.mem_append, List.mem_filterMap]
  -- capabilities, locality, provider, then the properties one by one
  constructor
  · rintro (((he | he) | he) | ⟨⟨k, v⟩, hv, he⟩)
    · split_ifs at he with h
      · exact List.mem_singleton.mp he ▸ .capabilities h
      · exact absurd he List.not_mem_nil
    · split_ifs at he with h
      · exact List.mem_singleton.mp he ▸ .locality h
      · exact absurd he List.not_mem_nil
    · split_ifs at he with h
      · exact List.mem_singleton.mp he ▸ .provider h
      · exact absurd he List.not_mem_nil
    · dsimp only at he
      split_ifs at he with h
      exact Option.some.inj he ▸ .property (OrderedMap.find?_eq_some.mpr hv) (Bool.eq_false_iff.mpr h)
  · rintro (h | h | h | ⟨hv, h⟩)
    · exact .inl (.inl (.inl (by rw [if_pos h]; exact List.mem_singleton_self _)))
    · exact .inl (.inl (.inr (by rw [if_pos h]; exact List.mem_singleton_self _)))
    · exact .inl (.inr (by rw [if_pos h]; exact List.mem_singleton_self _))
    · exact .inr ⟨_, OrderedMap.find?_eq_some.mp hv, by rw [if_neg (Bool.eq_false_iff.mp h)]⟩

/-- A fact of a node that changes over a snapshot in between changes on one side of it. -/
theorem NodeChange.compose {id : TopologyNodeId} {na nc : TopologyNode}
    (h : NodeChange id na nc e) (nb : TopologyNode) :
    ∃ e', e'.AccountsFor e ∧ (NodeChange id na nb e' ∨ NodeChange id nb nc e') := by
  cases h with
  | capabilities h =>
    by_cases hab : na.capabilities = nb.capabilities
    · refine ⟨_, ?_, .inr (.capabilities (hab ▸ h))⟩
      exact ⟨rfl, rfl, .inl ⟨rfl, rfl⟩⟩
    · refine ⟨_, ?_, .inl (.capabilities hab)⟩
      exact ⟨rfl, rfl, .inl ⟨rfl, rfl⟩⟩
  | locality h =>
    cases hab : localityChanged na nb with
    | true =>
      refine ⟨_, ?_, .inl (.locality hab)⟩
      exact ⟨rfl, rfl, .inl ⟨rfl, rfl⟩⟩
    | false =>
      have hbc : localityChanged nb nc = true := by
        simp only [localityChanged, Bool.or_eq_false_iff, decide_eq_false_iff_not, not_not] at hab
        simpa only [localityChanged, hab.1.1, hab.1.2, hab.2] using h
      refine ⟨_, ?_, .inr (.locality hbc)⟩
      exact ⟨rfl, rfl, .inl ⟨rfl, rfl⟩⟩
  | provider h =>
    by_cases hab : na.provenance.provider = nb.provenance.provider
    · refine ⟨_, ?_, .inr (.provider (hab ▸ h))⟩
      exact ⟨rfl, rfl, .inl ⟨rfl, rfl⟩⟩
    · refine ⟨_, ?_, .inl (.provider hab)⟩
      exact ⟨rfl, rfl, .inl ⟨rfl, rfl⟩⟩
  | @property k v hv h =>
    -- the value in the middle, if it is there, is not equal to both
    cases hbc : (nb.properties.find? k).any fun vb => vb.equal v with
    | false => exact ⟨_, .refl _, .inr (.property hv hbc)⟩
    | true =>
      obtain ⟨vb, hvb, hequal⟩ := (Option.any_eq_true _ _).mp hbc
      refine ⟨_, .refl _, .inl (.property hvb ?_)⟩
      rw [Bool.eq_false_iff]
      intro hab
      obtain ⟨va, hva, hequal'⟩ := (Option.any_eq_true _ _).mp hab
      refine Bool.eq_false_iff.mp h ((Option.any_eq_true _ _).mpr ⟨va, hva, ?_⟩)
      exact PropertyValue.equal_trans hequal' hequal

end Middle

section Events

variable {a b c : TopologySnapshot} {e : DiffEvent}

/-- Sorting neither adds an event nor drops one. -/
theorem mem_events_iff : e ∈ (compareSnapshots a b).events ↔
    e ∈ diffEvents a.nodes b.nodes a.edges b.edges :=
  (List.perm_insertionSort _ _).mem_iff

theorem mem_events_cases : e ∈ (compareSnapshots a b).events ↔
    e ∈ nodeAddedEvents a.nodes b.nodes ∨ e ∈ nodeRemovedEvents a.nodes b.nodes ∨
      e ∈ b.nodes.entries.flatMap (nodeChangedEvents a.nodes) ∨
      e ∈ edgesMissingFrom .edgeAdded a.edges b.edges ∨
      e ∈ edgesMissingFrom .edgeRemoved b.edges a.edges ∨
      e ∈ linkChangedEvents a.edges b.edges := by
  rw [mem_events_iff, diffEvents]
  simp only [List.mem_append, or_assoc]

/-- An edge that is missing on one side of a comparison. -/
private theorem missing_compose {kind : DiffEventKind} {EA EC : List TopologyEdge}
    (EB : List TopologyEdge) (h : e ∈ edgesMissingFrom kind EA EC) :
    ∃ e', e'.AccountsFor e ∧
      (e' ∈ edgesMissingFrom kind EA EB ∨ e' ∈ edgesMissingFrom kind EB EC) := by
  obtain ⟨x, hx, hnew, rfl⟩ := mem_edgesMissingFrom.mp h
  by_cases hmem : x.key ∈ EB.map TopologyEdge.key
  · obtain ⟨y, hy, hkey⟩ := List.mem_map.mp hmem
    refine ⟨edgeEvent kind y.type.toString y, ?_, .inl (mem_edgesMissingFrom.mpr ⟨y, hy, ?_, rfl⟩)⟩
    · exact edgeEvent_accountsFor hkey (.inl ⟨rfl, by rw [type_eq_of_key hkey]⟩)
    · rwa [hkey]
  · exact ⟨_, .refl _, .inr (mem_edgesMissingFrom.mpr ⟨x, hx, hmem, rfl⟩)⟩

/-- A link that changes between two lists changes on one side of a list in between, or the edge is
missing there. -/
private theorem link_compose {EA EC : List TopologyEdge} (EB : List TopologyEdge)
    (h : e ∈ linkChangedEvents EA EC) :
    ∃ e', e'.AccountsFor e ∧ (e' ∈ linkChangedEvents EA EB ∨
      e' ∈ edgesMissingFrom .edgeRemoved EB EA ∨ e' ∈ linkChangedEvents EB EC) := by
  obtain ⟨x, hx, ea, hea, hchanged, rfl⟩ := mem_linkChangedEvents.mp h
  by_cases hmem : x.key ∈ EB.map TopologyEdge.key
  · obtain ⟨y, hy, hkey, hfind⟩ := exists_find?_key hmem
    by_cases hbc : linkChanged y x = true
    · exact ⟨_, .refl _, .inr (.inr (mem_linkChangedEvents.mpr ⟨x, hx, y, hfind, hbc, rfl⟩))⟩
    · -- equal to the later link, so the link in the middle differs from the earlier one
      have hab : linkChanged ea y = true := by
        by_contra hab
        have hac := linkChanged_trans (Bool.eq_false_iff.mpr hab) (Bool.eq_false_iff.mpr hbc)
        exact Bool.false_ne_true (hac.symm.trans hchanged)
      have hfind' : (EA.find? fun ae => ae.key = y.key) = some ea := by rw [hkey, hea]
      exact ⟨_, edgeEvent_accountsFor hkey (.inl ⟨rfl, rfl⟩),
        .inl (mem_linkChangedEvents.mpr ⟨y, hy, ea, hfind', hab, rfl⟩)⟩
  · -- the edge was removed and has come back
    have hkey : ea.key = x.key := by simpa using List.find?_some hea
    exact ⟨_, edgeEvent_accountsFor hkey (.inr (.inr rfl)), .inr (.inl (mem_edgesMissingFrom.mpr
      ⟨ea, List.mem_of_find?_eq_some hea, hkey ▸ hmem, rfl⟩))⟩

/-- A node that changes between two maps changes on one side of a map in between, or it is missing
there. -/
private theorem changed_compose {A C : NodeMap} (B : NodeMap)
    (h : e ∈ C.entries.flatMap (nodeChangedEvents A)) :
    ∃ e', e'.AccountsFor e ∧ (e' ∈ B.entries.flatMap (nodeChangedEvents A) ∨
      e' ∈ nodeRemovedEvents A B ∨ e' ∈ C.entries.flatMap (nodeChangedEvents B)) := by
  obtain ⟨id, na, nc, hna, hnc, he⟩ := mem_changedEvents.mp h
  have hchange := (mem_nodeChangedEvents hna).mp he
  cases hnb : B.find? id with
  | some nb =>
    obtain ⟨e', he', hab | hbc⟩ := hchange.compose nb
    · exact ⟨e', he', .inl (mem_changedEvents.mpr
        ⟨id, na, nb, hna, hnb, (mem_nodeChangedEvents hna).mpr hab⟩)⟩
    · exact ⟨e', he', .inr (.inr (mem_changedEvents.mpr
        ⟨id, nb, nc, hnb, hnc, (mem_nodeChangedEvents hnb).mpr hbc⟩))⟩
  | none =>
    -- the node was removed and has come back
    have hmiss : id ∉ B.keys := HashMap.find?_eq_none.mp hnb
    refine ⟨_, ?_, .inr (.inl (mem_nodeRemovedEvents.mpr ⟨id, na, hna, hmiss, rfl⟩))⟩
    cases hchange <;> exact ⟨rfl, rfl, .inr (.inl rfl)⟩

/-- **Comparing over a snapshot in between.** What a comparison reports is accounted for by one of
the two comparisons with the snapshot in the middle. -/
theorem events_compose (b : TopologySnapshot) (h : e ∈ (compareSnapshots a c).events) :
    ∃ e', e'.AccountsFor e ∧
      (e' ∈ (compareSnapshots a b).events ∨ e' ∈ (compareSnapshots b c).events) := by
  simp only [mem_events_cases (a := a) (b := b), mem_events_cases (a := b) (b := c)]
  -- one case for each loop of `compare_snapshots`
  rcases mem_events_cases.mp h with h | h | h | h | h | h
  · obtain ⟨id, n, hn, hnew, rfl⟩ := mem_nodeAddedEvents.mp h
    cases hnb : b.nodes.find? id with
    | some nb =>
      refine ⟨_, ?_, .inl (.inl (mem_nodeAddedEvents.mpr ⟨id, nb, hnb, hnew, rfl⟩))⟩
      exact ⟨rfl, rfl, .inl ⟨rfl, rfl⟩⟩
    | none =>
      have hmiss : id ∉ b.nodes.keys := HashMap.find?_eq_none.mp hnb
      exact ⟨_, .refl _, .inr (.inl (mem_nodeAddedEvents.mpr ⟨id, n, hn, hmiss, rfl⟩))⟩
  · obtain ⟨id, n, hn, hgone, rfl⟩ := mem_nodeRemovedEvents.mp h
    cases hnb : b.nodes.find? id with
    | some nb =>
      refine ⟨_, ?_, .inr (.inr (.inl (mem_nodeRemovedEvents.mpr ⟨id, nb, hnb, hgone, rfl⟩)))⟩
      exact ⟨rfl, rfl, .inl ⟨rfl, rfl⟩⟩
    | none =>
      have hmiss : id ∉ b.nodes.keys := HashMap.find?_eq_none.mp hnb
      exact ⟨_, .refl _, .inl (.inr (.inl (mem_nodeRemovedEvents.mpr ⟨id, n, hn, hmiss, rfl⟩)))⟩
  · obtain ⟨e', he', h | h | h⟩ := changed_compose b.nodes h
    all_goals exact ⟨e', he', by simp [h]⟩
  · obtain ⟨e', he', h | h⟩ := missing_compose b.edges h
    all_goals exact ⟨e', he', by simp [h]⟩
  · obtain ⟨e', he', h | h⟩ := missing_compose b.edges h
    all_goals exact ⟨e', he', by simp [h]⟩
  · obtain ⟨e', he', h | h | h⟩ := link_compose b.edges h
    all_goals exact ⟨e', he', by simp [h]⟩

end Events

/-! ## Runs -/

section Runs

variable {bounds : Bounds} {s : RuntimeState}

/-- **A watcher misses nothing.** In any interleaving of any number of threads, whatever the
comparison of two published snapshots reports, however far apart they are, is accounted for by the
comparison of some snapshot in between with the one published before it; and if the report is
material, the generation went up there. -/
theorem published_watched (h : Reachable bounds s) {i n : ℕ} {a b : TopologySnapshot}
    (ha : s.history.published[i]? = some a) (hb : s.history.published[i + (n + 1)]? = some b)
    {e : DiffEvent} (he : e ∈ (compareSnapshots a b).events) :
    ∃ k ≤ n, ∃ x y, s.history.published[i + k]? = some x ∧
      s.history.published[i + k + 1]? = some y ∧
      ∃ e' ∈ (compareSnapshots x y).events, e'.AccountsFor e ∧
        (isMaterialEvent e = true → y.metadata.generation = x.metadata.generation + 1) := by
  obtain ⟨k, hk, x, y, hx, hy, e', haccounts, he'⟩ := exists_step_of_composed
    (fun x y e => e ∈ (compareSnapshots x y).events) DiffEvent.AccountsFor
    (fun _ y _ _ he => events_compose y he) .refl (fun _ _ _ h h' => h.trans h') ha hb he
  refine ⟨k, hk, x, y, hx, hy, e', he', haccounts, fun hmaterial => ?_⟩
  have hchanged : materiallyChanged x y = true :=
    List.any_eq_true.mpr ⟨e', he', haccounts.material hmaterial⟩
  have hstep := h.versioned (i + k) x y hx hy
  rwa [if_pos hchanged] at hstep

end Runs

/-- Two devices are found by the second of three calls, and the first and the last of the published
snapshots are compared. -/
theorem published_watched_shared : ∃ s a b e, Reachable {} s ∧
    s.history.published[0]? = some a ∧ s.history.published[0 + (1 + 1)]? = some b ∧
    e ∈ (compareSnapshots a b).events ∧
    ∃ k ≤ 1, ∃ x y, s.history.published[0 + k]? = some x ∧
      s.history.published[0 + k + 1]? = some y ∧
      ∃ e' ∈ (compareSnapshots x y).events, e'.AccountsFor e ∧
        (isMaterialEvent e = true → y.metadata.generation = x.metadata.generation + 1) := by
  obtain ⟨s, snap₁, snap₂, snap₃, hreach, hpublished, hgraph₁, -, hgraph₃⟩ := exists_three_calls
  have hfirst : s.history.published[0]? = some snap₁ := by rw [hpublished]; rfl
  have hlast : s.history.published[0 + (1 + 1)]? = some snap₃ := by rw [hpublished]; rfl
  -- the first snapshot is empty and the last one is not
  have hempty : snap₁.nodes.entries = [] := List.perm_nil.mp hgraph₁.1
  obtain ⟨⟨id, n⟩, hn⟩ : ∃ x, x ∈ snap₃.nodes.entries := by
    apply List.exists_mem_of_ne_nil
    intro hnil
    have hfound : (graphBuilder {} (gather .insertion {} foundDevices)).nodes.entries = [] :=
      List.nil_perm.mp (hnil ▸ hgraph₃.1)
    revert hfound
    decide +kernel
  have he : ({ kind := .nodeAdded, node := id, after := n.type.toString } : DiffEvent) ∈
      (compareSnapshots snap₁ snap₃).events :=
    mem_events_cases.mpr (.inl (mem_nodeAddedEvents.mpr
      ⟨id, n, HashMap.find?_eq_some.mpr hn, by simp [HashMap.keys, hempty], rfl⟩))
  exact ⟨s, snap₁, snap₃, _, hreach, hfirst, hlast, he, published_watched hreach hfirst hlast he⟩

end TopologyFabric

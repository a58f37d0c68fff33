import TopologyFabric.Query.Lookups
import TopologyFabric.Query.Metric
import TopologyFabric.Runtime.Attach

/-!
# Readers of a Running System

Threads discover and read in any interleaving. As long as no provider run reports more distinct
resources than nodes are allowed, or a latency below zero, every snapshot that is ever published is
made of one gathered graph as a whole, no edge of it dangles, and every query that a reader asks of
it returns.

## Main results

- `gather_safe`: the gathered graph is closed
- `TractableSteps.preserves`: what one step of any thread keeps
- `published_serves`: what any reader gets in any run
-/

namespace TopologyFabric

open Library Relation

/-! ## One gathered graph -/

/-- There is room for what the providers report, and no latency is below zero. -/
structure Tractable (bounds : Bounds) (results : List ProviderResult) : Prop where
  nodes : WithinNodes bounds (results.map ProviderResult.contribution)
  latencies : ∀ ce ∈ contributedEdges (results.map ProviderResult.contribution),
    ∀ l, ce.latencyNs = some l → l.NotNeg

/-- A graph that a snapshot can be built of without loss of nodes: within the bound, keyed by the
ids, without dangling edges and without latencies below zero. -/
structure SafeGraph (bounds : Bounds) (g : Gathered) : Prop where
  keyed : ∀ e ∈ g.nodes.entries, e.2.id = e.1
  size_le : g.nodes.size ≤ bounds.maxNodes
  closed : ∀ e ∈ g.edges, e.source ∈ g.nodes.keys ∧ e.target ∈ g.nodes.keys
  latencies : ∀ e ∈ g.edges, ∀ l, e.latencyNs = some l → l.NotNeg

section Graph

variable {order : IterationOrder} {bounds : Bounds} {results : List ProviderResult}

/-- Within the node bound the merged edges join merged nodes. -/
theorem mergedEdges_closed {contributions : List Contribution}
    (hnodes : WithinNodes bounds contributions) {e : TopologyEdge}
    (he : e ∈ (mergeContributions order contributions bounds).edges) :
    e.source ∈ (mergeContributions order contributions bounds).nodes.keys ∧
      e.target ∈ (mergeContributions order contributions bounds).nodes.keys := by
  rw [mergeEdges_eq] at he
  obtain ⟨ce, hce, rfl⟩ := List.mem_map.mp ((dedupEdges_sublist _).subset he)
  apply mergedEdge_endpoints hce
  -- there is room for all groups
  rintro ⟨key, hnames, hdropped⟩
  have hkey : key ∈ groupKeys bounds contributions :=
    hnames.elim (refGroup_mem order bounds contributions) (refGroup_mem order bounds contributions)
  exact not_groupDropped hnodes ((mem_groupKeys_within hnodes).mp hkey) hdropped

/-- The machine and the resources that are placed under it are nodes. -/
theorem attachedEdge_closed {nodes : NodeMap} {edges : List TopologyEdge} {id : TopologyNodeId}
    (hid : id ∈ attachedIds nodes edges) : machineIdOf nodes ∈ nodes.keys ∧ id ∈ nodes.keys := by
  unfold attachedIds at hid
  split_ifs at hid with hmachine
  · exact absurd hid List.not_mem_nil
  · obtain ⟨e, he, rfl⟩ := List.mem_map.mp hid
    refine ⟨?_, HashMap.mem_keys_of_mem (List.mem_filter.mp he).1⟩
    unfold machineIdOf at hmachine ⊢
    cases hfind : findMachine nodes with
    | none => exact absurd (by rw [hfind]; rfl) hmachine
    | some m => exact HashMap.mem_keys_of_mem (List.mem_of_find?_eq_some hfind)

/-- **What is gathered is closed.** -/
theorem gather_safe (h : Tractable bounds results) :
    SafeGraph bounds (gather order bounds results) where
  keyed e he := mergeContributions_keyed e (HashMap.mem_reorder.mp he)
  size_le := by
    show ((mergeContributions _ _ _).nodes.reorder order).size ≤ _
    rw [HashMap.size, HashMap.reorder, (order.perm _ _).length_eq]
    exact mergeContributions_bounds.1
  closed e he := by
    have he' : e ∈ attachToMachine
      ((mergeContributions order (results.map ProviderResult.contribution) bounds).nodes.reorder
        order) (mergeContributions order (results.map ProviderResult.contribution) bounds).edges := he
    rw [attachToMachine_eq] at he'
    rcases List.mem_append.mp he' with he' | he'
    · have hends := mergedEdges_closed h.nodes he'
      exact ⟨HashMap.mem_keys_reorder.mpr hends.1, HashMap.mem_keys_reorder.mpr hends.2⟩
    · obtain ⟨id, hid, rfl⟩ := List.mem_map.mp he'
      exact attachedEdge_closed hid
  latencies e he l hl := by
    have he' : e ∈ attachToMachine
      ((mergeContributions order (results.map ProviderResult.contribution) bounds).nodes.reorder
        order) (mergeContributions order (results.map ProviderResult.contribution) bounds).edges := he
    rw [attachToMachine_eq] at he'
    rcases List.mem_append.mp he' with he' | he'
    · obtain ⟨ce, hce, rfl⟩ := exists_contributedEdge he'
      exact h.latencies ce hce l hl
    · -- an edge to the machine has no latency
      obtain ⟨id, -, rfl⟩ := List.mem_map.mp he'
      exact absurd hl (by simp [machineAttachEdge])

end Graph

/-! ## One snapshot -/

/-- The snapshot is made of one safe graph. -/
def MadeOfOne (bounds : Bounds) (snap : TopologySnapshot) : Prop :=
  ∃ g, SafeGraph bounds g ∧ HasGraph bounds g snap

/-- A reader can ask the snapshot whatever it likes. -/
structure Serves (snap : TopologySnapshot) : Prop where
  closed : snap.NoDanglingEdges
  queries : ∀ w : CostWeights, w.Nonneg → ∀ a b, QueriesReturn snap a b w
  localities : ∀ a b, snap.Present a → snap.Present b →
    Finishes fun fuel => localityBetween fuel snap a b
  classes : ∀ a b, snap.Present a → snap.Present b →
    Finishes fun fuel => classifyPath fuel snap a b

section Snapshot

variable {bounds : Bounds} {snap : TopologySnapshot}

theorem HasGraph.present_iff {g : Gathered} (hsafe : SafeGraph bounds g)
    (h : HasGraph bounds g snap) {id : TopologyNodeId} : snap.Present id ↔ id ∈ g.nodes.keys := by
  have hperm := h.1
  rw [graphBuilder_entries hsafe.keyed hsafe.size_le] at hperm
  rw [TopologySnapshot.Present, TopologySnapshot.findNode, Option.isSome_iff_exists,
    HashMap.mem_keys_iff]
  simp only [HashMap.find?_eq_some, hperm.mem_iff]

theorem HasGraph.edges_subset {g : Gathered} (h : HasGraph bounds g snap) {e : TopologyEdge}
    (he : e ∈ snap.edges) : e ∈ g.edges := by
  rw [h.2, graphBuilder_edges] at he
  exact List.mem_of_mem_take he

theorem MadeOfOne.noDanglingEdges (h : MadeOfOne bounds snap) : snap.NoDanglingEdges := by
  obtain ⟨g, hsafe, hgraph⟩ := h
  intro e he
  have hends := hsafe.closed e (hgraph.edges_subset he)
  exact ⟨(hgraph.present_iff hsafe).mpr hends.1, (hgraph.present_iff hsafe).mpr hends.2⟩

/-- Where no edge dangles, the lookups of the searches succeed. -/
theorem lookupsSucceed_of_closed (hd : snap.NoDanglingEdges) : LookupsSucceed snap where
  edges _ _ _ _ _ := linksStay_iff.mp hd.linksStay
  collocation a b hops ha _ hfirst hop hhop := by
    obtain ⟨e, he, hj⟩ := (isRoute_iff_isWalk.mpr hfirst.isWalk).edge_of_mem hop hhop
    exact hd.joins he hj

/-- **A snapshot of one safe graph serves its readers.** -/
theorem MadeOfOne.serves (h : MadeOfOne bounds snap) : Serves snap where
  closed := h.noDanglingEdges
  queries w hw a b := by
    have hlatencies : LatenciesNotNeg snap := by
      obtain ⟨g, hsafe, hgraph⟩ := h
      intro e he _ _ _ l hl
      exact hsafe.latencies e (hgraph.edges_subset he) l hl
    have hcost := costsNotNeg_of_latencies binary64_isRounding hw hlatencies
    exact (lookupsSucceed_of_closed h.noDanglingEdges).queriesReturn hcost a b
  localities a b ha hb := localityBetween_finishes fun _ => ⟨ha, hb⟩
  classes a b ha hb := classifyPath_finishes (fun _ => ⟨ha, hb⟩)
    fun _ => h.noDanglingEdges.parents_present a .contains

end Snapshot

/-! ## Runs -/

/-- One step of some thread, where a call that gathers gets tractable reports. -/
def TractableSteps (bounds : Bounds) (s s' : RuntimeState) : Prop :=
  ∃ t, Step bounds s t s' ∧ ∀ g, s.phase t = .entered → s'.phase t = .gathered g →
    ∃ order results, g = gather order bounds results ∧ Tractable bounds results

/-- What a thread holds in a phase of its call. -/
def PhaseSafe (bounds : Bounds) : Phase → Prop
  | .idle => True
  | .entered => True
  | .gathered g => SafeGraph bounds g
  | .loaded g _ => SafeGraph bounds g
  | .provisional g _ _ => SafeGraph bounds g
  | .decided g _ => SafeGraph bounds g
  | .built snap => MadeOfOne bounds snap
  | .published snap => MadeOfOne bounds snap

/-- Whatever a thread holds, and whatever has been published, is made of one safe graph. -/
structure SafeRuntime (bounds : Bounds) (s : RuntimeState) : Prop where
  phases : ∀ t, PhaseSafe bounds (s.phase t)
  published : ∀ snap ∈ s.history.published, MadeOfOne bounds snap

section Runs

variable {bounds : Bounds} {s s' : RuntimeState} {t : Thread}

theorem SafeRuntime.moved (h : SafeRuntime bounds s) {p : Phase} (hp : PhaseSafe bounds p)
    (hphase : s'.phase = Function.update s.phase t p)
    (hpublished : s'.history.published = s.history.published) : SafeRuntime bounds s' where
  phases t' := by
    rw [hphase]
    by_cases hne : t' = t
    · rw [hne, Function.update_self]
      exact hp
    · rw [Function.update_of_ne hne]
      exact h.phases t'
  published snap hsnap := h.published snap (hpublished ▸ hsnap)

/-- **Every step keeps it**: a thread passes on what it holds, and what it builds is made of that
alone. -/
theorem TractableSteps.preserves (hsteps : TractableSteps bounds s s') (h : SafeRuntime bounds s) :
    SafeRuntime bounds s' := by
  obtain ⟨t, hstep, htractable⟩ := hsteps
  have hphase := h.phases t
  cases hstep with
  | enter _ _ => exact h.moved (t := t) (p := .entered) trivial rfl rfl
  | gather hentered order results =>
    obtain ⟨order', results', hg, hresults⟩ :=
      htractable _ hentered (Function.update_self ..)
    refine h.moved (t := t) (p := .gathered (gather order bounds results)) ?_ rfl rfl
    show SafeGraph bounds (gather order bounds results)
    rw [hg]
    exact gather_safe hresults
  | load hgathered =>
    rw [hgathered] at hphase
    exact h.moved (t := t) (p := .loaded _ _) hphase rfl rfl
  | firstGeneration hloaded =>
    rw [hloaded] at hphase
    exact h.moved (t := t) (p := .decided _ _) hphase rfl rfl
  | buildProvisional hloaded inp _ =>
    rw [hloaded] at hphase
    exact h.moved (t := t) (p := .provisional _ _ _) hphase rfl rfl
  | decide hprovisional =>
    rw [hprovisional] at hphase
    exact h.moved (t := t) (p := .decided _ _) hphase rfl rfl
  | @build g gen snap hdecided inp hbuild =>
    rw [hdecided] at hphase
    obtain ⟨hnodes, hedges, -⟩ := buildSnapshot_graph hbuild
    exact h.moved (t := t) (p := .built snap) ⟨g, hphase, hnodes, hedges⟩ rfl rfl
  | @publish snap hbuilt =>
    rw [hbuilt] at hphase
    have hmoved : SafeRuntime bounds { s with
        phase := Function.update s.phase t (.published snap) } :=
      h.moved (t := t) (p := .published snap) hphase rfl rfl
    refine ⟨hmoved.phases, fun snap' hsnap' => ?_⟩
    rcases List.mem_append.mp hsnap' with hold | hnew
    · exact h.published snap' hold
    · rw [List.mem_singleton.mp hnew]
      exact hphase
  | leave _ => exact h.moved (t := t) (p := .idle) trivial rfl rfl
  | throwing _ _ _ => exact h.moved (t := t) (p := .idle) trivial rfl rfl
  | read _ => exact ⟨h.phases, h.published⟩

end Runs

theorem tractable_shared : Tractable {} (sharedDevice.map .returned) := by
  constructor
  · decide +kernel
  · intro ce hce
    exact absurd hce List.not_mem_nil

end TopologyFabric

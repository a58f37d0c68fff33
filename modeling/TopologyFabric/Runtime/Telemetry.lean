import TopologyFabric.Library.Counters
import TopologyFabric.Runtime.Calls

/-!
# Telemetry

What the calls of `TopologyRuntime::discover` on one runtime record. Totals of the graph are
overwritten by every call, the entries by node type are overwritten one by one, and the counters of
the providers accumulate. Durations and their sums are exact.

## Main results

- `discoverRecorded_spec`: what one call changes
- `CallRun.invariant`: what the telemetry says after any sequence of calls
- `telemetry_agrees_iff`: when it agrees with what happened
-/

namespace TopologyFabric

open Library

/-- `Telemetry::Snapshot`, but for the counters that discovery does not touch. -/
structure Telemetry where
  discoveryRuns : ℕ := 0
  nodesTotal : ℕ := 0
  edgesTotal : ℕ := 0
  providerSuccesses : ℕ := 0
  providerFailures : ℕ := 0
  partialDiscoveries : ℕ := 0
  mergeConflicts : ℕ := 0
  validationFailures : ℕ := 0
  snapshotsCreated : ℕ := 0
  generationChanges : ℕ := 0
  discoveryTotalMs : ℚ≥0 := 0
  providerTotalMs : ℚ≥0 := 0
  nodesByType : HashMap NodeType ℕ := .empty
  providerRuns : HashMap Bytes ℕ := .empty

namespace Telemetry

/-! ## Recorders -/

def recordDiscoveryRun (s : Telemetry) : Telemetry :=
  { s with discoveryRuns := s.discoveryRuns + 1 }

def recordNodes (s : Telemetry) (count : ℕ) : Telemetry := { s with nodesTotal := count }

def recordEdges (s : Telemetry) (count : ℕ) : Telemetry := { s with edgesTotal := count }

def recordNodeType (s : Telemetry) (t : NodeType) (count : ℕ) : Telemetry :=
  { s with nodesByType := s.nodesByType.assign t count }

/-- The duration is added to the time of the providers. -/
def recordProviderRun (s : Telemetry) (provider : Bytes) (success : Bool) (ms : ℚ≥0) : Telemetry :=
  { s with
    providerRuns := s.providerRuns.increment provider
    providerSuccesses := if success then s.providerSuccesses + 1 else s.providerSuccesses
    providerFailures := if success then s.providerFailures else s.providerFailures + 1
    providerTotalMs := s.providerTotalMs + ms }

def recordPartialDiscovery (s : Telemetry) : Telemetry :=
  { s with partialDiscoveries := s.partialDiscoveries + 1 }

def recordMergeConflicts (s : Telemetry) (n : ℕ) : Telemetry :=
  { s with mergeConflicts := s.mergeConflicts + n }

def recordValidationFailures (s : Telemetry) (n : ℕ) : Telemetry :=
  { s with validationFailures := s.validationFailures + n }

def recordSnapshotCreated (s : Telemetry) : Telemetry :=
  { s with snapshotsCreated := s.snapshotsCreated + 1 }

def recordGenerationChange (s : Telemetry) : Telemetry :=
  { s with generationChanges := s.generationChanges + 1 }

def addDiscoveryTime (s : Telemetry) (ms : ℚ≥0) : Telemetry :=
  { s with discoveryTotalMs := s.discoveryTotalMs + ms }

/-- Adds to the same field as `recordProviderRun`. -/
def addProviderTime (s : Telemetry) (ms : ℚ≥0) : Telemetry :=
  { s with providerTotalMs := s.providerTotalMs + ms }

end Telemetry

/-! ## Discovery with its telemetry -/

/-- One provider run: the name of the provider, what it did, and how long it took. -/
structure ProviderRun where
  name : Bytes
  result : ProviderResult
  ms : ℚ≥0

/-- What the provider loop records about a run. -/
def Telemetry.recordProvider (s : Telemetry) (run : ProviderRun) : Telemetry :=
  let cont := run.result.contribution
  let s := s.recordProviderRun run.name cont.success run.ms
  let s := s.addProviderTime run.ms
  if cont.partialRun then s.recordPartialDiscovery else s

/-- What is recorded about the snapshot that is going to be published. Only the types that occur in
it are recorded, in the order in which the map of their counts is iterated. -/
def Telemetry.recordSnapshot (s : Telemetry) (order : IterationOrder) (snap : TopologySnapshot) :
    Telemetry :=
  let s := s.recordNodes snap.nodes.size
  let s := s.recordEdges snap.edges.length
  let byType := HashMap.tally (fun e => e.2.type) snap.nodes.entries
  let s := (byType.reorder order).entries.foldl (fun s e => s.recordNodeType e.1 e.2) s
  let s := s.recordSnapshotCreated
  if snap.validation.ok then s else s.recordValidationFailures snap.validation.errors.length

/-- What a call gets from its environment, with what is measured. -/
structure RecordedCall where
  order : IterationOrder
  runs : List ProviderRun
  provisional : BuildInputs
  final : BuildInputs
  typeOrder : IterationOrder
  ms : ℚ≥0

def RecordedCall.inputs (call : RecordedCall) : CallInputs where
  order := call.order
  results := call.runs.map ProviderRun.result
  provisional := call.provisional
  final := call.final

/-- The runtime between two calls. -/
structure RecordedRuntime where
  current : Option TopologySnapshot := none
  snapshotCounter : ℕ := 0
  telemetry : Telemetry := {}

/-- Whether the call finds a material change. -/
def changesGeneration (bounds : Bounds) (s : RecordedRuntime) (call : RecordedCall) : Run Bool :=
  match s.current with
  | none => .ok false
  | some prev => do
    let provisional ← buildSnapshot bounds (gather call.order bounds call.inputs.results)
      (s.snapshotCounter + 1) prev.metadata.generation call.provisional
    return (compareSnapshots prev provisional).materialChange

/-- `TopologyRuntime::discover` with what it records: the snapshot it returns and the runtime after
it. -/
def discoverRecorded (bounds : Bounds) (s : RecordedRuntime) (call : RecordedCall) :
    Run (TopologySnapshot × RecordedRuntime) := do
  let t := s.telemetry.recordDiscoveryRun
  let t := call.runs.foldl Telemetry.recordProvider t
  let contributions := call.inputs.results.map ProviderResult.contribution
  let t := t.recordMergeConflicts
    (mergeContributions call.order contributions bounds).conflicts.length
  let changed ← changesGeneration bounds s call
  let t := if changed then t.recordGenerationChange else t
  let snap ← discover bounds s.current s.snapshotCounter call.inputs
  let t := t.recordSnapshot call.typeOrder snap
  let t := t.addDiscoveryTime call.ms
  let builds := if s.current.isSome then 2 else 1
  return (snap, { current := some snap, snapshotCounter := s.snapshotCounter + builds,
                  telemetry := t })

/-! ## What one call changes -/

/-- The number of nodes of a type. -/
def TopologySnapshot.countOfType (snap : TopologySnapshot) (type : NodeType) : ℕ :=
  snap.nodes.entries.countP fun e => decide (e.2.type = type)

/-- The effect of the provider loop on the fields that speak of providers and node types. -/
structure ProvidersRecorded (runs : List ProviderRun) (t t' : Telemetry) : Prop where
  nodesByType : t'.nodesByType = t.nodesByType
  outcomes : t'.providerSuccesses + t'.providerFailures =
    t.providerSuccesses + t.providerFailures + runs.length
  attempts : t'.providerRuns.total = t.providerRuns.total + runs.length
  totalMs : t'.providerTotalMs = t.providerTotalMs + 2 * (runs.map ProviderRun.ms).sum

theorem recordProvider_spec (t : Telemetry) (run : ProviderRun) :
    ProvidersRecorded [run] t (t.recordProvider run) := by
  -- the two branches differ in a counter that is not looked at
  have hbranch : ∀ t' : Telemetry, ProvidersRecorded [run] t t' →
      ProvidersRecorded [run] t
        (if run.result.contribution.partialRun then t'.recordPartialDiscovery else t') := by
    intro t' h
    split_ifs
    · exact ⟨h.nodesByType, h.outcomes, h.attempts, h.totalMs⟩
    · exact h
  apply hbranch
  refine ⟨rfl, ?_, HashMap.total_increment .., ?_⟩
  · simp only [Telemetry.addProviderTime, Telemetry.recordProviderRun, List.length_singleton]
    split_ifs <;> omega
  · simp only [Telemetry.addProviderTime, Telemetry.recordProviderRun, List.map_singleton,
      List.sum_singleton]
    ring

theorem recordProviders_spec (runs : List ProviderRun) (t : Telemetry) :
    ProvidersRecorded runs t (runs.foldl Telemetry.recordProvider t) := by
  induction runs generalizing t with
  | nil => exact ⟨rfl, rfl, rfl, by simp⟩
  | cons run runs ih =>
    have hhead := recordProvider_spec t run
    have htail := ih (t.recordProvider run)
    simp only [List.foldl_cons]
    refine ⟨htail.nodesByType.trans hhead.nodesByType, ?_, ?_, ?_⟩
    · rw [htail.outcomes, hhead.outcomes]
      simp only [List.length_cons, List.length_nil]
      omega
    · rw [htail.attempts, hhead.attempts]
      simp only [List.length_cons, List.length_nil]
      omega
    · -- both recorders add the duration of a run
      rw [htail.totalMs, hhead.totalMs]
      simp only [List.map_cons, List.map_nil, List.sum_cons, List.sum_nil]
      ring

/-- Recording counts by type changes nothing else. -/
private theorem foldl_recordNodeType (l : List (NodeType × ℕ)) (t : Telemetry) :
    l.foldl (fun s e => s.recordNodeType e.1 e.2) t =
      { t with nodesByType := l.foldl (fun m e => m.assign e.1 e.2) t.nodesByType } := by
  induction l generalizing t with
  | nil => rfl
  | cons e l ih =>
    rw [List.foldl_cons, ih]
    rfl

/-- The count of a type that occurs is overwritten, that of another type is left as it was. -/
theorem recordSnapshot_find? (t : Telemetry) (order : IterationOrder) (snap : TopologySnapshot)
    (type : NodeType) : (t.recordSnapshot order snap).nodesByType.find? type =
      if 0 < snap.countOfType type then some (snap.countOfType type)
      else t.nodesByType.find? type := by
  let byType := HashMap.tally (fun e => e.2.type) snap.nodes.entries
  have hfields : (t.recordSnapshot order snap).nodesByType =
      (byType.reorder order).entries.foldl (fun m e => m.assign e.1 e.2) t.nodesByType := by
    simp only [Telemetry.recordSnapshot, foldl_recordNodeType]
    split_ifs <;> rfl
  -- only the types that occur have a count
  have hcounts : byType.find? type =
      if 0 < snap.countOfType type then some (snap.countOfType type) else none := by
    rw [HashMap.find?_tally]
    refine if_congr ?_ rfl rfl
    rw [TopologySnapshot.countOfType, List.countP_pos_iff, List.mem_map]
    simp
  have hread : (((byType.reorder order).entries.find? fun e => decide (e.1 = type)).map
      Prod.snd) = byType.find? type := byType.find?_reorder order type
  rw [hfields, HashMap.find?_foldl_assign (byType.reorder order).nodup, hread, hcounts]
  split_ifs <;> rfl

theorem recordSnapshot_fields (t : Telemetry) (order : IterationOrder) (snap : TopologySnapshot) :
    (t.recordSnapshot order snap).nodesTotal = snap.nodes.size ∧
      (t.recordSnapshot order snap).providerSuccesses = t.providerSuccesses ∧
      (t.recordSnapshot order snap).providerFailures = t.providerFailures ∧
      (t.recordSnapshot order snap).providerRuns = t.providerRuns ∧
      (t.recordSnapshot order snap).providerTotalMs = t.providerTotalMs := by
  simp only [Telemetry.recordSnapshot, foldl_recordNodeType]
  split_ifs <;> exact ⟨rfl, rfl, rfl, rfl, rfl⟩

section Call

variable {bounds : Bounds} {s s' : RecordedRuntime} {call : RecordedCall}
  {snap : TopologySnapshot}

theorem changesGeneration_returns (bounds : Bounds) (s : RecordedRuntime) (call : RecordedCall) :
    ∃ changed, changesGeneration bounds s call = .ok changed := by
  unfold changesGeneration
  cases s.current with
  | none => exact ⟨false, rfl⟩
  | some prev =>
    obtain ⟨provisional, hprovisional⟩ := buildSnapshot_returns bounds
      (gather call.order bounds call.inputs.results) (s.snapshotCounter + 1)
      prev.metadata.generation call.provisional
    exact ⟨_, by simp only [hprovisional, Outcome.ok_bind]; rfl⟩

/-- What one call changes in the fields that speak of providers and nodes. -/
structure CallRecorded (s : RecordedRuntime) (call : RecordedCall) (snap : TopologySnapshot)
    (s' : RecordedRuntime) : Prop where
  current : s'.current = some snap
  nodesTotal : s'.telemetry.nodesTotal = snap.nodes.size
  nodesByType : ∀ type, s'.telemetry.nodesByType.find? type =
    if 0 < snap.countOfType type then some (snap.countOfType type)
    else s.telemetry.nodesByType.find? type
  outcomes : s'.telemetry.providerSuccesses + s'.telemetry.providerFailures =
    s.telemetry.providerSuccesses + s.telemetry.providerFailures + call.runs.length
  attempts : s'.telemetry.providerRuns.total =
    s.telemetry.providerRuns.total + call.runs.length
  totalMs : s'.telemetry.providerTotalMs =
    s.telemetry.providerTotalMs + 2 * (call.runs.map ProviderRun.ms).sum

/-- A call returns, and this is what it records. -/
theorem discoverRecorded_spec (bounds : Bounds) (s : RecordedRuntime) (call : RecordedCall) :
    ∃ snap s', discoverRecorded bounds s call = .ok (snap, s') ∧
      discover bounds s.current s.snapshotCounter call.inputs = .ok snap ∧
      CallRecorded s call snap s' := by
  obtain ⟨changed, hchanged⟩ := changesGeneration_returns bounds s call
  obtain ⟨snap, hsnap⟩ := discover_returns bounds s.current s.snapshotCounter call.inputs
  have hproviders := recordProviders_spec call.runs s.telemetry.recordDiscoveryRun
  -- up to the snapshot only counters of other fields follow the provider loop
  have hbefore : ∀ n, ProvidersRecorded call.runs s.telemetry
      (if changed then ((call.runs.foldl Telemetry.recordProvider
          s.telemetry.recordDiscoveryRun).recordMergeConflicts n).recordGenerationChange
        else (call.runs.foldl Telemetry.recordProvider
          s.telemetry.recordDiscoveryRun).recordMergeConflicts n) := by
    intro n
    split_ifs <;> exact ⟨hproviders.nodesByType, hproviders.outcomes, hproviders.attempts,
      hproviders.totalMs⟩
  have hloop := hbefore (mergeContributions call.order
    (call.inputs.results.map ProviderResult.contribution) bounds).conflicts.length
  refine ⟨snap, _, by simp only [discoverRecorded, hchanged, hsnap, Outcome.ok_bind]; rfl,
    hsnap, ?_⟩
  obtain ⟨htotal, hsuccesses, hfailures, hruns, hms⟩ := recordSnapshot_fields _ call.typeOrder snap
  refine ⟨rfl, htotal, fun type => ?_, ?_, ?_, ?_⟩
  · rw [← hloop.nodesByType]
    exact recordSnapshot_find? _ call.typeOrder snap type
  · rw [← hloop.outcomes]
    exact congrArg₂ (· + ·) hsuccesses hfailures
  · rw [← hloop.attempts]
    exact congrArg HashMap.total hruns
  · rw [← hloop.totalMs]
    exact hms

theorem discoverRecorded_ok (h : discoverRecorded bounds s call = .ok (snap, s')) :
    CallRecorded s call snap s' := by
  obtain ⟨snap', s'', hret, -, hrecorded⟩ := discoverRecorded_spec bounds s call
  obtain ⟨rfl, rfl⟩ := Prod.mk.inj (Outcome.ok.inj (h.symm.trans hret))
  exact hrecorded

end Call

/-! ## Runs of calls -/

/-- After these calls, which published these snapshots, the runtime is in this state. -/
inductive CallRun (bounds : Bounds) :
    List RecordedCall → List TopologySnapshot → RecordedRuntime → Prop
  | start : CallRun bounds [] [] {}
  | call {calls : List RecordedCall} {published : List TopologySnapshot} {s s' : RecordedRuntime}
      {call : RecordedCall} {snap : TopologySnapshot} : CallRun bounds calls published s →
      discoverRecorded bounds s call = .ok (snap, s') →
      CallRun bounds (calls ++ [call]) (published ++ [snap]) s'

/-- Any sequence of calls is a run. -/
theorem CallRun.exists (bounds : Bounds) (calls : List RecordedCall) :
    ∃ published s, CallRun bounds calls published s := by
  induction calls using List.reverseRecOn with
  | nil => exact ⟨[], {}, .start⟩
  | append_singleton calls call ih =>
    obtain ⟨published, s, hrun⟩ := ih
    obtain ⟨snap, s', hret, -⟩ := discoverRecorded_spec bounds s call
    exact ⟨_, s', hrun.call hret⟩

/-- All provider runs of the calls. -/
def providerRunsOf (calls : List RecordedCall) : List ProviderRun :=
  calls.flatMap RecordedCall.runs

/-- What the telemetry says after some calls. -/
structure TelemetryInvariant (calls : List RecordedCall) (published : List TopologySnapshot)
    (s : RecordedRuntime) : Prop where
  current : s.current = published.getLast?
  nodesTotal : ∀ snap, s.current = some snap → s.telemetry.nodesTotal = snap.nodes.size
  outcomes : s.telemetry.providerSuccesses + s.telemetry.providerFailures =
    s.telemetry.providerRuns.total
  totalMs : s.telemetry.providerTotalMs =
    2 * ((providerRunsOf calls).map ProviderRun.ms).sum
  types : ∀ type, (∃ c, s.telemetry.nodesByType.find? type = some c) ↔
    ∃ snap ∈ published, 0 < snap.countOfType type
  positive : ∀ type c, s.telemetry.nodesByType.find? type = some c → 0 < c
  latest : ∀ snap, s.current = some snap → ∀ type, 0 < snap.countOfType type →
    s.telemetry.nodesByType.find? type = some (snap.countOfType type)

section Runs

variable {bounds : Bounds} {calls : List RecordedCall} {published : List TopologySnapshot}
  {s s' : RecordedRuntime} {call : RecordedCall} {snap : TopologySnapshot}

/-- One call keeps the invariant. -/
theorem TelemetryInvariant.step (I : TelemetryInvariant calls published s)
    (h : CallRecorded s call snap s') :
    TelemetryInvariant (calls ++ [call]) (published ++ [snap]) s' := by
  have hsnap : ∀ next, s'.current = some next → next = snap := fun next hnext =>
    Option.some.inj (hnext.symm.trans h.current)
  refine ⟨by rw [h.current, List.getLast?_concat], ?_, ?_, ?_, fun type => ?_, ?_, ?_⟩
  · rintro next hnext
    rw [hsnap next hnext, h.nodesTotal]
  · rw [h.outcomes, h.attempts, I.outcomes]
  · rw [h.totalMs, I.totalMs, providerRunsOf, providerRunsOf, List.flatMap_append, List.map_append,
      List.sum_append, List.flatMap_singleton]
    ring
  · -- a call adds the types of its own snapshot and takes none away
    rw [h.nodesByType]
    simp only [List.mem_append, List.mem_singleton, or_and_right, exists_or, exists_eq_left,
      ← I.types]
    split_ifs with hpos
    · simp [hpos]
    · simp [hpos]
  · intro type c hc
    rw [h.nodesByType] at hc
    split_ifs at hc with hpos
    · exact Option.some.inj hc ▸ hpos
    · exact I.positive type c hc
  · intro next hnext type hpos
    rw [hsnap next hnext] at hpos ⊢
    rw [h.nodesByType, if_pos hpos]

/-- What the telemetry says after any sequence of calls. -/
theorem CallRun.invariant (h : CallRun bounds calls published s) :
    TelemetryInvariant calls published s := by
  induction h with
  | start => exact ⟨rfl, by simp, rfl, by simp [providerRunsOf],
      by simp [HashMap.find?, HashMap.empty], by simp [HashMap.find?, HashMap.empty], by simp⟩
  | call _ hcall ih => exact ih.step (discoverRecorded_ok hcall)

end Runs

/-! ## Agreement -/

/-- The telemetry agrees with the published snapshot and the provider runs. -/
structure TelemetryAgrees (t : Telemetry) (snap : TopologySnapshot) (runs : List ProviderRun) :
    Prop where
  nodesTotal : t.nodesTotal = snap.nodes.size
  nodesByType : ∀ type c, t.nodesByType.find? type = some c → c = snap.countOfType type
  typesTotal : t.nodesByType.total = t.nodesTotal
  outcomes : t.providerSuccesses + t.providerFailures = t.providerRuns.total
  totalMs : t.providerTotalMs = (runs.map ProviderRun.ms).sum

/-- The entries are the counts of the published snapshot iff no type has disappeared. -/
private theorem nodesByType_iff {calls : List RecordedCall} {published : List TopologySnapshot}
    {s : RecordedRuntime} {snap : TopologySnapshot} (I : TelemetryInvariant calls published s)
    (hsnap : s.current = some snap) :
    (∀ type c, s.telemetry.nodesByType.find? type = some c → c = snap.countOfType type) ↔
      ∀ earlier ∈ published, ∀ type, 0 < earlier.countOfType type →
        0 < snap.countOfType type := by
  constructor
  · -- an entry that was made once is never removed
    intro h earlier hmem type hpos
    obtain ⟨c, hc⟩ := (I.types type).mpr ⟨earlier, hmem, hpos⟩
    rw [← h type c hc]
    exact I.positive type c hc
  · intro h type c hc
    obtain ⟨earlier, hmem, hpos⟩ := (I.types type).mp ⟨c, hc⟩
    rw [I.latest snap hsnap type (h earlier hmem type hpos)] at hc
    exact (Option.some.inj hc).symm

/-- Entries that are counts add up to the number of nodes. -/
private theorem typesTotal_eq {calls : List RecordedCall} {published : List TopologySnapshot}
    {s : RecordedRuntime} {snap : TopologySnapshot} (I : TelemetryInvariant calls published s)
    (hsnap : s.current = some snap)
    (hcounts : ∀ type c, s.telemetry.nodesByType.find? type = some c →
      c = snap.countOfType type) :
    s.telemetry.nodesByType.total = s.telemetry.nodesTotal := by
  have hall : ∀ e ∈ snap.nodes.entries, e.2.type ∈ s.telemetry.nodesByType.keys := by
    intro e he
    have hpos : 0 < snap.countOfType e.2.type := List.countP_pos_iff.mpr ⟨e, he, by simp⟩
    have hfind := I.latest snap hsnap _ hpos
    exact HashMap.mem_keys_of_mem (HashMap.find?_eq_some.mp hfind)
  rw [I.nodesTotal snap hsnap]
  exact @HashMap.total_eq_length _ _ _ (fun e : TopologyNodeId × TopologyNode => e.2.type) _ _
    hcounts hall

/-- **When the telemetry agrees with what happened.** After any sequence of calls the number of
nodes and the outcomes of the provider runs are right. All counters are right iff no provider run
took any time and every type of node that was ever published is in the last snapshot. -/
theorem telemetry_agrees_iff {bounds : Bounds} {calls : List RecordedCall}
    {published : List TopologySnapshot} {s : RecordedRuntime}
    (h : CallRun bounds calls published s) {snap : TopologySnapshot}
    (hsnap : s.current = some snap) :
    published.getLast? = some snap ∧ s.telemetry.nodesTotal = snap.nodes.size ∧
      s.telemetry.providerSuccesses + s.telemetry.providerFailures =
        s.telemetry.providerRuns.total ∧
      (TelemetryAgrees s.telemetry snap (providerRunsOf calls) ↔
        (∀ run ∈ providerRunsOf calls, run.ms = 0) ∧
          ∀ earlier ∈ published, ∀ type, 0 < earlier.countOfType type →
            0 < snap.countOfType type) := by
  have I := h.invariant
  -- the time of every run is added twice
  have htime : s.telemetry.providerTotalMs = ((providerRunsOf calls).map ProviderRun.ms).sum ↔
      ∀ run ∈ providerRunsOf calls, run.ms = 0 := by
    rw [I.totalMs, two_mul, add_eq_right, List.sum_eq_zero_iff, List.forall_mem_map]
  have htypes := nodesByType_iff I hsnap
  refine ⟨I.current.symm.trans hsnap, I.nodesTotal snap hsnap, I.outcomes, ?_⟩
  constructor
  · intro hagrees
    exact ⟨htime.mp hagrees.totalMs, htypes.mp hagrees.nodesByType⟩
  · rintro ⟨hms, hkept⟩
    have hcounts := htypes.mpr hkept
    exact ⟨I.nodesTotal snap hsnap, hcounts, typesTotal_eq I hsnap hcounts, I.outcomes,
      htime.mpr hms⟩

/-- A call that runs one provider, which takes three milliseconds and reports these nodes. -/
def reportingCall (nodes : List ContributedNode) : RecordedCall where
  order := .insertion
  runs := [⟨str "host", .returned { nodes := nodes, success := true }, 3⟩]
  provisional := ⟨kNullNodeId, 0, .insertion⟩
  final := ⟨kNullNodeId, 0, .insertion⟩
  typeOrder := .insertion
  ms := 4

/-- A machine with a storage device. -/
def machineWithStorage : List ContributedNode :=
  [{ ref := str "host", type := .machine, native := { machineName := str "a" } },
    { ref := str "disk", type := .storageDevice, native := { storageId := str "d" } }]

/-- A second call in which the storage device is no longer reported. -/
theorem telemetry_agrees_iff_storage : ∃ published s snap,
    CallRun {} [reportingCall machineWithStorage, reportingCall (machineWithStorage.take 1)]
        published s ∧
      s.current = some snap ∧ published.length = 2 ∧
      (TelemetryAgrees s.telemetry snap (providerRunsOf
          [reportingCall machineWithStorage, reportingCall (machineWithStorage.take 1)]) ↔
        (∀ run ∈ providerRunsOf
          [reportingCall machineWithStorage, reportingCall (machineWithStorage.take 1)],
            run.ms = 0) ∧
          ∀ earlier ∈ published, ∀ type, 0 < earlier.countOfType type →
            0 < snap.countOfType type) := by
  obtain ⟨first, s₁, hfirst, -, -⟩ :=
    discoverRecorded_spec {} {} (reportingCall machineWithStorage)
  obtain ⟨snap, s, hsecond, -, hrecorded⟩ :=
    discoverRecorded_spec {} s₁ (reportingCall (machineWithStorage.take 1))
  have hrun : CallRun {} (([] ++ [reportingCall machineWithStorage]) ++
      [reportingCall (machineWithStorage.take 1)]) (([] ++ [first]) ++ [snap]) s :=
    .call (.call .start hfirst) hsecond
  exact ⟨_, s, snap, hrun, hrecorded.current, rfl,
    (telemetry_agrees_iff hrun hrecorded.current).2.2.2⟩

/-- After the storage device has gone its entry is still there, and every duration counts twice. -/
theorem telemetry_disagrees : ∃ published s snap,
    CallRun {} [reportingCall machineWithStorage, reportingCall (machineWithStorage.take 1)]
        published s ∧
      s.current = some snap ∧
      s.telemetry.nodesByType.find? .storageDevice = some 1 ∧
      snap.countOfType .storageDevice = 0 ∧ s.telemetry.providerTotalMs = 12 ∧
      ¬ TelemetryAgrees s.telemetry snap (providerRunsOf
        [reportingCall machineWithStorage, reportingCall (machineWithStorage.take 1)]) := by
  obtain ⟨first, s₁, hfirst, -, -⟩ :=
    discoverRecorded_spec {} {} (reportingCall machineWithStorage)
  obtain ⟨snap, s, hsecond, -, hrecorded⟩ :=
    discoverRecorded_spec {} s₁ (reportingCall (machineWithStorage.take 1))
  have hrun : CallRun {} (([] ++ [reportingCall machineWithStorage]) ++
      [reportingCall (machineWithStorage.take 1)]) (([] ++ [first]) ++ [snap]) s :=
    .call (.call .start hfirst) hsecond
  -- the second call no longer reports the storage device, but its count stays
  have hcounts : (do
      let (_, s₁) ← discoverRecorded {} {} (reportingCall machineWithStorage)
      let (snap, s) ← discoverRecorded {} s₁ (reportingCall (machineWithStorage.take 1))
      return (s.telemetry.nodesByType.find? .storageDevice, snap.countOfType .storageDevice) :
        Run (Option ℕ × ℕ)) = .ok (some 1, 0) := by
    decide +kernel
  simp only [hfirst, hsecond, Outcome.ok_bind, Outcome.pure_eq_ok, Outcome.ok.injEq,
    Prod.mk.injEq] at hcounts
  have htotal : s.telemetry.providerTotalMs = 12 := by
    rw [hrun.invariant.totalMs]
    norm_num [providerRunsOf, reportingCall]
  refine ⟨_, s, snap, hrun, hrecorded.current, hcounts.1, hcounts.2, htotal, fun hagrees => ?_⟩
  have hentry := hagrees.nodesByType _ _ hcounts.1
  rw [hcounts.2] at hentry
  exact absurd hentry one_ne_zero

end TopologyFabric

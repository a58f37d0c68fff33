import Mathlib.Logic.Relation
import TopologyFabric.Merge.Resources
import TopologyFabric.Runtime.Discover

/-!
# Interleavings of Discovery and Readers

Threads call `discover`, `current` and `generation` on one runtime. A call of `discover` holds
`discover_mu_` from its first to its last statement; a reader takes no lock and loads the published
snapshot atomically. Between any two statements of one thread the others may run, so a state says
of every thread where it is in its call, and a step moves one thread.

History variables record what has been published, what every thread has seen, and the calls that
threw. No step reads them.

## Main results

- `Step.preserves`: every step keeps the invariant of the runtime
- `discover_interleavings`: generations, ids, readers and failed calls in any interleaving
-/

namespace TopologyFabric

open Library

abbrev Thread := ℕ

/-- Where a thread is in a call of `discover`, with its local variables; `idle` is outside. -/
inductive Phase where
  | idle
  | entered
  | gathered (g : Gathered)
  | loaded (g : Gathered) (prev : Option TopologySnapshot)
  | provisional (g : Gathered) (prev : TopologySnapshot) (snap : TopologySnapshot)
  | decided (g : Gathered) (gen : ℕ)
  | built (snap : TopologySnapshot)
  | published (snap : TopologySnapshot)

/-- A call of `discover` that threw: the published snapshot when the call took the lock, and the
published snapshot when it gave the lock back. -/
structure FailedCall where
  atEntry : Option TopologySnapshot
  atExit : Option TopologySnapshot

/-- History variables. -/
structure History where
  published : List TopologySnapshot := []
  seen : Thread → List ℕ := fun _ => []
  atEntry : Thread → Option TopologySnapshot := fun _ => none
  failed : List FailedCall := []

structure RuntimeState where
  current : Option TopologySnapshot := none
  snapshotCounter : ℕ := 0
  lock : Option Thread := none
  phase : Thread → Phase := fun _ => .idle
  history : History := {}

/-- `TopologyRuntime::generation`, as a function of the published snapshot it loads. -/
def generationOf : Option TopologySnapshot → ℕ
  | none => 0
  | some snap => snap.metadata.generation

/-- The generation of the next snapshot, decided on the provisional one. -/
def decideGeneration (prev provisional : TopologySnapshot) : ℕ :=
  if (compareSnapshots prev provisional).materialChange then prev.metadata.generation + 1
  else prev.metadata.generation

namespace RuntimeState

/-- Thread `t` moves on inside `discover`. -/
def advance (s : RuntimeState) (t : Thread) (counter : ℕ) (p : Phase) : RuntimeState :=
  { s with snapshotCounter := counter, phase := Function.update s.phase t p }

/-- `std::lock_guard` takes the mutex. -/
def enter (s : RuntimeState) (t : Thread) : RuntimeState :=
  { s with
    lock := some t
    phase := Function.update s.phase t .entered
    history := { s.history with atEntry := Function.update s.history.atEntry t s.current } }

/-- `current_.store(snap)`. -/
def publish (s : RuntimeState) (t : Thread) (snap : TopologySnapshot) : RuntimeState :=
  { s with
    current := some snap
    phase := Function.update s.phase t (.published snap)
    history := { s.history with published := s.history.published ++ [snap] } }

/-- Thread `t` sees a snapshot. -/
def see (s : RuntimeState) (t : Thread) (snap : Option TopologySnapshot) : RuntimeState :=
  { s with
    history := { s.history with
      seen := Function.update s.history.seen t (s.history.seen t ++ [generationOf snap]) } }

/-- The mutex is released and the call is over. -/
def leave (s : RuntimeState) (t : Thread) : RuntimeState :=
  { s with lock := none, phase := Function.update s.phase t .idle }

/-- The call is over by an exception. -/
def fail (s : RuntimeState) (t : Thread) (counter : ℕ) : RuntimeState :=
  { s.leave t with
    snapshotCounter := counter
    history := { s.history with
      failed := s.history.failed ++ [⟨s.history.atEntry t, s.current⟩] } }

end RuntimeState

/-- The phases in which a call can still throw. -/
def Phase.MayThrow : Phase → Prop
  | .idle => False
  | .published _ => False
  | _ => True

/-- One step of thread `t`. Everything that the environment decides is a parameter of the step:
what the providers return, clocks, random numbers, iteration orders, and whether a statement
throws. -/
inductive Step (bounds : Bounds) (s : RuntimeState) (t : Thread) : RuntimeState → Prop
  | enter (hphase : s.phase t = .idle) (hlock : s.lock = none) : Step bounds s t (s.enter t)
  | gather (hphase : s.phase t = .entered) (order : IterationOrder)
      (results : List ProviderResult) :
      Step bounds s t (s.advance t s.snapshotCounter (.gathered (gather order bounds results)))
  | load {g : Gathered} (hphase : s.phase t = .gathered g) :
      Step bounds s t (s.advance t s.snapshotCounter (.loaded g s.current))
  | firstGeneration {g : Gathered} (hphase : s.phase t = .loaded g none) :
      Step bounds s t (s.advance t s.snapshotCounter (.decided g 1))
  | buildProvisional {g : Gathered} {prev snap : TopologySnapshot}
      (hphase : s.phase t = .loaded g (some prev)) (inp : BuildInputs)
      (hbuild : buildSnapshot bounds g (s.snapshotCounter + 1) prev.metadata.generation inp =
        .ok snap) :
      Step bounds s t (s.advance t (s.snapshotCounter + 1) (.provisional g prev snap))
  | decide {g : Gathered} {prev snap : TopologySnapshot}
      (hphase : s.phase t = .provisional g prev snap) :
      Step bounds s t
        (s.advance t s.snapshotCounter (.decided g (decideGeneration prev snap)))
  | build {g : Gathered} {gen : ℕ} {snap : TopologySnapshot}
      (hphase : s.phase t = .decided g gen) (inp : BuildInputs)
      (hbuild : buildSnapshot bounds g (s.snapshotCounter + 1) gen inp = .ok snap) :
      Step bounds s t (s.advance t (s.snapshotCounter + 1) (.built snap))
  | publish {snap : TopologySnapshot} (hphase : s.phase t = .built snap) :
      Step bounds s t (s.publish t snap)
  | leave {snap : TopologySnapshot} (hphase : s.phase t = .published snap) :
      Step bounds s t ((s.see t (some snap)).leave t)
  -- a build that throws may have incremented the counter before
  | throwing (hphase : (s.phase t).MayThrow) (counter : ℕ) (hcounter : s.snapshotCounter ≤ counter) :
      Step bounds s t (s.fail t counter)
  -- `current()` and `generation()` load the published snapshot once
  | read (hphase : s.phase t = .idle) : Step bounds s t (s.see t s.current)

/-- One step of some thread. -/
def Steps (bounds : Bounds) (s s' : RuntimeState) : Prop := ∃ t, Step bounds s t s'

/-- The states that a new runtime can get to. -/
def Reachable (bounds : Bounds) (s : RuntimeState) : Prop :=
  Relation.ReflTransGen (Steps bounds) {} s

/-! ## The invariant -/

/-- The generation of a snapshot is what its predecessor asks for. -/
def GenerationFollows : Option TopologySnapshot → TopologySnapshot → Prop
  | none, next => next.metadata.generation = 1
  | some prev, next => next.metadata.generation = decideGeneration prev next

/-- The snapshot was built as number `n`. -/
def BuiltAs (snap : TopologySnapshot) (n : ℕ) : Prop :=
  ∃ u, snap.metadata.snapshotId = snapshotId n u

/-- The snapshot has the nodes and edges of the merged graph. -/
def HasGraph (bounds : Bounds) (g : Gathered) (snap : TopologySnapshot) : Prop :=
  snap.nodes.entries.Perm (graphBuilder bounds g).nodes.entries ∧
    snap.edges = (graphBuilder bounds g).edges

/-- What holds of a thread inside `discover`. -/
def PhaseInvariant (bounds : Bounds) (s : RuntimeState) (t : Thread) : Phase → Prop
  | .idle => True
  | .entered => s.history.atEntry t = s.current
  | .gathered _ => s.history.atEntry t = s.current
  | .loaded _ prev => s.history.atEntry t = s.current ∧ prev = s.current
  | .provisional g prev snap =>
    s.history.atEntry t = s.current ∧ s.current = some prev ∧ HasGraph bounds g snap
  | .decided g gen =>
    s.history.atEntry t = s.current ∧
      ∀ snap, HasGraph bounds g snap → snap.metadata.generation = gen →
        GenerationFollows s.current snap
  | .built snap =>
    s.history.atEntry t = s.current ∧ GenerationFollows s.current snap ∧
      ∃ n ≤ s.snapshotCounter, BuiltAs snap n ∧
        ∀ p ∈ s.history.published, ∀ m, BuiltAs p m → m < n
  | .published snap => s.current = some snap

/-- The invariant of the runtime. -/
structure RuntimeInvariant (bounds : Bounds) (s : RuntimeState) : Prop where
  exclusive : ∀ t, s.phase t ≠ .idle → s.lock = some t
  phases : ∀ t, PhaseInvariant bounds s t (s.phase t)
  last : s.current = s.history.published.getLast?
  follows : ∀ k next, s.history.published[k]? = some next →
    GenerationFollows (s.history.published.take k).getLast? next
  numbered : ∀ p ∈ s.history.published, ∃ n ≤ s.snapshotCounter, BuiltAs p n
  distinct : (s.history.published.map fun p => p.metadata.snapshotId).Nodup
  monotone : ∀ t, (s.history.seen t).Pairwise (· ≤ ·) ∧
    ∀ g ∈ s.history.seen t, g ≤ generationOf s.current
  failed : ∀ f ∈ s.history.failed, f.atExit = f.atEntry

variable {bounds : Bounds} {s : RuntimeState} {t : Thread}

theorem GenerationFollows.le {prev : Option TopologySnapshot} {next : TopologySnapshot}
    (h : GenerationFollows prev next) : generationOf prev ≤ next.metadata.generation := by
  cases prev with
  | none => exact Nat.zero_le _
  | some p =>
    rw [h, decideGeneration, generationOf]
    split_ifs <;> omega

/-- The decision on the provisional snapshot is right for every snapshot with the same graph. -/
theorem decideGeneration_congr {g : Gathered} {prev snap snap' : TopologySnapshot}
    (h : HasGraph bounds g snap) (h' : HasGraph bounds g snap') :
    decideGeneration prev snap = decideGeneration prev snap' := by
  unfold decideGeneration
  rw [materialChange_congr (h.1.trans h'.1.symm) (h.2.trans h'.2.symm)]

/-- Whether two snapshots differ materially is seen from their graphs. -/
theorem HasGraph.materialChange_eq {g g' : Gathered} {a b : TopologySnapshot}
    (ha : HasGraph bounds g a) (hb : HasGraph bounds g' b) :
    (compareSnapshots a b).materialChange =
      (diffEvents (graphBuilder bounds g).nodes (graphBuilder bounds g').nodes
        (graphBuilder bounds g).edges (graphBuilder bounds g').edges).any isMaterialEvent := by
  rw [compareSnapshots_materialChange, ha.2, hb.2]
  exact (diffEvents_perm ha.1 hb.1 (.refl _) (.refl _) fun _ => rfl).any_eq

theorem BuiltAs.unique {snap : TopologySnapshot} {m n : ℕ} (hm : BuiltAs snap m)
    (hn : BuiltAs snap n) : m = n := by
  obtain ⟨u, hu⟩ := hm
  obtain ⟨v, hv⟩ := hn
  exact snapshotId_injective (hu.symm.trans hv)

theorem PhaseInvariant.atEntry {p : Phase} (h : PhaseInvariant bounds s t p)
    (hp : p.MayThrow) : s.history.atEntry t = s.current := by
  cases p with
  | idle => exact hp.elim
  | entered => exact h
  | gathered g => exact h
  | loaded g prev => exact h.1
  | provisional g prev snap => exact h.1
  | decided g gen => exact h.1
  | built snap => exact h.1
  | published snap => exact hp.elim

namespace RuntimeInvariant

/-- While one thread is inside `discover`, the others are outside. -/
theorem others_idle (h : RuntimeInvariant bounds s) (ht : s.phase t ≠ .idle) {t' : Thread}
    (hne : t' ≠ t) : s.phase t' = .idle := by
  by_contra hidle
  have hlock := (h.exclusive t' hidle).symm.trans (h.exclusive t ht)
  exact hne (Option.some.inj hlock)

/-- When the lock is free, all threads are outside. -/
theorem all_idle (h : RuntimeInvariant bounds s) (hlock : s.lock = none) (t' : Thread) :
    s.phase t' = .idle := by
  by_contra hidle
  have := h.exclusive t' hidle
  rw [hlock] at this
  cases this

/-- A step of thread `t` leaves the phases of the others as they are. -/
private theorem phase_of_ne {s' : RuntimeState} {p : Phase}
    (hphase : s'.phase = Function.update s.phase t p) {t' : Thread} (hne : t' ≠ t) :
    s'.phase t' = s.phase t' := by
  rw [hphase, Function.update_of_ne hne]

/-- The phases of the threads after thread `t`, which is inside `discover`, has moved to `p`. -/
private theorem phases_update (h : RuntimeInvariant bounds s) (ht : s.phase t ≠ .idle)
    {s' : RuntimeState} {p : Phase} (hphase : s'.phase = Function.update s.phase t p)
    (hp : PhaseInvariant bounds s' t p) (t' : Thread) :
    PhaseInvariant bounds s' t' (s'.phase t') := by
  by_cases hne : t' = t
  · subst hne
    rw [hphase, Function.update_self]
    exact hp
  · rw [hphase, Function.update_of_ne hne, h.others_idle ht hne]
    trivial

/-- A step inside `discover` that changes the phase and may count. -/
theorem advance (h : RuntimeInvariant bounds s) (ht : s.phase t ≠ .idle) {counter : ℕ}
    (hcounter : s.snapshotCounter ≤ counter) {p : Phase}
    (hp : PhaseInvariant bounds (s.advance t counter p) t p) :
    RuntimeInvariant bounds (s.advance t counter p) where
  exclusive := by
    intro t' ht'
    by_cases hne : t' = t
    · exact hne ▸ h.exclusive t ht
    · rw [phase_of_ne rfl hne] at ht'
      exact h.exclusive t' ht'
  phases := h.phases_update ht rfl hp
  last := h.last
  follows := h.follows
  numbered := by
    intro p hp
    obtain ⟨n, hn, hbuilt⟩ := h.numbered p hp
    exact ⟨n, hn.trans hcounter, hbuilt⟩
  distinct := h.distinct
  monotone := h.monotone
  failed := h.failed

theorem enter (h : RuntimeInvariant bounds s) (hlock : s.lock = none) :
    RuntimeInvariant bounds (s.enter t) where
  exclusive := by
    intro t' ht'
    by_cases hne : t' = t
    · rw [hne]
      rfl
    · rw [phase_of_ne rfl hne] at ht'
      exact absurd (h.all_idle hlock t') ht'
  phases := by
    intro t'
    by_cases hne : t' = t
    · subst hne
      simp only [RuntimeState.enter, Function.update_self, PhaseInvariant]
    · simp only [RuntimeState.enter, Function.update_of_ne hne, h.all_idle hlock t',
        PhaseInvariant]
  last := h.last
  follows := h.follows
  numbered := h.numbered
  distinct := h.distinct
  monotone := h.monotone
  failed := h.failed

theorem publish (h : RuntimeInvariant bounds s) {snap : TopologySnapshot}
    (hphase : s.phase t = .built snap) : RuntimeInvariant bounds (s.publish t snap) := by
  have ht : s.phase t ≠ .idle := by simp [hphase]
  have hbuilt := h.phases t
  rw [hphase] at hbuilt
  obtain ⟨-, hfollows, n, hn, hnum, hfresh⟩ := hbuilt
  exact
    { exclusive := by
        intro t' ht'
        by_cases hne : t' = t
        · exact hne ▸ h.exclusive t ht
        · rw [phase_of_ne rfl hne] at ht'
          exact h.exclusive t' ht'
      phases := h.phases_update ht rfl rfl
      last := by simp [RuntimeState.publish]
      follows := by
        intro k next hk
        simp only [RuntimeState.publish] at hk ⊢
        rcases lt_trichotomy k s.history.published.length with hlt | rfl | hgt
        · rw [List.getElem?_append_left hlt] at hk
          rw [List.take_append_of_le_length hlt.le]
          exact h.follows k next hk
        · rw [List.getElem?_concat_length] at hk
          obtain rfl := Option.some.inj hk
          rw [List.take_left, ← h.last]
          exact hfollows
        · rw [List.getElem?_eq_none (by simpa using hgt)] at hk
          cases hk
      numbered := by
        intro p hp
        rcases List.mem_append.mp hp with hp | hp
        · exact h.numbered p hp
        · rw [List.mem_singleton.mp hp]
          exact ⟨n, hn, hnum⟩
      distinct := by
        simp only [RuntimeState.publish, List.map_append, List.map_singleton]
        refine List.Nodup.append h.distinct (List.nodup_singleton _) ?_
        -- an id that was published before has a smaller number
        intro i hi hi'
        obtain ⟨p, hp, rfl⟩ := List.mem_map.mp hi
        obtain ⟨m, -, hm⟩ := h.numbered p hp
        obtain ⟨u, hu⟩ := hm
        have hlt := hfresh p hp m ⟨u, hu⟩
        have hsame : BuiltAs snap m := ⟨u, (List.mem_singleton.mp hi').symm.trans hu⟩
        exact absurd (hsame.unique hnum) hlt.ne
      monotone := by
        intro t'
        refine ⟨(h.monotone t').1, fun g hg => ?_⟩
        exact ((h.monotone t').2 g hg).trans hfollows.le
      failed := h.failed }

/-- A thread sees a snapshot of the current generation. -/
theorem see (h : RuntimeInvariant bounds s) {snap : Option TopologySnapshot}
    (hsnap : snap = s.current) : RuntimeInvariant bounds (s.see t snap) where
  exclusive := h.exclusive
  phases := h.phases
  last := h.last
  follows := h.follows
  numbered := h.numbered
  distinct := h.distinct
  monotone := by
    intro t'
    by_cases hne : t' = t
    · -- the thread that reads sees the current generation, and it has seen none beyond
      subst hne hsnap
      simp only [RuntimeState.see, Function.update_self]
      obtain ⟨hsorted, hle⟩ := h.monotone t'
      constructor
      · refine List.pairwise_append.mpr ⟨hsorted, List.pairwise_singleton _ _, ?_⟩
        intro a ha b hb
        rw [List.mem_singleton.mp hb]
        exact hle a ha
      · intro g hg
        rcases List.mem_append.mp hg with hg | hg
        · exact hle g hg
        · exact (List.mem_singleton.mp hg).le
    · simp only [RuntimeState.see, Function.update_of_ne hne]
      exact h.monotone t'
  failed := h.failed

theorem leave (h : RuntimeInvariant bounds s) (ht : s.phase t ≠ .idle) :
    RuntimeInvariant bounds (s.leave t) where
  exclusive := by
    intro t' ht'
    by_cases hne : t' = t
    · subst hne
      simp [RuntimeState.leave] at ht'
    · rw [phase_of_ne rfl hne] at ht'
      exact absurd (h.others_idle ht hne) ht'
  phases := h.phases_update ht rfl trivial
  last := h.last
  follows := h.follows
  numbered := h.numbered
  distinct := h.distinct
  monotone := h.monotone
  failed := h.failed

theorem fail (h : RuntimeInvariant bounds s) (hphase : (s.phase t).MayThrow) {counter : ℕ}
    (hcounter : s.snapshotCounter ≤ counter) : RuntimeInvariant bounds (s.fail t counter) := by
  have ht : s.phase t ≠ .idle := by
    intro hidle
    rw [hidle] at hphase
    exact hphase
  have hleave := h.leave ht
  exact
    { exclusive := hleave.exclusive
      phases := h.phases_update ht rfl trivial
      last := h.last
      follows := h.follows
      numbered := by
        intro p hp
        obtain ⟨n, hn, hbuilt⟩ := h.numbered p hp
        exact ⟨n, hn.trans hcounter, hbuilt⟩
      distinct := h.distinct
      monotone := h.monotone
      failed := by
        intro f hf
        rcases List.mem_append.mp hf with hf | hf
        · exact h.failed f hf
        · rw [List.mem_singleton.mp hf]
          exact ((h.phases t).atEntry hphase).symm }

end RuntimeInvariant

/-! ## Every step keeps the invariant -/

private theorem initial_invariant : RuntimeInvariant bounds {} where
  exclusive := fun _ h => absurd rfl h
  phases := fun _ => trivial
  last := rfl
  follows := fun _ _ h => by simp at h
  numbered := fun _ h => by simp at h
  distinct := List.nodup_nil
  monotone := fun _ => ⟨List.Pairwise.nil, fun _ h => by simp at h⟩
  failed := fun _ h => by simp at h

/-- A new snapshot has a number that no published one has. -/
private theorem RuntimeInvariant.fresh (h : RuntimeInvariant bounds s) {p : TopologySnapshot}
    (hp : p ∈ s.history.published) {m : ℕ} (hm : BuiltAs p m) : m < s.snapshotCounter + 1 := by
  obtain ⟨n, hn, hbuilt⟩ := h.numbered p hp
  rw [hm.unique hbuilt]
  omega

theorem Step.preserves {s' : RuntimeState} (hstep : Step bounds s t s')
    (h : RuntimeInvariant bounds s) : RuntimeInvariant bounds s' := by
  have hinv := h.phases t
  cases hstep with
  | enter hphase hlock => exact h.enter hlock
  | gather hphase order results =>
    rw [hphase] at hinv
    exact h.advance (by simp [hphase]) le_rfl hinv
  | load hphase =>
    rw [hphase] at hinv
    exact h.advance (by simp [hphase]) le_rfl ⟨hinv, rfl⟩
  | firstGeneration hphase =>
    rw [hphase] at hinv
    obtain ⟨hentry, hprev⟩ := hinv
    refine h.advance (by simp [hphase]) le_rfl ⟨hentry, fun snap _ hgen => ?_⟩
    change GenerationFollows s.current snap
    rw [← hprev]
    exact hgen
  | buildProvisional hphase inp hbuild =>
    rw [hphase] at hinv
    obtain ⟨hentry, hprev⟩ := hinv
    obtain ⟨hnodes, hedges, -, -⟩ := buildSnapshot_graph hbuild
    exact h.advance (by simp [hphase]) (Nat.le_succ _) ⟨hentry, hprev.symm, hnodes, hedges⟩
  | @decide g prev provisional hphase =>
    -- the decision was made on a snapshot with the graph of the one that will be built
    rw [hphase] at hinv
    obtain ⟨hentry, hprev, hgraph⟩ := hinv
    refine h.advance (by simp [hphase]) le_rfl ⟨hentry, fun snap hsnap hgen => ?_⟩
    change GenerationFollows s.current snap
    rw [hprev]
    exact hgen.trans (decideGeneration_congr hgraph hsnap)
  | @build g gen snap hphase inp hbuild =>
    -- the id holds the new value of the counter, which no published snapshot has had
    rw [hphase] at hinv
    obtain ⟨hentry, hgen⟩ := hinv
    obtain ⟨hnodes, hedges, hsgen, hid⟩ := buildSnapshot_graph hbuild
    refine h.advance (by simp [hphase]) (Nat.le_succ _)
      ⟨hentry, hgen snap ⟨hnodes, hedges⟩ hsgen, s.snapshotCounter + 1, le_rfl,
        ⟨inp.uuid, hid⟩, ?_⟩
    intro p hp m hm
    exact h.fresh hp hm
  | publish hphase => exact h.publish hphase
  | leave hphase =>
    rw [hphase] at hinv
    exact (h.see hinv.symm).leave (by simp [RuntimeState.see, hphase])
  | throwing hphase counter hcounter => exact h.fail hphase hcounter
  | read hphase => exact h.see rfl

/-- The invariant holds in every state of every run. -/
theorem Reachable.invariant (h : Reachable bounds s) : RuntimeInvariant bounds s := by
  induction h with
  | refl => exact initial_invariant
  | tail _ hstep ih =>
    obtain ⟨t, hstep⟩ := hstep
    exact hstep.preserves ih

/-! ## An undisturbed call

From a state in which no call is running, a thread that runs alone publishes a snapshot, whatever
the providers return.
-/

/-- Running thread `t` alone ends its call with a snapshot of this graph. -/
def PublishesGraph (bounds : Bounds) (s : RuntimeState) (t : Thread) (g : Gathered) : Prop :=
  ∃ s' snap, Relation.ReflTransGen (Steps bounds) s s' ∧
    s'.history.published = s.history.published ++ [snap] ∧
    s'.phase = Function.update s.phase t .idle ∧ s'.lock = none ∧ HasGraph bounds g snap

/-- A call that runs alone publishes a snapshot of what it has gathered. -/
theorem discover_publishes_graph {t : Thread} (hphase : s.phase t = .idle) (hlock : s.lock = none)
    (order : IterationOrder) (results : List ProviderResult) (inp : BuildInputs) :
    PublishesGraph bounds s t (gather order bounds results) := by
  let g := gather order bounds results
  let s₁ := s.enter t
  let s₂ := s₁.advance t s₁.snapshotCounter (.gathered g)
  let s₃ := s₂.advance t s₂.snapshotCounter (.loaded g s₂.current)
  have henter : Steps bounds s s₁ := ⟨t, .enter hphase hlock⟩
  have hgather : Steps bounds s₁ s₂ := ⟨t, .gather (Function.update_self ..) order results⟩
  have hload : Steps bounds s₂ s₃ := ⟨t, .load (Function.update_self ..)⟩
  -- a first call has its generation, a later one decides on it
  obtain ⟨counter, gen, hdecided⟩ : ∃ counter gen, Relation.ReflTransGen (Steps bounds) s₃
      (s₃.advance t counter (.decided g gen)) := by
    cases hcurrent : s.current with
    | none =>
      have hphase₃ : s₃.phase t = .loaded g none :=
        (Function.update_self ..).trans (congrArg (Phase.loaded g) hcurrent)
      exact ⟨_, 1, .single ⟨t, .firstGeneration hphase₃⟩⟩
    | some prev =>
      have hphase₃ : s₃.phase t = .loaded g (some prev) :=
        (Function.update_self ..).trans (congrArg (Phase.loaded g) hcurrent)
      obtain ⟨snap, hbuild⟩ :=
        buildSnapshot_returns bounds g (s₃.snapshotCounter + 1) prev.metadata.generation inp
      have hprovisional : Steps bounds s₃ _ := ⟨t, .buildProvisional hphase₃ inp hbuild⟩
      have hdecide : Steps bounds
          (s₃.advance t (s₃.snapshotCounter + 1) (.provisional g prev snap))
          (s₃.advance t (s₃.snapshotCounter + 1) (.decided g (decideGeneration prev snap))) := by
        refine ⟨t, ?_⟩
        have hstep : Step bounds (s₃.advance t (s₃.snapshotCounter + 1) (.provisional g prev snap))
            t _ := .decide (Function.update_self ..)
        simpa only [RuntimeState.advance, Function.update_idem] using hstep
      exact ⟨_, _, (Relation.ReflTransGen.single hprovisional).tail hdecide⟩
  let s₄ := s₃.advance t counter (.decided g gen)
  obtain ⟨snap, hbuild⟩ := buildSnapshot_returns bounds g (s₄.snapshotCounter + 1) gen inp
  let s₅ := s₄.advance t (s₄.snapshotCounter + 1) (.built snap)
  have hbuilt : Steps bounds s₄ s₅ := ⟨t, .build (Function.update_self ..) inp hbuild⟩
  have hpublish : Steps bounds s₅ (s₅.publish t snap) := ⟨t, .publish (Function.update_self ..)⟩
  have hleave : Steps bounds (s₅.publish t snap) (((s₅.publish t snap).see t (some snap)).leave t) :=
    ⟨t, .leave (Function.update_self ..)⟩
  obtain ⟨hnodes, hedges, -⟩ := buildSnapshot_graph hbuild
  refine ⟨((s₅.publish t snap).see t (some snap)).leave t, snap, ?_, rfl, ?_, rfl, hnodes, hedges⟩
  · exact ((((Relation.ReflTransGen.single henter).tail hgather).tail hload).trans hdecided)
      |>.tail hbuilt |>.tail hpublish |>.tail hleave
  · simp [s₅, s₄, s₃, s₂, s₁, RuntimeState.leave, RuntimeState.see, RuntimeState.publish,
      RuntimeState.advance, RuntimeState.enter]

/-! ## Any interleaving -/

/-- In any interleaving of any number of threads: the first published snapshot has generation 1,
every later one has the generation of its predecessor, plus one after a material change; every
thread sees a sequence of generations that does not decrease; the ids of the published snapshots
are distinct; and a call of `discover` that throws leaves the published snapshot, and so the
generation, as it found them. -/
theorem discover_interleavings (h : Reachable bounds s) :
    (∀ s₁, s.history.published[0]? = some s₁ → s₁.metadata.generation = 1) ∧
    (∀ k a b, s.history.published[k]? = some a → s.history.published[k + 1]? = some b →
      b.metadata.generation =
        if (compareSnapshots a b).materialChange then a.metadata.generation + 1
        else a.metadata.generation) ∧
    (∀ t, (s.history.seen t).Pairwise (· ≤ ·)) ∧
    (s.history.published.map fun p => p.metadata.snapshotId).Nodup ∧
    ∀ f ∈ s.history.failed,
      f.atExit = f.atEntry ∧ generationOf f.atExit = generationOf f.atEntry := by
  have hinv := h.invariant
  refine ⟨fun s₁ h₁ => hinv.follows 0 s₁ h₁, ?_, fun t => (hinv.monotone t).1, hinv.distinct,
    fun f hf => ⟨hinv.failed f hf, by rw [hinv.failed f hf]⟩⟩
  intro k a b ha hb
  have hfollows := hinv.follows (k + 1) b hb
  rw [List.getLast?_take, if_neg (Nat.succ_ne_zero k), Nat.add_sub_cancel, ha,
    Option.some_or] at hfollows
  exact hfollows

/-- What the second and the third of three calls are told. -/
def foundDevices : List ProviderResult := sharedDevice.map .returned

/-- Three threads discover one after the other, and from the second on two devices are found. -/
theorem exists_three_calls : ∃ s snap₁ snap₂ snap₃, Reachable {} s ∧
    s.history.published = [snap₁, snap₂, snap₃] ∧
    HasGraph {} (gather .insertion {} []) snap₁ ∧
    HasGraph {} (gather .insertion {} foundDevices) snap₂ ∧
    HasGraph {} (gather .insertion {} foundDevices) snap₃ := by
  let inp : BuildInputs := ⟨kNullNodeId, 0, .insertion⟩
  obtain ⟨s₁, snap₁, hsteps₁, hpub₁, hphase₁, hlock₁, hgraph₁⟩ :
      PublishesGraph {} {} 0 (gather .insertion {} []) :=
    discover_publishes_graph rfl rfl .insertion [] inp
  obtain ⟨s₂, snap₂, hsteps₂, hpub₂, hphase₂, hlock₂, hgraph₂⟩ :
      PublishesGraph {} s₁ 1 (gather .insertion {} foundDevices) :=
    discover_publishes_graph (by simp [hphase₁]) hlock₁ .insertion foundDevices inp
  obtain ⟨s₃, snap₃, hsteps₃, hpub₃, -, -, hgraph₃⟩ :
      PublishesGraph {} s₂ 2 (gather .insertion {} foundDevices) :=
    discover_publishes_graph (by simp [hphase₂, hphase₁]) hlock₂ .insertion foundDevices inp
  refine ⟨s₃, snap₁, snap₂, snap₃, (hsteps₁.trans hsteps₂).trans hsteps₃, ?_, hgraph₁, hgraph₂,
    hgraph₃⟩
  rw [hpub₃, hpub₂, hpub₁]
  rfl

/-- The devices are a material change when they are found, and none when they are found again. -/
theorem discover_interleavings_found : ∃ s, Reachable {} s ∧
    (s.history.published.map fun p => p.metadata.generation) = [1, 2, 2] ∧
    (s.history.published.map fun p => p.metadata.snapshotId).Nodup := by
  obtain ⟨s, snap₁, snap₂, snap₃, hreach, hpublished, hgraph₁, hgraph₂, hgraph₃⟩ :=
    exists_three_calls
  obtain ⟨hfirst, hnext, -, hids, -⟩ := discover_interleavings hreach
  have hone := hfirst snap₁ (by rw [hpublished]; rfl)
  have htwo := hnext 0 snap₁ snap₂ (by rw [hpublished]; rfl) (by rw [hpublished]; rfl)
  have hthree := hnext 1 snap₂ snap₃ (by rw [hpublished]; rfl) (by rw [hpublished]; rfl)
  have hfound : (compareSnapshots snap₁ snap₂).materialChange = true :=
    (hgraph₁.materialChange_eq hgraph₂).trans (by decide +kernel)
  have hagain : (compareSnapshots snap₂ snap₃).materialChange = false :=
    (hgraph₂.materialChange_eq hgraph₃).trans (by decide +kernel)
  rw [if_pos hfound, hone] at htwo
  rw [hagain, if_neg Bool.false_ne_true, htwo] at hthree
  exact ⟨s, hreach, by simp [hpublished, hone, htwo, hthree], hids⟩

end TopologyFabric

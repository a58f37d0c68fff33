import TopologyFabric.Runtime.Interleaving

/-!
# Calls of Discovery

What one call of `TopologyRuntime::discover` returns, as a function of the snapshot that is
published before. A call holds the lock, so every snapshot that is published in any interleaving is
what this function gives, and a thread that runs alone publishes what it gives.

## Main results

- `discover_returns`: a call returns a snapshot
- `discover_publishes_result`: a thread that runs alone publishes the result of its call
- `published_discover`: every published snapshot is the result of a call
-/

namespace TopologyFabric

open Library

/-- What a call gets from its environment: the iteration order of the maps it builds, what the
providers do, and what the two builds get. -/
structure CallInputs where
  order : IterationOrder
  results : List ProviderResult
  provisional : BuildInputs
  final : BuildInputs

/-- `TopologyRuntime::discover`, after the snapshots that `counter` counts. -/
def discover (bounds : Bounds) (current : Option TopologySnapshot) (counter : ℕ)
    (inp : CallInputs) : Run TopologySnapshot :=
  let g := gather inp.order bounds inp.results
  match current with
  | none => buildSnapshot bounds g (counter + 1) 1 inp.final
  | some prev => do
    let provisional ←
      buildSnapshot bounds g (counter + 1) prev.metadata.generation inp.provisional
    buildSnapshot bounds g (counter + 2) (decideGeneration prev provisional) inp.final

section Call

variable {bounds : Bounds} {current : Option TopologySnapshot} {counter : ℕ} {inp : CallInputs}
  {snap : TopologySnapshot}

/-- The steps of a call that returns. -/
theorem discover_eq_ok : discover bounds current counter inp = .ok snap ↔
    (current = none ∧ buildSnapshot bounds (gather inp.order bounds inp.results) (counter + 1) 1
      inp.final = .ok snap) ∨
    ∃ prev provisional, current = some prev ∧
      buildSnapshot bounds (gather inp.order bounds inp.results) (counter + 1)
        prev.metadata.generation inp.provisional = .ok provisional ∧
      buildSnapshot bounds (gather inp.order bounds inp.results) (counter + 2)
        (decideGeneration prev provisional) inp.final = .ok snap := by
  cases current with
  | none => simp [discover]
  | some prev =>
    obtain ⟨provisional, hprovisional⟩ := buildSnapshot_returns bounds
      (gather inp.order bounds inp.results) (counter + 1) prev.metadata.generation inp.provisional
    -- the provisional snapshot is built without an exception
    have hcall : discover bounds (some prev) counter inp =
        buildSnapshot bounds (gather inp.order bounds inp.results) (counter + 2)
          (decideGeneration prev provisional) inp.final := by
      simp only [discover, hprovisional]
      rfl
    rw [hcall]
    simp [hprovisional]

/-- A call returns a snapshot. -/
theorem discover_returns (bounds : Bounds) (current : Option TopologySnapshot) (counter : ℕ)
    (inp : CallInputs) : ∃ snap, discover bounds current counter inp = .ok snap := by
  cases current with
  | none => exact buildSnapshot_returns ..
  | some prev =>
    obtain ⟨provisional, hprovisional⟩ := buildSnapshot_returns bounds
      (gather inp.order bounds inp.results) (counter + 1) prev.metadata.generation inp.provisional
    obtain ⟨snap, hsnap⟩ := buildSnapshot_returns bounds (gather inp.order bounds inp.results)
      (counter + 2) (decideGeneration prev provisional) inp.final
    exact ⟨snap, discover_eq_ok.mpr (Or.inr ⟨prev, provisional, rfl, hprovisional, hsnap⟩)⟩

/-- The snapshot of a call is built from what the providers contributed. -/
theorem discover_built (h : discover bounds current counter inp = .ok snap) :
    ∃ number generation, buildSnapshot bounds (gather inp.order bounds inp.results) number
      generation inp.final = .ok snap := by
  rcases discover_eq_ok.mp h with ⟨-, hbuild⟩ | ⟨prev, provisional, -, -, hbuild⟩
  · exact ⟨_, _, hbuild⟩
  · exact ⟨_, _, hbuild⟩

theorem discover_hasGraph (h : discover bounds current counter inp = .ok snap) :
    HasGraph bounds (gather inp.order bounds inp.results) snap := by
  obtain ⟨number, generation, hbuild⟩ := discover_built h
  obtain ⟨hnodes, hedges, -⟩ := buildSnapshot_graph hbuild
  exact ⟨hnodes, hedges⟩

/-- The generation of the snapshot of a call is what its predecessor asks for. -/
theorem discover_generation (h : discover bounds current counter inp = .ok snap) :
    GenerationFollows current snap := by
  rcases discover_eq_ok.mp h with ⟨rfl, hbuild⟩ | ⟨prev, provisional, rfl, hprovisional, hbuild⟩
  · exact (buildSnapshot_graph hbuild).2.2.1
  · obtain ⟨hnodes, hedges, -⟩ := buildSnapshot_graph hprovisional
    refine (buildSnapshot_graph hbuild).2.2.1.trans ?_
    exact decideGeneration_congr ⟨hnodes, hedges⟩ (discover_hasGraph h)

end Call

/-! ## A thread that runs alone -/

section Alone

variable {bounds : Bounds} {s : RuntimeState} {t : Thread}

/-- From a state in which no call is running, a thread that runs alone publishes the result of its
call. -/
theorem discover_publishes_result (hphase : s.phase t = .idle) (hlock : s.lock = none)
    {inp : CallInputs} {snap : TopologySnapshot}
    (h : discover bounds s.current s.snapshotCounter inp = .ok snap) :
    ∃ s', Relation.ReflTransGen (Steps bounds) s s' ∧ s'.current = some snap ∧
      s'.history.published = s.history.published ++ [snap] := by
  have hself : ∀ (s : RuntimeState) (counter : ℕ) (p : Phase), (s.advance t counter p).phase t = p :=
    fun s counter p => Function.update_self ..
  -- the two phases of a call, up to and from the decision on the generation
  have hbegin : ∃ s', Relation.ReflTransGen (Steps bounds) s s' ∧
      s'.phase t = .loaded (gather inp.order bounds inp.results) s.current ∧
      s'.current = s.current ∧ s'.snapshotCounter = s.snapshotCounter ∧
      s'.history.published = s.history.published := by
    have henter : Steps bounds s (s.enter t) := ⟨t, .enter hphase hlock⟩
    have hgather : Step bounds (s.enter t) t _ := Step.gather
      (Function.update_self ..) inp.order inp.results
    have hload : Step bounds _ t _ := Step.load (hself (s.enter t) s.snapshotCounter
      (.gathered (gather inp.order bounds inp.results)))
    refine ⟨_, ((Relation.ReflTransGen.single henter).tail ⟨t, hgather⟩).tail ⟨t, hload⟩, ?_⟩
    exact ⟨hself .., rfl, rfl, rfl⟩
  have hend : ∀ (s₁ : RuntimeState) (gen : ℕ),
      s₁.phase t = .decided (gather inp.order bounds inp.results) gen →
      s₁.history.published = s.history.published →
      buildSnapshot bounds (gather inp.order bounds inp.results) (s₁.snapshotCounter + 1) gen
        inp.final = .ok snap →
      ∃ s', Relation.ReflTransGen (Steps bounds) s₁ s' ∧ s'.current = some snap ∧
        s'.history.published = s.history.published ++ [snap] := by
    intro s₁ gen hdecided hpublished hbuild
    have hbuilt := Step.build hdecided inp.final hbuild
    have hpublish : Step bounds _ t _ := Step.publish
      (hself s₁ (s₁.snapshotCounter + 1) (.built snap))
    refine ⟨_, (Relation.ReflTransGen.single ⟨t, hbuilt⟩).tail ⟨t, hpublish⟩, rfl, ?_⟩
    show s₁.history.published ++ [snap] = _
    rw [hpublished]
  obtain ⟨s₁, hsteps, hloaded, -, hcounter, hpublished⟩ := hbegin
  rcases discover_eq_ok.mp h with ⟨hnone, hbuild⟩ | ⟨prev, provisional, hsome, hprovisional, hbuild⟩
  · rw [hnone] at hloaded
    have hfirst : Step bounds s₁ t _ := Step.firstGeneration hloaded
    obtain ⟨s', hsteps', hs'⟩ := hend (s₁.advance t s₁.snapshotCounter _) 1 (hself ..) hpublished
      (by rw [← hcounter] at hbuild; exact hbuild)
    exact ⟨s', (hsteps.tail ⟨t, hfirst⟩).trans hsteps', hs'⟩
  · rw [hsome] at hloaded
    rw [← hcounter] at hprovisional hbuild
    have hbuildProvisional := Step.buildProvisional hloaded inp.provisional hprovisional
    let s₂ := s₁.advance t (s₁.snapshotCounter + 1)
      (.provisional (gather inp.order bounds inp.results) prev provisional)
    have hdecide : Step bounds s₂ t _ := Step.decide (hself s₁ ..)
    obtain ⟨s', hsteps', hs'⟩ := hend (s₂.advance t s₂.snapshotCounter
      (.decided (gather inp.order bounds inp.results) (decideGeneration prev provisional))) _
      (hself ..) hpublished hbuild
    exact ⟨s', ((hsteps.tail ⟨t, hbuildProvisional⟩).tail ⟨t, hdecide⟩).trans hsteps', hs'⟩

end Alone

/-! ## Any interleaving -/

/-- What a thread inside `discover` has done so far, by its phase. -/
def PhaseTrace (bounds : Bounds) (current : Option TopologySnapshot) (counter : ℕ) :
    Phase → Prop
  | .idle => True
  | .entered => True
  | .gathered g => ∃ order results, g = gather order bounds results
  | .loaded g prev => (∃ order results, g = gather order bounds results) ∧ prev = current
  | .provisional g prev snap =>
    (∃ order results, g = gather order bounds results) ∧ current = some prev ∧
      ∃ n inp, counter = n + 1 ∧
        buildSnapshot bounds g (n + 1) prev.metadata.generation inp = .ok snap
  | .decided g gen =>
    ∀ inp snap, buildSnapshot bounds g (counter + 1) gen inp = .ok snap →
      ∃ n call, discover bounds current n call = .ok snap
  | .built snap => ∃ n call, discover bounds current n call = .ok snap
  | .published _ => True

/-- Every published snapshot is the result of a call that found the one before. -/
def PublishedByCalls (bounds : Bounds) (published : List TopologySnapshot) : Prop :=
  ∀ k snap, published[k]? = some snap →
    ∃ n call, discover bounds (published.take k).getLast? n call = .ok snap

/-- The phases and the published snapshots are those of calls. -/
structure CallInvariant (bounds : Bounds) (s : RuntimeState) : Prop where
  phases : ∀ t, PhaseTrace bounds s.current s.snapshotCounter (s.phase t)
  published : PublishedByCalls bounds s.history.published

section Runs

variable {bounds : Bounds} {s : RuntimeState} {t : Thread}

theorem PublishedByCalls.concat {published : List TopologySnapshot} {snap : TopologySnapshot}
    (h : PublishedByCalls bounds published)
    (hsnap : ∃ n call, discover bounds published.getLast? n call = .ok snap) :
    PublishedByCalls bounds (published ++ [snap]) := by
  intro k next hk
  rcases lt_trichotomy k published.length with hlt | rfl | hgt
  · rw [List.getElem?_append_left hlt] at hk
    rw [List.take_append_of_le_length hlt.le]
    exact h k next hk
  · rw [List.getElem?_concat_length] at hk
    obtain rfl := Option.some.inj hk
    rw [List.take_left]
    exact hsnap
  · rw [List.getElem?_eq_none (by simpa using hgt)] at hk
    cases hk

/-- After a step of thread `t`, with all other threads outside, only its phase is left to show. -/
private theorem phaseTrace_update {current : Option TopologySnapshot} {counter : ℕ} {p : Phase}
    (hidle : ∀ t', t' ≠ t → s.phase t' = .idle) (hp : PhaseTrace bounds current counter p)
    (t' : Thread) : PhaseTrace bounds current counter (Function.update s.phase t p t') := by
  by_cases hne : t' = t
  · rw [hne, Function.update_self]
    exact hp
  · rw [Function.update_of_ne hne, hidle t' hne]
    trivial

theorem Step.preservesCalls {s' : RuntimeState} (hstep : Step bounds s t s')
    (hinv : RuntimeInvariant bounds s) (h : CallInvariant bounds s) : CallInvariant bounds s' := by
  have htrace := h.phases t
  have hothers : s.phase t ≠ .idle → ∀ t', t' ≠ t → s.phase t' = .idle := fun ht t' hne =>
    hinv.others_idle ht hne
  cases hstep with
  | enter hphase hlock =>
    exact ⟨phaseTrace_update (fun t' _ => hinv.all_idle hlock t') trivial, h.published⟩
  | gather hphase order results =>
    exact ⟨phaseTrace_update (hothers (by simp [hphase])) ⟨order, results, rfl⟩, h.published⟩
  | load hphase =>
    rw [hphase] at htrace
    exact ⟨phaseTrace_update (hothers (by simp [hphase])) ⟨htrace, rfl⟩, h.published⟩
  | @firstGeneration g hphase =>
    rw [hphase] at htrace
    obtain ⟨⟨order, results, rfl⟩, hnone⟩ := htrace
    refine ⟨phaseTrace_update (hothers (by simp [hphase])) fun inp snap hbuild => ?_, h.published⟩
    refine ⟨s.snapshotCounter, ⟨order, results, inp, inp⟩, ?_⟩
    exact discover_eq_ok.mpr (Or.inl ⟨hnone.symm, hbuild⟩)
  | @buildProvisional g prev snap hphase inp hbuild =>
    rw [hphase] at htrace
    obtain ⟨hgather, hprev⟩ := htrace
    exact ⟨phaseTrace_update (hothers (by simp [hphase]))
      ⟨hgather, hprev.symm, s.snapshotCounter, inp, rfl, hbuild⟩, h.published⟩
  | @decide g prev provisional hphase =>
    -- nobody else has moved the counter since the provisional snapshot
    rw [hphase] at htrace
    obtain ⟨⟨order, results, rfl⟩, hprev, n, inp, hcounter, hprovisional⟩ := htrace
    refine ⟨phaseTrace_update (hothers (by simp [hphase])) fun inp' snap hbuild => ?_, h.published⟩
    refine ⟨n, ⟨order, results, inp, inp'⟩, ?_⟩
    rw [hcounter] at hbuild
    exact discover_eq_ok.mpr (Or.inr ⟨prev, provisional, hprev, hprovisional, hbuild⟩)
  | @build g gen snap hphase inp hbuild =>
    rw [hphase] at htrace
    exact ⟨phaseTrace_update (hothers (by simp [hphase])) (htrace inp snap hbuild), h.published⟩
  | publish hphase =>
    rw [hphase] at htrace
    refine ⟨phaseTrace_update (hothers (by simp [hphase])) trivial, h.published.concat ?_⟩
    rw [← hinv.last]
    exact htrace
  | leave hphase =>
    exact ⟨phaseTrace_update (hothers (by simp [hphase])) trivial, h.published⟩
  | throwing hphase counter hcounter =>
    have ht : s.phase t ≠ .idle := fun hidle => by rw [hidle] at hphase; exact hphase
    exact ⟨phaseTrace_update (hothers ht) trivial, h.published⟩
  | read hphase => exact ⟨h.phases, h.published⟩

/-- **Every published snapshot is the result of a call**, in any interleaving. -/
theorem published_discover (h : Reachable bounds s) :
    PublishedByCalls bounds s.history.published := by
  have hboth : RuntimeInvariant bounds s ∧ CallInvariant bounds s := by
    induction h with
    | refl =>
      exact ⟨Reachable.invariant .refl, fun _ => trivial, fun k snap hk => by simp at hk⟩
    | tail hsteps hstep ih =>
      obtain ⟨t, hstep⟩ := hstep
      exact ⟨hstep.preserves ih.1, hstep.preservesCalls ih.1 ih.2⟩
  exact hboth.2.published

end Runs

end TopologyFabric

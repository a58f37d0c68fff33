import TopologyFabric.Merge.Order
import TopologyFabric.Runtime.Calls

/-!
# Warnings of Discovery

A published snapshot says whether its discovery was partial, but none of the warnings: the list that
goes into the metadata is never filled. So the snapshot tells all warnings exactly when there are
none.

## Main results

- `mergeWarnings_eq_nil_iff`: when the merge warns about nothing
- `discover_honest_iff`: when a published snapshot has all warnings of its discovery
- `discover_dishonest`: a provider that throws leaves no warning
-/

namespace TopologyFabric

open Library

/-! ## When the merge is silent -/

/-- A contributed node declares the ref, or the ref is the key of one. -/
def RefDeclared (contributions : List Contribution) (ref : Bytes) : Prop :=
  ref ∈ contributedKeys contributions ∨
    ∃ m ∈ contributedMembers contributions, m.node.ref = ref

instance (contributions : List Contribution) (ref : Bytes) :
    Decidable (RefDeclared contributions ref) := inferInstanceAs (Decidable (_ ∨ _))

/-- The merge has no reason to warn: it can keep all nodes and edges. -/
structure MergeSilent (bounds : Bounds) (contributions : List Contribution) : Prop where
  nodes : WithinNodes bounds contributions
  refs : ∀ ce ∈ contributedEdges contributions,
    RefDeclared contributions ce.fromRef ∧ RefDeclared contributions ce.toRef
  edges : (contributedEdges contributions).length ≤ bounds.maxEdges

section Merge

variable {order : IterationOrder} {bounds : Bounds} {contributions : List Contribution}

/-- Ingestion only adds warnings. -/
theorem ingestNodes_warnings {ci idx : ℕ} {nodes : List ContributedNode}
    {s : Groups × List Bytes} (h : (ingestNodes bounds ci idx nodes s).2 = []) : s.2 = [] := by
  induction nodes generalizing idx s with
  | nil => exact h
  | cons cn nodes ih =>
    obtain ⟨groups, warnings⟩ := s
    rw [ingestNodes] at h
    split_ifs at h
    · exact absurd h (by simp)
    · have hrest := ih h
      exact hrest

theorem ingestNodes_silent {ci idx : ℕ} {nodes : List ContributedNode} {ms : List Member}
    {warnings : List Bytes} (hroom : (ms.map Member.key).toFinset.card ≤ bounds.maxNodes)
    (h : (ingestNodes bounds ci idx nodes (groupBy Member.key ms, warnings)).2 = []) :
    ((ms ++ nodeMembers ci idx nodes).map Member.key).toFinset.card ≤ bounds.maxNodes := by
  induction nodes generalizing idx ms with
  | nil => simpa [nodeMembers] using hroom
  | cons cn nodes ih =>
    have hone : (groupBy Member.key ms).upsert (groupKey cn) [] (· ++ [⟨cn, ci, idx⟩]) =
        groupBy Member.key (ms ++ [⟨cn, ci, idx⟩]) :=
      (groupBy_concat Member.key ms ⟨cn, ci, idx⟩).symm
    rw [ingestNodes] at h
    simp only [hone, size_groupBy] at h
    split_ifs at h with hfull
    · exact absurd h (by simp)
    · rw [nodeMembers_cons, ← List.singleton_append, ← List.append_assoc]
      exact ih (not_lt.mp hfull) h

/-- Ingestion warns iff there are more keys than nodes allowed. -/
theorem ingest_silent : (ingest bounds contributions).2 = [] ↔
    WithinNodes bounds contributions := by
  -- a warning is never taken back
  have hgrow : ∀ (l : List (Contribution × ℕ)) (s : Groups × List Bytes),
      (l.foldl (fun s c => ingestNodes bounds c.2 0 c.1.nodes s) s).2 = [] → s.2 = [] := by
    intro l
    induction l with
    | nil => exact fun s h => h
    | cons c l ih => exact fun s h => ingestNodes_warnings (ih _ h)
  -- without warnings every contribution has found room
  have hfold : ∀ (cs : List Contribution) (ci : ℕ) (ms : List Member) (warnings : List Bytes),
      (ms.map Member.key).toFinset.card ≤ bounds.maxNodes →
      ((cs.zipIdx ci).foldl (fun s c => ingestNodes bounds c.2 0 c.1.nodes s)
        (groupBy Member.key ms, warnings)).2 = [] →
      ((ms ++ membersFrom ci cs).map Member.key).toFinset.card ≤ bounds.maxNodes := by
    intro cs
    induction cs with
    | nil => exact fun ci ms warnings hroom h => by simpa [membersFrom] using hroom
    | cons c cs ih =>
      intro ci ms warnings hroom h
      rw [List.zipIdx_cons, List.foldl_cons] at h
      have hfirst := ingestNodes_silent hroom (hgrow _ _ h)
      rw [ingestNodes_within hfirst] at h
      rw [membersFrom_cons, ← List.append_assoc]
      exact ih (ci + 1) _ _ hfirst h
  constructor
  · exact fun h => hfold contributions 0 [] [] (by simp) h
  · exact fun h => by rw [ingest_eq_groupBy h]

/-- The groups are merged without a warning iff there is room for all of them. -/
theorem groupsMerged_silent : (groupsMerged order bounds contributions).warnings = [] ↔
    WithinNodes bounds contributions := by
  -- a warning is never taken back
  have hgrow : ∀ (gs : List (Bytes × List Member)) (s : GroupState),
      (gs.foldl (mergeStep bounds) s).warnings = [] → s.warnings = [] := by
    intro gs
    induction gs with
    | nil => exact fun s h => h
    | cons g gs ih =>
      intro s h
      have hstep := ih (mergeStep bounds s g) h
      simp only [mergeStep] at hstep
      split_ifs at hstep
      · exact absurd hstep (by simp)
      · exact hstep
  constructor
  · exact fun h => ingest_silent.mp (hgrow _ _ h)
  · exact fun h => by rw [groupsMerged_within h]

/-- The edges of one contribution are resolved without a warning iff all their refs are known and
there is room for them. -/
theorem resolveEdges_silent {l : List ContributedEdge} {edges : List TopologyEdge}
    {warnings : List Bytes} (hroom : edges.length ≤ bounds.maxEdges) :
    (resolveEdges bounds (mergedRefs order bounds contributions) l (edges, warnings)).2 = [] ↔
      warnings = [] ∧ (∀ ce ∈ l, Resolvable order bounds contributions ce) ∧
        edges.length + l.length ≤ bounds.maxEdges := by
  induction l generalizing edges warnings with
  | nil => simpa [resolveEdges] using fun _ => hroom
  | cons ce l ih =>
    have hres := resolvable_iff order bounds contributions ce
    rw [List.forall_mem_cons, List.length_cons, resolveEdges]
    cases hsource : (mergedRefs order bounds contributions).find? ce.fromRef with
    | none =>
      rw [hsource] at hres
      simp only [ih hroom, hres]
      simp
    | some source =>
      cases htarget : (mergedRefs order bounds contributions).find? ce.toRef with
      | none =>
        rw [htarget] at hres
        simp only [ih hroom, hres]
        simp
      | some target =>
        rw [hsource, htarget] at hres
        simp only [hres, Option.isSome_some, and_self, true_and]
        split_ifs with hfull
        · -- the edge does not fit and is warned about
          simp only [List.append_eq_nil_iff, List.cons_ne_nil, and_false, false_iff]
          rintro ⟨-, -, hlen⟩
          omega
        · rw [ih (by rw [List.length_append, List.length_singleton]; omega),
            List.length_append, List.length_singleton]
          have hlen : edges.length + 1 + l.length = edges.length + (l.length + 1) := by omega
          rw [hlen]

/-- All edges are resolved without a warning iff no group is dropped, all refs are known and there
is room for all edges. -/
theorem resolvedEdges_silent : (resolvedEdges order bounds contributions).2 = [] ↔
    WithinNodes bounds contributions ∧
      (∀ ce ∈ contributedEdges contributions, Resolvable order bounds contributions ce) ∧
        (contributedEdges contributions).length ≤ bounds.maxEdges := by
  have hfold : ∀ (cs : List Contribution) (s : List TopologyEdge × List Bytes),
      s.1.length ≤ bounds.maxEdges →
      ((cs.foldl (fun acc c =>
        resolveEdges bounds (mergedRefs order bounds contributions) c.edges acc) s).2 = [] ↔
        s.2 = [] ∧ (∀ ce ∈ cs.flatMap Contribution.edges, Resolvable order bounds contributions ce) ∧
          s.1.length + (cs.flatMap Contribution.edges).length ≤ bounds.maxEdges) := by
    intro cs
    induction cs with
    | nil => intro s hroom; simpa using fun _ => hroom
    | cons c cs ih =>
      rintro ⟨edges, warnings⟩ hroom
      dsimp only at hroom ⊢
      have heq := resolveEdges_eq order bounds contributions c.edges edges warnings
      have hroom' : (resolveEdges bounds (mergedRefs order bounds contributions) c.edges
          (edges, warnings)).1.length ≤ bounds.maxEdges := by
        rw [heq, List.length_append, List.length_map, List.length_take]
        omega
      rw [List.foldl_cons, ih _ hroom', resolveEdges_silent hroom, List.flatMap_cons,
        List.forall_mem_append, List.length_append]
      -- with all refs known, all edges of the contribution are taken
      have hlen : (∀ ce ∈ c.edges, Resolvable order bounds contributions ce) →
          edges.length + c.edges.length ≤ bounds.maxEdges →
          (resolveEdges bounds (mergedRefs order bounds contributions) c.edges
            (edges, warnings)).1.length = edges.length + c.edges.length := by
        intro hall hfits
        rw [heq, List.filter_eq_self.mpr fun ce hce => decide_eq_true (hall ce hce),
          List.length_append, List.length_map, List.length_take]
        omega
      constructor
      · rintro ⟨⟨hw, hall, hfits⟩, hrest, hlast⟩
        rw [hlen hall hfits] at hlast
        exact ⟨hw, ⟨hall, hrest⟩, by omega⟩
      · rintro ⟨hw, ⟨hall, hrest⟩, hlast⟩
        have hfits : edges.length + c.edges.length ≤ bounds.maxEdges := by omega
        refine ⟨⟨hw, hall, hfits⟩, hrest, ?_⟩
        rw [hlen hall hfits]
        omega
  rw [resolvedEdges, hfold _ _ (Nat.zero_le _), groupsMerged_silent]
  simp [contributedEdges]

/-! ## Which refs are known -/

theorem refGroup_isSome (h : WithinNodes bounds contributions) {ref : Bytes} :
    (refGroup order bounds contributions ref).isSome = true ↔ RefDeclared contributions ref := by
  by_cases hnames : NamesGroup bounds contributions ref
  · rw [refGroup_of_names hnames]
    exact ⟨fun _ => Or.inl ((mem_groupKeys_within h).mp hnames.1), fun _ => rfl⟩
  · have hnot : ref ∉ contributedKeys contributions := fun hkey =>
      hnames ⟨(mem_groupKeys_within h).mpr hkey, not_groupDropped h hkey⟩
    rw [refGroup_of_not_names hnames, Option.isSome_map, List.find?_isSome, RefDeclared,
      or_iff_right hnot]
    simp only [mem_refMap, mem_ingestedMembers_within h]
    constructor
    · rintro ⟨e, ⟨m, hm, rfl⟩, href⟩
      exact ⟨m, hm, of_decide_eq_true href⟩
    · rintro ⟨m, hm, href⟩
      exact ⟨_, ⟨m, hm, rfl⟩, decide_eq_true href⟩

/-- **The merge warns about nothing** iff it can keep all nodes and edges. -/
theorem mergeWarnings_eq_nil_iff (order : IterationOrder) :
    (mergeContributions order contributions bounds).warnings = [] ↔
      MergeSilent bounds contributions := by
  rw [mergeContributions_parts]
  refine resolvedEdges_silent.trans ?_
  constructor
  · rintro ⟨hnodes, hrefs, hedges⟩
    exact ⟨hnodes, fun ce hce => ⟨(refGroup_isSome hnodes).mp (hrefs ce hce).1,
      (refGroup_isSome hnodes).mp (hrefs ce hce).2⟩, hedges⟩
  · intro h
    exact ⟨h.nodes, fun ce hce => ⟨(refGroup_isSome h.nodes).mpr (h.refs ce hce).1,
      (refGroup_isSome h.nodes).mpr (h.refs ce hce).2⟩, h.edges⟩

end Merge

/-! ## What a snapshot says of its discovery -/

/-- The provider reports a partial run, or it threw. -/
def ProviderResult.IsPartial : ProviderResult → Prop
  | .returned c => c.partialRun = true
  | .threw _ => True

/-- The snapshot tells whether the discovery was partial, and all warnings: those of the providers,
one for each provider that threw, and those of the merge. -/
structure HonestAbout (order : IterationOrder) (bounds : Bounds) (results : List ProviderResult)
    (snap : TopologySnapshot) : Prop where
  isPartial : snap.metadata.partialDiscovery = true ↔ ∃ r ∈ results, r.IsPartial
  provided : ∀ c, .returned c ∈ results → ∀ w ∈ c.warnings, w ∈ snap.metadata.warnings
  threw : ∀ what, .threw what ∈ results →
    str "provider threw: " ++ what ∈ snap.metadata.warnings
  merged : ∀ w ∈ (mergeContributions order (results.map ProviderResult.contribution)
    bounds).warnings, w ∈ snap.metadata.warnings

/-- There is nothing to warn about: no provider threw or warns, and the merge is silent. -/
structure NothingToWarn (bounds : Bounds) (results : List ProviderResult) : Prop where
  returned : ∀ r ∈ results, ∃ c, r = .returned c ∧ c.warnings = []
  merged : MergeSilent bounds (results.map ProviderResult.contribution)

section Honest

variable {bounds : Bounds} {current : Option TopologySnapshot} {counter : ℕ} {inp : CallInputs}
  {snap : TopologySnapshot}

theorem discover_metadata (h : discover bounds current counter inp = .ok snap) :
    snap.metadata.partialDiscovery = (gather inp.order bounds inp.results).anyPartial ∧
      snap.metadata.warnings = [] := by
  obtain ⟨number, generation, hbuild⟩ := discover_built h
  obtain ⟨-, -, hmeta, -⟩ := SnapshotBuilder.take_eq_ok hbuild
  rw [hmeta]
  exact ⟨rfl, rfl⟩

/-- The flag is right in every published snapshot. -/
theorem discover_partialDiscovery (h : discover bounds current counter inp = .ok snap) :
    snap.metadata.partialDiscovery = true ↔ ∃ r ∈ inp.results, r.IsPartial := by
  rw [(discover_metadata h).1]
  simp only [gather, List.any_map, List.any_eq_true, Function.comp]
  refine exists_congr fun r => and_congr_right fun _ => ?_
  cases r with
  | returned c => exact Iff.rfl
  | threw what => exact iff_of_true rfl trivial

end Honest

/-- **When a published snapshot is honest**: whatever the providers do, a call returns a snapshot,
and the snapshot tells all warnings iff there are none. -/
theorem discover_honest_iff (bounds : Bounds) (current : Option TopologySnapshot) (counter : ℕ)
    (inp : CallInputs) : ∃ snap, discover bounds current counter inp = .ok snap ∧
      (HonestAbout inp.order bounds inp.results snap ↔ NothingToWarn bounds inp.results) := by
  obtain ⟨snap, hsnap⟩ := discover_returns bounds current counter inp
  refine ⟨snap, hsnap, ?_⟩
  -- the metadata that is published has no warnings
  have hwarnings := (discover_metadata hsnap).2
  constructor
  · intro h
    constructor
    · intro r hr
      cases r with
      | returned c =>
        refine ⟨c, rfl, List.eq_nil_iff_forall_not_mem.mpr fun w hw => ?_⟩
        have hmem := h.provided c hr w hw
        rw [hwarnings] at hmem
        exact List.not_mem_nil hmem
      | threw what =>
        have hmem := h.threw what hr
        rw [hwarnings] at hmem
        exact absurd hmem List.not_mem_nil
    · rw [← mergeWarnings_eq_nil_iff inp.order, List.eq_nil_iff_forall_not_mem]
      intro w hw
      have hmem := h.merged w hw
      rw [hwarnings] at hmem
      exact List.not_mem_nil hmem
  · intro h
    refine ⟨discover_partialDiscovery hsnap, fun c hc w hw => ?_, fun what hthrew => ?_,
      fun w hw => ?_⟩
    · obtain ⟨c', heq, hnone⟩ := h.returned _ hc
      obtain rfl := ProviderResult.returned.inj heq
      rw [hnone] at hw
      exact absurd hw List.not_mem_nil
    · obtain ⟨c', heq, -⟩ := h.returned _ hthrew
      cases heq
    · rw [(mergeWarnings_eq_nil_iff inp.order).mpr h.merged] at hw
      exact absurd hw List.not_mem_nil

/-- The only provider throws, and the published snapshot has no warning. -/
theorem discover_dishonest : ∃ snap, discover {} none 0
    ⟨.insertion, [.threw (str "no driver")], ⟨kNullNodeId, 0, .insertion⟩,
      ⟨kNullNodeId, 0, .insertion⟩⟩ = .ok snap ∧
    ¬ HonestAbout .insertion {} [.threw (str "no driver")] snap := by
  obtain ⟨snap, hsnap⟩ := discover_returns {} none 0
    ⟨.insertion, [.threw (str "no driver")], ⟨kNullNodeId, 0, .insertion⟩,
      ⟨kNullNodeId, 0, .insertion⟩⟩
  refine ⟨snap, hsnap, fun h => ?_⟩
  have hmem := h.threw (str "no driver") (List.mem_singleton_self _)
  rw [(discover_metadata hsnap).2] at hmem
  exact List.not_mem_nil hmem

end TopologyFabric

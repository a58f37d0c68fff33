import TopologyFabric.Query.Ranking
import TopologyFabric.Query.ReturnedRoute
import TopologyFabric.Query.RoundedSearch

/-!
# Reasons of a Ranking

The cost of an entry is that of the lowest-cost path, but its reasons look at the distance, which
follows the fewest hops. The reasons describe the path of the entry as far as the two routes agree.

## Main results

- `buildReasons_ok`: when the reasons name an uncertain path and direct connectivity
- `rankReasons_iff`: the reasons describe the path of an entry iff the routes agree
- `rankReasons_wrong`: a detour that avoids an uncertain edge
-/

namespace TopologyFabric

open Library

/-! ## What a path uses -/

/-- The segment takes an edge of confidence LOW or UNKNOWN. -/
def segmentUncertain (snap : TopologySnapshot) (seg : PathSegment) : Bool :=
  snap.edges[seg.edgeIndex]?.any fun e => e.confidence.uncertain

/-- The segment enters a PCI bridge or a PCI root. -/
def segmentEntersPci (snap : TopologySnapshot) (seg : PathSegment) : Bool :=
  (snap.findNode seg.target).any fun v => decide (v.type = .pciBridge ∨ v.type = .pciRoot)

/-- Some segment takes an edge of confidence LOW or UNKNOWN. -/
def UsesUncertain (snap : TopologySnapshot) (segs : List PathSegment) : Prop :=
  ∃ seg ∈ segs, segmentUncertain snap seg = true

/-- Some segment enters a PCI bridge or a PCI root. -/
def EntersPci (snap : TopologySnapshot) (segs : List PathSegment) : Prop :=
  ∃ seg ∈ segs, segmentEntersPci snap seg = true

/-- The reasons of the entry say of these segments whether they use an uncertain edge, and whether
they are direct. -/
def ReasonsDescribe (snap : TopologySnapshot) (entry : RankEntry) (segs : List PathSegment) : Prop :=
  (str "uncertain_path" ∈ entry.reasons ↔ UsesUncertain snap segs) ∧
    (str "direct_connectivity" ∈ entry.reasons ↔
      ¬ EntersPci snap segs ∧ entry.locality ≠ .unknown)

/-- Both use an uncertain edge or neither does, and, unless the locality is unknown, both enter a PCI
bridge or root or neither does. -/
def RoutesAgree (snap : TopologySnapshot) (locality : LocalityClass) (segs segs' : List PathSegment) :
    Prop :=
  (UsesUncertain snap segs ↔ UsesUncertain snap segs') ∧
    (locality ≠ .unknown → (EntersPci snap segs ↔ EntersPci snap segs'))

/-! ## The counts of a distance -/

section Counts

variable {fl : Rounding} {snap : TopologySnapshot} {segs : List PathSegment}

/-- The count of the PCI nodes is zero iff none is entered. -/
theorem countPci_foldlM {n m : ℤ} (hn : 0 ≤ n) (h : segs.foldlM (countPci snap) n = .ok m) :
    0 ≤ m ∧ (m = 0 ↔ n = 0 ∧ ¬ EntersPci snap segs) := by
  induction segs generalizing n with
  | nil =>
    obtain rfl := Outcome.ok.inj h
    simp [hn, EntersPci]
  | cons seg segs ih =>
    rw [List.foldlM_cons] at h
    obtain ⟨k, hk, h⟩ := Outcome.bind_eq_ok.mp h
    obtain ⟨v, hv, hk⟩ := Outcome.bind_eq_ok.mp hk
    obtain rfl := Outcome.ok.inj hk
    have henters : segmentEntersPci snap seg = decide (v.type = .pciBridge ∨ v.type = .pciRoot) := by
      simp [segmentEntersPci, TopologySnapshot.node_eq_ok.mp hv]
    have hcons : EntersPci snap (seg :: segs) ↔
        (v.type = .pciBridge ∨ v.type = .pciRoot) ∨ EntersPci snap segs := by
      simp only [EntersPci, List.mem_cons, exists_eq_or_imp, henters, decide_eq_true_eq]
    rw [hcons]
    split_ifs at h with hpci
    · -- the count never falls again
      obtain ⟨hm, hiff⟩ := ih (by omega) h
      refine ⟨hm, hiff.trans ?_⟩
      simp only [hpci, true_or, not_true_eq_false, and_false, iff_false, not_and]
      omega
    · obtain ⟨hm, hiff⟩ := ih hn h
      exact ⟨hm, hiff.trans (by simp [hpci])⟩

/-- Charging one more edge gives a positive number of the format, if one is a number of it. -/
theorem isRounded_add_one (hfl : IsRounding fl) (hone : fl 1 = .fin 1) {x : Double}
    (hx : IsRounded fl x) :
    IsRounded fl (x.add fl (.fin 1)) ∧ (Double.fin 0).lt (x.add fl (.fin 1)) = true := by
  have hrounded : IsRounded fl (x.add fl (.fin 1)) :=
    (hx.add_cost hfl (by simp) ⟨rfl, rfl⟩).1
  refine ⟨hrounded, ?_⟩
  rcases hx with rfl | ⟨q, hq, rfl, -⟩
  · rfl
  · -- the exact sum is at least one, and rounding keeps one and the order
    have hmono := hfl.mono 1 (q + 1) zero_le_one (by linarith)
    have hsum : (Double.fin q).add fl (.fin 1) = fl (q + 1) := rfl
    rw [hsum] at hrounded ⊢
    rw [hone] at hmono
    rcases hrounded with h | ⟨r, -, h, -⟩
    · rw [h]
      rfl
    · rw [h, Double.lt_fin, decide_eq_false_iff_not, not_lt] at hmono
      rw [h, Double.lt_fin, decide_eq_true_eq]
      exact zero_lt_one.trans_le hmono

/-- The charge is positive iff an uncertain edge is used. -/
theorem chargeUncertain_foldlM (hfl : IsRounding fl) (hone : fl 1 = .fin 1) {x y : Double}
    (hx : IsRounded fl x) (h : segs.foldlM (chargeUncertain fl snap) x = .ok y) :
    (Double.fin 0).lt y = true ↔ (Double.fin 0).lt x = true ∨ UsesUncertain snap segs := by
  induction segs generalizing x with
  | nil =>
    obtain rfl := Outcome.ok.inj h
    simp [UsesUncertain]
  | cons seg segs ih =>
    rw [List.foldlM_cons] at h
    obtain ⟨z, hz, h⟩ := Outcome.bind_eq_ok.mp h
    obtain ⟨e, he, hz⟩ := Outcome.bind_eq_ok.mp hz
    obtain rfl := Outcome.ok.inj hz
    have huncertain : segmentUncertain snap seg = e.confidence.uncertain := by
      simp [segmentUncertain, TopologySnapshot.edge_eq_ok.mp he]
    have hcons : UsesUncertain snap (seg :: segs) ↔
        e.confidence.uncertain = true ∨ UsesUncertain snap segs := by
      simp only [UsesUncertain, List.mem_cons, exists_eq_or_imp, huncertain]
    rw [hcons]
    -- a charge makes the sum positive, and it stays so
    split_ifs at h with hcharge
    · obtain ⟨hrounded, hpos⟩ := isRounded_add_one hfl hone hx
      rw [ih hrounded h]
      exact iff_of_true (Or.inl hpos) (Or.inr (Or.inl hcharge))
    · rw [ih hx h]
      simp [hcharge]

end Counts

/-! ## The reasons -/

section Reasons

variable {fl : Rounding} {fuel : ℕ} {snap : TopologySnapshot} {w : CostWeights}
  {src dst : TopologyNodeId}

/-- The names of the reasons that hold. -/
theorem mem_reasons {reasons : List (Bool × Bytes)} {name : Bytes} :
    name ∈ ((reasons.filter Prod.fst).map Prod.snd).insertionSort (· ≤ ·) ↔
      (true, name) ∈ reasons := by
  rw [List.mem_insertionSort, List.mem_map]
  constructor
  · rintro ⟨⟨holds, name'⟩, hmem, rfl⟩
    obtain ⟨hmem, rfl⟩ := List.mem_filter.mp hmem
    exact hmem
  · intro hmem
    exact ⟨(true, name), List.mem_filter.mpr ⟨hmem, rfl⟩, rfl⟩

/-- Among distinct names the entry of a name tells whether it holds. -/
theorem mem_of_distinct {reasons : List (Bool × Bytes)} (hdistinct : (reasons.map Prod.snd).Nodup)
    {b : Bool} {name : Bytes} (h : (b, name) ∈ reasons) : (true, name) ∈ reasons ↔ b = true := by
  constructor
  · intro htrue
    have hsame := List.inj_on_of_nodup_map hdistinct htrue h rfl
    exact (congrArg Prod.fst hsame).symm
  · rintro rfl
    exact h

/-- The two reasons that look at the route come from the distance. -/
theorem buildReasons_ok {reasons : List Bytes}
    (h : buildReasons fl fuel snap src dst w = .ok reasons) :
    ∃ loc d, localityBetween fuel snap src dst = .ok loc ∧
      distanceBetween fl fuel snap src dst w = .ok d ∧
      (str "uncertain_path" ∈ reasons ↔ (Double.fin 0).lt d.uncertainty = true) ∧
      (str "direct_connectivity" ∈ reasons ↔ d.pciDepth = 0 ∧ loc ≠ .unknown) := by
  obtain ⟨loc, hloc, h⟩ := Outcome.bind_eq_ok.mp h
  obtain ⟨cls, -, h⟩ := Outcome.bind_eq_ok.mp h
  obtain ⟨d, hd, h⟩ := Outcome.bind_eq_ok.mp h
  obtain rfl := Outcome.ok.inj h
  refine ⟨loc, d, hloc, hd, ?_, ?_⟩
  -- all reasons have different names, so no other one can stand in for these two
  · refine mem_reasons.trans (mem_of_distinct ?_ (b := (Double.fin 0).lt d.uncertainty) (by simp))
    simp only [List.map_cons, List.map_nil]
    decide
  · refine (mem_reasons.trans (mem_of_distinct ?_
      (b := decide (d.pciDepth = 0) && decide (loc ≠ .unknown)) (by simp))).trans (by simp)
    simp only [List.map_cons, List.map_nil]
    decide

/-- The distance counts along the first of the shortest routes. -/
theorem distanceBetween_ok {d : DistanceBreakdown} (hfl : IsRounding fl) (hone : fl 1 = .fin 1)
    (hsrc : snap.Present src) (hdst : snap.Present dst) (hne : src ≠ dst)
    (hroute : ∃ hops, IsRoute snap false src hops dst)
    (h : distanceBetween fl fuel snap src dst w = .ok d) :
    ∃ hops, IsFirstWalk (snap.links false) src hops dst ∧
      (d.pciDepth = 0 ↔ ¬ EntersPci snap (hops.map (hopSegment snap))) ∧
      ((Double.fin 0).lt d.uncertainty = true ↔
        UsesUncertain snap (hops.map (hopSegment snap))) := by
  rw [distanceBetween, if_neg hne] at h
  obtain ⟨sp, hsp, h⟩ := Outcome.bind_eq_ok.mp h
  obtain ⟨hfound, hops, hfirst, hsegs⟩ := shortestPath_returned hsrc hdst hne hroute hsp
  simp only [hfound, Bool.not_true, Bool.false_eq_true, if_false] at h
  -- of all the fields only the depth and the charge run over the segments
  obtain ⟨depth, hdepth, h⟩ := Outcome.bind_eq_ok.mp h
  obtain ⟨ra, -, h⟩ := Outcome.bind_eq_ok.mp h
  obtain ⟨rb, -, h⟩ := Outcome.bind_eq_ok.mp h
  obtain ⟨crossed, -, h⟩ := Outcome.bind_eq_ok.mp h
  obtain ⟨na, -, h⟩ := Outcome.bind_eq_ok.mp h
  obtain ⟨nb, -, h⟩ := Outcome.bind_eq_ok.mp h
  obtain ⟨cb, -, h⟩ := Outcome.bind_eq_ok.mp h
  obtain ⟨charge, hcharge, h⟩ := Outcome.bind_eq_ok.mp h
  obtain rfl := Outcome.ok.inj h
  rw [hsegs] at hdepth hcharge
  refine ⟨hops, hfirst, (countPci_foldlM (le_refl 0) hdepth).2.trans (by simp), ?_⟩
  refine (chargeUncertain_foldlM hfl hone (isRounded_zero hfl) hcharge).trans ?_
  simp

/-- The reasons of an entry describe its path iff that agrees with the first of the shortest
routes. -/
theorem EntryFrom.reasons_iff {entry : RankEntry} {p : TopologyPath} (hfl : IsRounding fl)
    (hone : fl 1 = .fin 1) (hne : src ≠ entry.id) (h : EntryFrom fl fuel snap w src entry p) :
    SegmentsFollow snap false src p.segments entry.id ∧
      ∃ hops, IsFirstWalk (snap.links false) src hops entry.id ∧
        (ReasonsDescribe snap entry p.segments ↔
          RoutesAgree snap entry.locality (hops.map (hopSegment snap)) p.segments) := by
  have hpresent := lowestCostPath_present h.path h.found
  obtain ⟨hfollow, hlocality⟩ := lowestCostPath_route hne h.path h.found
  obtain ⟨loc, d, hloc, hd, huncertain, hdirect⟩ := buildReasons_ok h.reasons
  obtain ⟨hops, hfirst, hdepth, hcharge⟩ :=
    distanceBetween_ok hfl hone hpresent.1 hpresent.2 hne ⟨_, hfollow.1⟩ hd
  obtain rfl : loc = p.locality := Outcome.ok.inj (hloc.symm.trans hlocality)
  refine ⟨hfollow, hops, hfirst, ?_⟩
  refine and_congr (by rw [huncertain, hcharge]) ?_
  rw [hdirect, hdepth, h.locality]
  by_cases hloc : p.locality = .unknown
  · simp [hloc]
  · simp only [hloc, ne_eq, not_false_eq_true, and_true, forall_const, not_iff_not]

end Reasons

/-- The entry has the cost of a path to its node, and its reasons describe this path iff it agrees
with the first of the shortest routes. -/
def EntryReasonsIff (fl : Rounding) (fuel : ℕ) (snap : TopologySnapshot) (w : CostWeights)
    (source : TopologyNodeId) (entry : RankEntry) : Prop :=
  ∃ p, lowestCostPath fl fuel snap source entry.id w = .ok p ∧ p.found = true ∧
    entry.cost = p.totalCost ∧ SegmentsFollow snap false source p.segments entry.id ∧
    ∃ hops, IsFirstWalk (snap.links false) source hops entry.id ∧
      (ReasonsDescribe snap entry p.segments ↔
        RoutesAgree snap entry.locality (hops.map (hopSegment snap)) p.segments)

/-- **When the reasons describe the ranked path.** On any snapshot and under all weights, the reasons
of every entry of a ranking describe the path whose cost is reported iff that path and the first of
the shortest routes agree. The arithmetic is any rounding that keeps one. -/
theorem rankReasons_iff {fl : Rounding} (hfl : IsRounding fl) (hone : fl 1 = .fin 1)
    (snap : TopologySnapshot) (w : CostWeights) (source : TopologyNodeId) (fuel : ℕ) :
    (∀ candidates r, rankCandidates fl fuel snap source candidates w = .ok r →
      ∀ entry ∈ r.ranked, EntryReasonsIff fl fuel snap w source entry) ∧
    (∀ order type maxCandidates r,
      rankCandidatesByType fl order fuel snap source type maxCandidates w = .ok r →
      ∀ entry ∈ r.ranked, EntryReasonsIff fl fuel snap w source entry) := by
  -- both rankings compute their entries alike
  have hentry : ∀ entry, (source ≠ entry.id ∧ ∃ p, EntryFrom fl fuel snap w source entry p) →
      EntryReasonsIff fl fuel snap w source entry := by
    rintro entry ⟨hne, p, hfrom⟩
    obtain ⟨hfollow, hiff⟩ := hfrom.reasons_iff hfl hone hne
    exact ⟨p, hfrom.path, hfrom.found, hfrom.cost, hfollow, hiff⟩
  constructor
  · intro candidates r h entry hmem
    exact hentry entry (rankCandidates_entryFrom h entry hmem)
  · intro order type maxCandidates r h entry hmem
    exact hentry entry (rankCandidatesByType_entryFrom h entry hmem)

/-- The one entry of a ranking of two joined nodes. -/
theorem rankReasons_iff_pair : binary64 1 = .fin 1 ∧
    ∃ r, rankCandidates binary64 20 pairSnapshot ⟨0, 1⟩ [⟨0, 2⟩] {} = .ok r ∧ r.ranked ≠ [] ∧
      ∀ entry ∈ r.ranked, EntryReasonsIff binary64 20 pairSnapshot {} ⟨0, 1⟩ entry := by
  have hone : binary64 1 = .fin 1 := by decide +kernel
  have hrun : (rankCandidates binary64 20 pairSnapshot ⟨0, 1⟩ [⟨0, 2⟩] {} >>= fun r =>
      .ok r.ranked.isEmpty) = .ok false := by decide +kernel
  obtain ⟨r, hr, hrun⟩ := Outcome.bind_eq_ok.mp hrun
  refine ⟨hone, r, hr, ?_, ?_⟩
  · intro h
    simp [h] at hrun
  · exact (rankReasons_iff binary64_isRounding hone pairSnapshot {} ⟨0, 1⟩ 20).1 _ r hr

/-- Two nodes with a slow edge of low confidence between them, and a faster way round. -/
def detourSnapshot : TopologySnapshot where
  nodes := ⟨[(⟨0, 1⟩, { id := ⟨0, 1⟩, type := .machine }),
    (⟨0, 2⟩, { id := ⟨0, 2⟩, type := .accelerator }),
    (⟨0, 3⟩, { id := ⟨0, 3⟩, type := .machine })], by decide⟩
  keyed := by simp
  edges := [
    { source := ⟨0, 1⟩, target := ⟨0, 2⟩, confidence := .low, latencyNs := some (.fin 1000000) },
    { source := ⟨0, 1⟩, target := ⟨0, 3⟩, confidence := .high },
    { source := ⟨0, 3⟩, target := ⟨0, 2⟩, confidence := .high }]
  adjacencyMap := _
  adjacencyBuilt := rfl
  metadata := {}
  validation := {}
  bounds := {}

/-- The ranked path avoids the uncertain edge, and its reasons report one. -/
theorem rankReasons_wrong : detourSnapshot.NoDanglingEdges ∧ CostWeights.Nonneg {} ∧
    ∃ r entry p, rankCandidates binary64 20 detourSnapshot ⟨0, 1⟩ [⟨0, 2⟩] {} = .ok r ∧
      entry ∈ r.ranked ∧ lowestCostPath binary64 20 detourSnapshot ⟨0, 1⟩ entry.id {} = .ok p ∧
      p.found = true ∧ entry.cost = p.totalCost ∧ str "uncertain_path" ∈ entry.reasons ∧
      ¬ UsesUncertain detourSnapshot p.segments ∧
      ¬ ReasonsDescribe detourSnapshot entry p.segments := by
  -- the ranking and the search, computed
  have hrun : (rankCandidates binary64 20 detourSnapshot ⟨0, 1⟩ [⟨0, 2⟩] {} >>= fun r =>
      lowestCostPath binary64 20 detourSnapshot ⟨0, 1⟩ ⟨0, 2⟩ {} >>= fun p =>
        .ok (r.ranked.map fun e => (e.id, decide (e.cost = p.totalCost),
          e.reasons.contains (str "uncertain_path")), p.found,
          p.segments.any (segmentUncertain detourSnapshot))) =
        .ok ([(⟨0, 2⟩, true, true)], true, false) := by decide +kernel
  obtain ⟨r, hr, hrun⟩ := Outcome.bind_eq_ok.mp hrun
  obtain ⟨p, hp, hrun⟩ := Outcome.bind_eq_ok.mp hrun
  obtain ⟨hentries, hrun⟩ := Prod.mk.inj (Outcome.ok.inj hrun)
  obtain ⟨hfound, huncertain⟩ := Prod.mk.inj hrun
  obtain ⟨entry, hentry, hfields⟩ : ∃ entry, r.ranked = [entry] ∧
      (entry.id, decide (entry.cost = p.totalCost),
        entry.reasons.contains (str "uncertain_path")) = (⟨0, 2⟩, true, true) := by
    obtain ⟨entry, hentry, hfields⟩ := List.map_eq_singleton_iff.mp hentries
    exact ⟨entry, hentry, hfields⟩
  obtain ⟨hid, hfields⟩ := Prod.mk.inj hfields
  obtain ⟨hcost, hreason⟩ := Prod.mk.inj hfields
  have hclear : ¬ UsesUncertain detourSnapshot p.segments := by
    simpa [UsesUncertain] using huncertain
  have hmem : str "uncertain_path" ∈ entry.reasons := by simpa using hreason
  have hnonneg : CostWeights.Nonneg {} := by
    constructor <;> decide +kernel
  refine ⟨by decide, hnonneg, r, entry, p, hr, by simp [hentry], hid ▸ hp, hfound,
    of_decide_eq_true hcost, hmem, hclear, fun h => hclear (h.1.mp hmem)⟩

end TopologyFabric

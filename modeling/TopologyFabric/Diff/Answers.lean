import TopologyFabric.Diff.Laws
import TopologyFabric.Query.LowestCostPath

/-!
# What a Refresh Keeps

A refresh without a material difference keeps the generation, and a consumer that looks at the
generation only keeps its answers. The queries read more facts than the comparison looks at: the
type of a node, the confidence of an edge, the CONTAINS parents as they are written, and the link
facts of every one of several parallel edges. Where these agree too, the answers are the same.

## Main results

- `edgeTraversalCost_congr`, `IsRoute.transfer`: equal facts give equal costs
- `localityBetween_congr`, `classifyPath_congr`: equal facts give equal classes
- `stableAnswers_of_forgottenFactsAgree`: when an immaterial refresh keeps the answers
-/

namespace TopologyFabric

open Library

/-! ## Equal costs -/

namespace Double

/-- One of the two zeros. -/
def IsZero (x : Double) : Prop := x = .negZero ∨ x = .fin 0

/-- Values that compare equal are the same, or both a zero. -/
theorem eq_or_isZero_of_ne_eq_false {x y : Double} (h : x.ne y = false) :
    x = y ∨ (x.IsZero ∧ y.IsZero) := by
  have hrank : x.rank = y.rank := by
    obtain ⟨r, hx, hy⟩ := ne_eq_false.mp h
    rw [hx, hy]
  rcases x with _ | (_ | _) | _ | p <;> rcases y with _ | (_ | _) | _ | q <;>
    simp_all [rank, IsZero]

theorem IsZero.mul_eq {x : Double} (h : x.IsZero) (w : Double) :
    w.mul exact x = w.mul exact (.fin 0) := by
  rcases h with rfl | rfl
  · cases w <;> simp [Double.mul, isNan, isInf, toRat]
  · rfl

theorem IsZero.le_zero {x : Double} (h : x.IsZero) : x.le (.fin 0) = true := by
  rcases h with rfl | rfl <;> simp [le, rank]

end Double

/-- What the cost of following an edge depends on. -/
structure SameCostFacts (e e' : TopologyEdge) : Prop where
  key : e.key = e'.key
  bandwidth : optionalNe Double.ne e.bandwidthBytesPerSec e'.bandwidthBytesPerSec = false
  latency : optionalNe Double.ne e.latencyNs e'.latencyNs = false
  uncertain : e.confidence = .low ∨ e.confidence = .unknown ↔
    e'.confidence = .low ∨ e'.confidence = .unknown

theorem SameCostFacts.symm {e e' : TopologyEdge} (h : SameCostFacts e e') : SameCostFacts e' e :=
  ⟨h.key.symm, optionalNe_symm h.bandwidth, optionalNe_symm h.latency, h.uncertain.symm⟩

section Costs

variable {u v u' v' : TopologyNode} {e e' : TopologyEdge}

private theorem defaults_congr (hv : v.type = v'.type) :
    defaultLatencyNs u v = defaultLatencyNs u' v' ∧
      defaultBandwidthBps u v = defaultBandwidthBps u' v' := by
  unfold defaultLatencyNs defaultBandwidthBps
  rw [hv]
  exact ⟨rfl, rfl⟩

private theorem latencyTerm_congr (hv : v.type = v'.type) (he : SameCostFacts e e') (w : Double) :
    w.mul exact (edgeLatency u v e) = w.mul exact (edgeLatency u' v' e') := by
  unfold edgeLatency
  rcases optionalNe_eq_false.mp he.latency with ⟨hnone, hnone'⟩ | ⟨x, y, hx, hy, hne⟩
  · rw [hnone, hnone', Option.getD_none, Option.getD_none, (defaults_congr (u := u) hv).1]
  · rw [hx, hy, Option.getD_some, Option.getD_some]
    rcases Double.eq_or_isZero_of_ne_eq_false hne with rfl | ⟨hzero, hzero'⟩
    · rfl
    · rw [hzero.mul_eq, hzero'.mul_eq]

private theorem edgeBandwidth_congr (hv : v.type = v'.type) (he : SameCostFacts e e')
    (w : CostWeights) : edgeBandwidth u v e w = edgeBandwidth u' v' e' w := by
  unfold edgeBandwidth
  rcases optionalNe_eq_false.mp he.bandwidth with ⟨hnone, hnone'⟩ | ⟨x, y, hx, hy, hne⟩
  · rw [hnone, hnone', Option.getD_none, Option.getD_none, (defaults_congr (u := u) hv).2]
  · rw [hx, hy, Option.getD_some, Option.getD_some]
    rcases Double.eq_or_isZero_of_ne_eq_false hne with rfl | ⟨hzero, hzero'⟩
    · rfl
    · -- a zero bandwidth is replaced by the reference
      simp only [hzero.le_zero, hzero'.le_zero, if_true]

/-- Equal facts give equal costs. -/
theorem edgeTraversalCost_congr (hu : u.type = u'.type) (hv : v.type = v'.type)
    (he : SameCostFacts e e') (w : CostWeights) :
    edgeTraversalCost exact u v e w = edgeTraversalCost exact u' v' e' w := by
  have hlatency : w.latencyNsWeight.mul exact (edgeLatency u v e) =
      w.latencyNsWeight.mul exact (edgeLatency u' v' e') := latencyTerm_congr hv he _
  have hbandwidth : edgeBandwidth u v e w = edgeBandwidth u' v' e' w := edgeBandwidth_congr hv he w
  unfold edgeTraversalCost edgeCostTerms
  simp only [hlatency, hbandwidth, hu, hv, he.uncertain]

end Costs

/-! ## Equal totals -/

/-- Every node and every edge that a path may follow has a counterpart with the facts that costs
depend on. -/
structure Mirrors (a b : TopologySnapshot) : Prop where
  node : ∀ id na, a.findNode id = some na → ∃ nb, b.findNode id = some nb ∧ na.type = nb.type ∧
    na.native.numaNode = nb.native.numaNode
  edge : ∀ e ∈ a.edges, e.Usable false → ∃ e' ∈ b.edges, SameCostFacts e e'

/-- The ends of an edge are those of its key. -/
theorem TopologyEdge.joins_iff_key {e : TopologyEdge} {x y : TopologyNodeId} : e.Joins x y ↔
    (e.key.source = x ∧ e.key.target = y) ∨ (e.key.source = y ∧ e.key.target = x) := by
  unfold TopologyEdge.Joins TopologyEdge.key
  split_ifs
  · tauto
  · exact Iff.rfl

theorem TopologyEdge.key_type (e : TopologyEdge) : e.key.type = e.type := by
  unfold TopologyEdge.key
  split_ifs <;> rfl

section Totals

variable {a b : TopologySnapshot} {w : CostWeights} {src dst : TopologyNodeId}

/-- Every route has a counterpart of the same cost. -/
theorem IsRoute.transfer (h : Mirrors a b) (hd : a.NoDanglingEdges) {hops : List EdgeHop}
    (hroute : IsRoute a false src hops dst) : ∃ hops', IsRoute b false src hops' dst ∧
      walkCost (exactCost b w) hops' = walkCost (exactCost a w) hops := by
  -- a link of one snapshot is a link of the other, at the same cost
  have hlinks : ∀ x p, p ∈ a.links false x → ∃ j, (p.1, j) ∈ b.links false x ∧
      exactCost b w x p.1 j = exactCost a w x p.1 p.2 := by
    rintro x ⟨y, i⟩ hlink
    obtain ⟨e, he, husable, hjoins⟩ := mem_links.mp hlink
    obtain ⟨hx, hy⟩ := hd.joins he hjoins
    obtain ⟨u, hu, -⟩ := hx.exists_node
    obtain ⟨v, hv, -⟩ := hy.exists_node
    obtain ⟨u', hu', hutype, -⟩ := h.node x u hu
    obtain ⟨v', hv', hvtype, -⟩ := h.node y v hv
    obtain ⟨e', he', hsame⟩ := h.edge e (List.mem_of_getElem? he) husable
    obtain ⟨j, hj⟩ := List.mem_iff_getElem?.mp he'
    have htype : e'.type = e.type := by
      rw [← TopologyEdge.key_type, ← TopologyEdge.key_type e, hsame.key]
    refine ⟨j, mem_links.mpr ⟨e', hj, ?_, ?_⟩, ?_⟩
    · rwa [TopologyEdge.Usable, htype]
    · rwa [TopologyEdge.joins_iff_key, ← hsame.key, ← TopologyEdge.joins_iff_key]
    · rw [exactCost, exactCost, hopCost_eq hu hv he, hopCost_eq hu' hv' hj,
        edgeTraversalCost_congr hutype hvtype hsame]
  obtain ⟨hops', hwalk, hcost⟩ := (isRoute_iff_isWalk.mp hroute).transfer hlinks
  exact ⟨hops', isRoute_iff_isWalk.mpr hwalk, hcost⟩

theorem Mirrors.totalWith_eq (h : Mirrors a b) (hsrc : a.Present src) (hdst : a.Present dst)
    (sum : ℚ) : totalWith b w src dst sum = totalWith a w src dst sum := by
  obtain ⟨na, hna, -⟩ := hsrc.exists_node
  obtain ⟨nb, hnb, -⟩ := hdst.exists_node
  obtain ⟨na', hna', -, hnuma⟩ := h.node src na hna
  obtain ⟨nb', hnb', -, hnuma'⟩ := h.node dst nb hnb
  have hcross : crossesNuma na nb = crossesNuma na' nb' := by
    unfold crossesNuma
    rw [hnuma, hnuma']
  simp only [totalWith, hna, hnb, hna', hnb', hcross]

/-- The cheapest routes of the first snapshot are not cheaper than those of the second. -/
theorem LowestCostAnswer.not_lt (h : Mirrors a b) (hd : a.NoDanglingEdges) (hsrc : a.Present src)
    (hdst : a.Present dst) {pa pb : TopologyPath} (ha : LowestCostAnswer a w src dst pa)
    (hb : LowestCostAnswer b w src dst pb) (hfound : pa.found = true) :
    pb.found = true ∧ pa.totalCost.lt pb.totalCost = false := by
  obtain ⟨hops, hroute, htotal⟩ := ha.attained hfound
  obtain ⟨hops', hroute', hcost⟩ := hroute.transfer (w := w) h hd
  have hfound' := hb.found.mpr ⟨hops', hroute'⟩
  refine ⟨hfound', ?_⟩
  rw [htotal, routeTotal, ← hcost, ← h.totalWith_eq hsrc hdst]
  exact hb.least hfound' hops' hroute'

/-- A total is a number or an infinity, never NaN and never the negative zero. -/
theorem totalWith_eq_or (hw : w.Nonneg) (sum : ℚ) :
    (∃ q, totalWith a w src dst sum = .fin q) ∨ totalWith a w src dst sum = .inf false := by
  have hnuma := hw.numaPenalty
  unfold totalWith
  split
  · split_ifs
    · rcases hpenalty : w.numaPenalty with _ | neg | _ | q <;> rw [hpenalty] at hnuma
      · exact absurd hnuma Double.not_nonneg_nan
      · obtain rfl := (Double.nonneg_inf neg).mp hnuma
        exact Or.inr rfl
      · exact Or.inl ⟨_, rfl⟩
      · exact Or.inl ⟨_, rfl⟩
    · exact Or.inl ⟨_, rfl⟩
  · exact Or.inl ⟨_, rfl⟩

end Totals

/-! ## Equal classes -/

/-- What the queries read and the comparison forgets. -/
structure ForgottenFactsAgree (a b : TopologySnapshot) : Prop where
  types : ∀ id na nb, a.nodes.find? id = some na → b.nodes.find? id = some nb → na.type = nb.type
  links : ∀ e ∈ a.edges, e.Usable false → ∃ e' ∈ b.edges, SameCostFacts e e'
  links' : ∀ e' ∈ b.edges, e'.Usable false → ∃ e ∈ a.edges, SameCostFacts e e'
  sameParents : ∀ id x, x ∈ parents a id .contains ↔ x ∈ parents b id .contains
  firstParent : ∀ id, (parents a id .contains).head? = (parents b id .contains).head?

section Classes

variable {a b : TopologySnapshot} {x y : TopologyNodeId}

/-- A node is in both snapshots, with the same facts, or in neither. -/
theorem findNode_agree (h : Immaterial a b) (hforgotten : ForgottenFactsAgree a b)
    (id : TopologyNodeId) : (a.findNode id = none ∧ b.findNode id = none) ∨
      ∃ na nb, a.findNode id = some na ∧ b.findNode id = some nb ∧ na.type = nb.type ∧
        SameFacts na nb := by
  have hids := h.nodeIds id
  rw [← HashMap.contains_iff, ← HashMap.contains_iff, HashMap.contains, HashMap.contains] at hids
  unfold TopologySnapshot.findNode
  cases ha : a.nodes.find? id with
  | none =>
    cases hb : b.nodes.find? id with
    | none => exact Or.inl ⟨rfl, rfl⟩
    | some nb => simp [ha, hb] at hids
  | some na =>
    cases hb : b.nodes.find? id with
    | none => simp [ha, hb] at hids
    | some nb =>
      exact Or.inr ⟨na, nb, rfl, rfl, hforgotten.types id na nb ha hb, h.facts id na nb ha hb⟩

theorem rootAncestor_congr (h : Immaterial a b) (hforgotten : ForgottenFactsAgree a b) (fuel : ℕ)
    (id : TopologyNodeId) (rootType : NodeType) :
    rootAncestor fuel a id rootType = rootAncestor fuel b id rootType := by
  have hstep : ancestorStep a rootType = ancestorStep b rootType := by
    funext ⟨cur, seen⟩
    have hparent := hforgotten.firstParent cur
    unfold ancestorStep
    rcases findNode_agree h hforgotten cur with ⟨ha, hb⟩ | ⟨na, nb, ha, hb, htype, -⟩
    · simp only [ha, hb, Option.isNone_none, or_true, if_true]
    · simp only [ha, hb, TopologySnapshot.node_eq_ok.mpr ha, TopologySnapshot.node_eq_ok.mpr hb]
      cases hpa : parents a cur .contains <;> cases hpb : parents b cur .contains <;>
        simp_all
  rw [rootAncestor, rootAncestor, hstep]

theorem localityBetween_congr (h : Immaterial a b) (hforgotten : ForgottenFactsAgree a b)
    (hx : a.Present x) (hy : a.Present y) (fuel : ℕ) :
    localityBetween fuel a x y = localityBetween fuel b x y := by
  obtain ⟨na, nb, ha, hb, htype, hfacts⟩ := (findNode_agree h hforgotten x).resolve_left
    fun hnone => by simp [TopologySnapshot.Present, hnone.1] at hx
  obtain ⟨ma, mb, ha', hb', htype', hfacts'⟩ := (findNode_agree h hforgotten y).resolve_left
    fun hnone => by simp [TopologySnapshot.Present, hnone.1] at hy
  unfold localityBetween
  simp only [TopologySnapshot.node_eq_ok.mpr ha, TopologySnapshot.node_eq_ok.mpr hb,
    TopologySnapshot.node_eq_ok.mpr ha', TopologySnapshot.node_eq_ok.mpr hb', Outcome.ok_bind,
    htype, htype', hfacts.coreId, hfacts.cpuPackage, hfacts.numaNode, hfacts'.coreId,
    hfacts'.cpuPackage, hfacts'.numaNode, rootAncestor_congr h hforgotten]

private theorem commonBridge_congr (h : Immaterial a b) (hforgotten : ForgottenFactsAgree a b)
    (hda : a.NoDanglingEdges) (hdb : b.NoDanglingEdges) (x y : TopologyNodeId) :
    commonBridge a (parents a x .contains) (parents a y .contains) =
      commonBridge b (parents b x .contains) (parents b y .contains) := by
  rw [commonBridge_eq (hda.parents_present x .contains),
    commonBridge_eq (hdb.parents_present x .contains)]
  have htypes : ∀ p, (a.findNode p).map TopologyNode.type =
      (b.findNode p).map TopologyNode.type := by
    intro p
    rcases findNode_agree h hforgotten p with ⟨ha, hb⟩ | ⟨na, nb, ha, hb, htype, -⟩
    · rw [ha, hb]
    · rw [ha, hb, Option.map_some, Option.map_some, htype]
  simp only [hforgotten.sameParents, htypes]

theorem classifyPath_congr (h : Immaterial a b) (hforgotten : ForgottenFactsAgree a b)
    (hda : a.NoDanglingEdges) (hdb : b.NoDanglingEdges) (hx : a.Present x) (hy : a.Present y)
    (fuel : ℕ) : classifyPath fuel a x y = classifyPath fuel b x y := by
  obtain ⟨na, nb, ha, hb, htype, hfacts⟩ := (findNode_agree h hforgotten x).resolve_left
    fun hnone => by simp [TopologySnapshot.Present, hnone.1] at hx
  obtain ⟨ma, mb, ha', hb', htype', hfacts'⟩ := (findNode_agree h hforgotten y).resolve_left
    fun hnone => by simp [TopologySnapshot.Present, hnone.1] at hy
  have hnuma : classifyByNuma fuel a na ma x y = classifyByNuma fuel b nb mb x y := by
    simp only [classifyByNuma, hfacts.numaNode, hfacts'.numaNode, rootAncestor_congr h hforgotten]
  unfold classifyPath
  simp only [TopologySnapshot.node_eq_ok.mpr ha, TopologySnapshot.node_eq_ok.mpr hb,
    TopologySnapshot.node_eq_ok.mpr ha', TopologySnapshot.node_eq_ok.mpr hb', Outcome.ok_bind,
    htype, htype', isPciEndpoint, commonBridge_congr h hforgotten hda hdb,
    rootAncestor_congr h hforgotten, hnuma]

end Classes

/-! ## Equal answers -/

/-- The answers about a pair of nodes are the same on both snapshots. -/
structure SameAnswers (a b : TopologySnapshot) (src dst : TopologyNodeId) (w : CostWeights) :
    Prop where
  path : ∃ pa pb, Returns (fun fuel => lowestCostPath exact fuel a src dst w) pa ∧
    Returns (fun fuel => lowestCostPath exact fuel b src dst w) pb ∧
    pa.found = pb.found ∧ pa.totalCost = pb.totalCost
  locality : ∃ c, Returns (fun fuel => localityBetween fuel a src dst) c ∧
    Returns (fun fuel => localityBetween fuel b src dst) c
  pathClass : ∃ c, Returns (fun fuel => classifyPath fuel a src dst) c ∧
    Returns (fun fuel => classifyPath fuel b src dst) c

/-- An immaterial difference leaves all answers as they are. -/
def StableAnswers (a b : TopologySnapshot) : Prop :=
  (compareSnapshots a b).materialChange = false →
    ∀ src dst, a.Present src → a.Present dst →
      ∀ w : CostWeights, w.Nonneg → w.bandwidthRefBps.Pos → SameAnswers a b src dst w

/-- Edge latencies are not negative. -/
def NonnegLatencies (snap : TopologySnapshot) : Prop :=
  ∀ e ∈ snap.edges, ∀ l, e.latencyNs = some l → l.Nonneg

/-- Equal totals, from neither being less than the other. -/
private theorem eq_of_not_lt {x y : Double} (hx : (∃ q, x = .fin q) ∨ x = .inf false)
    (hy : (∃ q, y = .fin q) ∨ y = .inf false) (hxy : x.lt y = false) (hyx : y.lt x = false) :
    x = y := by
  rcases hx with ⟨p, rfl⟩ | rfl <;> rcases hy with ⟨q, rfl⟩ | rfl
  · rw [Double.lt_fin, decide_eq_false_iff_not, not_lt] at hxy hyx
    rw [le_antisymm hyx hxy]
  · simp [Double.lt, Double.rank, Prod.Lex.toLex_lt_toLex] at hxy
  · simp [Double.lt, Double.rank, Prod.Lex.toLex_lt_toLex] at hyx
  · rfl

private theorem mirrors (a b : TopologySnapshot) (h : Immaterial a b)
    (hforgotten : ForgottenFactsAgree a b) : Mirrors a b ∧ Mirrors b a := by
  refine ⟨⟨fun id na hna => ?_, hforgotten.links⟩, ⟨fun id nb hnb => ?_, fun e he husable => ?_⟩⟩
  · rcases findNode_agree h hforgotten id with ⟨ha, -⟩ | ⟨na', nb, ha, hb, htype, hfacts⟩
    · simp [ha] at hna
    · obtain rfl := Option.some.inj (ha.symm.trans hna)
      exact ⟨nb, hb, htype, hfacts.numaNode⟩
  · rcases findNode_agree h hforgotten id with ⟨-, hb⟩ | ⟨na, nb', ha, hb, htype, hfacts⟩
    · simp [hb] at hnb
    · obtain rfl := Option.some.inj (hb.symm.trans hnb)
      exact ⟨na, ha, htype.symm, hfacts.numaNode.symm⟩
  · obtain ⟨e', he', hsame⟩ := hforgotten.links' e he husable
    exact ⟨e', he', hsame.symm⟩

/-- **A refresh keeps the answers** when it is material or nothing that the comparison forgets has
changed. -/
theorem stableAnswers_of_forgottenFactsAgree {a b : TopologySnapshot} (hda : a.NoDanglingEdges)
    (hdb : b.NoDanglingEdges) (hla : NonnegLatencies a) (hlb : NonnegLatencies b)
    (hkept : (compareSnapshots a b).materialChange = true ∨ ForgottenFactsAgree a b) :
    StableAnswers a b := by
  intro hmaterial src dst hsrc hdst w hw href
  have hforgotten := hkept.resolve_left fun h => Bool.false_ne_true (hmaterial.symm.trans h)
  have h := materialChange_eq_false_iff.mp hmaterial
  obtain ⟨hab, hba⟩ := mirrors a b h hforgotten
  have hpresent : ∀ id, a.Present id → b.Present id := by
    intro id hid
    obtain ⟨na, hna, -⟩ := hid.exists_node
    obtain ⟨nb, hnb, -⟩ := hab.node id na hna
    exact Option.isSome_iff_exists.mpr ⟨nb, hnb⟩
  refine ⟨?_, ?_, ?_⟩
  · obtain ⟨pa, hpa, ha⟩ := lowestCostPath_returns hda hsrc hdst hw href hla
    obtain ⟨pb, hpb, hb⟩ := lowestCostPath_returns hdb (hpresent src hsrc) (hpresent dst hdst) hw
      href hlb
    refine ⟨pa, pb, hpa, hpb, ?_⟩
    cases hfa : pa.found with
    | true =>
      -- the routes are mirrored both ways, so neither total is below the other
      obtain ⟨hfb, hab⟩ := ha.not_lt hab hda hsrc hdst hb hfa
      obtain ⟨-, hba⟩ := hb.not_lt hba hdb (hpresent src hsrc) (hpresent dst hdst) ha hfb
      obtain ⟨hops, -, hta⟩ := ha.attained hfa
      obtain ⟨hops', -, htb⟩ := hb.attained hfb
      exact ⟨hfb.symm, eq_of_not_lt (hta ▸ totalWith_eq_or hw _) (htb ▸ totalWith_eq_or hw _)
        hab hba⟩
    | false =>
      cases hfb : pb.found with
      | true =>
        obtain ⟨hfa', -⟩ := hb.not_lt hba hdb (hpresent src hsrc) (hpresent dst hdst) ha hfb
        exact absurd (hfa.symm.trans hfa') Bool.false_ne_true
      | false => exact ⟨rfl, (ha.notFound hfa).trans (hb.notFound hfb).symm⟩
  · obtain ⟨c, hc⟩ := localityBetween_finishes (a := src) (b := dst) fun _ => ⟨hsrc, hdst⟩
    exact ⟨c, hc, hc.congr (localityBetween_congr h hforgotten hsrc hdst)⟩
  · obtain ⟨c, hc⟩ := classifyPath_finishes (a := src) (b := dst) (fun _ => ⟨hsrc, hdst⟩)
      fun _ => hda.parents_present src .contains
    exact ⟨c, hc, hc.congr (classifyPath_congr h hforgotten hda hdb hsrc hdst)⟩

/-- The two joined nodes, with an edge of low confidence in place of one of unknown confidence. -/
def lowConfidencePair : TopologySnapshot :=
  { pairSnapshot with
    edges := [{ source := ⟨0, 1⟩, target := ⟨0, 2⟩, confidence := .low }]
    adjacencyMap := _
    adjacencyBuilt := rfl }

/-- Low and unknown confidence cost the same. -/
theorem stableAnswers_pair :
    (compareSnapshots pairSnapshot lowConfidencePair).materialChange = false ∧
    StableAnswers pairSnapshot lowConfidencePair := by
  have hsame : SameCostFacts { source := ⟨0, 1⟩, target := ⟨0, 2⟩ }
      { source := ⟨0, 1⟩, target := ⟨0, 2⟩, confidence := .low } := by
    refine ⟨rfl, rfl, rfl, ?_⟩
    decide
  have hforgotten : ForgottenFactsAgree pairSnapshot lowConfidencePair := by
    refine ⟨fun id na nb hna hnb => ?_, ?_, ?_, fun id x => ?_, fun id => rfl⟩
    · rw [Option.some.inj (hna.symm.trans hnb)]
    · simpa [pairSnapshot, lowConfidencePair] using fun _ => hsame
    · simpa [pairSnapshot, lowConfidencePair] using fun _ => hsame
    · exact Iff.rfl
  exact ⟨by decide, stableAnswers_of_forgottenFactsAgree (by decide) (by decide)
    (by simp [NonnegLatencies, pairSnapshot]) (by simp [NonnegLatencies, lowConfidencePair])
    (Or.inr hforgotten)⟩

/-- A machine next to a device of the given type. -/
def deviceBuilder (type : NodeType) : SnapshotBuilder :=
  let b := ((SnapshotBuilder.new {}).addNode
    { id := ⟨0, 1⟩, type := .machine, name := str "m" }).2
  (b.addNode { id := ⟨0, 2⟩, type := type, name := str "d" }).2

/-- An accelerator that becomes a storage device is no material difference, but the class of the
path to it changes. -/
theorem stableAnswers_fails : ∃ a b, (deviceBuilder .accelerator).take .insertion = .ok a ∧
    (deviceBuilder .storageDevice).take .insertion = .ok b ∧ a.NoDanglingEdges ∧
    b.NoDanglingEdges ∧ NonnegLatencies a ∧ NonnegLatencies b ∧ ¬ StableAnswers a b := by
  obtain ⟨a, ha⟩ := SnapshotBuilder.take_returns (b := deviceBuilder .accelerator) rfl .insertion
  obtain ⟨b, hb⟩ := SnapshotBuilder.take_returns (b := deviceBuilder .storageDevice) rfl .insertion
  have hedgesA : a.edges = [] := (SnapshotBuilder.take_eq_ok ha).2.1
  have hedgesB : b.edges = [] := (SnapshotBuilder.take_eq_ok hb).2.1
  refine ⟨a, b, ha, hb, ?_, ?_, ?_, ?_, fun h => ?_⟩
  · simp [TopologySnapshot.NoDanglingEdges, hedgesA]
  · simp [TopologySnapshot.NoDanglingEdges, hedgesB]
  · simp [NonnegLatencies, hedgesA]
  · simp [NonnegLatencies, hedgesB]
  -- both snapshots are computed; the comparison says that nothing changed
  let typeOf (s : TopologySnapshot) (id : TopologyNodeId) : Option NodeType :=
    (s.findNode id).map TopologyNode.type
  have hrun : (match (deviceBuilder .accelerator).take .insertion,
      (deviceBuilder .storageDevice).take .insertion with
    | .ok a, .ok b => decide ((compareSnapshots a b).materialChange = false ∧
        typeOf a ⟨0, 1⟩ = some .machine ∧ typeOf a ⟨0, 2⟩ = some .accelerator ∧
        typeOf b ⟨0, 1⟩ = some .machine ∧ typeOf b ⟨0, 2⟩ = some .storageDevice)
    | _, _ => false) = true := by decide +kernel
  rw [ha, hb] at hrun
  obtain ⟨hmaterial, hma, hda, hmb, hdb⟩ := of_decide_eq_true hrun
  obtain ⟨ma, hma, htma⟩ := Option.map_eq_some_iff.mp hma
  obtain ⟨da, hda, htda⟩ := Option.map_eq_some_iff.mp hda
  obtain ⟨mb, hmb, htmb⟩ := Option.map_eq_some_iff.mp hmb
  obtain ⟨db, hdb, htdb⟩ := Option.map_eq_some_iff.mp hdb
  have hw : CostWeights.Nonneg { latencyNsWeight := .fin (1 / 2000) } := by
    constructor <;> simp
  -- but the class of the path to the device is not the same
  obtain ⟨c, hca, hcb⟩ := (h hmaterial ⟨0, 1⟩ ⟨0, 2⟩ (Option.isSome_iff_exists.mpr ⟨ma, hma⟩)
    (Option.isSome_iff_exists.mpr ⟨da, hda⟩) _ hw (by decide)).pathClass
  have hclassA : Returns (fun fuel => classifyPath fuel a ⟨0, 1⟩ ⟨0, 2⟩) .hostToAccelerator := by
    refine (Returns.pure _).congr fun fuel => ?_
    simp [classifyPath, TopologySnapshot.node_eq_ok.mpr hma, TopologySnapshot.node_eq_ok.mpr hda,
      htma, htda, isHost]
  have hclassB : Returns (fun fuel => classifyPath fuel b ⟨0, 1⟩ ⟨0, 2⟩) .hostToStorage := by
    refine (Returns.pure _).congr fun fuel => ?_
    simp [classifyPath, TopologySnapshot.node_eq_ok.mpr hmb, TopologySnapshot.node_eq_ok.mpr hdb,
      htmb, htdb, isHost]
  rw [hca.unique hclassA] at hcb
  exact PathClass.noConfusion (hcb.unique hclassB)

end TopologyFabric

import TopologyFabric.Core.Snapshot
import TopologyFabric.Library.Kahn

/-!
# The Verdict of Validation

`validate` accepts exactly the valid graphs, whatever order its hash maps are iterated in. Its
cycle check refines Kahn's algorithm: the maps `child_of` and `indeg` are the edge lists and edge
counts of the CONTAINS multigraph.

## Main results

- `hasCycle_iff`: the cycle check finds exactly the cycles, and its loop leaves in time
- `checkIdentity_ok`: the identity check finds exactly the duplicate keys
- `validate_ok_iff`: the verdict
-/

namespace TopologyFabric

open Library

/-! ## Valid graphs -/

/-- Some CONTAINS edge leads from `a` to `b`. -/
def Contains (edges : List TopologyEdge) (a b : TopologyNodeId) : Prop :=
  ∃ e ∈ edges, e.type = .contains ∧ e.source = a ∧ e.target = b

/-- What makes a graph valid. -/
structure GraphValid (nodes : NodeMap) (edges : List TopologyEdge) : Prop where
  endpoints : ∀ e ∈ edges, e.source ∈ nodes.keys ∧ e.target ∈ nodes.keys
  identity : ∀ x ∈ nodes.entries, ∀ y ∈ nodes.entries, x.1 ≠ y.1 →
    x.2.native.canonicalKey = y.2.native.canonicalKey → x.2.native.canonicalKey = []
  noSelf : ∀ e ∈ edges, e.type = .contains → e.source ≠ e.target
  acyclic : ∀ a, ¬ Relation.TransGen (Contains edges) a a

/-! ## The verdict of a fold of checks -/

/-- A fold that records errors accepts iff it accepted before and every element passes. -/
theorem foldl_ok {α : Type} {f : ValidationResult → α → ValidationResult} {p : α → Prop}
    (hf : ∀ v a, (f v a).ok = true ↔ v.ok = true ∧ p a) (l : List α) (v : ValidationResult) :
    (l.foldl f v).ok = true ↔ v.ok = true ∧ ∀ a ∈ l, p a := by
  induction l generalizing v with
  | nil => simp
  | cons a l ih => rw [List.foldl_cons, ih, hf, List.forall_mem_cons, and_assoc]

/-- A fold that records warnings keeps the verdict. -/
theorem foldl_ok_eq {α : Type} {f : ValidationResult → α → ValidationResult}
    (hf : ∀ v a, (f v a).ok = v.ok) (l : List α) (v : ValidationResult) :
    (l.foldl f v).ok = v.ok := by
  induction l generalizing v with
  | nil => rfl
  | cons a l ih => rw [List.foldl_cons, ih, hf]

theorem checkDangling_ok (nodes : NodeMap) (edges : List TopologyEdge) (v : ValidationResult) :
    (checkDangling nodes edges v).ok = true ↔
      v.ok = true ∧ ∀ e ∈ edges, e.source ∈ nodes.keys ∧ e.target ∈ nodes.keys := by
  refine foldl_ok (fun v e => ?_) edges v
  simp only [← HashMap.contains_iff]
  cases nodes.contains e.source <;> cases nodes.contains e.target <;> simp

theorem checkSelfContainment_ok (edges : List TopologyEdge) (v : ValidationResult) :
    (checkSelfContainment edges v).ok = true ↔
      v.ok = true ∧ ∀ e ∈ edges, e.type = .contains → e.source ≠ e.target := by
  refine foldl_ok (fun v e => ?_) edges v
  split_ifs with h
  · simp [h]
  · rw [not_and] at h
    simpa using fun _ => h

theorem checkPeers_ok (edges : List TopologyEdge) (v : ValidationResult) :
    (checkPeers edges v).ok = v.ok := by
  refine foldl_ok_eq (fun v e => ?_) edges v
  split_ifs <;> rfl

theorem checkAccelerators_ok (nodes : NodeMap) (seen : SeenKeys) (v : ValidationResult) :
    (checkAccelerators nodes seen v).ok = v.ok := by
  refine foldl_ok_eq (fun v e => ?_) nodes.entries v
  split_ifs <;> rfl

/-! ## Duplicate identities -/

/-- Of the entries `l`, no two share a key. -/
def DistinctKeys (l : List (TopologyNodeId × TopologyNode)) : Prop :=
  ∀ x ∈ l, ∀ y ∈ l, x.1 ≠ y.1 →
    x.2.native.canonicalKey = y.2.native.canonicalKey → x.2.native.canonicalKey = []

/-- The state after the entries `l`. -/
structure IdentityInv (ok : Bool) (l : List (TopologyNodeId × TopologyNode))
    (s : SeenKeys × ValidationResult) : Prop where
  seen : ∀ key id, s.1.find? key = some id →
    key ≠ [] ∧ ∃ n, (id, n) ∈ l ∧ n.native.canonicalKey = key
  known : ∀ x ∈ l, x.2.native.canonicalKey ≠ [] →
    ∃ id, s.1.find? x.2.native.canonicalKey = some id
  verdict : s.2.ok = true ↔ ok = true ∧ DistinctKeys l

section Identity

variable {ok : Bool} {l : List (TopologyNodeId × TopologyNode)}
  {s : SeenKeys × ValidationResult} {x : TopologyNodeId × TopologyNode}

private theorem distinctKeys_snoc : DistinctKeys (l ++ [x]) ↔ DistinctKeys l ∧
    ∀ y ∈ l, y.1 ≠ x.1 → y.2.native.canonicalKey = x.2.native.canonicalKey →
      x.2.native.canonicalKey = [] := by
  constructor
  · intro h
    refine ⟨fun y hy z hz => h y (List.mem_append_left _ hy) z (List.mem_append_left _ hz),
      fun y hy hne heq => ?_⟩
    rw [← heq]
    exact h y (List.mem_append_left _ hy) x (by simp) hne heq
  · rintro ⟨hl, hx⟩ y hy z hz hne heq
    simp only [List.mem_append, List.mem_singleton] at hy hz
    rcases hy with hy | rfl <;> rcases hz with hz | rfl
    · exact hl y hy z hz hne heq
    · rw [heq]
      exact hx y hy hne heq
    · exact hx z hz hne.symm heq.symm
    · exact absurd rfl hne

/-- The table of the keys stays as it is when the next entry has no key or a known one. -/
theorem IdentityInv.keep (I : IdentityInv ok l s) {v : ValidationResult}
    (hx : x.2.native.canonicalKey ≠ [] → ∃ id, s.1.find? x.2.native.canonicalKey = some id)
    (hverdict : v.ok = true ↔ ok = true ∧ DistinctKeys (l ++ [x])) :
    IdentityInv ok (l ++ [x]) (s.1, v) := by
  refine ⟨fun key id h => ?_, fun y hy hne => ?_, hverdict⟩
  · obtain ⟨hne, n, hn, hkey⟩ := I.seen key id h
    exact ⟨hne, n, List.mem_append_left _ hn, hkey⟩
  · rcases List.mem_append.mp hy with hy | hy
    · exact I.known y hy hne
    · obtain rfl := List.mem_singleton.mp hy
      exact hx hne

/-- A new key enters the table with the id of its entry. -/
theorem IdentityInv.enter (I : IdentityInv ok l s) {v : ValidationResult}
    (hkey : x.2.native.canonicalKey ≠ []) (hnone : s.1.find? x.2.native.canonicalKey = none)
    (hverdict : v.ok = true ↔ ok = true ∧ DistinctKeys (l ++ [x])) :
    IdentityInv ok (l ++ [x]) (s.1.emplace x.2.native.canonicalKey x.1, v) := by
  refine ⟨fun key id h => ?_, fun y hy hne => ?_, hverdict⟩
  · -- the key that is entered, or one that was known
    rw [HashMap.find?_emplace] at h
    split_ifs at h with heq
    · subst heq
      rw [hnone, Option.getD_none] at h
      obtain rfl := Option.some.inj h
      exact ⟨hkey, x.2, List.mem_append_right _ (List.mem_singleton_self x), rfl⟩
    · obtain ⟨hne, n, hn, hkey⟩ := I.seen key id h
      exact ⟨hne, n, List.mem_append_left _ hn, hkey⟩
  · rw [HashMap.find?_emplace]
    split_ifs with heq
    · exact ⟨_, rfl⟩
    · rcases List.mem_append.mp hy with hy | hy
      · exact I.known y hy hne
      · obtain rfl := List.mem_singleton.mp hy
        exact absurd rfl heq

/-- One node keeps the invariant. -/
theorem IdentityInv.step (I : IdentityInv ok l s) (hnew : x.1 ∉ l.map Prod.fst) :
    IdentityInv ok (l ++ [x]) (checkNodeIdentity s x) := by
  obtain ⟨seen, v⟩ := s
  obtain ⟨id, n⟩ := x
  have hids : ∀ y ∈ l, y.1 ≠ id := fun y hy h => hnew (List.mem_map.mpr ⟨y, hy, h⟩)
  unfold checkNodeIdentity
  simp only
  -- a warning does not change the verdict
  generalize hv : (if n.type = .unknown ∧ n.category = [] then
      v.addWarning (str "node " ++ id.toHex ++ str " has unknown type and no extension category")
    else v) = v'
  have hok : v'.ok = v.ok := by
    rw [← hv]
    split_ifs <;> rfl
  have hverdict : v'.ok = true ↔ ok = true ∧ DistinctKeys l := by rw [hok]; exact I.verdict
  by_cases hempty : n.native.canonicalKey = []
  · rw [if_pos hempty]
    refine I.keep (fun hne => absurd hempty hne) ?_
    rw [hverdict, distinctKeys_snoc]
    simp [hempty]
  · rw [if_neg hempty]
    cases hfind : seen.find? n.native.canonicalKey with
    | some other =>
      -- the key belongs to an earlier entry of another id
      obtain ⟨_, m, hm, hk⟩ := I.seen _ _ hfind
      have hother : other ≠ id := hids (other, m) hm
      simp only [if_pos hother]
      refine I.keep (fun _ => ⟨other, hfind⟩) ?_
      rw [distinctKeys_snoc]
      simp only [ValidationResult.addError_ok, Bool.false_eq_true, false_iff, not_and]
      exact fun _ _ h => hempty (h (other, m) hm hother hk)
    | none =>
      refine IdentityInv.enter (x := (id, n)) I hempty hfind ?_
      rw [hverdict, distinctKeys_snoc]
      have hfresh : ∀ y ∈ l, y.1 ≠ id →
          y.2.native.canonicalKey = n.native.canonicalKey → n.native.canonicalKey = [] := by
        intro y hy _ heq
        obtain ⟨id', hid'⟩ := I.known y hy (by rwa [heq])
        have hnone : seen.find? y.2.native.canonicalKey = none := by rw [heq, hfind]
        exact absurd (hid'.symm.trans hnone) (by simp)
      exact ⟨fun h => ⟨h.1, h.2, hfresh⟩, fun h => ⟨h.1, h.2.1⟩⟩

/-- The identity check accepts iff no two nodes share a key. -/
theorem checkIdentity_ok (nodes : NodeMap) (v : ValidationResult) :
    (checkIdentity nodes v).2.ok = true ↔ v.ok = true ∧ DistinctKeys nodes.entries := by
  -- the invariant is about the nodes that the loop has passed
  have hrun : ∀ (rest pre : List (TopologyNodeId × TopologyNode))
      (s : SeenKeys × ValidationResult), ((pre ++ rest).map Prod.fst).Nodup →
      IdentityInv v.ok pre s → IdentityInv v.ok (pre ++ rest) (rest.foldl checkNodeIdentity s) := by
    intro rest
    induction rest with
    | nil => intro pre s _ I; simpa using I
    | cons x rest ih =>
      intro pre s hnd I
      have hassoc : pre ++ x :: rest = (pre ++ [x]) ++ rest := by simp
      have hnew : x.1 ∉ pre.map Prod.fst := by
        rw [List.map_append, List.map_cons] at hnd
        exact fun h => (List.nodup_append.mp hnd).2.2 _ h _ (by simp) rfl
      rw [hassoc] at hnd ⊢
      exact ih _ _ hnd (I.step hnew)
  have hinit : IdentityInv v.ok [] ((HashMap.empty : SeenKeys), v) :=
    ⟨fun key id h => by simp [HashMap.empty, HashMap.find?] at h, by simp,
      by simp [DistinctKeys]⟩
  have I := hrun nodes.entries [] _ (by simpa using nodes.nodup) hinit
  rw [List.nil_append] at I
  exact I.verdict

end Identity

/-! ## The cycle check -/

/-- The children of a node, in edge order. -/
def childrenOf (edges : List TopologyEdge) (a : TopologyNodeId) : List TopologyNodeId :=
  ((childOf edges).find? a).getD []

section Children

variable (edges : List TopologyEdge)

theorem childrenOf_eq (a : TopologyNodeId) : childrenOf edges a =
    (edges.filter fun e => decide (e.type = .contains ∧ e.source = a)).map TopologyEdge.target := by
  -- one list for each source, to which the loop appends
  have hfold : ∀ (l : List TopologyEdge) (m : HashMap TopologyNodeId (List TopologyNodeId)),
      ((l.foldl (fun m e => if e.type = .contains then m.upsert e.source [] (· ++ [e.target])
        else m) m).find? a).getD [] = (m.find? a).getD [] ++
      (l.filter fun e => decide (e.type = .contains ∧ e.source = a)).map TopologyEdge.target := by
    intro l
    induction l with
    | nil => simp
    | cons e l ih =>
      intro m
      rw [List.foldl_cons, ih]
      by_cases htype : e.type = .contains
      · rw [if_pos htype, HashMap.find?_upsert]
        by_cases hsource : e.source = a
        · subst hsource
          simp [htype]
        · simp [htype, hsource, Ne.symm hsource]
      · simp [htype]
  rw [childrenOf, childOf, hfold]
  rfl

theorem edge_iff_contains (a b : TopologyNodeId) :
    Kahn.Edge (childrenOf edges) a b ↔ Contains edges a b := by
  rw [Kahn.Edge, childrenOf_eq]
  simp only [List.mem_map, List.mem_filter, decide_eq_true_eq, Contains]
  constructor
  · rintro ⟨e, ⟨he, htype, hsource⟩, htarget⟩
    exact ⟨e, he, htype, hsource, htarget⟩
  · rintro ⟨e, he, htype, hsource, htarget⟩
    exact ⟨e, ⟨he, htype, hsource⟩, htarget⟩

theorem childrenOf_of_mem {e : TopologyNodeId × List TopologyNodeId}
    (he : e ∈ (childOf edges).entries) : childrenOf edges e.1 = e.2 := by
  rw [childrenOf, HashMap.find?_eq_some.mpr he, Option.getD_some]

end Children

section Indegree

/-- Counting the children in one list. -/
theorem countKids (kids : List TopologyNodeId) (m : HashMap TopologyNodeId ℤ)
    (a : TopologyNodeId) :
    ((kids.foldl (fun m kid => m.upsert kid 0 (· + 1)) m).find? a).getD 0 =
        (m.find? a).getD 0 + kids.count a ∧
      (a ∈ (kids.foldl (fun m kid => m.upsert kid 0 (· + 1)) m).keys ↔ a ∈ m.keys ∨ a ∈ kids) := by
  induction kids generalizing m with
  | nil => simp
  | cons kid kids ih =>
    rw [List.foldl_cons, (ih _).1, (ih _).2, HashMap.find?_upsert, HashMap.mem_keys_upsert]
    by_cases h : a = kid
    · subst h
      simp [add_assoc, add_comm]
    · simp [h, List.count_cons_of_ne (Ne.symm h)]

/-- Every entry gets a count, without changing the counts. -/
theorem countEntries (l : List (TopologyNodeId × List TopologyNodeId)) (m : HashMap TopologyNodeId ℤ)
    (a : TopologyNodeId) :
    ((l.foldl (fun m e => m.upsert e.1 0 (· + 0)) m).find? a).getD 0 = (m.find? a).getD 0 ∧
      (a ∈ (l.foldl (fun m e => m.upsert e.1 0 (· + 0)) m).keys ↔
        a ∈ m.keys ∨ a ∈ l.map Prod.fst) := by
  induction l generalizing m with
  | nil => simp
  | cons e l ih =>
    rw [List.foldl_cons, (ih _).1, (ih _).2, HashMap.find?_upsert, HashMap.mem_keys_upsert]
    by_cases h : a = e.1
    · subst h
      simp
    · simp [h]

/-- Counting the children in all lists. -/
theorem countAllKids (l : List (TopologyNodeId × List TopologyNodeId)) (m : HashMap TopologyNodeId ℤ)
    (a : TopologyNodeId) :
    ((l.foldl (fun m e => e.2.foldl (fun m kid => m.upsert kid 0 (· + 1)) m) m).find? a).getD 0 =
        (m.find? a).getD 0 + (l.map fun e => (e.2.count a : ℤ)).sum ∧
      (a ∈ (l.foldl (fun m e => e.2.foldl (fun m kid => m.upsert kid 0 (· + 1)) m) m).keys ↔
        a ∈ m.keys ∨ ∃ e ∈ l, a ∈ e.2) := by
  induction l generalizing m with
  | nil => simp
  | cons e l ih =>
    rw [List.foldl_cons, (ih _).1, (ih _).2, (countKids e.2 m a).1, (countKids e.2 m a).2]
    simp [add_assoc, or_assoc]

/-- Counting the children of all entries. -/
theorem countIndeg_spec (children : HashMap TopologyNodeId (List TopologyNodeId))
    (a : TopologyNodeId) :
    ((countIndeg children).find? a).getD 0 =
        (children.entries.map fun e => (e.2.count a : ℤ)).sum ∧
      (a ∈ (countIndeg children).keys ↔
        a ∈ children.keys ∨ ∃ e ∈ children.entries, a ∈ e.2) := by
  have hempty : ((HashMap.empty : HashMap TopologyNodeId ℤ).find? a).getD 0 = 0 := rfl
  have hnokeys : a ∉ (HashMap.empty : HashMap TopologyNodeId ℤ).keys := by
    simp [HashMap.empty, HashMap.keys]
  constructor
  · rw [countIndeg, (countAllKids _ _ a).1, (countEntries _ _ a).1, hempty, zero_add]
  · rw [countIndeg, (countAllKids _ _ a).2, (countEntries _ _ a).2]
    exact or_congr_left ⟨fun h => h.resolve_left hnokeys, Or.inr⟩

end Indegree

section CycleCheck

variable (order : IterationOrder) (edges : List TopologyEdge)

/-- The nodes of the CONTAINS multigraph: the keys of `indeg`. -/
def sortNodes : Finset TopologyNodeId := (sortInit order edges).indeg.keys.toFinset

private theorem mem_sortNodes {a : TopologyNodeId} : a ∈ sortNodes order edges ↔
    a ∈ (childOf edges).keys ∨ ∃ e ∈ (childOf edges).entries, a ∈ e.2 := by
  rw [sortNodes, List.mem_toFinset, sortInit]
  simp only [HashMap.mem_keys_reorder, (countIndeg_spec _ a).2, HashMap.mem_reorder]

/-- Edges of the multigraph join its nodes. -/
theorem edge_mem_sortNodes {a b : TopologyNodeId} (h : Kahn.Edge (childrenOf edges) a b) :
    a ∈ sortNodes order edges ∧ b ∈ sortNodes order edges := by
  rw [mem_sortNodes, mem_sortNodes]
  rw [Kahn.Edge, childrenOf] at h
  cases hfind : (childOf edges).find? a with
  | none => simp [hfind] at h
  | some kids =>
    have hmem := HashMap.find?_eq_some.mp hfind
    rw [hfind, Option.getD_some] at h
    exact ⟨Or.inl (HashMap.mem_keys_of_mem hmem), Or.inr ⟨(a, kids), hmem, h⟩⟩

/-- The counts are the numbers of incoming edges. -/
theorem sortInit_indeg (a : TopologyNodeId) :
    ((sortInit order edges).indeg.find? a).getD 0 =
      Kahn.indegFrom (childrenOf edges) (sortNodes order edges) a := by
  have hperm : (((childOf edges).reorder order).entries.map fun e => (e.2.count a : ℤ)).sum =
      ((childOf edges).entries.map fun e => (e.2.count a : ℤ)).sum :=
    ((order.perm _ _).map _).sum_eq
  have hentries : ((childOf edges).entries.map fun e => (e.2.count a : ℤ)).sum =
      ∑ b ∈ (childOf edges).keys.toFinset, ((childrenOf edges b).count a : ℤ) := by
    rw [HashMap.keys, List.sum_toFinset _ (childOf edges).nodup, List.map_map]
    refine congrArg List.sum (List.map_congr_left fun e he => ?_)
    rw [Function.comp, childrenOf_of_mem edges he]
  rw [sortInit]
  simp only [HashMap.find?_reorder]
  rw [(countIndeg_spec _ a).1, hperm, hentries, Kahn.indegFrom]
  -- nodes that are not keys have no children
  refine Finset.sum_subset (fun b hb => ?_) fun b _ hb => ?_
  · rw [mem_sortNodes]
    exact Or.inl (List.mem_toFinset.mp hb)
  · have hnone : (childOf edges).find? b = none :=
      HashMap.find?_eq_none.mpr fun h => hb (List.mem_toFinset.mpr h)
    simp [childrenOf, hnone]

/-- A state of the sort and the state of the abstract run that it stands for. -/
def SortRel (s : SortState) (k : Kahn.State TopologyNodeId) : Prop :=
  s.stack = k.stack ∧ s.visited = k.visited ∧ ∀ a, (s.indeg.find? a).getD 0 = k.indeg a

theorem SortRel.lower {s : SortState} {k : Kahn.State TopologyNodeId} (h : SortRel s k)
    (kid : TopologyNodeId) : SortRel (lowerIndeg s kid) (Kahn.lower k kid) := by
  obtain ⟨hstack, hvisited, hindeg⟩ := h
  have hfind : ∀ a, ((s.indeg.upsert kid 0 (· - 1)).find? a).getD 0 =
      Function.update k.indeg kid (k.indeg kid - 1) a := by
    intro a
    rw [HashMap.find?_upsert]
    by_cases ha : a = kid
    · subst ha
      simp [hindeg]
    · simp [ha, hindeg]
  refine ⟨?_, hvisited, hfind⟩
  simp only [lowerIndeg, Kahn.lower, hfind, Function.update_self, hstack]

theorem SortRel.scan {s : SortState} {k : Kahn.State TopologyNodeId} (h : SortRel s k)
    (kids : List TopologyNodeId) : SortRel (kids.foldl lowerIndeg s) (kids.foldl Kahn.lower k) := by
  induction kids generalizing s k with
  | nil => exact h
  | cons kid kids ih => exact ih (h.lower kid)

theorem sortInit_stack_nodup : (sortInit order edges).stack.Nodup := by
  rw [sortInit]
  simp only [List.nodup_reverse]
  exact List.Nodup.sublist (List.filter_sublist.map Prod.fst) (HashMap.nodup _)

/-- The sort starts with the nodes that no edge enters. -/
theorem mem_sortInit_stack (a : TopologyNodeId) : a ∈ (sortInit order edges).stack ↔
    a ∈ sortNodes order edges ∧ ((sortInit order edges).indeg.find? a).getD 0 = 0 := by
  have hkeys : a ∈ sortNodes order edges ↔ a ∈ (sortInit order edges).indeg.keys :=
    List.mem_toFinset
  -- the stack holds the nodes whose in-degree is 0
  have hmem : a ∈ (sortInit order edges).stack ↔ (a, (0 : ℤ)) ∈
      (sortInit order edges).indeg.entries := by
    show a ∈ (((sortInit order edges).indeg.entries.filter
      fun e => decide (e.2 = 0)).map Prod.fst).reverse ↔ _
    simp only [List.mem_reverse, List.mem_map, List.mem_filter, decide_eq_true_eq]
    constructor
    · rintro ⟨⟨b, d⟩, ⟨hmem, rfl⟩, rfl⟩
      exact hmem
    · intro h
      exact ⟨_, ⟨h, rfl⟩, rfl⟩
  rw [hmem, hkeys, ← HashMap.find?_eq_some, ← HashMap.contains_iff, HashMap.contains]
  cases (sortInit order edges).indeg.find? a with
  | none => simp
  | some d => simp

/-- A step of the abstract run is a step of the sort. -/
theorem SortRel.step {s : SortState} {k k' : Kahn.State TopologyNodeId} (h : SortRel s k)
    (hstep : Kahn.step (childrenOf edges) k = Sum.inl k') :
    ∃ s', sortStep (childOf edges) s = .inl s' ∧ SortRel s' k' := by
  unfold Kahn.step at hstep
  cases hk : k.stack with
  | nil => simp [hk] at hstep
  | cons cur rest =>
    rw [hk] at hstep
    obtain rfl := Sum.inl.inj hstep
    have hpop : SortRel { s with stack := rest, visited := s.visited + 1 }
        { k with stack := rest, visited := k.visited + 1 } :=
      ⟨rfl, congrArg (· + 1) h.2.1, h.2.2⟩
    exact ⟨(childrenOf edges cur).foldl lowerIndeg
        { s with stack := rest, visited := s.visited + 1 },
      by simp only [sortStep, h.1, hk, childrenOf], hpop.scan _⟩

theorem SortRel.exit {s : SortState} {k : Kahn.State TopologyNodeId} {n : ℕ} (h : SortRel s k)
    (hstep : Kahn.step (childrenOf edges) k = Sum.inr n) :
    sortStep (childOf edges) s = .inr s.visited ∧ s.visited = n := by
  unfold Kahn.step at hstep
  cases hk : k.stack with
  | nil =>
    rw [hk] at hstep
    obtain rfl := Sum.inr.inj hstep
    exact ⟨by simp only [sortStep, h.1, hk], h.2.1⟩
  | cons cur rest => simp [hk] at hstep

/-- The sort leaves its loop within the budget, and it has visited every node iff the CONTAINS
edges are acyclic. -/
theorem sortVisited_returns :
    ∃ n, sortVisited order edges ((sortInit order edges).indeg.size + 1) = .ok n ∧
      (n = (sortInit order edges).indeg.size ↔ ∀ a, ¬ Relation.TransGen (Contains edges) a a) := by
  have hsize : (sortInit order edges).indeg.size = (sortNodes order edges).card :=
    HashMap.size_eq_card_keys _
  have hedge : ∀ a b, Kahn.Edge (childrenOf edges) a b →
      a ∈ sortNodes order edges ∧ b ∈ sortNodes order edges :=
    fun a b h => edge_mem_sortNodes order edges h
  -- the loop of the code simulates that of the library
  obtain ⟨n, hn, hloop⟩ := Kahn.kahn_correct (ε := Exception)
    (s := ⟨(sortInit order edges).stack, fun a => ((sortInit order edges).indeg.find? a).getD 0, 0⟩)
    hedge rfl (sortInit_indeg order edges) (sortInit_stack_nodup order edges)
    (mem_sortInit_stack order edges)
  obtain ⟨m, rfl, hret⟩ : ∃ m, m = n ∧
      sortVisited order edges ((sortNodes order edges).card + 1) = .ok m := by
    refine loop_simulate (R := fun k s => SortRel s k) (Q := fun n m => m = n) ?_ ?_
      ⟨rfl, rfl, fun a => rfl⟩ hloop
    · intro k s k' hs hstep
      obtain ⟨s', hs', hrel⟩ := hs.step edges (Outcome.ok.inj hstep)
      exact ⟨s', congrArg Outcome.ok hs', hrel⟩
    · intro k s n hs hstep
      obtain ⟨hexit, hvisited⟩ := hs.exit edges (Outcome.ok.inj hstep)
      exact ⟨s.visited, congrArg Outcome.ok hexit, hvisited⟩
  refine ⟨m, by rw [hsize]; exact hret, ?_⟩
  have heq : Kahn.Edge (childrenOf edges) = Contains edges := by
    funext a b
    exact propext (edge_iff_contains edges a b)
  rw [hsize, hn, Kahn.Acyclic, heq]

/-- The cycle check finds exactly the cycles. -/
theorem hasCycle_iff : hasCycle order edges = false ↔
    ∀ a, ¬ Relation.TransGen (Contains edges) a a := by
  obtain ⟨n, hret, hn⟩ := sortVisited_returns order edges
  rw [← hn, hasCycle]
  simp only [hret, decide_eq_false_iff_not, ne_eq, not_not, Outcome.ok.injEq]

end CycleCheck

/-! ## The verdict -/

/-- `validate` accepts exactly the valid graphs. -/
theorem validate_accepts_iff (order : IterationOrder) (nodes : NodeMap)
    (edges : List TopologyEdge) :
    (validate order nodes edges).ok = true ↔ GraphValid nodes edges := by
  have hcycle : ∀ v : ValidationResult, (checkCycle order edges v).ok = true ↔
      v.ok = true ∧ ∀ a, ¬ Relation.TransGen (Contains edges) a a := by
    intro v
    rw [← hasCycle_iff order edges]
    unfold checkCycle
    cases hasCycle order edges <;> simp
  unfold validate
  rw [checkAccelerators_ok, checkPeers_ok, hcycle, checkSelfContainment_ok, checkIdentity_ok,
    checkDangling_ok]
  constructor
  · rintro ⟨⟨⟨⟨_, hends⟩, hids⟩, hself⟩, hacyclic⟩
    exact ⟨hends, hids, hself, hacyclic⟩
  · intro h
    exact ⟨⟨⟨⟨rfl, h.endpoints⟩, h.identity⟩, h.noSelf⟩, h.acyclic⟩

/-- Validity depends on the keys of the nodes and on the ends and types of the edges. -/
theorem GraphValid.congr {nodes nodes' : NodeMap} {edges edges' : List TopologyEdge}
    (hnodes : ∀ id, (nodes'.find? id).map (fun n => n.native.canonicalKey) =
      (nodes.find? id).map fun n => n.native.canonicalKey)
    (hedges : ∀ source target type,
      (∃ e ∈ edges', e.source = source ∧ e.target = target ∧ e.type = type) ↔
        ∃ e ∈ edges, e.source = source ∧ e.target = target ∧ e.type = type)
    (h : GraphValid nodes edges) : GraphValid nodes' edges' := by
  have hkeys : ∀ id, id ∈ nodes'.keys ↔ id ∈ nodes.keys := by
    intro id
    rw [← HashMap.contains_iff, ← HashMap.contains_iff, HashMap.contains, HashMap.contains,
      ← Option.isSome_map, hnodes, Option.isSome_map]
  have hkey : ∀ x ∈ nodes'.entries, ∃ y ∈ nodes.entries, y.1 = x.1 ∧
      y.2.native.canonicalKey = x.2.native.canonicalKey := by
    rintro ⟨id, n⟩ hx
    have hfind := hnodes id
    rw [HashMap.find?_eq_some.mpr hx, Option.map_some] at hfind
    obtain ⟨n', hn', hcanonical⟩ := Option.map_eq_some_iff.mp hfind.symm
    exact ⟨(id, n'), HashMap.find?_eq_some.mp hn', rfl, hcanonical⟩
  -- the cycles are those of the same relation
  have hcontains : Contains edges' = Contains edges := by
    funext a b
    have hiff := hedges a b .contains
    simp only [Contains, eq_iff_iff]
    constructor
    · rintro ⟨e, he, ht, hs, hd⟩
      obtain ⟨e', he', hs', hd', ht'⟩ := hiff.mp ⟨e, he, hs, hd, ht⟩
      exact ⟨e', he', ht', hs', hd'⟩
    · rintro ⟨e, he, ht, hs, hd⟩
      obtain ⟨e', he', hs', hd', ht'⟩ := hiff.mpr ⟨e, he, hs, hd, ht⟩
      exact ⟨e', he', ht', hs', hd'⟩
  refine ⟨fun e he => ?_, fun x hx y hy hne hcanonical => ?_, fun e he htype => ?_, ?_⟩
  · obtain ⟨e', he', hs, hd, -⟩ := (hedges e.source e.target e.type).mp ⟨e, he, rfl, rfl, rfl⟩
    rw [hkeys, hkeys, ← hs, ← hd]
    exact h.endpoints e' he'
  · obtain ⟨x', hx', hidx, hkeyx⟩ := hkey x hx
    obtain ⟨y', hy', hidy, hkeyy⟩ := hkey y hy
    rw [← hkeyx]
    refine h.identity x' hx' y' hy' ?_ ?_
    · rwa [hidx, hidy]
    · rw [hkeyx, hkeyy, hcanonical]
  · obtain ⟨e', he', hs, hd, ht⟩ := (hedges e.source e.target e.type).mp ⟨e, he, rfl, rfl, rfl⟩
    rw [← hs, ← hd]
    exact h.noSelf e' he' (ht.trans htype)
  · rw [hcontains]
    exact h.acyclic

/-- **The verdict of validation.** Whatever order the hash maps are iterated in, `validate`
accepts exactly the valid graphs. -/
theorem validate_ok_iff (order mapOrder : IterationOrder) (nodes : NodeMap)
    (edges : List TopologyEdge) :
    (validate order (nodes.reorder mapOrder) edges).ok = true ↔ GraphValid nodes edges := by
  have hfind : ∀ id, (nodes.reorder mapOrder).find? id = nodes.find? id :=
    HashMap.find?_reorder nodes mapOrder
  rw [validate_accepts_iff]
  constructor
  · exact GraphValid.congr (fun id => by rw [hfind]) fun _ _ _ => Iff.rfl
  · exact GraphValid.congr (fun id => by rw [hfind]) fun _ _ _ => Iff.rfl

end TopologyFabric

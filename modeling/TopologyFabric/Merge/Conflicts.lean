import TopologyFabric.Diff.Compare
import TopologyFabric.Merge.Authority

/-!
# Conflicts of the Merge

The merge records a conflict for every member of a group that has a property that a better member
has. It does not compare the values, so members that agree are reported as well.

## Main results

- `count_mergeProperties`: how often a conflict is recorded
- `conflictsExact_iff`: when that is once for every member that disagrees
- `conflicts_not_exact`: two members that agree
-/

namespace TopologyFabric

open Library

/-! ## Counting -/

theorem conflictMessage_inj {key k k' : Bytes} :
    conflictMessage key k = conflictMessage key k' ↔ k = k' := by
  simp [conflictMessage]

/-- One property is a conflict if it is there. -/
theorem count_addProperty (key k : Bytes) (s : PropertyMap × List Bytes)
    (e : Bytes × PropertyValue) : (addProperty key s e).2.count (conflictMessage key k) =
      s.2.count (conflictMessage key k) +
        if e.1 = k ∧ (s.1.find? k).isSome = true then 1 else 0 := by
  unfold addProperty
  -- a key that is there already is a conflict, with one message
  cases hfind : s.1.find? e.1 with
  | none =>
    rw [if_neg]
    · rfl
    · rintro ⟨rfl, hsome⟩
      simp [hfind] at hsome
  | some v =>
    simp only [List.count_append, List.count_singleton, beq_iff_eq, conflictMessage_inj]
    congr 1
    by_cases hk : e.1 = k
    · subst hk
      simp [hfind]
    · simp [hk]

/-- The properties of one member are one conflict with a key, if the member has the key and it is
there. -/
theorem count_addProperties (key k : Bytes) {l : List (Bytes × PropertyValue)}
    (hsorted : SortedKeys l) (s : PropertyMap × List Bytes) :
    (l.foldl (addProperty key) s).2.count (conflictMessage key k) =
      s.2.count (conflictMessage key k) +
        if (findEntry k l).isSome = true ∧ (s.1.find? k).isSome = true then 1 else 0 := by
  induction l generalizing s with
  | nil => simp
  | cons e l ih =>
    obtain ⟨hlt, hl⟩ := List.pairwise_cons.mp hsorted
    rw [List.foldl_cons, ih hl, count_addProperty, find?_addProperty, findEntry_cons, Nat.add_assoc]
    congr 1
    by_cases hk : e.1 = k
    · -- no other entry has the key
      have hnone : findEntry k l = none := by
        rw [Option.eq_none_iff_forall_ne_some]
        intro v hv
        exact absurd hk (hlt _ (mem_of_findEntry hv)).ne
      simp [hk, hnone]
    · simp [hk]

/-- The member has the property. -/
def Member.hasProperty (k : Bytes) (m : Member) : Bool := (m.node.properties.find? k).isSome

/-- A conflict is recorded for every member with the key but the first one. -/
theorem count_mergeProperties (key k : Bytes) (members : List Member) :
    (mergeProperties key members).2.count (conflictMessage key k) =
      members.countP (Member.hasProperty k) - 1 := by
  -- what is there when the loop starts makes the first one a conflict as well
  have hfold : ∀ (members : List Member) (s : PropertyMap × List Bytes),
      (members.foldl (fun s m => m.node.properties.entries.foldl (addProperty key) s) s).2.count
          (conflictMessage key k) =
        s.2.count (conflictMessage key k) + (members.countP (Member.hasProperty k) -
          if (s.1.find? k).isSome = true then 0 else 1) := by
    intro members
    induction members with
    | nil => intro s; simp
    | cons m members ih =>
      intro s
      rw [List.foldl_cons, ih, count_addProperties key k m.node.properties.sorted,
        find?_addProperties, List.countP_cons, Nat.add_assoc]
      congr 1
      have hhas : Member.hasProperty k m = (findEntry k m.node.properties.entries).isSome := rfl
      rw [hhas]
      cases findEntry k m.node.properties.entries <;> cases s.1.find? k <;> simp
      all_goals omega
  have hempty : (OrderedMap.empty : PropertyMap).find? k = none := rfl
  rw [mergeProperties_eq, hfold, hempty]
  simp

/-! ## Exact conflicts -/

/-- The conflicts that the merge records for a group. -/
def groupConflicts (g : Bytes × List Member) : List Bytes := (mergeGroup g.1 (sortMembers g.2)).2

/-- The member has the property with a value that is not equal to the one in the node. -/
def Member.disagrees (n : TopologyNode) (k : Bytes) (m : Member) : Bool :=
  (m.node.properties.find? k).any fun v => !(n.properties.find? k).any v.equal

/-- A conflict with the property is recorded for a group once per member that disagrees with the
node of the group. -/
def ConflictsExact (g : Bytes × List Member) (k : Bytes) : Prop :=
  (groupConflicts g).count (conflictMessage g.1 k) = g.2.countP (Member.disagrees (groupNode g) k)

/-- The member has the property with an equal value. -/
def Member.agrees (v : PropertyValue) (k : Bytes) (m : Member) : Bool :=
  (m.node.properties.find? k).any fun v' => v'.equal v

/-- No member has the property, or exactly one agrees with the first member that has it. -/
def OneAgrees (members : List Member) (k : Bytes) : Prop :=
  (∀ m ∈ members, m.node.properties.find? k = none) ∨
    ∃ first v, IsFirst Precedes members (fun m => (m.node.properties.find? k).isSome = true) first ∧
      first.node.properties.find? k = some v ∧ members.countP (Member.agrees v k) = 1

/-- The property of a node is that of the first member that has it. -/
theorem find?_groupNode_of_first {key k : Bytes} {members : List Member} {v : PropertyValue}
    (h : (sortMembers members).findSome? (fun m => m.node.properties.find? k) = some v) :
    (groupNode (key, members)).properties.find? k = some v := by
  rw [← find?_mergeProperties key] at h
  show (((mergeProperties key (sortMembers members)).1.emplace _ _).emplace _ _).find? k = _
  simp only [OrderedMap.find?_emplace]
  split_ifs with hmembers hproviders hproviders
  all_goals simp_all

/-- Members that have a property agree with a value or disagree. -/
theorem countP_hasProperty {n : TopologyNode} {k : Bytes} {v : PropertyValue}
    (hv : n.properties.find? k = some v) (members : List Member) :
    members.countP (Member.hasProperty k) =
      members.countP (Member.agrees v k) + members.countP (Member.disagrees n k) := by
  induction members with
  | nil => rfl
  | cons m members ih =>
    rw [List.countP_cons, List.countP_cons, List.countP_cons, ih]
    unfold Member.hasProperty Member.agrees Member.disagrees
    rw [hv]
    cases m.node.properties.find? k with
    | none => simp
    | some x =>
      cases hx : x.equal v <;> simp [hx] <;> omega

section Group

variable {key k : Bytes} {members : List Member}

theorem count_groupConflicts :
    (groupConflicts (key, members)).count (conflictMessage key k) =
      members.countP (Member.hasProperty k) - 1 := by
  rw [← (sortMembers_perm members).countP_eq, ← count_mergeProperties key]
  rfl

theorem precedes_asymm (a b : Member) (hab : Precedes a b) : ¬ Precedes b a := by
  unfold Precedes ReadBefore at *
  omega

/-- The conflicts of one group. -/
theorem conflictsExact_group (hpositions : members.Pairwise ReadBefore) :
    ConflictsExact (key, members) k ↔ OneAgrees members k := by
  unfold ConflictsExact
  rw [count_groupConflicts]
  cases hsearch : (sortMembers members).findSome? fun m => m.node.properties.find? k with
  | none =>
    rw [List.findSome?_eq_none_iff] at hsearch
    have hnone : ∀ m ∈ members, m.node.properties.find? k = none := fun m hm =>
      hsearch m ((sortMembers_perm members).mem_iff.mpr hm)
    have hhas : members.countP (Member.hasProperty k) = 0 :=
      List.countP_eq_zero.mpr fun m hm => by simp [Member.hasProperty, hnone m hm]
    have hdisagrees : members.countP
        (Member.disagrees (groupNode (key, members)) k) = 0 :=
      List.countP_eq_zero.mpr fun m hm => by simp [Member.disagrees, hnone m hm]
    rw [hhas, hdisagrees]
    exact iff_of_true rfl (Or.inl hnone)
  | some v =>
    obtain ⟨first, hfirst, hv⟩ := isFirst_of_findSome? (sortMembers_sorted hpositions) hsearch
    have hfirst := hfirst.of_perm (sortMembers_perm members)
    have hpos : 0 < members.countP (Member.hasProperty k) :=
      List.countP_pos_iff.mpr ⟨first, hfirst.mem, hfirst.holds⟩
    have hkept : (groupNode (key, members)).properties.find? k = some v :=
      find?_groupNode_of_first hsearch
    have hsplit := countP_hasProperty hkept members
    have hone : OneAgrees members k ↔ members.countP (Member.agrees v k) = 1 := by
      constructor
      · rintro (hnone | ⟨first', v', hfirst', hv', hagree⟩)
        · rw [hnone first hfirst.mem] at hv
          cases hv
        · obtain rfl := hfirst.unique precedes_asymm hfirst'
          rwa [Option.some.inj (hv.symm.trans hv')]
      · exact fun h => Or.inr ⟨first, v, hfirst, hv, h⟩
    rw [hone]
    -- the first one agrees or the counts differ
    show _ = members.countP (Member.disagrees (groupNode (key, members)) k) ↔ _
    omega

end Group

section Merge

variable {order : IterationOrder} {bounds : Bounds} {contributions : List Contribution}

/-- **When conflicts are exact**: with room for all keys the conflicts are those of the groups, the
merged nodes are those of the groups, and a property of a group has one conflict for every member
that disagrees with the node iff no member has it or exactly one agrees with the first. -/
theorem conflictsExact_iff (hnodes : WithinNodes bounds contributions) :
    (mergeContributions order contributions bounds).conflicts =
        (contributedGroups order contributions).flatMap groupConflicts ∧
      (∀ e ∈ (mergeContributions order contributions bounds).nodes.entries,
        ∃ key, IsLeast {k | k ∈ contributedKeys contributions ∧ groupId k = e.1} key ∧
          e.2 = groupNode (key, groupMembers contributions key)) ∧
      ∀ key ∈ contributedKeys contributions, ∀ k,
        ConflictsExact (key, groupMembers contributions key) k ↔
          OneAgrees (groupMembers contributions key) k := by
  refine ⟨congrArg GroupState.conflicts (groupsMerged_within hnodes), fun e he => ?_,
    fun key _ k => conflictsExact_group (groupMembers_positions contributions key)⟩
  exact (mem_mergedNodes hnodes).mp he

end Merge

/-- Two providers that report one machine with the same property. -/
def agreeingProviders : List Contribution :=
  [{ nodes := [{ ref := str "m", native := { machineName := str "m" },
                 properties := OrderedMap.empty.emplace (str "x") (.int 1) }] },
    { nodes := [{ ref := str "m", native := { machineName := str "m" },
                  properties := OrderedMap.empty.emplace (str "x") (.int 1) }] }]

theorem conflictsExact_iff_agreeing :
    (mergeContributions .insertion agreeingProviders {}).conflicts =
        (contributedGroups .insertion agreeingProviders).flatMap groupConflicts ∧
      (∀ e ∈ (mergeContributions .insertion agreeingProviders {}).nodes.entries,
        ∃ key, IsLeast {k | k ∈ contributedKeys agreeingProviders ∧ groupId k = e.1} key ∧
          e.2 = groupNode (key, groupMembers agreeingProviders key)) ∧
      ∀ key ∈ contributedKeys agreeingProviders, ∀ k,
        ConflictsExact (key, groupMembers agreeingProviders key) k ↔
          OneAgrees (groupMembers agreeingProviders key) k :=
  conflictsExact_iff (by decide +kernel)

/-- A conflict is recorded though the members agree. -/
theorem conflicts_not_exact : WithinNodes {} agreeingProviders ∧
    (mergeContributions .insertion agreeingProviders {}).conflicts ≠ [] ∧
    ∃ key ∈ contributedKeys agreeingProviders,
      ¬ ConflictsExact (key, groupMembers agreeingProviders key) (str "x") := by
  refine ⟨by decide +kernel, by decide +kernel, str "machine:m", by decide +kernel, ?_⟩
  unfold ConflictsExact
  decide +kernel

end TopologyFabric

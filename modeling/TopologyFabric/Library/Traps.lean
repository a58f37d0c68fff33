import TopologyFabric.Library.BestFirst

/-!
# Walks That a Best-First Search Can Be Caught In

When hops may lead to smaller values, a search that pops nodes in the order of their values can come
round to a node that it has passed, at a smaller value than before. A walk after which this happens
is a *trap*. The search stays out of a trap that is *overtaken*: from a node of the walk another walk
leads to the target, and all its entries leave the queue before a later entry of the trap does.

When hops do not keep values apart, a walk can come to a node below another one without the next
node being told. The parents then lead back along a walk that is *spliced* from both.

Which walks a search follows is kept in a history, the list of the popped walks. If of the walks that
a trap is spliced from one is overtaken, no popped walk is a trap, and then popped walks visit every
node at most once.

## Main results

- `History.not_spliced_trap`: popped walks are not spliced to traps
- `History.nodup_dst`: popped walks do not repeat a node
-/

namespace TopologyFabric.Library.LabelCorrecting

open BestFirst

universe u v w

variable {V : Type u} {E : Type v} {D : Type w}

/-! ## Entries -/

/-- The node that a walk from `root` ends in. -/
def walkEnd (root : V) (hops : List (Hop V E)) : V := hops.getLast?.elim root Hop.dst

/-- The queue entry that a walk from `root` makes. -/
def entry (extend : D → V → V → E → D) (start : D) (root : V) (hops : List (Hop V E)) : D ×ₗ V :=
  toLex (walkValue extend start hops, walkEnd root hops)

@[simp] theorem walkEnd_nil (root : V) : walkEnd root ([] : List (Hop V E)) = root := rfl

@[simp] theorem walkEnd_snoc (root : V) (hops : List (Hop V E)) (hop : Hop V E) :
    walkEnd root (hops ++ [hop]) = hop.dst := by
  simp [walkEnd]

theorem walkEnd_append (root : V) (hops hops' : List (Hop V E)) :
    walkEnd root (hops ++ hops') = walkEnd (walkEnd root hops) hops' := by
  cases hops' using List.reverseRecOn with
  | nil => simp
  | append_singleton init hop => rw [← List.append_assoc, walkEnd_snoc, walkEnd_snoc]

theorem walkEnd_eq {adj : V → List (V × E)} {a b : V} {hops : List (Hop V E)}
    (h : IsWalk adj a hops b) : walkEnd a hops = b := by
  by_cases hnil : hops = []
  · subst hnil
    exact h.dst_eq_of_nil
  · obtain ⟨init, c, e, rfl, -, -⟩ := h.exists_snoc hnil
    rw [walkEnd_snoc]

/-- The last hop of a walk starts where the rest of the walk ends. -/
theorem isWalk_snoc {adj : V → List (V × E)} {a b : V} {hops : List (Hop V E)} {hop : Hop V E}
    (h : IsWalk adj a (hops ++ [hop]) b) :
    IsWalk adj a hops (walkEnd a hops) ∧ hop.src = walkEnd a hops ∧ hop.dst = b ∧
      (b, hop.via) ∈ adj (walkEnd a hops) := by
  obtain ⟨init, c, e, heq, hinit, hmem⟩ := h.exists_snoc (by simp)
  obtain ⟨rfl, hhop⟩ := List.append_inj' heq rfl
  obtain rfl : hop = ⟨c, b, e⟩ := by simpa using hhop
  obtain rfl := walkEnd_eq hinit
  exact ⟨hinit, rfl, rfl, hmem⟩

/-- A walk can be cut at every prefix. -/
theorem isWalk_append {adj : V → List (V × E)} {a b : V} {A C : List (Hop V E)}
    (h : IsWalk adj a (A ++ C) b) :
    IsWalk adj a A (walkEnd a A) ∧ IsWalk adj (walkEnd a A) C b := by
  induction C using List.reverseRecOn generalizing b with
  | nil =>
    rw [List.append_nil] at h
    obtain rfl := walkEnd_eq h
    exact ⟨h, .nil _⟩
  | append_singleton C hop ih =>
    rw [← List.append_assoc] at h
    obtain ⟨hinit, hsrc, rfl, hmem⟩ := isWalk_snoc h
    obtain ⟨hA, hC⟩ := ih hinit
    refine ⟨hA, ?_⟩
    have hsnoc := hC.snoc hmem
    rwa [← hsrc] at hsnoc

/-- The walks from a node with at most `n` hops. -/
def walksUpTo (adj : V → List (V × E)) : ℕ → V → List (List (Hop V E))
  | 0, _ => [[]]
  | n + 1, a => [] :: (adj a).flatMap fun p => (walksUpTo adj n p.1).map (⟨a, p.1, p.2⟩ :: ·)

theorem mem_walksUpTo {adj : V → List (V × E)} {a b : V} {hops : List (Hop V E)} {n : ℕ}
    (h : IsWalk adj a hops b) (hlen : hops.length ≤ n) : hops ∈ walksUpTo adj n a := by
  induction h generalizing n with
  | nil => cases n <;> simp [walksUpTo]
  | @cons a b c e hops hmem _ ih =>
    cases n with
    | zero => simp at hlen
    | succ n =>
      refine List.mem_cons_of_mem _ (List.mem_flatMap.mpr ⟨(b, e), hmem, ?_⟩)
      exact List.mem_map_of_mem (ih (by simpa using hlen))

section Values

variable [LinearOrder D] {extend : D → V → V → E → D} {start : D} {root : V}
  {A B P : List (Hop V E)} {d d' : D}

omit [LinearOrder D] in
theorem walkValue_append (A P : List (Hop V E)) :
    walkValue extend start (A ++ P) = walkValue extend (walkValue extend start A) P :=
  List.foldl_append

omit [LinearOrder D] in
/-- The last hop of a walk extends the value at the node before. -/
theorem walkValue_last {hop : Hop V E} (hsrc : hop.src = walkEnd root A) :
    walkValue extend start (A ++ [hop]) =
      extend (walkValue extend start A) (walkEnd root A) hop.dst hop.via := by
  rw [walkValue_snoc, hsrc]

/-- Walks to one node make entries in the order of their values. -/
theorem entry_le_of_value [LinearOrder V] (hend : walkEnd root A = walkEnd root B)
    (h : walkValue extend start A ≤ walkValue extend start B) :
    entry extend start root A ≤ entry extend start root B := by
  rw [entry, entry, hend, Prod.Lex.toLex_le_toLex]
  exact h.lt_or_eq.imp id fun heq => ⟨heq, le_rfl⟩

omit [LinearOrder D] in
theorem entry_append (A P : List (Hop V E)) :
    entry extend start root (A ++ P) =
      toLex (walkValue extend (walkValue extend start A) P, walkEnd (walkEnd root A) P) := by
  rw [entry, walkValue_append, walkEnd_append]

omit [LinearOrder D] in
theorem entry_append_congr (h : entry extend start root A = entry extend start root B)
    (P : List (Hop V E)) :
    entry extend start root (A ++ P) = entry extend start root (B ++ P) := by
  obtain ⟨hvalue, hend⟩ := Prod.mk.inj (toLex.injective h)
  rw [entry_append, entry_append, hvalue, hend]

theorem entry_lt_of_value [LinearOrder V]
    (h : walkValue extend start A < walkValue extend start B) :
    entry extend start root A < entry extend start root B :=
  Prod.Lex.toLex_lt_toLex.mpr (Or.inl h)

end Values

/-! ## Traps -/

variable [LinearOrder D]

/-- A walk that avoids the target and after which a node comes off the queue, or is queued, once
more at a smaller value than before: the root itself, or a node that the walk has passed and that
one more hop leads back to. -/
inductive Trap (adj : V → List (V × E)) (extend : D → V → V → E → D) (start : D)
    (root target : V) : List (Hop V E) → Prop where
  | back {Q : List (Hop V E)} :
      IsWalk adj root Q root → (∀ hop ∈ Q, hop.dst ≠ target) → walkValue extend start Q < start →
      Trap adj extend start root target Q
  | circle {Q A : List (Hop V E)} {e : E} :
      IsWalk adj root Q (walkEnd root Q) → (∀ hop ∈ Q, hop.dst ≠ target ∧ hop.dst ≠ root) →
      A <+: Q → A ≠ [] → (walkEnd root A, e) ∈ adj (walkEnd root Q) →
      extend (walkValue extend start Q) (walkEnd root Q) (walkEnd root A) e <
        walkValue extend start A →
      Trap adj extend start root target Q

theorem Trap.isWalk {adj : V → List (V × E)} {extend : D → V → V → E → D} {start : D}
    {root target : V} {Q : List (Hop V E)} (h : Trap adj extend start root target Q) :
    IsWalk adj root Q (walkEnd root Q) ∧ ∀ hop ∈ Q, hop.dst ≠ target := by
  cases h with
  | back hwalk havoid _ => exact ⟨by rwa [walkEnd_eq hwalk], havoid⟩
  | circle hwalk havoid _ _ _ _ => exact ⟨hwalk, fun hop hhop => (havoid hop hhop).1⟩

/-- A root that only leads to the target is in no trap. -/
theorem not_trap_of_adj {adj : V → List (V × E)} {extend : D → V → V → E → D} {start : D}
    {root target : V} (h : ∀ p ∈ adj root, p.1 = target) {Q : List (Hop V E)} :
    ¬ Trap adj extend start root target Q := by
  intro htrap
  obtain ⟨hwalk, havoid⟩ := htrap.isWalk
  have hnil : Q = [] := by
    cases hwalk with
    | nil => rfl
    | cons hmem _ => exact absurd (h _ hmem) (havoid _ (List.mem_cons_self ..))
  subst hnil
  cases htrap with
  | back _ _ hless => exact lt_irrefl _ hless
  | circle _ _ hA hne _ _ => exact hne (List.prefix_nil.mp hA)

variable [LinearOrder V]

/-- From a node of the walk, where `A` ends, another walk leads to the target, and each of its
entries comes before the entry of a longer prefix `B` of the walk. -/
def Overtaken (adj : V → List (V × E)) (extend : D → V → V → E → D) (start : D) (root target : V)
    (Q : List (Hop V E)) : Prop :=
  ∃ A B P, A <+: B ∧ A ≠ B ∧ B <+: Q ∧ IsWalk adj (walkEnd root A) P target ∧
    ∀ P', P' ≠ [] → P' <+: P → entry extend start root (A ++ P') < entry extend start root B

theorem not_overtaken_nil {adj : V → List (V × E)} {extend : D → V → V → E → D} {start : D}
    {root target : V} : ¬ Overtaken adj extend start root target [] := by
  rintro ⟨A, B, -, hAB, hne, hB, -⟩
  obtain rfl := List.prefix_nil.mp hB
  exact hne (List.prefix_nil.mp hAB)

/-- The walk `L` leads to the end of `A` at a smaller value and avoids the target. It comes down
from above the entry of `A`, but the next hop leads to the same value after both walks: when `L` is
popped later than `A`, the node behind the hop keeps the label that it has got from `A`. -/
structure Hidden (adj : V → List (V × E)) (extend : D → V → V → E → D) (start : D)
    (root target : V) (A L : List (Hop V E)) (hop : Hop V E) : Prop where
  walk : IsWalk adj root L (walkEnd root A)
  avoid : ∀ back ∈ L, back.dst ≠ target
  lower : walkValue extend start L < walkValue extend start A
  above : ∃ Y, Y <+: L ∧ entry extend start root A < entry extend start root Y
  same : extend (walkValue extend start L) hop.src hop.dst hop.via =
    extend (walkValue extend start A) hop.src hop.dst hop.via

/-- A walk that avoids the target and that is put together from walks: where the next hop hides the
difference, the part so far gives way to another walk. -/
inductive Spliced (adj : V → List (V × E)) (extend : D → V → V → E → D) (start : D)
    (root target : V) : List (List (Hop V E)) → List (Hop V E) → Prop where
  | single {Q : List (Hop V E)} :
      IsWalk adj root Q (walkEnd root Q) → (∀ hop ∈ Q, hop.dst ≠ target) →
      Spliced adj extend start root target [Q] Q
  | splice {S : List (List (Hop V E))} {A L C : List (Hop V E)} {hop : Hop V E} :
      Spliced adj extend start root target S (A ++ hop :: C) →
      Hidden adj extend start root target A L hop →
      Spliced adj extend start root target (L :: S) (L ++ hop :: C)

/-- Of the walks that a trap is put together from, one is overtaken. -/
def TrapsOvertaken (adj : V → List (V × E)) (extend : D → V → V → E → D) (start : D)
    (root target : V) : Prop :=
  ∀ S Q, Spliced adj extend start root target S Q → Trap adj extend start root target Q →
    ∃ A ∈ S, Overtaken adj extend start root target A

section Splicing

variable {adj : V → List (V × E)} {extend : D → V → V → E → D} {start : D} {root target : V}
  {S : List (List (Hop V E))} {A L C Q : List (Hop V E)} {hop : Hop V E}

theorem Hidden.entry_eq (h : Hidden adj extend start root target A L hop) (C : List (Hop V E)) :
    entry extend start root (L ++ hop :: C) = entry extend start root (A ++ hop :: C) := by
  have hvalue : walkValue extend start (L ++ [hop]) = walkValue extend start (A ++ [hop]) := by
    rw [walkValue_snoc, walkValue_snoc, h.same]
  have hfirst : entry extend start root (L ++ [hop]) = entry extend start root (A ++ [hop]) := by
    rw [entry, entry, hvalue, walkEnd_snoc, walkEnd_snoc]
  simpa using entry_append_congr hfirst C

theorem Spliced.isWalk (h : Spliced adj extend start root target S Q) :
    IsWalk adj root Q (walkEnd root Q) := by
  induction h with
  | single hwalk _ => exact hwalk
  | @splice S A L C hop _ hhidden ih =>
    obtain ⟨-, hC⟩ := isWalk_append ih
    have hwalk := hhidden.walk.append hC
    rwa [← walkEnd_eq hwalk] at hwalk

/-- Every hop belongs to one of the walks. -/
theorem Spliced.exists_mem (h : Spliced adj extend start root target S Q) (hhop : hop ∈ Q) :
    ∃ A ∈ S, hop ∈ A := by
  induction h with
  | single _ _ => exact ⟨_, List.mem_singleton_self _, hhop⟩
  | @splice S A L C next _ _ ih =>
    rcases List.mem_append.mp hhop with hhop | hhop
    · exact ⟨L, List.mem_cons_self .., hhop⟩
    · obtain ⟨B, hB, hmem⟩ := ih (List.mem_append_right _ hhop)
      exact ⟨B, List.mem_cons_of_mem _ hB, hmem⟩

/-- The walks that a walk is put together from avoid the target as well. -/
theorem Spliced.forall_mem (h : Spliced adj extend start root target S Q) :
    ∀ A ∈ S, IsWalk adj root A (walkEnd root A) ∧ ∀ hop ∈ A, hop.dst ≠ target := by
  induction h with
  | single hwalk havoid => exact List.forall_mem_singleton.mpr ⟨hwalk, havoid⟩
  | splice _ hhidden ih =>
    refine List.forall_mem_cons.mpr ⟨⟨?_, hhidden.avoid⟩, ih⟩
    have hwalk := hhidden.walk
    rwa [← walkEnd_eq hwalk] at hwalk

/-- When hops keep values apart, nothing is hidden and a walk is put together from itself. -/
theorem Spliced.eq_singleton (h : Spliced adj extend start root target S Q)
    (hstrict : ∀ u v e, StrictMono fun d => extend d u v e) : S = [Q] := by
  cases h with
  | single _ _ => rfl
  | splice _ hhidden => exact absurd hhidden.same (hstrict _ _ _ hhidden.lower).ne

theorem TrapsOvertaken.overtaken (h : TrapsOvertaken adj extend start root target)
    (htrap : Trap adj extend start root target Q) : Overtaken adj extend start root target Q := by
  obtain ⟨hwalk, havoid⟩ := htrap.isWalk
  obtain ⟨A, hA, hover⟩ := h [Q] Q (.single hwalk havoid) htrap
  obtain rfl := List.mem_singleton.mp hA
  exact hover

theorem trapsOvertaken_of_strictMono (hstrict : ∀ u v e, StrictMono fun d => extend d u v e)
    (h : ∀ Q, Trap adj extend start root target Q → Overtaken adj extend start root target Q) :
    TrapsOvertaken adj extend start root target := by
  intro S Q hspliced htrap
  obtain rfl := hspliced.eq_singleton hstrict
  exact ⟨Q, List.mem_singleton_self _, h Q htrap⟩

end Splicing

/-! ## Order of popping -/

section Before

variable {α : Type u} {l : List α} {a b c : α}

/-- `a` was popped before `b`. The list shows what was popped, the latest first. -/
def Before (l : List α) (a b : α) : Prop := [b, a].Sublist l

theorem before_cons : Before (c :: l) a b ↔ Before l a b ∨ b = c ∧ a ∈ l := by
  simp only [Before, List.sublist_cons_iff, List.cons.injEq]
  refine or_congr_right ⟨?_, ?_⟩
  · rintro ⟨r, ⟨rfl, rfl⟩, h⟩
    exact ⟨rfl, List.singleton_sublist.mp h⟩
  · rintro ⟨rfl, h⟩
    exact ⟨[a], ⟨rfl, rfl⟩, List.singleton_sublist.mpr h⟩

theorem Before.left_mem (h : Before l a b) : a ∈ l := h.subset (by simp)

theorem Before.right_mem (h : Before l a b) : b ∈ l := h.subset (by simp)

theorem Before.cons (h : Before l a b) (c : α) : Before (c :: l) a b := before_cons.mpr (Or.inl h)

theorem Before.ne (hl : l.Nodup) (h : Before l a b) : a ≠ b := by
  have := hl.sublist h
  simp only [List.nodup_cons, List.mem_singleton] at this
  exact fun hab => this.1 hab.symm

theorem Before.trans (hl : l.Nodup) (hab : Before l a b) (hbc : Before l b c) : Before l a c := by
  induction l with
  | nil => simpa using hab.left_mem
  | cons d l ih =>
    obtain ⟨hd, hl⟩ := List.nodup_cons.mp hl
    have hb : b ∈ l := by
      rcases before_cons.mp hbc with hbc | ⟨-, hb⟩
      · exact hbc.left_mem
      · exact hb
    have hab' : Before l a b := (before_cons.mp hab).resolve_right fun h => hd (h.1 ▸ hb)
    rcases before_cons.mp hbc with hbc | ⟨rfl, -⟩
    · exact (ih hl hab' hbc).cons d
    · exact before_cons.mpr (Or.inr ⟨rfl, hab'.left_mem⟩)

theorem Before.total (ha : a ∈ l) (hb : b ∈ l) : a = b ∨ Before l a b ∨ Before l b a := by
  induction l with
  | nil => simp at ha
  | cons d l ih =>
    rcases List.mem_cons.mp ha with had | ha
    · rcases List.mem_cons.mp hb with hbd | hb
      · exact Or.inl (had.trans hbd.symm)
      · exact Or.inr (Or.inr (before_cons.mpr (Or.inr ⟨had, hb⟩)))
    · rcases List.mem_cons.mp hb with hbd | hb
      · exact Or.inr (Or.inl (before_cons.mpr (Or.inr ⟨hbd, ha⟩)))
      · exact (ih ha hb).imp id (Or.imp (·.cons d) (·.cons d))

/-- Of the popped ones with a property one is the latest. -/
theorem exists_latest {p : α → Prop} (h : ∃ a ∈ l, p a) :
    ∃ z ∈ l, p z ∧ ∀ a ∈ l, p a → a = z ∨ Before l a z := by
  induction l with
  | nil => simp at h
  | cons d l ih =>
    by_cases hd : p d
    · refine ⟨d, by simp, hd, fun a ha _ => ?_⟩
      exact (List.mem_cons.mp ha).imp id fun ha => before_cons.mpr (Or.inr ⟨rfl, ha⟩)
    · obtain ⟨a, ha, hpa⟩ := h
      have had : a ∈ l := (List.mem_cons.mp ha).resolve_left fun h => hd (h ▸ hpa)
      obtain ⟨z, hz, hpz, hlatest⟩ := ih ⟨a, had, hpa⟩
      refine ⟨z, List.mem_cons_of_mem _ hz, hpz, fun b hb hpb => ?_⟩
      have hbd : b ∈ l := (List.mem_cons.mp hb).resolve_left fun h => hd (h ▸ hpb)
      exact (hlatest b hbd hpb).imp id (·.cons d)

end Before

/-! ## Histories -/

/-- What holds of the walks that a search with one target has popped, whatever the values are. -/
structure History (adj : V → List (V × E)) (extend : D → V → V → E → D) (start : D)
    (root target : V) (popped : List (List (Hop V E))) : Prop where
  nodup : popped.Nodup
  walk : ∀ Q ∈ popped, IsWalk adj root Q (walkEnd root Q)
  noTarget : ∀ Q ∈ popped, walkEnd root Q ≠ target
  extends_ : ∀ Q ∈ popped, Q ≠ [] → Before popped Q.dropLast Q
  below : ∀ A B, Before popped A B → walkEnd root A = walkEnd root B →
    walkValue extend start B < walkValue extend start A
  relaxed : ∀ X B e, Before popped X B → (walkEnd root B, e) ∈ adj (walkEnd root X) →
    walkValue extend start B ≤
      extend (walkValue extend start X) (walkEnd root X) (walkEnd root B) e
  ahead : ∀ A B, Before popped A B → ∀ P x, IsWalk adj (walkEnd root A) P x →
    (∃ P', P' ≠ [] ∧ P' <+: P ∧ entry extend start root B ≤ entry extend start root (A ++ P')) ∨
    ∃ D, Before popped D B ∧ walkEnd root D = x ∧
      walkValue extend start D ≤ walkValue extend start (A ++ P)
  nested : ∀ Z B, Before popped Z B → Z <+: B ∨
    ∃ Y, Y <+: B ∧ entry extend start root Z < entry extend start root Y ∧ Before popped Z Y

namespace History

variable {adj : V → List (V × E)} {extend : D → V → V → E → D} {start : D} {root target : V}
  {popped : List (List (Hop V E))} {A Q : List (Hop V E)}

/-- A history goes on with a walk that is not in it: the hypotheses say of this walk what a history
says of each. -/
theorem cons (H : History adj extend start root target popped) (hpop : Q ∉ popped)
    (hwalk : IsWalk adj root Q (walkEnd root Q)) (hne : walkEnd root Q ≠ target)
    (hinit : Q ≠ [] → Q.dropLast ∈ popped)
    (hbelow : ∀ A ∈ popped, walkEnd root A = walkEnd root Q →
      walkValue extend start Q < walkValue extend start A)
    (hrelaxed : ∀ X ∈ popped, ∀ e, (walkEnd root Q, e) ∈ adj (walkEnd root X) →
      walkValue extend start Q ≤
        extend (walkValue extend start X) (walkEnd root X) (walkEnd root Q) e)
    (hahead : ∀ A ∈ popped, ∀ P x, IsWalk adj (walkEnd root A) P x →
      (∃ P', P' ≠ [] ∧ P' <+: P ∧ entry extend start root Q ≤ entry extend start root (A ++ P')) ∨
      ∃ D ∈ popped, walkEnd root D = x ∧
        walkValue extend start D ≤ walkValue extend start (A ++ P))
    (hnested : ∀ Z ∈ popped, Z <+: Q ∨ entry extend start root Z < entry extend start root Q ∨
      ∃ Y, Y <+: Q ∧ entry extend start root Z < entry extend start root Y ∧ Before popped Z Y) :
    History adj extend start root target (Q :: popped) where
  nodup := List.nodup_cons.mpr ⟨hpop, H.nodup⟩
  walk := List.forall_mem_cons.mpr ⟨hwalk, H.walk⟩
  noTarget := List.forall_mem_cons.mpr ⟨hne, H.noTarget⟩
  extends_ := List.forall_mem_cons.mpr
    ⟨fun h => before_cons.mpr (Or.inr ⟨rfl, hinit h⟩), fun B hB h => (H.extends_ B hB h).cons Q⟩
  -- each field speaks of pairs popped in an order; a new pair has `Q` as its later member
  below := by
    intro A B hAB hends
    rcases before_cons.mp hAB with hAB | ⟨rfl, hA⟩
    · exact H.below A B hAB hends
    · exact hbelow A hA hends
  relaxed := by
    intro X B e hXB hmem
    rcases before_cons.mp hXB with hXB | ⟨rfl, hX⟩
    · exact H.relaxed X B e hXB hmem
    · exact hrelaxed X hX e hmem
  ahead := by
    intro A B hAB P x hP
    rcases before_cons.mp hAB with hAB | ⟨rfl, hA⟩
    · refine (H.ahead A B hAB P x hP).imp id ?_
      rintro ⟨D, hD, hend⟩
      exact ⟨D, hD.cons Q, hend⟩
    · refine (hahead A hA P x hP).imp id ?_
      rintro ⟨D, hD, hend⟩
      exact ⟨D, before_cons.mpr (Or.inr ⟨rfl, hD⟩), hend⟩
  nested := by
    intro Z B hZB
    rcases before_cons.mp hZB with hZB' | ⟨rfl, hZ⟩
    · rcases H.nested Z B hZB' with hpre | ⟨Y, hY, hlt, hbefore⟩
      · exact Or.inl hpre
      · exact Or.inr ⟨Y, hY, hlt, hbefore.cons Q⟩
    · rcases hnested Z hZ with hpre | hlt | ⟨Y, hY, hlt, hbefore⟩
      · exact Or.inl hpre
      · -- the walk that is cheaper is `Q` itself
        exact Or.inr ⟨B, List.prefix_rfl, hlt, hZB⟩
      · exact Or.inr ⟨Y, hY, hlt, hbefore.cons B⟩

/-- Nothing has been popped after the walk that was popped last. -/
theorem not_before (H : History adj extend start root target (A :: popped)) :
    ¬ Before (A :: popped) A Q := by
  intro hbefore
  have hfirst := (List.nodup_cons.mp H.nodup).1
  rcases before_cons.mp hbefore with hbefore | ⟨-, hmem⟩
  · exact hfirst hbefore.left_mem
  · exact hfirst hmem

/-- What the history says of the walk that was popped last holds of the walks that go on from it. -/
theorem nested_extension {Z : List (Hop V E)}
    (H : History adj extend start root target (A :: popped))
    (hpre : A <+: Q) (hZ : Z ∈ A :: popped) :
    Z <+: Q ∨
      ∃ Y, Y <+: Q ∧ entry extend start root Z < entry extend start root Y ∧
        Before (A :: popped) Z Y := by
  rcases List.mem_cons.mp hZ with rfl | hZ
  · exact Or.inl hpre
  · have hbefore : Before (A :: popped) Z A := before_cons.mpr (Or.inr ⟨rfl, hZ⟩)
    rcases H.nested Z A hbefore with hZA | ⟨Y, hY, hlt, hbefore⟩
    · exact Or.inl (hZA.trans hpre)
    · exact Or.inr ⟨Y, hY.trans hpre, hlt, hbefore⟩

theorem before_of_prefix (H : History adj extend start root target popped) (hQ : Q ∈ popped)
    (hA : A <+: Q) (hne : A ≠ Q) : Before popped A Q := by
  induction Q using List.reverseRecOn with
  | nil => exact absurd (List.prefix_nil.mp hA) hne
  | append_singleton Q hop ih =>
    have hlast : Before popped Q (Q ++ [hop]) := by
      simpa using H.extends_ _ hQ (by simp)
    rcases List.prefix_concat_iff.mp hA with rfl | hA
    · exact absurd rfl hne
    · by_cases hAQ : A = Q
      · exact hAQ ▸ hlast
      · exact (ih hlast.left_mem hA hAQ).trans H.nodup hlast

theorem mem_of_prefix (H : History adj extend start root target popped) (hQ : Q ∈ popped)
    (hA : A <+: Q) : A ∈ popped := by
  by_cases hne : A = Q
  · exact hne ▸ hQ
  · exact (H.before_of_prefix hQ hA hne).left_mem

/-- A popped walk has not been overtaken. -/
theorem not_overtaken (H : History adj extend start root target popped) (hQ : Q ∈ popped) :
    ¬ Overtaken adj extend start root target Q := by
  rintro ⟨A, B, P, hAB, hne, hBQ, hP, hall⟩
  have hB : B ∈ popped := H.mem_of_prefix hQ hBQ
  rcases H.ahead A B (H.before_of_prefix hB hAB hne) P target hP with
    ⟨P', hP', hpre, hle⟩ | ⟨D, hD, hend, -⟩
  · exact absurd (hall P' hP' hpre) (not_lt.mpr hle)
  · exact H.noTarget D hD.left_mem hend

theorem avoids_target (H : History adj extend start root target popped) (hQ : Q ∈ popped) :
    ∀ hop ∈ Q, hop.dst ≠ target := by
  intro hop hhop
  obtain ⟨l, r, rfl⟩ := List.append_of_mem hhop
  have hpre : l ++ [hop] <+: l ++ hop :: r := ⟨r, by simp⟩
  simpa using H.noTarget _ (H.mem_of_prefix hQ hpre)

/-- If of the walks that a trap is put together from one is overtaken, they have not all been
popped. -/
theorem not_spliced_trap (H : History adj extend start root target popped)
    (hover : TrapsOvertaken adj extend start root target) {S : List (List (Hop V E))}
    (hS : ∀ A ∈ S, A ∈ popped) (hspliced : Spliced adj extend start root target S Q) :
    ¬ Trap adj extend start root target Q := by
  intro htrap
  obtain ⟨A, hA, hA'⟩ := hover S Q hspliced htrap
  exact H.not_overtaken (hS A hA) hA'

section Traps

variable (hover : TrapsOvertaken adj extend start root target)
include hover

/-- No popped walk is a trap. -/
theorem not_trap (H : History adj extend start root target popped) (hQ : Q ∈ popped) :
    ¬ Trap adj extend start root target Q :=
  fun htrap => H.not_overtaken hQ (hover.overtaken htrap)

/-- The root is popped once. -/
theorem eq_nil_of_root (H : History adj extend start root target popped) (hQ : Q ∈ popped)
    (hroot : walkEnd root Q = root) : Q = [] := by
  by_contra hne
  have hlt := H.below [] Q (H.before_of_prefix hQ (List.nil_prefix ..) (Ne.symm hne)) hroot.symm
  have hwalk := H.walk Q hQ
  rw [hroot] at hwalk
  exact H.not_trap hover hQ (.back hwalk (H.avoids_target hQ) hlt)

theorem avoids_root (H : History adj extend start root target popped) (hQ : Q ∈ popped) :
    ∀ hop ∈ Q, hop.dst ≠ root := by
  intro hop hhop hroot
  obtain ⟨l, r, rfl⟩ := List.append_of_mem hhop
  have hpre : l ++ [hop] <+: l ++ hop :: r := ⟨r, by simp⟩
  have hnil := H.eq_nil_of_root hover (H.mem_of_prefix hQ hpre) (by rw [walkEnd_snoc, hroot])
  simp at hnil

/-- No hop leads from the end of a walk that is put together from popped walks back to a node of it
at a smaller value. -/
theorem spliced_circle_le (H : History adj extend start root target popped)
    {S : List (List (Hop V E))} (hS : ∀ A ∈ S, A ∈ popped)
    (hspliced : Spliced adj extend start root target S Q) (hA : A <+: Q) (hne : A ≠ []) {e : E}
    (hmem : (walkEnd root A, e) ∈ adj (walkEnd root Q)) :
    walkValue extend start A ≤
      extend (walkValue extend start Q) (walkEnd root Q) (walkEnd root A) e := by
  by_contra hlt
  refine H.not_spliced_trap hover hS hspliced
    (.circle hspliced.isWalk (fun hop hhop => ?_) hA hne hmem (not_le.mp hlt))
  obtain ⟨B, hB, hmem⟩ := hspliced.exists_mem hhop
  exact ⟨H.avoids_target (hS B hB) hop hmem, H.avoids_root hover (hS B hB) hop hmem⟩

theorem circle_le (H : History adj extend start root target popped) (hQ : Q ∈ popped) (hA : A <+: Q)
    (hne : A ≠ []) {e : E} (hmem : (walkEnd root A, e) ∈ adj (walkEnd root Q)) :
    walkValue extend start A ≤
      extend (walkValue extend start Q) (walkEnd root Q) (walkEnd root A) e :=
  H.spliced_circle_le hover (List.forall_mem_singleton.mpr hQ)
    (.single (H.walk Q hQ) (H.avoids_target hQ)) hA hne hmem

/-- Popped walks do not repeat a node. -/
theorem nodup_dst (H : History adj extend start root target popped) (hQ : Q ∈ popped) :
    (Q.map Hop.dst).Nodup := by
  induction Q using List.reverseRecOn with
  | nil => simp
  | append_singleton Q hop ih =>
    have hpop : Q ∈ popped := H.mem_of_prefix hQ (List.prefix_append ..)
    rw [List.map_append, List.map_singleton, List.nodup_append]
    refine ⟨ih hpop, by simp, ?_⟩
    rintro _ hx _ hy rfl
    obtain ⟨old, hold, hdst⟩ := List.mem_map.mp hx
    rw [List.mem_singleton] at hy
    -- the walk came to this node before, at a larger cost: a hop closes a circle
    obtain ⟨l, r, rfl⟩ := List.append_of_mem hold
    have hpre : l ++ [old] <+: l ++ old :: r := ⟨r, by simp⟩
    obtain ⟨-, hsrc, -, hmem⟩ := isWalk_snoc (H.walk _ hQ)
    have hend : walkEnd root (l ++ [old]) = walkEnd root (l ++ old :: r ++ [hop]) := by
      rw [walkEnd_snoc, walkEnd_snoc, hdst, hy]
    have hbefore : Before popped (l ++ [old]) (l ++ old :: r ++ [hop]) :=
      H.before_of_prefix hQ (hpre.trans (List.prefix_append ..)) fun h => by
        have := congrArg List.length h
        simp at this
    have hlt := H.below _ _ hbefore hend
    rw [← hend] at hmem
    have hle := H.circle_le hover hpop hpre (by simp) hmem
    rw [walkValue_last hsrc] at hlt
    rw [hend, walkEnd_snoc] at hle
    exact not_lt.mpr hle hlt

/-- Popped walks are no longer than there are nodes. -/
theorem length_le (H : History adj extend start root target popped) (hQ : Q ∈ popped) {U : Finset V}
    (hU : ∀ u, ∀ p ∈ adj u, p.1 ∈ U) : Q.length ≤ U.card := by
  have hsub : ∀ x ∈ Q.map Hop.dst, x ∈ U := by
    intro x hx
    obtain ⟨hop, hhop, rfl⟩ := List.mem_map.mp hx
    obtain ⟨l, r, rfl⟩ := List.append_of_mem hhop
    have hpre : l ++ [hop] <+: l ++ hop :: r := ⟨r, by simp⟩
    have hwalk := H.walk _ (H.mem_of_prefix hQ hpre)
    obtain ⟨-, -, -, hmem⟩ := isWalk_snoc hwalk
    rw [walkEnd_snoc] at hmem
    exact hU _ _ hmem
  calc Q.length = (Q.map Hop.dst).toFinset.card := by
        rw [List.toFinset_card_of_nodup (H.nodup_dst hover hQ), List.length_map]
    _ ≤ U.card := Finset.card_le_card fun x hx => hsub x (List.mem_toFinset.mp hx)

/-- Only so many walks can be popped. -/
theorem length_popped_le (H : History adj extend start root target popped) {U : Finset V}
    (hU : ∀ u, ∀ p ∈ adj u, p.1 ∈ U) : popped.length ≤ (walksUpTo adj U.card root).length :=
  (H.nodup.subperm fun Q hQ =>
    mem_walksUpTo (H.walk Q hQ) (H.length_le hover hQ hU)).length_le

end Traps

end History

end TopologyFabric.Library.LabelCorrecting

import TopologyFabric.Library.Traps

/-!
# Labels of a Best-First Search

When hops may lead to smaller values, best-first search corrects the labels of nodes that it has
passed. Every label comes from a walk, and the walks whose entries are popped make a history.

## Main results

- `Inv.relax`, `Inv.settle`: relaxing an adjacency entry and popping the entry of a label keep the
  invariant
- `Inv.round`: so does a round
-/

namespace TopologyFabric.Library.LabelCorrecting

open BestFirst

universe u v w

variable {V : Type u} {E : Type v} {D : Type w} [LinearOrder V] [LinearOrder D]

/-! ## The invariant -/

/-- `label` shows the walk that a node got its value from, `popped` the walks whose entries have
been popped, and `Relaxed A p` says that entry `p` of the end of the popped walk `A` has been
relaxed. -/
structure Inv (adj : V → List (V × E)) (extend : D → V → V → E → D) (start : D) (root target : V)
    (Relaxed : List (Hop V E) → V × E → Prop) (s : State V E D)
    (label : V → Option (List (Hop V E))) (popped : List (List (Hop V E))) : Prop where
  history : History adj extend start root target popped
  dist : ∀ x, s.dist x = (label x).map (walkValue extend start)
  started : ∃ Q, label root = some Q ∧ walkValue extend start Q ≤ start
  walk : ∀ x Q, label x = some Q → IsWalk adj root Q x
  link : ∀ x Q hop, label x = some (Q ++ [hop]) →
    s.parent x = some hop.src ∧ s.via x = some hop.via
  extends_ : ∀ x Q, label x = some Q → Q ≠ [] → Q.dropLast ∈ popped
  least : ∀ A ∈ popped, ∃ Q, label (walkEnd root A) = some Q ∧
    (Q = A ∨ walkValue extend start Q < walkValue extend start A)
  closed : ∀ A ∈ popped, ∀ p ∈ adj (walkEnd root A), Relaxed A p →
    ∃ Q, label p.1 = some Q ∧
      walkValue extend start Q ≤
        extend (walkValue extend start A) (walkEnd root A) p.1 p.2
  sorted : s.pq.Pairwise (· < ·)
  queued : ∀ q ∈ s.pq, ∃ Q, label (ofLex q).2 = some Q ∧ walkValue extend start Q ≤ (ofLex q).1
  latest : ∀ x Q, label x = some Q → Q ∉ popped → entry extend start root Q ∈ s.pq
  fresh : ∀ x Q, label x = some Q → Q ∈ popped → entry extend start root Q ∉ s.pq
  waits : ∀ x Q, label x = some Q → Q ∉ popped → ∀ B, Before popped Q.dropLast B →
    entry extend start root B ≤ entry extend start root Q
  nested : ∀ x Q, label x = some Q → Q ∉ popped → ∀ Z ∈ popped, Z <+: Q ∨
    entry extend start root Z < entry extend start root Q ∨
    ∃ Y, Y <+: Q ∧ entry extend start root Z < entry extend start root Y ∧ Before popped Z Y

section Invariant

variable {adj : V → List (V × E)} {extend : D → V → V → E → D} {start : D} {root target : V}
  {Relaxed : List (Hop V E) → V × E → Prop} {s : State V E D}
  {label : V → Option (List (Hop V E))} {popped : List (List (Hop V E))}

/-- The labels before the first round: the root has the empty walk. -/
def firstLabel (root : V) : V → Option (List (Hop V E)) :=
  Function.update (fun _ => none) root (some [])

theorem firstLabel_eq_some {x : V} {Q : List (Hop V E)} :
    firstLabel root x = some Q ↔ x = root ∧ Q = [] := by
  by_cases hx : x = root
  · subst hx
    simp [firstLabel, eq_comm]
  · simp [firstLabel, hx]

theorem inv_init (adj : V → List (V × E)) (extend : D → V → V → E → D) (start : D)
    (root target : V)
    (Relaxed : List (Hop V E) → V × E → Prop) :
    Inv adj extend start root target Relaxed (init start root) (firstLabel root) [] where
  -- nothing is popped yet, and only the root has a label
  history :=
    { nodup := by simp
      walk := by simp
      noTarget := by simp
      extends_ := by simp
      below := by simp [Before]
      relaxed := by simp [Before]
      ahead := by simp [Before]
      nested := by simp [Before] }
  dist := by
    intro x
    by_cases hx : x = root
    · subst hx
      simp [init, firstLabel]
    · simp [init, firstLabel, hx]
  started := ⟨[], by simp [firstLabel], by simp⟩
  walk := by
    intro x Q h
    obtain ⟨rfl, rfl⟩ := firstLabel_eq_some.mp h
    exact .nil _
  link := by
    intro x Q hop h
    simp [firstLabel_eq_some] at h
  extends_ := by
    intro x Q h hne
    exact absurd (firstLabel_eq_some.mp h).2 hne
  least := by simp
  closed := by simp
  sorted := by simp [init]
  queued := by
    intro q hq
    obtain rfl : q = toLex (start, root) := by simpa [init] using hq
    exact ⟨[], by simp [firstLabel], by simp⟩
  latest := by
    intro x Q h _
    obtain ⟨rfl, rfl⟩ := firstLabel_eq_some.mp h
    simp [init, entry]
  fresh := by simp
  waits := by simp [Before]
  nested := by simp

/-- A node keeps its label unless it is the one that gets a new label. -/
theorem relabel_cases {x y : V} {L Q : List (Hop V E)}
    (h : Function.update label x (some L) y = some Q) :
    y = x ∧ Q = L ∨ y ≠ x ∧ label y = some Q := by
  by_cases hyx : y = x
  · subst hyx
    rw [Function.update_self] at h
    exact Or.inl ⟨rfl, (Option.some.inj h).symm⟩
  · rw [Function.update_of_ne hyx] at h
    exact Or.inr ⟨hyx, h⟩

/-- Where a label had a bound, a better label has it as well. -/
theorem relabel_le {x y : V} {L Q : List (Hop V E)} {c : D}
    (hlt : ∀ Q, label x = some Q → walkValue extend start L < walkValue extend start Q)
    (hQ : label y = some Q)
    (hle : walkValue extend start Q ≤ c) :
    ∃ Q', Function.update label x (some L) y = some Q' ∧ walkValue extend start Q' ≤ c := by
  by_cases hyx : y = x
  · subst hyx
    exact ⟨L, Function.update_self .., (hlt Q hQ).le.trans hle⟩
  · exact ⟨Q, (Function.update_of_ne hyx ..).trans hQ, hle⟩

/-- A walk that is better than the label of its end has not been popped. -/
theorem Inv.better_not_popped (I : Inv adj extend start root target Relaxed s label popped)
    {L : List (Hop V E)}
    (hlt : ∀ Q, label (walkEnd root L) = some Q →
      walkValue extend start L < walkValue extend start Q) :
    L ∉ popped := by
  intro hmem
  obtain ⟨Q, hQ, hle⟩ := I.least L hmem
  have hLQ := hlt Q hQ
  rcases hle with rfl | hQL
  · exact lt_irrefl _ hLQ
  · exact lt_asymm hLQ hQL

/-- Nor is its entry queued. -/
theorem Inv.better_not_queued (I : Inv adj extend start root target Relaxed s label popped)
    {L : List (Hop V E)}
    (hlt : ∀ Q, label (walkEnd root L) = some Q →
      walkValue extend start L < walkValue extend start Q) :
    entry extend start root L ∉ s.pq := by
  intro hmem
  obtain ⟨Q, hQ, hle⟩ := I.queued _ hmem
  exact absurd hle (not_le.mpr (hlt Q hQ))

/-- A walk that goes on from the walk that was popped last, and is better than the label of its end,
becomes the label. -/
theorem Inv.relabel {X : List (Hop V E)} {x : V} {e : E} {L : List (Hop V E)}
    (I : Inv adj extend start root target Relaxed s label (X :: popped))
    (hp : (x, e) ∈ adj (walkEnd root X)) (hL : X ++ [⟨walkEnd root X, x, e⟩] = L)
    (hlt : ∀ Q, label x = some Q → walkValue extend start L < walkValue extend start Q) :
    Inv adj extend start root target Relaxed
      (s.improve (walkEnd root X) x e (walkValue extend start L))
      (Function.update label x (some L)) (X :: popped) := by
  have hend : walkEnd root L = x := by rw [← hL, walkEnd_snoc]
  have hentry : entry extend start root L = toLex (walkValue extend start L, x) := by
    rw [entry, hend]
  have hself : Function.update label x (some L) (walkEnd root L) = some L := by
    rw [hend]
    exact Function.update_self ..
  have hlt' : ∀ Q, label (walkEnd root L) = some Q →
      walkValue extend start L < walkValue extend start Q := by
    rwa [hend]
  exact
    { history := I.history
      dist := by
        intro y
        by_cases hyx : y = x
        · subst hyx
          rw [State.dist_improve_self, Function.update_self, Option.map_some]
        · rw [State.dist_improve_of_ne hyx, Function.update_of_ne hyx]
          exact I.dist y
      started := by
        obtain ⟨Q, hQ, hle⟩ := I.started
        exact relabel_le hlt hQ hle
      walk := by
        intro y Q hQ
        rcases relabel_cases hQ with ⟨rfl, rfl⟩ | ⟨-, hQ⟩
        · rw [← hL]
          exact (I.history.walk X (List.mem_cons_self ..)).snoc hp
        · exact I.walk y Q hQ
      link := by
        intro y Q hop hQ
        simp only [State.improve]
        rcases relabel_cases hQ with ⟨rfl, hQL⟩ | ⟨hyx, hQ⟩
        · obtain ⟨-, hhop⟩ := List.append_inj' (hQL.trans hL.symm) rfl
          obtain rfl : hop = ⟨walkEnd root X, y, e⟩ := by simpa using hhop
          simp
        · simp only [Function.update_of_ne hyx]
          exact I.link y Q hop hQ
      extends_ := by
        intro y Q hQ hne
        rcases relabel_cases hQ with ⟨-, rfl⟩ | ⟨-, hQ⟩
        · simp [← hL]
        · exact I.extends_ y Q hQ hne
      least := by
        intro A hA
        obtain ⟨Q, hQ, hle⟩ := I.least A hA
        by_cases hAx : walkEnd root A = x
        · rw [hAx] at hQ ⊢
          refine ⟨L, Function.update_self .., Or.inr ?_⟩
          rcases hle with rfl | hle
          · exact hlt Q hQ
          · exact (hlt Q hQ).trans hle
        · exact ⟨Q, (Function.update_of_ne hAx ..).trans hQ, hle⟩
      closed := by
        intro A hA q hq hrel
        obtain ⟨Q, hQ, hle⟩ := I.closed A hA q hq hrel
        exact relabel_le hlt hQ hle
      sorted := sorted_push I.sorted (hentry ▸ I.better_not_queued hlt')
      queued := by
        intro q hq
        rcases State.mem_pq_improve.mp hq with rfl | hq
        · exact ⟨L, Function.update_self .., le_rfl⟩
        · obtain ⟨Q, hQ, hle⟩ := I.queued q hq
          exact relabel_le hlt hQ hle
      latest := by
        intro y Q hQ hpop
        rw [State.mem_pq_improve]
        rcases relabel_cases hQ with ⟨-, rfl⟩ | ⟨-, hQ⟩
        · exact Or.inl hentry
        · exact Or.inr (I.latest y Q hQ hpop)
      fresh := by
        intro y Q hQ hpop hmem
        rcases relabel_cases hQ with ⟨-, rfl⟩ | ⟨hyx, hQ⟩
        · exact I.better_not_popped hlt' hpop
        · rcases State.mem_pq_improve.mp hmem with heq | hmem
          · -- the new entry is one of another node
            have hends : walkEnd root Q = x := (Prod.mk.inj (toLex.injective heq)).2
            rw [walkEnd_eq (I.walk y Q hQ)] at hends
            exact hyx hends
          · exact I.fresh y Q hQ hpop hmem
      waits := by
        intro y Q hQ hpop B hB
        rcases relabel_cases hQ with ⟨-, rfl⟩ | ⟨-, hQ⟩
        · rw [← hL, List.dropLast_concat] at hB
          exact absurd hB I.history.not_before
        · exact I.waits y Q hQ hpop B hB
      nested := by
        intro y Q hQ hpop Z hZ
        rcases relabel_cases hQ with ⟨-, rfl⟩ | ⟨-, hQ⟩
        · have hpre : X <+: Q := ⟨_, hL⟩
          exact (I.history.nested_extension hpre hZ).imp_right Or.inr
        · exact I.nested y Q hQ hpop Z hZ }

/-- An entry of the end of the walk that was popped last counts as relaxed when its node has a label
that costs no more. -/
theorem Inv.relaxed_concat {X : List (Hop V E)} {pre : List (V × E)} {p : V × E}
    (I : Inv adj extend start root target (fun A q => A = X → q ∈ pre) s label popped)
    (hp : ∃ Q, label p.1 = some Q ∧
      walkValue extend start Q ≤
        extend (walkValue extend start X) (walkEnd root X) p.1 p.2) :
    Inv adj extend start root target (fun A q => A = X → q ∈ pre ++ [p]) s label popped := by
  refine { I with closed := fun A hA q hq hrel => ?_ }
  by_cases hlast : A = X ∧ q = p
  · obtain ⟨rfl, rfl⟩ := hlast
    exact hp
  · refine I.closed A hA q hq fun h => ?_
    have hmem := hrel h
    rw [List.mem_append, List.mem_singleton] at hmem
    exact hmem.resolve_right fun hqp => hlast ⟨h, hqp⟩

/-- Relaxing one entry of the end of the walk that was popped last keeps the invariant; a better
distance labels the neighbor with that walk and one more hop. -/
theorem Inv.relax {X : List (Hop V E)} {pre : List (V × E)} {p : V × E}
    (I : Inv adj extend start root target (fun A q => A = X → q ∈ pre) s label (X :: popped))
    (hp : p ∈ adj (walkEnd root X)) :
    ∃ label', Inv adj extend start root target (fun A q => A = X → q ∈ pre ++ [p])
      (BestFirst.relax extend (walkEnd root X) (walkValue extend start X) s p) label'
      (X :: popped) := by
  rcases relax_cases extend (walkEnd root X) (walkValue extend start X) s p with
    ⟨hlt, hs⟩ | ⟨⟨old, hold, hle⟩, hs⟩
  · set L := X ++ [⟨walkEnd root X, p.1, p.2⟩] with hL
    have hcost : extend (walkValue extend start X) (walkEnd root X) p.1 p.2 =
        walkValue extend start L := by
      simp [hL]
    -- the walk through the link replaces the label only when it is cheaper
    have hbetter : ∀ Q, label p.1 = some Q →
        walkValue extend start L < walkValue extend start Q := by
      intro Q hQ
      rw [← hcost]
      exact hlt _ (by rw [I.dist, hQ, Option.map_some])
    rw [hs, hcost]
    exact ⟨_, (I.relabel hp hL.symm hbetter).relaxed_concat ⟨L, Function.update_self .., hcost.ge⟩⟩
  · rw [I.dist] at hold
    obtain ⟨Q, hQ, rfl⟩ := Option.map_eq_some_iff.mp hold
    rw [hs]
    exact ⟨label, I.relaxed_concat ⟨Q, hQ, hle⟩⟩

/-- The relaxation of the adjacency list of the walk that was popped last, from a prefix `pre` on. -/
theorem Inv.scan {X : List (Hop V E)} :
    ∀ (rest pre : List (V × E)) (s : State V E D) (label : V → Option (List (Hop V E))),
      pre ++ rest = adj (walkEnd root X) →
      Inv adj extend start root target (fun A q => A = X → q ∈ pre) s label (X :: popped) →
      ∃ label', Inv adj extend start root target (fun _ _ => True)
        (rest.foldl (BestFirst.relax extend (walkEnd root X) (walkValue extend start X)) s) label'
        (X :: popped) := by
  intro rest
  induction rest with
  | nil =>
    intro pre s label hpre I
    refine ⟨label, { I with closed := fun A hA q hq _ => I.closed A hA q hq fun h => ?_ }⟩
    rw [List.append_nil] at hpre
    rw [hpre, ← h]
    exact hq
  | cons p rest ih =>
    intro pre s label hpre I
    obtain ⟨label', I'⟩ := I.relax (p := p) (by rw [← hpre]; simp)
    exact ih (pre ++ [p]) _ label' (by simpa using hpre) I'

/-- The shorter prefixes of a labelling walk have been popped. -/
theorem Inv.mem_of_prefix (I : Inv adj extend start root target Relaxed s label popped) {x : V}
    {A Q : List (Hop V E)} (hQ : label x = some Q) (hA : A <+: Q) (hne : A ≠ Q) : A ∈ popped := by
  cases Q using List.reverseRecOn with
  | nil => exact absurd (List.prefix_nil.mp hA) hne
  | append_singleton Q hop =>
    have hinit : Q ∈ popped := by simpa using I.extends_ x _ hQ (by simp)
    exact I.history.mem_of_prefix hinit ((List.prefix_concat_iff.mp hA).resolve_left hne)

/-- Dropping an outdated entry keeps the invariant. -/
theorem Inv.skip {d : D} {cur : V} {rest : List (D ×ₗ V)} (hq : s.pq = toLex (d, cur) :: rest)
    (I : Inv adj extend start root target Relaxed s label popped)
    (hold : (s.dist cur).any fun old => old < d) :
    Inv adj extend start root target Relaxed { s with pq := rest } label popped := by
  have hsub : ∀ q ∈ rest, q ∈ s.pq := fun q h => by rw [hq]; exact List.mem_cons_of_mem _ h
  refine { I with
    sorted := ?_, queued := fun q h => I.queued q (hsub q h), latest := fun x Q hQ hpop => ?_,
    fresh := fun x Q hQ hpop h => I.fresh x Q hQ hpop (hsub _ h) }
  · have hsorted := I.sorted
    rw [hq] at hsorted
    exact (List.pairwise_cons.mp hsorted).2
  · have hmem := I.latest x Q hQ hpop
    rw [hq] at hmem
    refine (List.mem_cons.mp hmem).resolve_left fun heq => ?_
    -- the entry of a label is not outdated
    obtain ⟨rfl, hend⟩ := Prod.mk.inj (toLex.injective heq)
    rw [walkEnd_eq (I.walk x Q hQ)] at hend
    subst hend
    simp [I.dist, hQ] at hold

/-- An entry that is popped without being outdated is the entry of a label that has not been popped
yet. -/
theorem Inv.top {d : D} {cur : V} {rest : List (D ×ₗ V)} (hq : s.pq = toLex (d, cur) :: rest)
    (I : Inv adj extend start root target Relaxed s label popped)
    (hnew : ¬ (s.dist cur).any fun old => old < d) :
    ∃ Q, label cur = some Q ∧ walkValue extend start Q = d ∧ Q ∉ popped := by
  have htop : toLex (d, cur) ∈ s.pq := by rw [hq]; exact List.mem_cons_self ..
  obtain ⟨Q, hQ, hle⟩ := I.queued _ htop
  have hQ : label cur = some Q := hQ
  have hcost : walkValue extend start Q = d := by
    refine le_antisymm hle (not_lt.mp fun hlt => hnew ?_)
    simp [I.dist, hQ, hlt]
  have hentry : entry extend start root Q = toLex (d, cur) := by
    rw [entry, hcost, walkEnd_eq (I.walk cur Q hQ)]
  exact ⟨Q, hQ, hcost, fun hpop => I.fresh cur Q hQ hpop (hentry ▸ htop)⟩

/-- A walk that starts at the end of a popped walk, and at least at its value, has a prefix behind
the entry of a label that waits in the queue, or its end has been popped at no more than its
value. -/
theorem Inv.frontier (hmono : ∀ u v e, Monotone fun d => extend d u v e)
    (I : Inv adj extend start root target (fun _ _ => True) s label popped)
    {x z : V} {P : List (Hop V E)} (hP : IsWalk adj x P z) :
    ∀ (A : List (Hop V E)) (d : D), A ∈ popped → walkEnd root A = x →
      walkValue extend start A ≤ d →
      (∃ P' y Q, P' ≠ [] ∧ P' <+: P ∧ label y = some Q ∧ Q ∉ popped ∧
        entry extend start root Q ≤ toLex (walkValue extend d P', walkEnd x P')) ∨
      ∃ B ∈ popped, walkEnd root B = z ∧ walkValue extend start B ≤ walkValue extend d P := by
  induction hP with
  | nil =>
    intro A d hA hend hle
    exact Or.inr ⟨A, hA, hend, hle⟩
  | @cons x y z e P hmem hwalk ih =>
    rintro A d hA rfl hle
    obtain ⟨Q, hQ, hQle⟩ := I.closed A hA (y, e) hmem trivial
    have hQend := walkEnd_eq (I.walk y Q hQ)
    have hfirst : walkValue extend start Q ≤ extend d (walkEnd root A) y e :=
      hQle.trans (hmono _ _ _ hle)
    by_cases hpop : Q ∈ popped
    · -- the argument goes on behind the label of the next node
      rcases ih Q _ hpop hQend hfirst with ⟨P', y', Q', hne, hpre, hQ', hpop', hle'⟩ | hpassed
      · refine Or.inl ⟨⟨walkEnd root A, y, e⟩ :: P', y', Q', by simp, by simpa using hpre, hQ',
          hpop', ?_⟩
        have hend : walkEnd (walkEnd root A) (⟨walkEnd root A, y, e⟩ :: P') = walkEnd y P' := by
          rw [← List.singleton_append, walkEnd_append]
          rfl
        rw [hend]
        exact hle'
      · exact Or.inr hpassed
    · refine Or.inl ⟨[⟨walkEnd root A, y, e⟩], y, Q, by simp, by simp, hQ, hpop, ?_⟩
      rw [entry, hQend, Prod.Lex.toLex_le_toLex]
      exact hfirst.lt_or_eq.imp id fun h => ⟨h, le_rfl⟩

/-- The other labels that have not been popped wait in the rest of the queue. -/
theorem Inv.waiting {x : V} {Q : List (Hop V E)} {rest : List (D ×ₗ V)}
    (hq : s.pq = entry extend start root Q :: rest)
    (I : Inv adj extend start root target Relaxed s label popped) (hQ : label x = some Q) {y : V}
    {B : List (Hop V E)} (hB : label y = some B) (hpop : B ∉ popped) (hne : B ≠ Q) :
    entry extend start root B ∈ rest := by
  have hmem := I.latest y B hB hpop
  rw [hq] at hmem
  refine (List.mem_cons.mp hmem).resolve_left fun heq => hne ?_
  have hends : walkEnd root B = walkEnd root Q := (Prod.mk.inj (toLex.injective heq)).2
  rw [walkEnd_eq (I.walk y B hB), walkEnd_eq (I.walk x Q hQ)] at hends
  subst hends
  exact Option.some.inj (hB.symm.trans hQ)

/-- The walk whose entry is first in the queue makes the history longer. -/
theorem Inv.history_cons (hmono : ∀ u v e, Monotone fun d => extend d u v e) {x : V}
    {Q : List (Hop V E)} (hne : x ≠ target)
    (I : Inv adj extend start root target (fun _ _ => True) s label popped) (hQ : label x = some Q)
    (hpop : Q ∉ popped)
    (hmin : ∀ y B, label y = some B → B ∉ popped →
      entry extend start root Q ≤ entry extend start root B) :
    History adj extend start root target (Q :: popped) := by
  have hend : walkEnd root Q = x := walkEnd_eq (I.walk x Q hQ)
  have hlabel : label (walkEnd root Q) = some Q := hend ▸ hQ
  refine I.history.cons hpop (hend ▸ I.walk x Q hQ) (hend ▸ hne) (I.extends_ x Q hQ) ?_ ?_ ?_
    (I.nested x Q hQ hpop)
  · -- an earlier walk to this node has got a better label since, and that is `Q`
    intro A hA hends
    obtain ⟨L, hL, hle⟩ := I.least A hA
    rw [hends, hlabel] at hL
    obtain rfl : Q = L := Option.some.inj hL
    exact hle.resolve_left fun h => hpop (h ▸ hA)
  · intro X hX e hmem
    obtain ⟨L, hL, hle⟩ := I.closed X hX _ hmem trivial
    obtain rfl : Q = L := Option.some.inj (hlabel.symm.trans hL)
    exact hle
  · intro A hA P z hP
    rcases I.frontier hmono hP A _ hA rfl le_rfl with
      ⟨P', y, L, hne', hpre, hL, hLpop, hle⟩ | hpassed
    · rw [← entry_append] at hle
      exact Or.inl ⟨P', hne', hpre, (hmin y L hL hLpop).trans hle⟩
    · rw [walkValue_append]
      exact Or.inr hpassed

/-- Popping the entry of a label adds its walk to the history. -/
theorem Inv.settle (hmono : ∀ u v e, Monotone fun d => extend d u v e) {x : V}
    {Q : List (Hop V E)} {rest : List (D ×ₗ V)}
    (hq : s.pq = entry extend start root Q :: rest) (hne : x ≠ target)
    (I : Inv adj extend start root target (fun _ _ => True) s label popped) (hQ : label x = some Q)
    (hpop : Q ∉ popped) :
    Inv adj extend start root target (fun A q => A = Q → q ∈ ([] : List (V × E)))
      { s with pq := rest }
      label (Q :: popped) := by
  have hsub : ∀ q ∈ rest, q ∈ s.pq := fun q h => by rw [hq]; exact List.mem_cons_of_mem _ h
  have hsorted := I.sorted
  rw [hq] at hsorted
  obtain ⟨hafter, hsorted⟩ := List.pairwise_cons.mp hsorted
  have hlast : ∀ {B}, B ∉ Q :: popped → B ∉ popped ∧ B ≠ Q := by
    intro B hB
    rw [List.mem_cons, not_or] at hB
    exact ⟨hB.2, hB.1⟩
  have hmin : ∀ y B, label y = some B → B ∉ popped →
      entry extend start root Q ≤ entry extend start root B := by
    intro y B hB hBpop
    by_cases hBQ : B = Q
    · rw [hBQ]
    · exact (hafter _ (I.waiting hq hQ hB hBpop hBQ)).le
  exact
    { I with
      history := I.history_cons hmono hne hQ hpop hmin
      extends_ := fun y B hB hne => List.mem_cons_of_mem _ (I.extends_ y B hB hne)
      least := by
        intro A hA
        rcases List.mem_cons.mp hA with rfl | hA
        · exact ⟨A, by rw [walkEnd_eq (I.walk x A hQ)]; exact hQ, Or.inl rfl⟩
        · exact I.least A hA
      closed := by
        intro A hA p hp hrel
        rcases List.mem_cons.mp hA with rfl | hA
        · exact absurd (hrel rfl) (by simp)
        · exact I.closed A hA p hp trivial
      sorted := hsorted
      queued := fun q h => I.queued q (hsub q h)
      latest := by
        intro y B hB hBpop
        obtain ⟨hwaits, hBQ⟩ := hlast hBpop
        exact I.waiting hq hQ hB hwaits hBQ
      fresh := by
        intro y B hB hBpop hmem
        rcases List.mem_cons.mp hBpop with rfl | hBpop
        · exact lt_irrefl _ (hafter _ hmem)
        · exact I.fresh y B hB hBpop (hsub _ hmem)
      waits := by
        intro y B hB hBpop C hC
        rcases before_cons.mp hC with hC | ⟨rfl, -⟩
        · exact I.waits y B hB (hlast hBpop).1 C hC
        · exact hmin y B hB (hlast hBpop).1
      nested := by
        intro y B hB hBpop Z hZ
        obtain ⟨hwaits, hBQ⟩ := hlast hBpop
        rcases List.mem_cons.mp hZ with rfl | hZ
        · -- `B` waits behind the walk that is popped now
          exact Or.inr (Or.inl (hafter _ (I.waiting hq hQ hB hwaits hBQ)))
        · rcases I.nested y B hB hwaits Z hZ with hpre | hlt | ⟨Y, hY, hlt, hbefore⟩
          · exact Or.inl hpre
          · exact Or.inr (Or.inl hlt)
          · exact Or.inr (Or.inr ⟨Y, hY, hlt, hbefore.cons Q⟩) }

end Invariant

/-! ## Rounds -/

section Rounds

variable {adj : V → List (V × E)} {extend : D → V → V → E → D} {start : D} {root target : V}
  {s : State V E D}
  {label : V → Option (List (Hop V E))} {popped : List (List (Hop V E))}

/-- A round that does not stop the search keeps the invariant. It drops an entry or adds the walk of
the entry to the history. -/
theorem Inv.round (hmono : ∀ u v e, Monotone fun d => extend d u v e)
    (I : Inv adj extend start root target (fun _ _ => True) s label popped) {s' : State V E D}
    (hstep : step adj extend target s = .inl s') :
    ∃ label' popped', Inv adj extend start root target (fun _ _ => True) s' label' popped' ∧
      (popped' = popped ∧ s'.pq.length < s.pq.length ∨
        ∃ Q rest, popped' = Q :: popped ∧ s.pq = entry extend start root Q :: rest ∧
          walkEnd root Q ≠ target ∧
          ¬ (s.dist (walkEnd root Q)).any fun old => old < walkValue extend start Q) := by
  obtain ⟨d, cur, rest, hq, hne, ⟨hold, rfl⟩ | ⟨hnew, rfl⟩⟩ := step_eq_inl hstep
  · refine ⟨label, popped, I.skip hq hold, Or.inl ⟨rfl, ?_⟩⟩
    simp [hq]
  · obtain ⟨Q, hQ, rfl, hpop⟩ := I.top hq hnew
    obtain rfl := walkEnd_eq (I.walk cur Q hQ)
    have I₁ := I.settle hmono hq hne hQ hpop
    obtain ⟨label', I₂⟩ := Inv.scan (adj (walkEnd root Q)) [] _ label rfl I₁
    exact ⟨label', Q :: popped, I₂, Or.inr ⟨Q, rest, rfl, hq, hne, hnew⟩⟩

/-- The entry of the target that comes off the queue is the one of its label. -/
theorem Inv.target_top {d : D} {rest : List (D ×ₗ V)} (hq : s.pq = toLex (d, target) :: rest)
    (I : Inv adj extend start root target (fun _ _ => True) s label popped) :
    ∃ T, label target = some T ∧ T ∉ popped ∧ ∀ q ∈ s.pq, entry extend start root T ≤ q := by
  obtain ⟨T, hT, hle⟩ := I.queued (toLex (d, target)) (by rw [hq]; exact List.mem_cons_self ..)
  have hT : label target = some T := hT
  have hend := walkEnd_eq (I.walk target T hT)
  have hsorted := I.sorted
  rw [hq] at hsorted
  refine ⟨T, hT, fun hmem => I.history.noTarget T hmem hend, fun q hmem => ?_⟩
  -- the entry of the label is no later than the one at the top, which is the least
  have htop : entry extend start root T ≤ toLex (d, target) := by
    rw [entry, hend, Prod.Lex.toLex_le_toLex]
    exact hle.lt_or_eq.imp id fun h => ⟨h, le_rfl⟩
  rw [hq] at hmem
  rcases List.mem_cons.mp hmem with rfl | hmem
  · exact htop
  · exact htop.trans ((List.pairwise_cons.mp hsorted).1 q hmem).le

/-- An exhausted queue leaves labels that no hop improves. -/
theorem Inv.label_le (hmono : ∀ u v e, Monotone fun d => extend d u v e)
    (I : Inv adj extend start root target (fun _ _ => True) s label popped)
    (hempty : s.pq = []) {x y : V} {P : List (Hop V E)} (hP : IsWalk adj x P y) :
    ∀ Q d, label x = some Q → walkValue extend start Q ≤ d →
      ∃ Q', label y = some Q' ∧ walkValue extend start Q' ≤ walkValue extend d P := by
  induction hP with
  | nil => exact fun Q d hQ hle => ⟨Q, hQ, hle⟩
  | @cons x y z e P hmem _ ih =>
    intro Q d hQ hle
    have hpop : Q ∈ popped := by
      by_contra hpop
      have hwait := I.latest x Q hQ hpop
      simp [hempty] at hwait
    obtain rfl := walkEnd_eq (I.walk x Q hQ)
    obtain ⟨Q₁, hQ₁, hle₁⟩ := I.closed Q hpop (y, e) hmem trivial
    exact ih Q₁ _ hQ₁ (hle₁.trans (hmono _ _ _ hle))

/-- Then every node has been popped at the value of every walk to it. -/
theorem Inv.passed (hmono : ∀ u v e, Monotone fun d => extend d u v e)
    (I : Inv adj extend start root target (fun _ _ => True) s label popped)
    (hempty : s.pq = []) {x : V} {B : List (Hop V E)} (hB : IsWalk adj root B x) :
    ∃ A ∈ popped, walkEnd root A = x ∧ walkValue extend start A ≤ walkValue extend start B := by
  obtain ⟨Q, hQ, hle⟩ := I.started
  obtain ⟨A, hA, hAle⟩ := I.label_le hmono hempty hB Q start hQ hle
  refine ⟨A, ?_, walkEnd_eq (I.walk x A hA), hAle⟩
  by_contra hpop
  have hwait := I.latest x A hA hpop
  simp [hempty] at hwait

end Rounds

end TopologyFabric.Library.LabelCorrecting

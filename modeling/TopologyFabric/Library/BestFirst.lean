import TopologyFabric.Library.Outcome
import TopologyFabric.Library.Walk
import Mathlib.Data.List.Sort

/-!
# Best-First Search with Lazy Deletion

Search of a labelled multigraph in the order of the values that its nodes are reached at. Values
are taken from any linear order, and a function says which value a hop leads to. A better value is
pushed again instead of replacing the queued entry, outdated entries are dropped when they are
popped, and the search stops when it pops the target. The queue is ordered by value and then by
node.

When no hop leads to a smaller value, every node is settled once. That is all it takes for the
search to finish; when hops also keep the order of the values, the walk that is found is least.

## Main results

- `bestFirst_correct`: the search finishes, it finds the target iff the target is reachable, and
  then the parent maps spell out a walk
-/

namespace TopologyFabric.Library.BestFirst

universe u v w x

variable {V : Type u} {E : Type v} {D : Type w}

/-- The state of the search. `pq` lists the queued pairs in ascending order. -/
structure State (V : Type u) (E : Type v) (D : Type w) where
  pq : List (D ×ₗ V)
  dist : V → Option D
  parent : V → Option V
  via : V → Option E

/-- The value that a walk leads to. -/
def walkValue (extend : D → V → V → E → D) (start : D) (hops : List (Hop V E)) : D :=
  hops.foldl (fun d hop => extend d hop.src hop.dst hop.via) start

@[simp] theorem walkValue_nil (extend : D → V → V → E → D) (start : D) :
    walkValue extend start ([] : List (Hop V E)) = start := rfl

@[simp] theorem walkValue_snoc (extend : D → V → V → E → D) (start : D) (hops : List (Hop V E))
    (hop : Hop V E) : walkValue extend start (hops ++ [hop]) =
      extend (walkValue extend start hops) hop.src hop.dst hop.via := by
  rw [walkValue, List.foldl_append]
  rfl

variable [LinearOrder V] [LinearOrder D]

omit [LinearOrder V] [LinearOrder D] in
/-- Pushing a new entry keeps the queue strictly ascending. -/
theorem sorted_push {α : Type x} [LinearOrder α] {q : α} {l : List α} (h : l.Pairwise (· < ·))
    (hq : q ∉ l) : (l.orderedInsert (· ≤ ·) q).Pairwise (· < ·) := by
  have hle : (l.orderedInsert (· ≤ ·) q).Pairwise (· ≤ ·) :=
    List.Pairwise.orderedInsert _ _ (h.imp fun h => le_of_lt h)
  have hnodup : (l.orderedInsert (· ≤ ·) q).Nodup :=
    (List.perm_orderedInsert (· ≤ ·) q l).nodup_iff.mpr
      (List.nodup_cons.mpr ⟨hq, h.imp fun h => ne_of_lt h⟩)
  exact (hle.and hnodup).imp fun h => lt_of_le_of_ne h.1 h.2

/-- The state before the first round: the root is queued at the start value. -/
def init (start : D) (root : V) : State V E D where
  pq := [toLex (start, root)]
  dist := Function.update (fun _ => none) root (some start)
  parent := fun _ => none
  via := fun _ => none

/-- Relax one adjacency entry of `cur`, which was popped at value `d`. -/
def relax (extend : D → V → V → E → D) (cur : V) (d : D) (s : State V E D) (p : V × E) :
    State V E D :=
  let nd := extend d cur p.1 p.2
  if (s.dist p.1).all fun old => nd < old then
    { pq := s.pq.orderedInsert (· ≤ ·) (toLex (nd, p.1))
      dist := Function.update s.dist p.1 (some nd)
      parent := Function.update s.parent p.1 (some cur)
      via := Function.update s.via p.1 (some p.2) }
  else s

/-- `x` gets the value `d` through entry `e` of `cur`. -/
def State.improve (s : State V E D) (cur x : V) (e : E) (d : D) : State V E D where
  pq := s.pq.orderedInsert (· ≤ ·) (toLex (d, x))
  dist := Function.update s.dist x (some d)
  parent := Function.update s.parent x (some cur)
  via := Function.update s.via x (some e)

section Improve

variable {s : State V E D} {cur x y : V} {e : E} {d : D}

theorem State.mem_pq_improve {q : D ×ₗ V} :
    q ∈ (s.improve cur x e d).pq ↔ q = toLex (d, x) ∨ q ∈ s.pq :=
  List.mem_orderedInsert (· ≤ ·)

@[simp] theorem State.dist_improve_self : (s.improve cur x e d).dist x = some d :=
  Function.update_self ..

theorem State.dist_improve_of_ne (h : y ≠ x) : (s.improve cur x e d).dist y = s.dist y :=
  Function.update_of_ne h ..

/-- Relaxing an entry gives its node a smaller value, or leaves the state as it is when the node has
a value that is as small. -/
theorem relax_cases (extend : D → V → V → E → D) (cur : V) (d : D) (s : State V E D) (p : V × E) :
    (∀ old, s.dist p.1 = some old → extend d cur p.1 p.2 < old) ∧
        relax extend cur d s p = s.improve cur p.1 p.2 (extend d cur p.1 p.2) ∨
      (∃ old, s.dist p.1 = some old ∧ old ≤ extend d cur p.1 p.2) ∧ relax extend cur d s p = s := by
  by_cases himp : (s.dist p.1).all fun old => extend d cur p.1 p.2 < old
  · refine Or.inl ⟨fun old hold => by simpa [hold] using himp, ?_⟩
    simp [relax, himp, State.improve]
  · refine Or.inr ⟨?_, by simp [relax, himp]⟩
    cases hx : s.dist p.1 with
    | none => simp [hx] at himp
    | some old => exact ⟨old, rfl, by simpa [hx] using himp⟩

end Improve

/-- One round: stop at an empty queue or at the target, drop an outdated entry, else relax the
adjacency list. -/
def step (adj : V → List (V × E)) (extend : D → V → V → E → D) (target : V) (s : State V E D) :
    State V E D ⊕ (Bool × State V E D) :=
  match s.pq with
  | [] => .inr (false, s)
  | top :: rest =>
    let d := (ofLex top).1
    let cur := (ofLex top).2
    if cur = target then .inr (true, { s with pq := rest })
    else if (s.dist cur).any fun old => old < d then .inl { s with pq := rest }
    else .inl ((adj cur).foldl (relax extend cur d) { s with pq := rest })

section Step

variable {adj : V → List (V × E)} {extend : D → V → V → E → D} {target cur : V} {s : State V E D}
  {d : D} {rest : List (D ×ₗ V)}

theorem step_nil (hq : s.pq = []) : step adj extend target s = .inr (false, s) := by
  simp only [step, hq]

theorem step_target (hq : s.pq = toLex (d, target) :: rest) :
    step adj extend target s = .inr (true, { s with pq := rest }) := by
  simp only [step, hq]
  exact if_pos rfl

theorem step_skip (hq : s.pq = toLex (d, cur) :: rest) (hne : cur ≠ target)
    (hold : (s.dist cur).any fun old => old < d) :
    step adj extend target s = .inl { s with pq := rest } := by
  simp only [step, hq]
  exact (if_neg hne).trans (if_pos hold)

theorem step_expand (hq : s.pq = toLex (d, cur) :: rest) (hne : cur ≠ target)
    (hnew : ¬ (s.dist cur).any fun old => old < d) :
    step adj extend target s =
      .inl ((adj cur).foldl (relax extend cur d) { s with pq := rest }) := by
  simp only [step, hq]
  exact (if_neg hne).trans (if_neg hnew)

/-- What a round does that does not stop the search. -/
theorem step_eq_inl {s' : State V E D} (h : step adj extend target s = .inl s') :
    ∃ d cur rest, s.pq = toLex (d, cur) :: rest ∧ cur ≠ target ∧
      ((s.dist cur).any (fun old => old < d) = true ∧ s' = { s with pq := rest } ∨
        ¬ (s.dist cur).any (fun old => old < d) = true ∧
          s' = (adj cur).foldl (relax extend cur d) { s with pq := rest }) := by
  cases hq : s.pq with
  | nil => cases (step_nil hq).symm.trans h
  | cons top rest =>
    obtain ⟨d, cur, rfl⟩ : ∃ d cur, top = toLex (d, cur) := ⟨_, _, rfl⟩
    have hne : cur ≠ target := by
      rintro rfl
      cases (step_target hq).symm.trans h
    refine ⟨d, cur, rest, rfl, hne, ?_⟩
    by_cases hold : (s.dist cur).any fun old => old < d
    · exact Or.inl ⟨hold, Sum.inl.inj (h.symm.trans (step_skip hq hne hold))⟩
    · exact Or.inr ⟨hold, Sum.inl.inj (h.symm.trans (step_expand hq hne hold))⟩

/-- What stops the search: an exhausted queue, or the target. -/
theorem step_eq_inr {r : Bool × State V E D} (h : step adj extend target s = .inr r) :
    s.pq = [] ∧ r = (false, s) ∨
      ∃ d rest, s.pq = toLex (d, target) :: rest ∧ r = (true, { s with pq := rest }) := by
  cases hq : s.pq with
  | nil => exact Or.inl ⟨rfl, Sum.inr.inj (h.symm.trans (step_nil hq))⟩
  | cons top rest =>
    obtain ⟨d, cur, rfl⟩ : ∃ d cur, top = toLex (d, cur) := ⟨_, _, rfl⟩
    by_cases hcur : cur = target
    · subst hcur
      exact Or.inr ⟨d, rest, rfl, Sum.inr.inj (h.symm.trans (step_target hq))⟩
    · by_cases hold : (s.dist cur).any fun old => old < d
      · cases (step_skip hq hcur hold).symm.trans h
      · cases (step_expand hq hcur hold).symm.trans h

end Step

/-! ## Queued nodes -/

/-- Every queued node has a value and is in `P`. -/
def Queued (P : V → Prop) (s : State V E D) : Prop :=
  ∀ q ∈ s.pq, P (ofLex q).2 ∧ ∃ d, s.dist (ofLex q).2 = some d

section Queued

variable {adj : V → List (V × E)} {extend : D → V → V → E → D} {target : V} {s s' : State V E D}
  {P : V → Prop}

omit [LinearOrder D] in
theorem queued_init {root : V} (hroot : P root) (start : D) :
    Queued P (init start root : State V E D) := by
  intro q hq
  obtain rfl : q = toLex (start, root) := by simpa [init] using hq
  exact ⟨hroot, start, by simp [init]⟩

theorem Queued.relax (h : Queued P s) (u : V) (d : D) {p : V × E} (hp : P p.1) :
    Queued P (BestFirst.relax extend u d s p) := by
  rcases relax_cases extend u d s p with ⟨-, hs⟩ | ⟨-, hs⟩
  · rw [hs]
    intro q hq
    by_cases hqp : (ofLex q).2 = p.1
    · rw [hqp]
      exact ⟨hp, _, State.dist_improve_self⟩
    · rw [State.dist_improve_of_ne hqp]
      rcases State.mem_pq_improve.mp hq with rfl | hq
      · exact absurd rfl hqp
      · exact h q hq
  · rw [hs]
    exact h

theorem Queued.scan (h : Queued P s) (u : V) (d : D) (l : List (V × E)) (hl : ∀ p ∈ l, P p.1) :
    Queued P (l.foldl (BestFirst.relax extend u d) s) := by
  induction l generalizing s with
  | nil => exact h
  | cons p l ih =>
    rw [List.forall_mem_cons] at hl
    exact ih (h.relax u d hl.1) hl.2

/-- A round keeps the queued nodes in a set that the hops do not leave. -/
theorem Queued.step (h : Queued P s) (hP : ∀ u, P u → ∀ p ∈ adj u, P p.1)
    (hstep : step adj extend target s = .inl s') : Queued P s' := by
  obtain ⟨d, cur, rest, hpq, -, hcases⟩ := step_eq_inl hstep
  have hrest : Queued P { s with pq := rest } :=
    fun q hq => h q (by rw [hpq]; exact List.mem_cons_of_mem _ hq)
  rcases hcases with ⟨-, rfl⟩ | ⟨-, rfl⟩
  · exact hrest
  · have hcur : P cur := (h (toLex (d, cur)) (by rw [hpq]; exact List.mem_cons_self ..)).1
    exact hrest.scan _ _ _ (hP cur hcur)

end Queued

/-! ## The settled-node invariant -/

/-- `S` are the settled nodes, and `Relaxed u p` says that entry `p` of the settled node `u` has
been relaxed. -/
structure Inv (adj : V → List (V × E)) (extend : D → V → V → E → D) (start : D) (root : V)
    (Relaxed : V → V × E → Prop) (s : State V E D) (S : List V) : Prop where
  rootValue : s.dist root = some start
  chain : ∀ x d, s.dist x = some d → ∃ hops, ParentChain s.parent s.via root hops x ∧
    IsWalk adj root hops x ∧ walkValue extend start hops = d ∧ ∀ hop ∈ hops, hop.src ∈ S
  settled : ∀ u ∈ S, ∃ d, s.dist u = some d
  closed : ∀ u ∈ S, ∀ d, s.dist u = some d → ∀ p ∈ adj u, Relaxed u p →
    ∃ d', s.dist p.1 = some d' ∧ d' ≤ extend d u p.1 p.2
  sorted : s.pq.Pairwise (· < ·)
  queued : ∀ q ∈ s.pq, ∃ d, s.dist (ofLex q).2 = some d ∧ d ≤ (ofLex q).1
  latest : ∀ x d, s.dist x = some d → x ∉ S → toLex (d, x) ∈ s.pq
  mono : ∀ u ∈ S, ∀ d, s.dist u = some d → ∀ q ∈ s.pq, d ≤ (ofLex q).1
  stale : ∀ u ∈ S, ∀ d, s.dist u = some d → ∀ q ∈ s.pq, (ofLex q).2 = u → d < (ofLex q).1

section Invariant

variable {adj : V → List (V × E)} {extend : D → V → V → E → D} {start : D} {root : V}
  {Relaxed : V → V × E → Prop} {s : State V E D} {S : List V}

theorem inv_init (adj : V → List (V × E)) (extend : D → V → V → E → D) (start : D) (root : V)
    (Relaxed : V → V × E → Prop) :
    Inv adj extend start root Relaxed (init start root : State V E D) [] where
  -- only the root has a value, and nothing is settled
  rootValue := by simp [init]
  chain := by
    intro x d hx
    by_cases hroot : x = root
    · subst hroot
      obtain rfl : start = d := by simpa [init] using hx
      exact ⟨[], .root, .nil _, rfl, by simp⟩
    · simp [init, Function.update_of_ne hroot] at hx
  settled := by simp
  closed := by simp
  sorted := by simp [init]
  queued := by simp [init]
  latest := by
    intro x d hx _
    by_cases hroot : x = root
    · subst hroot
      obtain rfl : start = d := by simpa [init] using hx
      simp [init]
    · simp [init, Function.update_of_ne hroot] at hx
  mono := by simp
  stale := by simp

/-- Hops out of every node that some walk from `a` reaches lead to no smaller value. -/
def Inflates (adj : V → List (V × E)) (extend : D → V → V → E → D) (a : V) : Prop :=
  ∀ hops u, IsWalk adj a hops u → ∀ p ∈ adj u, ∀ d, d ≤ extend d u p.1 p.2

omit [LinearOrder V] in
theorem Inflates.start_le {a b : V} {hops : List (Hop V E)} (hext : Inflates adj extend a)
    (h : IsWalk adj a hops b) : start ≤ walkValue extend start hops := by
  induction hops using List.reverseRecOn generalizing b with
  | nil => exact le_rfl
  | append_singleton hops hop ih =>
    obtain ⟨init, c, e, heq, hinit, hmem⟩ := h.exists_snoc (by simp)
    obtain ⟨rfl, hhop⟩ := List.append_inj' heq rfl
    obtain rfl : hop = ⟨c, b, e⟩ := by simpa using hhop
    rw [walkValue_snoc]
    exact (ih hinit).trans (hext _ _ hinit _ hmem _)

/-- A better value is not queued already. -/
theorem Inv.entry_not_mem (I : Inv adj extend start root Relaxed s S) {x : V} {nd : D}
    (hlt : ∀ old, s.dist x = some old → nd < old) : toLex (nd, x) ∉ s.pq := by
  intro hmem
  obtain ⟨old, hold, hle⟩ := I.queued _ hmem
  exact absurd hle (not_le.mpr (hlt old hold))

/-- Values only get smaller. -/
theorem improve_le {cur x y : V} {e : E} {nd old : D}
    (hlt : ∀ old, s.dist x = some old → nd < old) (hy : s.dist y = some old) {c : D}
    (hle : old ≤ c) : ∃ d', (s.improve cur x e nd).dist y = some d' ∧ d' ≤ c := by
  by_cases hyx : y = x
  · subst hyx
    exact ⟨nd, State.dist_improve_self, (hlt old hy).le.trans hle⟩
  · exact ⟨old, (State.dist_improve_of_ne hyx).trans hy, hle⟩

/-- A better value for an unsettled node keeps the invariant, if it comes through a settled node and
is at least as large as all settled distances. -/
theorem Inv.improve {cur x : V} {e : E} {d nd : D} (I : Inv adj extend start root Relaxed s S)
    (hcur : cur ∈ S) (hd : s.dist cur = some d) (hnd : extend d cur x e = nd)
    (hp : (x, e) ∈ adj cur) (hmax : ∀ u ∈ S, ∀ du, s.dist u = some du → du ≤ nd)
    (hlt : ∀ old, s.dist x = some old → nd < old) (hx : x ∉ S) (hroot : x ≠ root) :
    Inv adj extend start root Relaxed (s.improve cur x e nd) S := by
  have hne : ∀ u ∈ S, u ≠ x := fun u hu h => hx (h ▸ hu)
  have hsettled : ∀ u ∈ S, (s.improve cur x e nd).dist u = s.dist u :=
    fun u hu => State.dist_improve_of_ne (hne u hu)
  exact
    { rootValue := (State.dist_improve_of_ne hroot.symm).trans I.rootValue
      chain := by
        intro y dy hy
        by_cases hyx : y = x
        · -- the chain of `cur` and one more hop
          subst hyx
          obtain rfl : nd = dy := Option.some.inj (State.dist_improve_self.symm.trans hy)
          obtain ⟨hops, hchain, hwalk, hvalue, hsrc⟩ := I.chain cur d hd
          have hkeep : ParentChain (s.improve cur y e nd).parent (s.improve cur y e nd).via root
              hops cur := hchain.update (hne cur hcur) (fun hop hhop => hne _ (hsrc hop hhop)) _ _
          have hparent : (s.improve cur y e nd).parent y = some cur := Function.update_self ..
          have hvia : (s.improve cur y e nd).via y = some e := Function.update_self ..
          refine ⟨hops ++ [⟨cur, y, e⟩], hkeep.snoc hroot hparent hvia, hwalk.snoc hp, ?_, ?_⟩
          · rw [walkValue_snoc, hvalue, hnd]
          · intro hop hhop
            rcases List.mem_append.mp hhop with h | h
            · exact hsrc hop h
            · rw [List.mem_singleton.mp h]
              exact hcur
        · rw [State.dist_improve_of_ne hyx] at hy
          obtain ⟨hops, hchain, hwalk, hvalue, hsrc⟩ := I.chain y dy hy
          exact ⟨hops, hchain.update hyx (fun hop hhop => hne _ (hsrc hop hhop)) _ _, hwalk, hvalue,
            hsrc⟩
      settled := by
        intro u hu
        rw [hsettled u hu]
        exact I.settled u hu
      closed := by
        intro u hu du hdu q hq hrel
        rw [hsettled u hu] at hdu
        obtain ⟨dq, hdq, hle⟩ := I.closed u hu du hdu q hq hrel
        exact improve_le hlt hdq hle
      sorted := sorted_push I.sorted (I.entry_not_mem hlt)
      queued := by
        intro q hq
        rcases State.mem_pq_improve.mp hq with rfl | hq
        · exact ⟨nd, State.dist_improve_self, le_rfl⟩
        · obtain ⟨dq, hdq, hle⟩ := I.queued q hq
          exact improve_le hlt hdq hle
      latest := by
        intro y dy hy hyS
        rw [State.mem_pq_improve]
        by_cases hyx : y = x
        · subst hyx
          obtain rfl : nd = dy := Option.some.inj (State.dist_improve_self.symm.trans hy)
          exact Or.inl rfl
        · rw [State.dist_improve_of_ne hyx] at hy
          exact Or.inr (I.latest y dy hy hyS)
      mono := by
        intro u hu du hdu q hq
        rw [hsettled u hu] at hdu
        rcases State.mem_pq_improve.mp hq with rfl | hq
        · exact hmax u hu du hdu
        · exact I.mono u hu du hdu q hq
      stale := by
        intro u hu du hdu q hq hqu
        rw [hsettled u hu] at hdu
        rcases State.mem_pq_improve.mp hq with rfl | hq
        · exact absurd hqu.symm (hne u hu)
        · exact I.stale u hu du hdu q hq hqu }

/-- An entry of the node in progress counts as relaxed when its node has a value that is as small. -/
theorem Inv.relaxed_concat {cur : V} {d : D} {pre : List (V × E)} {p : V × E}
    (I : Inv adj extend start root (fun u q => u = cur → q ∈ pre) s S) (hd : s.dist cur = some d)
    (hp : ∃ old, s.dist p.1 = some old ∧ old ≤ extend d cur p.1 p.2) :
    Inv adj extend start root (fun u q => u = cur → q ∈ pre ++ [p]) s S := by
  refine { I with closed := fun u hu du hdu q hq hrel => ?_ }
  by_cases hlast : u = cur ∧ q = p
  · obtain ⟨rfl, rfl⟩ := hlast
    obtain rfl : d = du := Option.some.inj (hd.symm.trans hdu)
    exact hp
  · refine I.closed u hu du hdu q hq fun h => ?_
    have hmem := hrel h
    rw [List.mem_append, List.mem_singleton] at hmem
    exact hmem.resolve_right fun hqp => hlast ⟨h, hqp⟩

/-- Relaxing one entry of the node in progress keeps the invariant and the settled distances. -/
theorem Inv.relax {cur : V} {d : D} {pre : List (V × E)} {p : V × E}
    (hext : Inflates adj extend root)
    (I : Inv adj extend start root (fun u q => u = cur → q ∈ pre) s S) (hcur : cur ∈ S)
    (hd : s.dist cur = some d) (hmax : ∀ u ∈ S, ∀ du, s.dist u = some du → du ≤ d)
    (hp : p ∈ adj cur) :
    Inv adj extend start root (fun u q => u = cur → q ∈ pre ++ [p])
        (BestFirst.relax extend cur d s p) S ∧
      (∀ u ∈ S, (BestFirst.relax extend cur d s p).dist u = s.dist u) := by
  obtain ⟨curHops, -, hcurWalk, hcurValue, -⟩ := I.chain cur d hd
  have hle : d ≤ extend d cur p.1 p.2 := hext _ _ hcurWalk _ hp d
  rcases relax_cases extend cur d s p with ⟨hlt, hs⟩ | ⟨hold, hs⟩
  · -- `p.1` is not settled, because settled distances are at most `d`
    have hsettled : ∀ u ∈ S, ∀ du, s.dist u = some du → du ≤ extend d cur p.1 p.2 :=
      fun u hu du hdu => (hmax u hu du hdu).trans hle
    have hx : p.1 ∉ S := by
      intro hx
      obtain ⟨dx, hdx⟩ := I.settled p.1 hx
      exact absurd (hsettled _ hx dx hdx) (not_le.mpr (hlt dx hdx))
    have hroot : p.1 ≠ root := by
      intro h
      have hstart : start ≤ d := hcurValue ▸ hext.start_le hcurWalk
      exact absurd (hstart.trans hle) (not_le.mpr (hlt start (h ▸ I.rootValue)))
    have hsame : ∀ u ∈ S, (s.improve cur p.1 p.2 (extend d cur p.1 p.2)).dist u = s.dist u :=
      fun u hu => State.dist_improve_of_ne fun h => hx (h ▸ hu)
    rw [hs]
    have hd' := (hsame cur hcur).trans hd
    exact ⟨(I.improve hcur hd rfl hp hsettled hlt hx hroot).relaxed_concat hd'
      ⟨_, State.dist_improve_self, le_rfl⟩, hsame⟩
  · rw [hs]
    exact ⟨I.relaxed_concat hd hold, fun _ _ => rfl⟩

/-- The relaxation of the adjacency list of the node in progress, from a prefix `pre` on. -/
theorem Inv.scan {cur : V} {d : D} (hext : Inflates adj extend root) (hcur : cur ∈ S) :
    ∀ (rest pre : List (V × E)) (s : State V E D), pre ++ rest = adj cur →
      Inv adj extend start root (fun u q => u = cur → q ∈ pre) s S → s.dist cur = some d →
      (∀ u ∈ S, ∀ du, s.dist u = some du → du ≤ d) →
      Inv adj extend start root (fun _ _ => True) (rest.foldl (BestFirst.relax extend cur d) s)
        S := by
  -- the links of the node are relaxed in their order, and its own value does not change meanwhile
  intro rest
  induction rest with
  | nil =>
    intro pre s hpre I _ _
    refine { I with closed := fun u hu du hdu q hq _ => ?_ }
    refine I.closed u hu du hdu q hq fun h => ?_
    rw [List.append_nil] at hpre
    rw [hpre, ← h]
    exact hq
  | cons p rest ih =>
    intro pre s hpre I hd hmax
    have hp : p ∈ adj cur := by rw [← hpre]; simp
    obtain ⟨I', hsame⟩ := I.relax hext hcur hd hmax hp
    refine ih (pre ++ [p]) _ (by simpa using hpre) I' ?_ ?_
    · rw [hsame cur hcur, hd]
    · intro u hu du hdu
      rw [hsame u hu] at hdu
      exact hmax u hu du hdu

/-- The queue behind its first entry. -/
theorem Inv.behind {top : D ×ₗ V} {rest : List (D ×ₗ V)} (hq : s.pq = top :: rest)
    (I : Inv adj extend start root Relaxed s S) :
    (∀ q ∈ rest, q ∈ s.pq) ∧ (∀ q ∈ rest, top < q) ∧ rest.Pairwise (· < ·) := by
  have hsorted := I.sorted
  rw [hq] at hsorted ⊢
  obtain ⟨hafter, hrest⟩ := List.pairwise_cons.mp hsorted
  exact ⟨fun q h => List.mem_cons_of_mem _ h, hafter, hrest⟩

/-- Dropping an outdated entry keeps the invariant. -/
theorem Inv.skip {d : D} {cur : V} {rest : List (D ×ₗ V)} (hq : s.pq = toLex (d, cur) :: rest)
    (I : Inv adj extend start root Relaxed s S) {old : D} (hold : s.dist cur = some old)
    (hlt : old < d) : Inv adj extend start root Relaxed { s with pq := rest } S := by
  obtain ⟨hsub, -, hsorted⟩ := I.behind hq
  exact
    { rootValue := I.rootValue
      chain := I.chain
      settled := I.settled
      closed := I.closed
      sorted := hsorted
      queued := fun q h => I.queued q (hsub q h)
      latest := by
        intro x dx hx hxS
        have hmem := I.latest x dx hx hxS
        rw [hq] at hmem
        rcases List.mem_cons.mp hmem with heq | h
        · -- the entry that is dropped is not the latest of its node
          obtain ⟨rfl, rfl⟩ := Prod.mk.inj (toLex.injective heq)
          rw [hold] at hx
          obtain rfl : old = dx := by simpa using hx
          exact absurd hlt (lt_irrefl _)
        · exact h
      mono := fun u hu du hdu q h => I.mono u hu du hdu q (hsub q h)
      stale := fun u hu du hdu q h => I.stale u hu du hdu q (hsub q h) }

/-- Popping an entry that is not outdated settles its node: it was unsettled, its distance is the
popped one, and no settled distance is larger. -/
theorem Inv.settle {d : D} {cur : V} {rest : List (D ×ₗ V)}
    (hq : s.pq = toLex (d, cur) :: rest) (I : Inv adj extend start root (fun _ _ => True) s S)
    (hnew : ¬ (s.dist cur).any fun old => old < d) :
    cur ∉ S ∧ s.dist cur = some d ∧
      (∀ u ∈ cur :: S, ∀ du, s.dist u = some du → du ≤ d) ∧
      Inv adj extend start root (fun u p => u = cur → p ∈ ([] : List (V × E))) { s with pq := rest }
        (cur :: S) := by
  obtain ⟨hsub, hafter, hsorted⟩ := I.behind hq
  have htop : toLex (d, cur) ∈ s.pq := by rw [hq]; exact List.mem_cons_self ..
  -- the entry was queued at the value of `cur` or above, and it is not outdated
  have hdist : s.dist cur = some d := by
    obtain ⟨dc, hdc, hle⟩ := I.queued _ htop
    have hdc' : s.dist cur = some dc := hdc
    have hge : ¬ dc < d := by simpa [hdc'] using hnew
    rw [hdc', le_antisymm hle (not_lt.mp hge)]
    rfl
  have hself : ∀ du, s.dist cur = some du → du = d := fun du hdu =>
    Option.some.inj (hdu.symm.trans hdist)
  -- the entries of a settled node are outdated
  have hcurS : cur ∉ S := by
    intro h
    exact absurd (I.stale cur h d hdist _ htop rfl) (lt_irrefl _)
  have hmax : ∀ u ∈ cur :: S, ∀ du, s.dist u = some du → du ≤ d := by
    intro u hu du hdu
    rcases List.mem_cons.mp hu with rfl | hu
    · exact (hself du hdu).le
    · exact I.mono u hu du hdu _ htop
  refine ⟨hcurS, hdist, hmax, ?_⟩
  exact
    { rootValue := I.rootValue
      chain := by
        intro x dx hx
        obtain ⟨hops, hchain, hwalk, hsum, hsrc⟩ := I.chain x dx hx
        exact ⟨hops, hchain, hwalk, hsum, fun hop h => List.mem_cons_of_mem _ (hsrc hop h)⟩
      settled := by
        intro u hu
        rcases List.mem_cons.mp hu with rfl | hu
        · exact ⟨d, hdist⟩
        · exact I.settled u hu
      closed := by
        intro u hu du hdu p hp hrel
        rcases List.mem_cons.mp hu with rfl | hu
        · -- no entry of `cur` has been relaxed yet
          exact absurd (hrel rfl) (by simp)
        · exact I.closed u hu du hdu p hp trivial
      sorted := hsorted
      queued := fun q h => I.queued q (hsub q h)
      latest := by
        intro x dx hx hxS
        have hxcur : x ≠ cur := fun h => hxS (h ▸ List.mem_cons_self ..)
        have hmem := I.latest x dx hx fun h => hxS (List.mem_cons_of_mem _ h)
        rw [hq] at hmem
        rcases List.mem_cons.mp hmem with heq | h
        · exact absurd (Prod.mk.inj (toLex.injective heq)).2 hxcur
        · exact h
      mono := by
        intro u hu du hdu q h
        have hle : d ≤ (ofLex q).1 :=
          (Prod.Lex.le_iff.mp (hafter q h).le).elim le_of_lt fun h => h.1.le
        exact (hmax u hu du hdu).trans hle
      stale := by
        intro u hu du hdu q h hqu
        rcases List.mem_cons.mp hu with rfl | hu
        · -- an entry of the same node behind the top has a larger value
          rw [hself du hdu]
          rcases Prod.Lex.lt_iff.mp (hafter q h) with hlt | ⟨_, hlt⟩
          · exact hlt
          · exact absurd (hqu ▸ hlt) (lt_irrefl _)
        · exact I.stale u hu du hdu q (hsub q h) hqu }

/-- Every walk from the root has a known node that is its end or unsettled. When hops keep the
order of the values, its value is at most that of the walk. -/
theorem Inv.frontier (hext : Inflates adj extend root)
    (I : Inv adj extend start root (fun _ _ => True) s S) :
    ∀ (hops : List (Hop V E)) (x : V), IsWalk adj root hops x →
      ∃ y dy, s.dist y = some dy ∧ (y = x ∨ y ∉ S) ∧
        ((∀ u v e, Monotone fun d => extend d u v e) → dy ≤ walkValue extend start hops) := by
  intro hops
  induction hops using List.reverseRecOn with
  | nil =>
    intro x hwalk
    obtain rfl := hwalk.dst_eq_of_nil
    exact ⟨root, start, I.rootValue, Or.inl rfl, fun _ => le_rfl⟩
  | append_singleton hops hop ih =>
    intro x hwalk
    obtain ⟨init, b, e, heq, hinit, hmem⟩ := hwalk.exists_snoc (by simp)
    obtain ⟨rfl, hhop⟩ := List.append_inj' heq rfl
    obtain rfl : hop = ⟨b, x, e⟩ := by simpa using hhop
    obtain ⟨y, dy, hdy, hy, hle⟩ := ih b hinit
    simp only [walkValue_snoc]
    -- a settled node has passed its value on, and any other is where the walk leaves the settled
    -- nodes
    by_cases hyS : y ∈ S
    · obtain rfl : y = b := hy.resolve_right fun h => h hyS
      obtain ⟨dx, hdx, hdle⟩ := I.closed y hyS dy hdy (x, e) hmem trivial
      exact ⟨x, dx, hdx, Or.inl rfl, fun hmono => hdle.trans (hmono y x e (hle hmono))⟩
    · exact ⟨y, dy, hdy, Or.inr hyS, fun hmono => (hle hmono).trans (hext _ _ hinit _ hmem _)⟩

end Invariant

/-! ## Termination and correctness -/

/-- What the search answers about the target. -/
def Answer (adj : V → List (V × E)) (extend : D → V → V → E → D) (start : D) (root target : V) :
    Bool × State V E D → Prop
  | (true, s) => ∃ hops, ParentChain s.parent s.via root hops target ∧
      IsWalk adj root hops target ∧ ((∀ u v e, Monotone fun d => extend d u v e) →
        ∀ hops', IsWalk adj root hops' target →
          walkValue extend start hops ≤ walkValue extend start hops')
  | (false, _) => ∀ hops, ¬ IsWalk adj root hops target

/-- An exhausted queue leaves no unsettled node, so no walk ends at the target. -/
theorem Inv.answer_exhausted {adj : V → List (V × E)} {extend : D → V → V → E → D} {start : D}
    {root target : V} {s : State V E D} {S : List V}
    (I : Inv adj extend start root (fun _ _ => True) s S) (hext : Inflates adj extend root)
    (htarget : target ∉ S) (hq : s.pq = []) : Answer adj extend start root target (false, s) := by
  intro hops hwalk
  obtain ⟨y, dy, hdy, hy, -⟩ := I.frontier hext hops target hwalk
  have hyS : y ∉ S := hy.elim (fun h => h ▸ htarget) id
  have hmem := I.latest y dy hdy hyS
  rw [hq] at hmem
  simp at hmem

/-- When the target comes off the queue, the parent maps lead to it. The frontier node of any other
walk is queued behind it. -/
theorem Inv.answer_target {adj : V → List (V × E)} {extend : D → V → V → E → D} {start : D}
    {root target : V} {s : State V E D} {S : List V} {d : D} {rest : List (D ×ₗ V)}
    (I : Inv adj extend start root (fun _ _ => True) s S) (hext : Inflates adj extend root)
    (htarget : target ∉ S) (hq : s.pq = toLex (d, target) :: rest) :
    Answer adj extend start root target (true, { s with pq := rest }) := by
  obtain ⟨dt, hdt, hle⟩ := I.queued (toLex (d, target)) (by simp [hq])
  obtain ⟨hops, hchain, hwalk, hvalue, _⟩ := I.chain _ _ hdt
  refine ⟨hops, hchain, hwalk, fun hmono hops' hwalk' => ?_⟩
  obtain ⟨y, dy, hdy, hy, hdle⟩ := I.frontier hext hops' _ hwalk'
  have hyS : y ∉ S := hy.elim (fun h => h ▸ htarget) id
  have hmem := I.latest y dy hdy hyS
  -- the value of the first entry of the queue is least, and the frontier of the walk is queued
  have hddy : d ≤ dy := by
    have hsorted := I.sorted
    rw [hq] at hmem hsorted
    rcases List.mem_cons.mp hmem with heq | h
    · exact (Prod.mk.inj (toLex.injective heq)).1.ge
    · exact (Prod.Lex.le_iff.mp ((List.pairwise_cons.mp hsorted).1 _ h).le).elim
        le_of_lt fun h => h.1.le
  calc walkValue extend start hops = dt := hvalue
    _ ≤ d := hle
    _ ≤ dy := hddy
    _ ≤ walkValue extend start hops' := hdle hmono

/-- **Best-first search is correct**: over a graph that stays in a finite set and whose reachable
hops lead to no smaller value it finishes, and it finds the target exactly when there is a walk to
it. When hops keep the order of the values, the walk it leaves in the parent maps is least. -/
theorem bestFirst_correct {ε : Type x} (adj : V → List (V × E)) (extend : D → V → V → E → D)
    (start : D) (U : Finset V) (hU : ∀ u, ∀ p ∈ adj u, p.1 ∈ U) (root target : V)
    (hroot : root ∈ U) (hext : Inflates adj extend root) :
    ∃ r, Answer adj extend start root target r ∧
      Returns (loop (fun s => (.ok (step adj extend target s) : Outcome ε _)) ·
        (init start root)) r := by
  -- the variant: a round settles a node, or it settles none and shortens the queue
  refine loop_total (WellFounded.prod_lex Nat.lt_wfRel.wf Nat.lt_wfRel.wf)
    (fun i s => ∃ S, Inv adj extend start root (fun _ _ => True) s S ∧ target ∉ S ∧
      i = ((U \ S.toFinset).card, s.pq.length)) ?_ _ _
    ⟨[], inv_init adj extend start root _, by simp, rfl⟩
  rintro i s ⟨S, I, htarget, rfl⟩
  cases hstep : step adj extend target s with
  | inr r =>
    refine Or.inr ⟨r, rfl, ?_⟩
    rcases step_eq_inr hstep with ⟨hq, rfl⟩ | ⟨d, rest, hq, rfl⟩
    · exact I.answer_exhausted hext htarget hq
    · exact I.answer_target hext htarget hq
  | inl s' =>
    refine Or.inl ⟨s', ?_⟩
    obtain ⟨d, cur, rest, hq, hcur, ⟨hold, rfl⟩ | ⟨hnew, rfl⟩⟩ := step_eq_inl hstep
    · obtain ⟨old, hdold, hlt⟩ := Option.any_eq_true _ _ |>.mp hold
      refine ⟨_, rfl, ⟨S, I.skip hq hdold (by simpa using hlt), htarget, rfl⟩, ?_⟩
      rw [hq]
      exact Prod.Lex.right _ (Nat.lt_succ_self _)
    · obtain ⟨hcurS, hdist, hmax, I₁⟩ := I.settle hq hnew
      have I₂ := Inv.scan hext (List.mem_cons_self ..) (adj cur) [] _ rfl I₁ hdist hmax
      refine ⟨_, rfl, ⟨cur :: S, I₂, by simp [htarget, Ne.symm hcur], rfl⟩,
        Prod.Lex.left _ _ ?_⟩
      have hcurU : cur ∈ U := by
        obtain ⟨hops, _, hwalk, _, _⟩ := I.chain cur d hdist
        exact (IsWalk.closed (fun x y f _ hmem => hU x (y, f) hmem) hwalk hroot).1
      exact card_unmarked_lt hcurU hcurS

end TopologyFabric.Library.BestFirst

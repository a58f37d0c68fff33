import TopologyFabric.Library.Outcome
import TopologyFabric.Library.Walk

/-!
# Breadth-First Search

Queue-based search of a labelled multigraph with a target that stops it early. Every visited
node carries a ghost label, the word of its tree walk. The queue is sorted by label, and the
label of a visited node comes first among all words that lead to it; this one invariant gives
completeness, fewest hops, and the exact walk that the parent maps spell out.

## Main result

- `bfs_correct`: the search finishes; it finds the target iff the target is reachable, and then
  the parent maps spell out the first walk to it
-/

namespace TopologyFabric.Library.Bfs

universe u v w

variable {V : Type u} {E : Type v}

/-- The state of the search. -/
structure State (V : Type u) (E : Type v) where
  queue : List V
  visited : Finset V
  parent : V → Option V
  via : V → Option E

/-- The state before the first round: only the root is known. -/
def init (root : V) : State V E where
  queue := [root]
  visited := {root}
  parent := fun _ => none
  via := fun _ => none

/-- Look at one adjacency entry of `cur`. -/
def discover [DecidableEq V] (cur : V) (s : State V E) (p : V × E) : State V E :=
  if p.1 ∈ s.visited then s
  else
    { queue := s.queue ++ [p.1]
      visited := insert p.1 s.visited
      parent := Function.update s.parent p.1 (some cur)
      via := Function.update s.via p.1 (some p.2) }

/-- One round: stop at an empty queue or at the target, else scan the adjacency list. -/
def step [DecidableEq V] (adj : V → List (V × E)) (target : V) (s : State V E) :
    State V E ⊕ (Bool × State V E) :=
  match s.queue with
  | [] => .inr (false, s)
  | cur :: rest =>
    if cur = target then .inr (true, { s with queue := rest })
    else .inl ((adj cur).foldl (discover cur) { s with queue := rest })

/-! ## The label invariant -/

/-- `done` are the scanned nodes in scanning order, `lab` the ghost labels, and `Scanned u i`
says that entry `i` of a scanned node `u` has been looked at. -/
structure Inv (adj : V → List (V × E)) (root : V) (Scanned : V → ℕ → Prop) (s : State V E)
    (done : List V) (lab : V → List ℕ) : Prop where
  visited : ∀ x, x ∈ s.visited ↔ x ∈ done ++ s.queue
  sorted : (done ++ s.queue).Pairwise fun x y => shortlex (lab x) < shortlex (lab y)
  rootMem : root ∈ done ++ s.queue
  rootLab : lab root = []
  tree : ∀ x ∈ done ++ s.queue, x ≠ root → ∃ u ∈ done, ∃ i e, Scanned u i ∧
    s.parent x = some u ∧ s.via x = some e ∧ (adj u)[i]? = some (x, e) ∧ lab x = lab u ++ [i]
  closed : ∀ u ∈ done, ∀ i x e, Scanned u i → (adj u)[i]? = some (x, e) →
    x ∈ done ++ s.queue ∧ shortlex (lab x) ≤ shortlex (lab u ++ [i])

section Invariant

variable {adj : V → List (V × E)} {root : V} {Scanned : V → ℕ → Prop} {s : State V E}
  {done : List V} {lab : V → List ℕ}

theorem inv_init (adj : V → List (V × E)) (root : V) (Scanned : V → ℕ → Prop) :
    Inv adj root Scanned (init root : State V E) [] (fun _ => []) where
  visited := by simp [init]
  sorted := by simp [init]
  rootMem := by simp [init]
  rootLab := rfl
  tree := by
    intro x hx hne
    exact absurd (by simpa [init] using hx) hne
  closed := by simp

/-- A word that does not come after any label in the queue leads to a known node whose label
does not come after it. -/
theorem Inv.word_known (I : Inv adj root (fun _ _ => True) s done lab) :
    ∀ (w : List ℕ) (x : V), (∀ u ∈ s.queue, shortlex w ≤ shortlex (lab u)) →
      wordEnd adj root w = some x →
      x ∈ done ++ s.queue ∧ shortlex (lab x) ≤ shortlex w := by
  intro w
  -- words are read from the root, so the last letter is the last edge
  induction w using List.reverseRecOn with
  | nil =>
    intro x _ hend
    obtain rfl : root = x := by simpa [wordEnd] using hend
    exact ⟨I.rootMem, by rw [I.rootLab]⟩
  | append_singleton w i ih =>
    intro x hle hend
    rw [wordEnd_snoc] at hend
    obtain ⟨b, hb, hx⟩ := Option.bind_eq_some_iff.mp hend
    obtain ⟨p, hp, rfl⟩ := Option.map_eq_some_iff.mp hx
    have hshort := shortlex_lt_snoc w i
    obtain ⟨hbmem, hblab⟩ := ih b (fun u hu => (hshort.le.trans (hle u hu))) hb
    -- a node that still waits has no smaller label than the word, and its own word is smaller
    have hbdone : b ∈ done := by
      rcases List.mem_append.mp hbmem with h | h
      · exact h
      · exact absurd ((hle b h).trans hblab) (not_le.mpr hshort)
    obtain ⟨hmem, hlab⟩ := I.closed b hbdone i p.1 p.2 trivial hp
    exact ⟨hmem, hlab.trans (shortlex_snoc_le hblab i)⟩

/-- The parent maps spell out the label's walk. -/
theorem Inv.chain (I : Inv adj root (fun _ _ => True) s done lab) :
    ∀ (n : ℕ) (x : V), (lab x).length = n → x ∈ done ++ s.queue →
      wordEnd adj root (lab x) = some x ∧
      ParentChain s.parent s.via root (wordHops adj root (lab x)) x := by
  intro n
  induction n with
  | zero =>
    intro x hlen hx
    have hnil : lab x = [] := List.length_eq_zero_iff.mp hlen
    by_cases hroot : x = root
    · subst hroot
      rw [hnil]
      exact ⟨rfl, .root⟩
    · -- every node but the root has been found from another one, so its label is not empty
      obtain ⟨u, _, i, e, _, _, _, _, hlab⟩ := I.tree x hx hroot
      rw [hnil] at hlab
      simp at hlab
  | succ n ih =>
    intro x hlen hx
    by_cases hroot : x = root
    · subst hroot
      rw [I.rootLab] at hlen
      simp at hlen
    · obtain ⟨u, hu, i, e, _, hpar, hvia, hget, hlab⟩ := I.tree x hx hroot
      -- the parent has a shorter label, and was done before
      have hulen : (lab u).length = n := by
        rw [hlab] at hlen
        simpa using hlen
      obtain ⟨hend, hchain⟩ := ih u hulen (List.mem_append_left _ hu)
      rw [hlab]
      refine ⟨by rw [wordEnd_snoc, hend]; simp [hget], ?_⟩
      rw [wordHops_snoc hend hget]
      exact .snoc hchain hroot hpar hvia

/-- When the target is at the head of the queue, its parent chain is the first walk. -/
theorem Inv.firstWalk {target : V} {rest : List V} (hq : s.queue = target :: rest)
    (I : Inv adj root (fun _ _ => True) s done lab) :
    ∃ hops, IsFirstWalk adj root hops target ∧
      ParentChain s.parent s.via root hops target := by
  have hmem : target ∈ done ++ s.queue := by simp [hq]
  obtain ⟨hend, hchain⟩ := I.chain _ target rfl hmem
  refine ⟨_, ⟨lab target, hend, rfl, fun w hw => ?_⟩, hchain⟩
  -- a smaller word would have brought the node to the front under it
  by_contra hlt
  have hlt := not_le.mp hlt
  -- the queue is in the order of the labels
  have hhead : ∀ u ∈ s.queue, shortlex (lab target) ≤ shortlex (lab u) := by
    have hsorted := (List.pairwise_append.mp I.sorted).2.1
    rw [hq] at hsorted ⊢
    intro u hu
    rcases List.mem_cons.mp hu with rfl | hu
    · exact le_refl _
    · exact ((List.pairwise_cons.mp hsorted).1 u hu).le
  obtain ⟨_, hle⟩ := I.word_known w target (fun u hu => hlt.le.trans (hhead u hu)) hw
  exact absurd hle (not_le.mpr hlt)

variable [DecidableEq V]

/-- The node in progress: everything known so far comes before its next word. -/
theorem Inv.lt_next {done₀ : List V} {cur : V} {k : ℕ}
    (I : Inv adj root (fun u i => u = cur → i < k) s (done₀ ++ [cur]) lab) :
    ∀ x ∈ done₀ ++ [cur] ++ s.queue, shortlex (lab x) < shortlex (lab cur ++ [k]) := by
  intro x hx
  by_cases hroot : x = root
  · rw [hroot, I.rootLab]
    exact shortlex_lt_iff.mpr (Or.inl (by simp))
  · obtain ⟨u, hu, i, e, hscan, _, _, _, hlab⟩ := I.tree x hx hroot
    rw [hlab]
    -- the tree edge comes from the node scanned now, by an earlier letter, or from a node before it
    by_cases huc : u = cur
    · subst huc
      exact shortlex_snoc_lt_of_letter _ (hscan rfl)
    · have hu₀ : u ∈ done₀ := by simpa [huc] using hu
      have hsorted := (List.pairwise_append.mp I.sorted).1
      have hlt := (List.pairwise_append.mp hsorted).2.2 u hu₀ cur (by simp)
      exact shortlex_snoc_lt hlt i k

omit [DecidableEq V] in
/-- An entry among the first `k + 1` of the node in progress is the last or among the first `k`. -/
theorem scanned_or_last {u cur : V} {i k : ℕ} (h : u = cur → i < k + 1) :
    u = cur ∧ i = k ∨ (u = cur → i < k) := by
  by_cases hu : u = cur
  · have := h hu
    by_cases hik : i = k
    · exact Or.inl ⟨hu, hik⟩
    · exact Or.inr fun _ => by omega
  · exact Or.inr fun hu' => absurd hu' hu

/-- The entry leads to a known node, whose label already comes before the word of the entry. -/
theorem Inv.known {done₀ : List V} {cur : V} {k : ℕ} {p : V × E}
    (I : Inv adj root (fun u i => u = cur → i < k) s (done₀ ++ [cur]) lab)
    (hp : (adj cur)[k]? = some p) (hvis : p.1 ∈ s.visited) :
    Inv adj root (fun u i => u = cur → i < k + 1) s (done₀ ++ [cur]) lab := by
  refine { I with
    tree := fun y hy hne => ?_
    closed := fun u hu i y f hscan hget => ?_ }
  · obtain ⟨u, hu, i, f, hscan, hrest⟩ := I.tree y hy hne
    exact ⟨u, hu, i, f, fun h => Nat.lt_succ_of_lt (hscan h), hrest⟩
  · rcases scanned_or_last hscan with ⟨rfl, rfl⟩ | hscan
    · obtain rfl : p = (y, f) := Option.some.inj (hp.symm.trans hget)
      have hmem := (I.visited y).mp hvis
      exact ⟨hmem, (I.lt_next y hmem).le⟩
    · exact I.closed u hu i y f hscan hget

/-- The entry leads to a new node: it gets the word of the entry as its label and goes to the end of
the queue. -/
theorem Inv.enqueue {done₀ : List V} {cur x : V} {e : E} {k : ℕ}
    (I : Inv adj root (fun u i => u = cur → i < k) s (done₀ ++ [cur]) lab)
    (hp : (adj cur)[k]? = some (x, e)) (hvis : x ∉ s.visited) :
    Inv adj root (fun u i => u = cur → i < k + 1)
      { queue := s.queue ++ [x]
        visited := insert x s.visited
        parent := Function.update s.parent x (some cur)
        via := Function.update s.via x (some e) }
      (done₀ ++ [cur]) (Function.update lab x (lab cur ++ [k])) := by
  have hfresh : x ∉ done₀ ++ [cur] ++ s.queue := fun h => hvis ((I.visited x).mpr h)
  have hold : ∀ y ∈ done₀ ++ [cur] ++ s.queue,
      Function.update lab x (lab cur ++ [k]) y = lab y :=
    fun y hy => Function.update_of_ne (ne_of_mem_of_not_mem hy hfresh) _ _
  have hmem : ∀ y, y ∈ done₀ ++ [cur] ++ (s.queue ++ [x]) ↔
      y ∈ done₀ ++ [cur] ++ s.queue ∨ y = x := by
    intro y
    rw [← List.append_assoc, List.mem_append, List.mem_singleton]
  have hdone : ∀ u ∈ done₀ ++ [cur], u ∈ done₀ ++ [cur] ++ s.queue :=
    fun u hu => List.mem_append_left _ hu
  have hcur := hold cur (hdone cur (by simp))
  exact
    { visited := by
        intro y
        rw [hmem, Finset.mem_insert, I.visited y]
        exact or_comm
      sorted := by
        rw [← List.append_assoc, List.pairwise_append]
        refine ⟨I.sorted.imp_of_mem ?_, by simp, ?_⟩
        · intro y z hy hz hlt
          rwa [hold y hy, hold z hz]
        · -- the new label is the greatest so far
          intro y hy z hz
          obtain rfl : z = x := by simpa using hz
          rw [hold y hy, Function.update_self]
          exact I.lt_next y hy
      rootMem := (hmem root).mpr (Or.inl I.rootMem)
      rootLab := (hold root I.rootMem).trans I.rootLab
      tree := by
        intro y hy hne
        by_cases hyx : y = x
        · -- the new node hangs below `cur`, by the entry that is looked at
          subst hyx
          refine ⟨cur, by simp, k, e, fun _ => Nat.lt_succ_self k, by simp, by simp, hp, ?_⟩
          rw [Function.update_self, hcur]
        · have hy' := ((hmem y).mp hy).resolve_right hyx
          obtain ⟨u, hu, i, f, hscan, hpar, hvia, hget, hlab⟩ := I.tree y hy' hne
          refine ⟨u, hu, i, f, fun h => Nat.lt_succ_of_lt (hscan h), ?_, ?_, hget, ?_⟩
          · exact (Function.update_of_ne hyx ..).trans hpar
          · exact (Function.update_of_ne hyx ..).trans hvia
          · rw [hold y hy', hold u (hdone u hu), hlab]
      closed := by
        intro u hu i y f hscan hget
        rcases scanned_or_last hscan with ⟨rfl, rfl⟩ | hscan
        · obtain ⟨rfl, rfl⟩ : x = y ∧ e = f := by simpa [hp] using hget
          refine ⟨(hmem x).mpr (Or.inr rfl), ?_⟩
          rw [Function.update_self, hcur]
        · obtain ⟨hy, hle⟩ := I.closed u hu i y f hscan hget
          refine ⟨(hmem y).mpr (Or.inl hy), ?_⟩
          rwa [hold y hy, hold u (hdone u hu)] }

/-- Looking at entry `k` of the node in progress keeps the invariant. -/
theorem Inv.discover {done₀ : List V} {cur : V} {k : ℕ} {p : V × E}
    (I : Inv adj root (fun u i => u = cur → i < k) s (done₀ ++ [cur]) lab)
    (hp : (adj cur)[k]? = some p) :
    ∃ lab', Inv adj root (fun u i => u = cur → i < k + 1) (Bfs.discover cur s p)
      (done₀ ++ [cur]) lab' := by
  by_cases hvis : p.1 ∈ s.visited
  · refine ⟨lab, ?_⟩
    rw [Bfs.discover, if_pos hvis]
    exact I.known hp hvis
  · refine ⟨Function.update lab p.1 (lab cur ++ [k]), ?_⟩
    rw [Bfs.discover, if_neg hvis]
    exact I.enqueue hp hvis

/-- The scan of the adjacency list, from entry `k` on. -/
theorem Inv.scan {done₀ : List V} {cur : V} :
    ∀ (rest : List (V × E)) (k : ℕ) (s : State V E) (lab : V → List ℕ),
      (adj cur).drop k = rest →
      Inv adj root (fun u i => u = cur → i < k) s (done₀ ++ [cur]) lab →
      ∃ lab', Inv adj root (fun _ _ => True) (rest.foldl (Bfs.discover cur) s)
        (done₀ ++ [cur]) lab' := by
  intro rest
  induction rest with
  | nil =>
    intro k s lab hdrop I
    -- the whole adjacency list has been gone through
    have hlen : (adj cur).length ≤ k := List.drop_eq_nil_iff.mp hdrop
    refine ⟨lab, I.visited, I.sorted, I.rootMem, I.rootLab, ?_, ?_⟩
    · intro x hx hne
      obtain ⟨u, hu, i, e, _, hrest⟩ := I.tree x hx hne
      exact ⟨u, hu, i, e, trivial, hrest⟩
    · intro u hu i x e _ hget
      refine I.closed u hu i x e (fun h => ?_) hget
      subst h
      exact lt_of_lt_of_le (List.getElem?_eq_some_iff.mp hget).1 hlen
  | cons p rest ih =>
    intro k s lab hdrop I
    have hp : (adj cur)[k]? = some p := by
      have := congrArg (·[0]?) hdrop
      simpa using this
    have hdrop' : (adj cur).drop (k + 1) = rest := by
      rw [← List.drop_drop, hdrop, List.drop_one, List.tail_cons]
    obtain ⟨lab', I'⟩ := I.discover hp
    exact ih (k + 1) _ lab' hdrop' I'

/-- One whole round keeps the invariant and moves the head of the queue to `done`. -/
theorem Inv.round {cur : V} {rest : List V} (hq : s.queue = cur :: rest)
    (I : Inv adj root (fun _ _ => True) s done lab) :
    ∃ lab', Inv adj root (fun _ _ => True)
      ((adj cur).foldl (Bfs.discover cur) { s with queue := rest }) (done ++ [cur]) lab' := by
  have happ : done ++ s.queue = done ++ [cur] ++ rest := by rw [hq]; simp
  refine Inv.scan (adj cur) 0 _ lab (by simp) ?_
  refine ⟨?_, ?_, ?_, I.rootLab, ?_, ?_⟩
  · intro x
    rw [I.visited x, happ]
  · have := I.sorted
    rwa [happ] at this
  · have := I.rootMem
    rwa [happ] at this
  · intro x hx hne
    obtain ⟨u, hu, i, e, _, hpar⟩ := I.tree x (by rw [happ]; exact hx) hne
    refine ⟨u, by simp [hu], i, e, fun huc => ?_, hpar⟩
    -- the node in progress has no children yet
    subst huc
    have hlt := (List.pairwise_append.mp I.sorted).2.2 u hu u (by simp [hq])
    exact absurd hlt (lt_irrefl _)
  · intro u hu i x e hscan hget
    by_cases huc : u = cur
    · exact absurd (hscan huc) (Nat.not_lt_zero i)
    · have hu' : u ∈ done := by simpa [huc] using hu
      obtain ⟨hmem, hle⟩ := I.closed u hu' i x e trivial hget
      exact ⟨by rw [happ] at hmem; exact hmem, hle⟩

end Invariant

/-! ## Termination and correctness -/

variable [DecidableEq V]

/-- Twice the undiscovered nodes plus the queue length; a discovery costs two and pays one. -/
def variant (U : Finset V) (s : State V E) : ℕ :=
  2 * (U \ s.visited).card + s.queue.length

theorem variant_discover_le {U : Finset V} {cur : V} {s : State V E} {p : V × E}
    (hp : p.1 ∈ U) : variant U (discover cur s p) ≤ variant U s := by
  unfold discover
  split
  · exact le_refl _
  · rename_i hnew
    have hsub : U \ insert p.1 s.visited = (U \ s.visited).erase p.1 := by
      ext x
      simp only [Finset.mem_sdiff, Finset.mem_insert, Finset.mem_erase]
      tauto
    have hcard := Finset.card_erase_add_one (Finset.mem_sdiff.mpr ⟨hp, hnew⟩)
    simp only [variant, hsub, List.length_append, List.length_singleton]
    omega

theorem variant_scan_le {U : Finset V} (cur : V) :
    ∀ (l : List (V × E)) (s : State V E), (∀ p ∈ l, p.1 ∈ U) →
      variant U (l.foldl (discover cur) s) ≤ variant U s := by
  intro l
  induction l with
  | nil => intro s _; exact le_refl _
  | cons p l ih =>
    intro s hl
    have hp : p.1 ∈ U := hl p (List.mem_cons_self ..)
    exact (ih _ fun q hq => hl q (List.mem_cons_of_mem _ hq)).trans (variant_discover_le hp)

/-- What the search answers about the target. -/
def Answer (adj : V → List (V × E)) (root target : V) : Bool × State V E → Prop
  | (true, s) => ∃ hops, IsFirstWalk adj root hops target ∧
      ParentChain s.parent s.via root hops target
  | (false, _) => ∀ hops, ¬ IsWalk adj root hops target

/-- **Breadth-first search is correct**: over a graph whose adjacency lists stay in a finite
set it finishes, and it finds the target exactly when there is a walk to it. -/
theorem bfs_correct {ε : Type w} (adj : V → List (V × E)) (U : Finset V)
    (hU : ∀ u, ∀ p ∈ adj u, p.1 ∈ U) (root target : V) :
    ∃ r, Answer adj root target r ∧
      Returns (loop (fun s => (.ok (step adj target s) : Outcome ε _)) · (init root)) r := by
  refine loop_total Nat.lt_wfRel.wf
    (fun n s => variant U s = n ∧
      ∃ done lab, Inv adj root (fun _ _ => True) s done lab ∧ target ∉ done) ?_ _ _
    ⟨rfl, [], fun _ => [], inv_init adj root _, by simp⟩
  rintro n s ⟨rfl, done, lab, I, hnot⟩
  cases hq : s.queue with
  | nil =>
    -- an exhausted queue: every word has been answered
    refine Or.inr ⟨(false, s), by simp [step, hq], fun hops hwalk => ?_⟩
    obtain ⟨w, hend, _⟩ := hwalk.exists_word
    obtain ⟨hmem, _⟩ := I.word_known w target (by simp [hq]) hend
    rw [hq, List.append_nil] at hmem
    exact hnot hmem
  | cons cur rest =>
    by_cases hcur : cur = target
    · subst hcur
      obtain ⟨hops, hfirst, hchain⟩ := I.firstWalk hq
      exact Or.inr ⟨(true, { s with queue := rest }), by simp [step, hq], hops, hfirst, hchain⟩
    · obtain ⟨lab', I'⟩ := I.round hq
      refine Or.inl ⟨_, _, by simp [step, hq, hcur],
        ⟨rfl, _, lab', I', by simp [hnot, Ne.symm hcur]⟩, ?_⟩
      have hscan := variant_scan_le cur (adj cur) { s with queue := rest } (hU cur)
      have hpop : variant U { s with queue := rest } < variant U s := by
        simp [variant, hq]
      exact lt_of_le_of_lt hscan hpop

end TopologyFabric.Library.Bfs

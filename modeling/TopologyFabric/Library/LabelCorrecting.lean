import TopologyFabric.Library.Dijkstra
import TopologyFabric.Library.Labels
import TopologyFabric.Library.Parents

/-!
# Best-First Search with Decreasing Values

Best-first search corrects the labels of nodes that it has passed when hops may lead to smaller
values, and it may do so for ever. It finishes when the way to the target overtakes every walk on
which a node would come off the queue again and again, and then the parents lead back to the root.
Dijkstra's algorithm with negative costs is the case in which values are sums.

## Main results

- `labelCorrecting_returns`: if every trap is overtaken, the search finishes
- `RunInv.answer`: and if it finds the target, the parent maps spell out a walk
- `RunInv.overtaken_or_passed`: a search that finishes passes every walk that avoids the target and
  is not overtaken
- `labelCorrecting_diverges`: if the target cannot be reached and a closed walk of negative cost
  can, the search does not finish
-/

namespace TopologyFabric.Library.LabelCorrecting

open BestFirst Dijkstra

universe u v w x

variable {V : Type u} {E : Type v} {D : Type w} [LinearOrder V] [LinearOrder D]

/-! ## The way back -/

section Back

variable {adj : V → List (V × E)} {extend : D → V → V → E → D} {start : D} {root target : V}
  {s : State V E D} {label : V → Option (List (Hop V E))} {popped : List (List (Hop V E))}
  {A C L Z : List (Hop V E)} {hop : Hop V E}

/-- Walks that go on from `Z` make the same entries when they go on from `L ++ C`, and if the ones
are put together from popped walks, so are the others. -/
structure Carries (adj : V → List (V × E)) (extend : D → V → V → E → D) (start : D)
    (root target : V) (popped : List (List (Hop V E))) (Z L C : List (Hop V E)) : Prop where
  same : entry extend start root (L ++ C) = entry extend start root Z
  splices : ∀ S R, Spliced adj extend start root target S (Z ++ R) → (∀ A ∈ S, A ∈ popped) →
    ∃ S', Spliced adj extend start root target S' (L ++ C ++ R) ∧ ∀ A ∈ S', A ∈ popped

theorem carries_self (Z : List (Hop V E)) :
    Carries adj extend start root target popped Z Z [] where
  same := by rw [List.append_nil]
  splices S R h hS := ⟨S, by rwa [List.append_nil], hS⟩

theorem Carries.step (h : Carries adj extend start root target popped Z (A ++ [hop]) C) :
    Carries adj extend start root target popped Z A (hop :: C) where
  same := by simpa using h.same
  splices := by simpa using h.splices

theorem Carries.splice (h : Carries adj extend start root target popped Z A (hop :: C))
    (hhidden : Hidden adj extend start root target A L hop) (hL : L ∈ popped) :
    Carries adj extend start root target popped Z L (hop :: C) where
  same := (hhidden.entry_eq C).trans h.same
  splices S R hS hmem := by
    obtain ⟨S', hS', hmem'⟩ := h.splices S R hS hmem
    rw [List.append_assoc, List.cons_append] at hS' ⊢
    exact ⟨L :: S', .splice hS' hhidden, List.forall_mem_cons.mpr ⟨hL, hmem'⟩⟩

/-- Nothing that was popped after this walk has a greater entry. -/
def Peak (extend : D → V → V → E → D) (start : D) (root : V) (popped : List (List (Hop V E)))
    (Z : List (Hop V E)) : Prop :=
  Z ∈ popped ∧ ∀ B, Before popped Z B → ¬ entry extend start root Z < entry extend start root B

/-- The walk goes on from `Z`, or it is what walks that go on from `Z` can be spliced to. -/
def Continues (adj : V → List (V × E)) (extend : D → V → V → E → D) (start : D) (root target : V)
    (popped : List (List (Hop V E))) (Z L : List (Hop V E)) : Prop :=
  Z <+: L ∨ ∃ C, Carries adj extend start root target popped Z L C

/-- A walk that is popped after a peak goes on from it. -/
theorem Peak.prefix_of_before (H : History adj extend start root target popped)
    (hZ : Peak extend start root popped Z) (h : Before popped Z L) : Z <+: L := by
  rcases H.nested Z L h with hpre | ⟨Y, -, hlt, hbefore⟩
  · exact hpre
  · exact absurd hlt (hZ.2 Y hbefore)

/-- Behind a walk that is no prefix of a later one comes a peak with a greater entry. -/
theorem exists_peak (H : History adj extend start root target popped) {X : List (Hop V E)}
    (hAX : Before popped A X) (hnpre : ¬ A <+: X) :
    ∃ Z, Peak extend start root popped Z ∧ entry extend start root A < entry extend start root Z ∧
      Before popped A Z := by
  obtain ⟨Y, hYX, hAY, hbeforeY⟩ := (H.nested A X hAX).resolve_left hnpre
  obtain ⟨Z, hZ, hAZ, hlatest⟩ := exists_latest (l := popped)
    (p := fun Z => entry extend start root A < entry extend start root Z)
    ⟨Y, hbeforeY.right_mem, hAY⟩
  refine ⟨Z, ⟨hZ, fun B hZB hlt => ?_⟩, hAZ, ?_⟩
  · rcases hlatest B hZB.right_mem (hAZ.trans hlt) with rfl | hBZ
    · exact absurd rfl (hZB.ne H.nodup)
    · exact absurd rfl ((hZB.trans H.nodup hBZ).ne H.nodup)
  · rcases hlatest Y hbeforeY.right_mem hAY with rfl | hYZ
    · exact hbeforeY
    · exact hbeforeY.trans H.nodup hYZ

/-- What goes on from a peak goes on from it when the last hop is taken back, also to another walk
that this hop hides. -/
theorem Continues.back (H : History adj extend start root target popped)
    (hZ : Peak extend start root popped Z)
    (h : Continues adj extend start root target popped Z (A ++ [hop]))
    (hL : L = A ∨ Hidden adj extend start root target A L hop ∧ Before popped A L) :
    Continues adj extend start root target popped Z L := by
  have hcarries : ∀ C, Carries adj extend start root target popped Z A (hop :: C) →
      Continues adj extend start root target popped Z L := by
    intro C hC
    rcases hL with rfl | ⟨hhidden, hbefore⟩
    · exact Or.inr ⟨_, hC⟩
    · exact Or.inr ⟨_, hC.splice hhidden hbefore.right_mem⟩
  rcases h with hpre | ⟨C, hC⟩
  · rcases List.prefix_concat_iff.mp hpre with rfl | hpre
    · exact hcarries [] (carries_self _).step
    · rcases hL with rfl | ⟨-, hbefore⟩
      · exact Or.inl hpre
      · refine Or.inl (hZ.prefix_of_before H ?_)
        by_cases hZA : Z = A
        · exact hZA ▸ hbefore
        · exact (H.before_of_prefix hbefore.left_mem hpre hZA).trans H.nodup hbefore
  · exact hcarries C hC.step

section Labels

variable {Relaxed : List (Hop V E) → V × E → Prop}
  (hover : TrapsOvertaken adj extend start root target)
  (I : Inv adj extend start root target Relaxed s label popped) (hA : A ≠ []) (hApop : A ∈ popped)
  (hL : label (walkEnd root A) = some L)
  (hlt : walkValue extend start L < walkValue extend start A)

include hover I hA hApop hL hlt

/-- A popped label below a walk hides behind the next hop when it did not change the next label. -/
theorem hidden_of_popped (hmono : ∀ u v e, Monotone fun d => extend d u v e)
    (hnext : label hop.dst = some (A ++ [hop])) (hrelaxed : ∀ q, Relaxed L q)
    (hLpop : L ∈ popped) :
    Hidden adj extend start root target A L hop ∧ Before popped A L := by
  have H := I.history
  obtain ⟨-, hsrc, -, hhop⟩ := isWalk_snoc (I.walk _ _ hnext)
  have hLwalk := I.walk _ L hL
  have hLend : walkEnd root L = walkEnd root A := walkEnd_eq hLwalk
  have hAL : Before popped A L := by
    rcases Before.total hApop hLpop with rfl | hAL | hLA
    · exact absurd hlt (lt_irrefl _)
    · exact hAL
    · exact absurd (H.below L A hLA hLend) (lt_asymm hlt)
  have habove : ∃ Y, Y <+: L ∧ entry extend start root A < entry extend start root Y := by
    rcases H.nested A L hAL with hpre | ⟨Y, hYL, hAY, -⟩
    · -- the better label would go round a circle
      obtain ⟨M, back, rfl⟩ := List.eq_nil_or_concat L |>.resolve_left fun hnil => by
        rw [hnil] at hpre
        exact hA (List.prefix_nil.mp hpre)
      rw [List.concat_eq_append] at *
      obtain ⟨-, hsrc', hdst', hback⟩ := isWalk_snoc hLwalk
      have hAM : A <+: M := by
        refine (List.prefix_concat_iff.mp hpre).resolve_left ?_
        rintro rfl
        exact lt_irrefl _ hlt
      have hge := H.circle_le hover (H.mem_of_prefix hLpop (List.prefix_append ..)) hAM hA hback
      rw [walkValue_last hsrc', hdst'] at hlt
      exact absurd hlt (not_lt.mpr hge)
    · exact ⟨Y, hYL, hAY⟩
  have hsame : extend (walkValue extend start L) hop.src hop.dst hop.via =
      extend (walkValue extend start A) hop.src hop.dst hop.via := by
    rw [← hLend] at hhop
    obtain ⟨Q, hQ, hQle⟩ := I.closed L hLpop _ hhop (hrelaxed _)
    obtain rfl : A ++ [hop] = Q := Option.some.inj (hnext.symm.trans hQ)
    rw [walkValue_snoc, hLend, ← hsrc] at hQle
    exact le_antisymm (hmono _ _ _ hlt.le) hQle
  exact ⟨⟨hLwalk, H.avoids_target hLpop, hlt, habove, hsame⟩, hAL⟩

/-- A better label than the walk does not wait in the queue, when the next label goes on from all
peaks. -/
theorem popped_of_continues (hpeaks : ∀ Z, Peak extend start root popped Z →
      Continues adj extend start root target popped Z (A ++ [hop])) : L ∈ popped := by
  by_contra hLpop
  have H := I.history
  have hLwalk := I.walk _ L hL
  have hLne : L ≠ [] := by
    rintro rfl
    exact hA (H.eq_nil_of_root hover hApop (walkEnd_eq hLwalk).symm)
  obtain ⟨M, back, rfl⟩ := List.eq_nil_or_concat L |>.resolve_left hLne
  rw [List.concat_eq_append] at *
  have hMpop : M ∈ popped := by simpa using I.extends_ _ _ hL (by simp)
  obtain ⟨-, hsrc, hdst, hback⟩ := isWalk_snoc hLwalk
  have hcircle := hlt
  rw [walkValue_last hsrc, hdst] at hcircle
  have hnpre : ¬ A <+: M := fun hAM =>
    absurd hcircle (not_lt.mpr (H.circle_le hover hMpop hAM hA hback))
  have hAM : Before popped A M := by
    rcases Before.total hApop hMpop with rfl | hAM | hMA
    · exact absurd List.prefix_rfl hnpre
    · exact hAM
    · exact absurd hcircle (not_lt.mpr (H.relaxed M A back.via hMA hback))
  obtain ⟨Z, hZ, hAZ, hbefore⟩ := exists_peak H hAM hnpre
  -- the walk to the better label goes on from the peak, as it does not wait while the peak is popped
  have hZM : Z <+: M := by
    rcases Before.total hZ.1 hMpop with rfl | hZM | hMZ
    · exact List.prefix_rfl
    · exact hZ.prefix_of_before H hZM
    · have hwait := I.waits _ _ hL hLpop Z (by simpa using hMZ)
      exact absurd hAZ (lt_asymm (hwait.trans_lt (entry_lt_of_value hlt)))
  have hnot : ¬ Z <+: A := fun hZA => absurd rfl
    ((hbefore.trans H.nodup (H.before_of_prefix hApop hZA (hbefore.ne H.nodup).symm)).ne H.nodup)
  rcases hpeaks Z hZ with hpre | ⟨C, hC⟩
  · rcases List.prefix_concat_iff.mp hpre with rfl | hZA
    · exact hnpre ((List.prefix_append ..).trans hZM)
    · exact hnot hZA
  · -- and from there the next label, put together with it, closes a circle
    obtain ⟨R, rfl⟩ := hZM
    obtain ⟨S, hS, hmem⟩ := hC.splices [Z ++ R] R
      (.single (H.walk _ hMpop) (H.avoids_target hMpop)) (List.forall_mem_singleton.mpr hMpop)
    have hentry := entry_append_congr hC.same R
    obtain ⟨hvalue, hend⟩ := Prod.mk.inj (toLex.injective hentry)
    have hAQ : A <+: A ++ [hop] ++ C ++ R := ⟨[hop] ++ C ++ R, by simp⟩
    rw [← hend] at hback hcircle
    rw [← hvalue] at hcircle
    exact absurd hcircle (not_lt.mpr (H.spliced_circle_le hover hmem hS hAQ hA hback))

end Labels

section Expansion

variable (hmono : ∀ u v e, Monotone fun d => extend d u v e)
  (hover : TrapsOvertaken adj extend start root target) {X H : List (Hop V E)}
  (I : Inv adj extend start root target (fun A q => A = X → q ∈ ([] : List (V × E))) s label
    (X :: popped))
  (hlabel : label (walkEnd root X) = some X)
  (hchain : ParentChain s.parent s.via root H (walkEnd root X))

include hmono hover I hlabel hchain

/-- While the end of `X`, which was popped last, is expanded, the nodes on the way back from it have
popped labels that go on from all peaks. -/
theorem labels_of_chain : ∀ C B, B ++ C = H → B ≠ [] →
    ∃ L, label (walkEnd root B) = some L ∧ L ∈ X :: popped ∧
      ∀ Z, Peak extend start root (X :: popped) Z →
        Continues adj extend start root target (X :: popped) Z L := by
  have history := I.history
  intro C
  induction C with
  | nil =>
    rintro B hB -
    rw [List.append_nil] at hB
    subst hB
    rw [chain_end hchain]
    refine ⟨X, hlabel, List.mem_cons_self .., fun Z hZ => Or.inl ?_⟩
    rcases Before.total hZ.1 (List.mem_cons_self ..) with rfl | hZX | hXZ
    · exact List.prefix_rfl
    · exact hZ.prefix_of_before history hZX
    · exact absurd hXZ history.not_before
  | cons hop C ih =>
    intro B hB hne
    -- one hop back from a node with such a label
    obtain ⟨N, hN, -, hpeaks⟩ := ih (B ++ [hop]) (by simpa using hB) (by simp)
    have hthere : ParentChain s.parent s.via root (B ++ [hop]) (walkEnd root (B ++ [hop])) :=
      chain_append_left (C := C) (by simpa [hB] using hchain)
    obtain ⟨hback, -, hroot, hparent, hvia⟩ := chain_snoc hthere
    rw [walkEnd_snoc] at hN hroot hparent hvia
    have hBend := chain_end hback
    have hNwalk := I.walk _ N hN
    obtain ⟨A, next, rfl⟩ := List.eq_nil_or_concat N |>.resolve_left fun hnil => by
      rw [hnil] at hNwalk
      exact hroot hNwalk.dst_eq_of_nil.symm
    rw [List.concat_eq_append] at *
    obtain ⟨-, hsrc, hdst, -⟩ := isWalk_snoc hNwalk
    obtain ⟨hparent', hvia'⟩ := I.link _ A next hN
    obtain rfl : next = hop := by
      have hs := Option.some.inj (hparent'.symm.trans hparent)
      have hv := Option.some.inj (hvia'.symm.trans hvia)
      cases next
      cases hop
      simp_all
    have hApop : A ∈ X :: popped := by simpa using I.extends_ _ _ hN (by simp)
    have hA : A ≠ [] := by
      rintro rfl
      exact chain_ne_root hback hne hsrc
    obtain ⟨L, hL, hle⟩ := I.least A hApop
    refine ⟨L, by rwa [hBend, hsrc], ?_⟩
    rcases hle with rfl | hlt
    · exact ⟨hApop, fun Z hZ => (hpeaks Z hZ).back history hZ (Or.inl rfl)⟩
    · have hLpop := popped_of_continues hover I hA hApop hL hlt hpeaks
      have hLX : L ≠ X := by
        rintro rfl
        -- the way back does not come to the end of `X` again
        have hLend := walkEnd_eq (I.walk _ L hL)
        rw [hLend, ← hsrc] at hchain
        have := congrArg List.length (hB.trans (chain_unique hchain hback))
        simp at this
      have hhidden := hidden_of_popped hover I hA hApop hL hlt hmono hN
        (fun q h => absurd h hLX) hLpop
      exact ⟨hLpop, fun Z hZ => (hpeaks Z hZ).back history hZ (Or.inr hhidden)⟩

/-- No entry of the end of `X` improves a node on the way back from it: a circle would close. -/
theorem firm_of_settled :
    Firm adj extend root (walkEnd root X) (walkValue extend start X) H s := by
  have history := I.history
  refine ⟨hchain, ?_⟩
  rintro A ⟨C, hC⟩ hne e he
  obtain ⟨L, hL, hLpop, hpeaks⟩ := labels_of_chain hmono hover I hlabel hchain C A hC hne
  have hAroot : walkEnd root A ≠ root :=
    chain_ne_root (chain_append_left (C := C) (by rwa [hC])) hne
  have hLend := walkEnd_eq (I.walk _ L hL)
  have hXpop : X ∈ X :: popped := List.mem_cons_self ..
  obtain ⟨C', hcarries⟩ : ∃ C', Carries adj extend start root target (X :: popped) X L C' := by
    rcases hpeaks X ⟨hXpop, fun B hB => absurd hB history.not_before⟩ with hpre | hcarries
    · by_cases hXL : X = L
      · exact ⟨[], hXL ▸ carries_self X⟩
      · exact absurd (history.before_of_prefix hLpop hpre hXL) history.not_before
    · exact hcarries
  have hself : Spliced adj extend start root target [X] (X ++ []) := by
    rw [List.append_nil]
    exact .single (history.walk X hXpop) (history.avoids_target hXpop)
  obtain ⟨S, hS, hmem⟩ := hcarries.splices [X] [] hself (List.forall_mem_singleton.mpr hXpop)
  rw [List.append_nil] at hS
  obtain ⟨hvalue, hend⟩ := Prod.mk.inj (toLex.injective hcarries.same)
  have hLne : L ≠ [] := by
    rintro rfl
    exact hAroot hLend.symm
  rw [← hend, ← hLend] at he
  have hle := history.spliced_circle_le hover hmem hS (List.prefix_append ..) hLne he
  rw [hvalue, hend, hLend] at hle
  exact ⟨_, by rw [I.dist, hL, Option.map_some], hle⟩

end Expansion

/-- Every hop of the way back from a node with a label is one of the graph, from the end of a popped
walk. -/
theorem Inv.isWalk_of_chain {Relaxed : List (Hop V E) → V × E → Prop}
    (I : Inv adj extend start root target Relaxed s label popped) {x : V} {H Q : List (Hop V E)}
    (hchain : ParentChain s.parent s.via root H x) (hQ : label x = some Q) :
    IsWalk adj root H x ∧ ∀ hop ∈ H, ∃ A ∈ popped, walkEnd root A = hop.src := by
  induction hchain generalizing Q with
  | root => exact ⟨.nil _, by simp⟩
  | @snoc H y x e _ hne hp hv ih =>
    have hwalk := I.walk x Q hQ
    obtain ⟨A, next, rfl⟩ := List.eq_nil_or_concat Q |>.resolve_left fun hnil => by
      rw [hnil] at hwalk
      exact hne hwalk.dst_eq_of_nil.symm
    rw [List.concat_eq_append] at *
    obtain ⟨-, hsrc, -, hmem⟩ := isWalk_snoc hwalk
    obtain ⟨hp', hv'⟩ := I.link x A next hQ
    obtain rfl := Option.some.inj (hp'.symm.trans hp)
    obtain rfl := Option.some.inj (hv'.symm.trans hv)
    have hApop : A ∈ popped := by simpa using I.extends_ _ _ hQ (by simp)
    obtain ⟨L, hL, -⟩ := I.least A hApop
    rw [← hsrc] at hL hmem
    obtain ⟨hH, hsources⟩ := ih hL
    refine ⟨hH.snoc hmem, fun hop hhop => ?_⟩
    rcases List.mem_append.mp hhop with hhop | hhop
    · exact hsources hop hhop
    · obtain rfl := List.mem_singleton.mp hhop
      exact ⟨A, hApop, hsrc.symm⟩

/-- Going round again keeps the parents rooted. -/
theorem Inv.rooted_round (hmono : ∀ u v e, Monotone fun d => extend d u v e)
    (hover : TrapsOvertaken adj extend start root target)
    (I : Inv adj extend start root target (fun _ _ => True) s label popped) (hrooted : Rooted root s)
    {s' : State V E D} (hstep : BestFirst.step adj extend target s = .inl s') : Rooted root s' := by
  obtain ⟨d, cur, rest, hq, hne, hcases⟩ := step_eq_inl hstep
  have hrest : Rooted root { s with pq := rest } := hrooted
  rcases hcases with ⟨-, rfl⟩ | ⟨hnew, rfl⟩
  · exact hrest
  · obtain ⟨Q, hQ, rfl, hpop⟩ := I.top hq hnew
    obtain rfl := walkEnd_eq (I.walk cur Q hQ)
    obtain ⟨H, hH⟩ := hrooted (walkEnd root Q) _ (by rw [I.dist, hQ, Option.map_some])
    exact hrest.scan (firm_of_settled hmono hover (I.settle hmono hq hne hQ hpop) hQ hH)

end Back

/-! ## Walks that are followed -/

section Followed

variable {adj : V → List (V × E)} {extend : D → V → V → E → D} {start : D} {root target : V}
  {s : State V E D} {label : V → Option (List (Hop V E))} {popped : List (List (Hop V E))}
  (I : Inv adj extend start root target (fun _ _ => True) s label popped)
  {T : List (Hop V E)} (hT : label target = some T) (hpop : T ∉ popped)

include I hT hpop

/-- Let `B` be a walk whose end has not been popped at its value, and whose entry is behind that of
the target. Then the way to the target leaves some prefix `A` of the walk, where it has the same
value, and overtakes the walk from there. -/
theorem overtaken_of_passed {B Q : List (Hop V E)} (hBQ : B <+: Q)
    (hB : IsWalk adj root B (walkEnd root B))
    (hnot : ¬ ∃ C ∈ popped, walkEnd root C = walkEnd root B ∧
      walkValue extend start C ≤ walkValue extend start B)
    (hlast : entry extend start root T < entry extend start root B) (n : ℕ) :
    ∀ A A', A <+: B → A ≠ B → A' <+: T →
      entry extend start root A' = entry extend start root A →
      T.length - A'.length = n → Overtaken adj extend start root target Q := by
  have H := I.history
  have hwalk := I.walk target T hT
  induction n using Nat.strongRecOn with
  | _ n ih =>
    rintro A A' hAB hne hA' hentry rfl
    obtain ⟨P, rfl⟩ := hA'
    obtain ⟨-, hP⟩ := isWalk_append hwalk
    obtain ⟨hvalue, hend⟩ := Prod.mk.inj (toLex.injective hentry)
    have hshift := fun P' => entry_append_congr hentry P'
    rw [hend] at hP
    by_cases hall : ∀ P', P' ≠ [] → P' <+: P →
      entry extend start root (A ++ P') < entry extend start root B
    · exact ⟨A, B, P, hAB, hne, hBQ, hP, hall⟩
    · push Not at hall
      obtain ⟨P₁, hP₁, hpre₁, hge₁⟩ := hall
      -- `P₀` is the highest point of the way to the target after `A'`
      have hfinite : {P' | P' ≠ [] ∧ P' <+: P}.Finite :=
        (List.finite_toSet P.inits).subset fun P' hP' => (List.mem_inits P' P).mpr hP'.2
      obtain ⟨P₀, ⟨hP₀, hpre₀⟩, hmax⟩ := Set.exists_max_image _
        (fun P' => entry extend start root (A ++ P')) hfinite ⟨P₁, hP₁, hpre₁⟩
      have hge : entry extend start root B ≤ entry extend start root (A ++ P₀) :=
        hge₁.trans (hmax P₁ ⟨hP₁, hpre₁⟩)
      have hneT : P₀ ≠ P := by
        rintro rfl
        rw [← hshift] at hge
        exact absurd hlast (not_lt.mpr hge)
      have hpreT : A' ++ P₀ <+: A' ++ P := (List.prefix_append_right_inj A').mpr hpre₀
      have hpeak : A' ++ P₀ ∈ popped := I.mem_of_prefix hT hpreT (by simpa using hneT)
      have hbefore : Before popped A' (A' ++ P₀) :=
        H.before_of_prefix hpeak (List.prefix_append ..) (by simpa using hP₀.symm)
      obtain ⟨W, rfl⟩ := hAB
      obtain ⟨-, hW⟩ := isWalk_append hB
      rw [← hend] at hW
      rcases H.ahead A' (A' ++ P₀) hbefore W _ hW with
        ⟨W', hW', hpre, hle⟩ | ⟨C, hC, hCend, hle⟩
      · rw [hshift, hshift] at hle
        have hpreB : A ++ W' <+: A ++ W := (List.prefix_append_right_inj A).mpr hpre
        rcases hle.lt_or_eq with hlt | heq
        · exact ⟨A, A ++ W', P, List.prefix_append .., by simpa using hW'.symm, hpreB.trans hBQ, hP,
            fun P' hne' hpre' => (hmax P' ⟨hne', hpre'⟩).trans_lt hlt⟩
        · -- a tie: the way to the target goes on from the same entry
          have hneB : A ++ W' ≠ A ++ W := by
            intro h
            rw [h, ← hshift] at heq
            obtain ⟨hsame, hends⟩ := Prod.mk.inj (toLex.injective heq)
            exact hnot ⟨_, hpeak, hends, hsame.le⟩
          refine ih _ ?_ (A ++ W') (A' ++ P₀) hpreB hneB hpreT ((hshift P₀).trans heq) rfl
          have hpos := List.length_pos_iff.mpr hP₀
          have hle := hpre₀.length_le
          simp only [List.length_append]
          omega
      · rw [walkValue_append, hvalue, ← walkValue_append] at hle
        exact absurd ⟨C, hC.left_mem, hCend, hle⟩ hnot

/-- When the target is next in the queue, a walk that avoids it is overtaken, or all its nodes have
been popped at no more than their values on the walk. -/
theorem overtaken_or_popped (hmono : ∀ u v e, Monotone fun d => extend d u v e)
    (hmin : ∀ q ∈ s.pq, entry extend start root T ≤ q) (hne : root ≠ target) {Q : List (Hop V E)}
    (hQ : IsWalk adj root Q (walkEnd root Q)) (havoid : ∀ hop ∈ Q, hop.dst ≠ target) :
    Overtaken adj extend start root target Q ∨ ∀ B, B <+: Q → ∃ C ∈ popped,
      walkEnd root C = walkEnd root B ∧ walkValue extend start C ≤ walkValue extend start B := by
  rw [or_iff_not_imp_left]
  intro hnot B
  induction B using List.reverseRecOn with
  | nil =>
    intro _
    have hTne : [] ≠ T := by
      rintro rfl
      exact hne (I.walk target _ hT).dst_eq_of_nil
    exact ⟨[], I.mem_of_prefix hT (List.nil_prefix ..) hTne, rfl, le_rfl⟩
  | append_singleton B hop ih =>
    intro hpre
    obtain ⟨C, hC, hend, hle⟩ := ih ((List.prefix_append ..).trans hpre)
    obtain ⟨R, hcut⟩ := hpre
    have hB : IsWalk adj root (B ++ [hop]) (walkEnd root (B ++ [hop])) := by
      rw [← hcut] at hQ
      exact (isWalk_append hQ).1
    obtain ⟨-, hsrc, -, hmem⟩ := isWalk_snoc hB
    rw [walkEnd_snoc, ← hend] at hmem
    -- the end of the longer prefix is labelled, at the latest since `C` was popped
    obtain ⟨L, hL, hLle⟩ := I.closed C hC _ hmem trivial
    have hLend := walkEnd_eq (I.walk _ L hL)
    have hLB : walkValue extend start L ≤ walkValue extend start (B ++ [hop]) := by
      rw [walkValue_last hsrc, ← hend]
      exact hLle.trans (hmono _ _ _ hle)
    by_contra hpassed
    have hLpop : L ∉ popped := fun h => hpassed ⟨L, h, by rw [hLend, walkEnd_snoc], hLB⟩
    have hTL := hmin _ (I.latest _ L hL hLpop)
    have hne' : entry extend start root T ≠ entry extend start root L := by
      intro heq
      have hends : walkEnd root T = walkEnd root L := (Prod.mk.inj (toLex.injective heq)).2
      rw [walkEnd_eq (I.walk target T hT), hLend] at hends
      exact havoid hop (by rw [← hcut]; simp) hends.symm
    have hlast : entry extend start root T < entry extend start root (B ++ [hop]) :=
      (lt_of_le_of_ne hTL hne').trans_le (entry_le_of_value (by rw [hLend, walkEnd_snoc]) hLB)
    exact hnot (overtaken_of_passed I hT hpop ⟨R, hcut⟩ hB hpassed hlast _ [] []
      (List.nil_prefix ..) (by simp) (List.nil_prefix ..) rfl rfl)

end Followed

/-! ## Runs -/

section Runs

variable (adj : V → List (V × E)) (extend : D → V → V → E → D) (start : D) (root target : V)

/-- In this state the search expands the end of the walk. -/
structure Expands (s : State V E D) (Q : List (Hop V E)) : Prop where
  top : ∃ rest, s.pq = entry extend start root Q :: rest
  current : ¬ (s.dist (walkEnd root Q)).any fun old => old < walkValue extend start Q
  walk : IsWalk adj root Q (walkEnd root Q)
  avoids : ∀ hop ∈ Q, hop.dst ≠ target
  goes : walkEnd root Q ≠ target
  free : ¬ Overtaken adj extend start root target Q

/-- What holds at the beginning of every round: `P` of the walks whose ends have been expanded. -/
def RunInv (P : List (Hop V E) → Prop) (s : State V E D) : Prop :=
  ∃ label popped, Inv adj extend start root target (fun _ _ => True) s label popped ∧
    ∀ A ∈ popped, P A

variable {adj extend start root target} {P : List (Hop V E) → Prop} {s s' : State V E D}

theorem runInv_init : RunInv adj extend start root target P (init start root : State V E D) :=
  ⟨firstLabel root, [], inv_init adj extend start root target _, by simp⟩

/-- An entry that is popped without being outdated is the one of a walk that is not overtaken. -/
theorem RunInv.expands (hmono : ∀ u v e, Monotone fun d => extend d u v e)
    (h : RunInv adj extend start root target P s) {d : D} {cur : V} {rest : List (D ×ₗ V)}
    (hq : s.pq = toLex (d, cur) :: rest) (hne : cur ≠ target)
    (hnew : ¬ (s.dist cur).any fun old => old < d) :
    ∃ Q, Expands adj extend start root target s Q ∧ walkEnd root Q = cur ∧
      walkValue extend start Q = d := by
  obtain ⟨label, popped, I, -⟩ := h
  obtain ⟨Q, hQ, rfl, hpop⟩ := I.top hq hnew
  obtain rfl := walkEnd_eq (I.walk cur Q hQ)
  have H := (I.settle hmono hq hne hQ hpop).history
  have hmem : Q ∈ Q :: popped := List.mem_cons_self ..
  exact ⟨Q, ⟨⟨rest, hq⟩, hnew, H.walk Q hmem, H.avoids_target hmem, hne, H.not_overtaken hmem⟩, rfl,
    rfl⟩

/-- Going round again keeps the invariant when `P` holds of the walk whose end is expanded. -/
theorem RunInv.step (hmono : ∀ u v e, Monotone fun d => extend d u v e)
    (h : RunInv adj extend start root target P s)
    (hstep : BestFirst.step adj extend target s = .inl s')
    (hP : ∀ Q, Expands adj extend start root target s Q → P Q) :
    RunInv adj extend start root target P s' := by
  obtain ⟨label, popped, I, hall⟩ := h
  obtain ⟨label', popped', I', ⟨rfl, -⟩ | ⟨Q, rest, rfl, hq, hne, hnew⟩⟩ := I.round hmono hstep
  · exact ⟨label', popped', I', hall⟩
  · have hmem : Q ∈ Q :: popped := List.mem_cons_self ..
    have H := I'.history
    exact ⟨label', Q :: popped, I', List.forall_mem_cons.mpr ⟨hP Q ⟨⟨rest, hq⟩, hnew,
      H.walk Q hmem, H.avoids_target hmem, hne, H.not_overtaken hmem⟩, hall⟩⟩

/-- What the search has found when it stops: the parents spell out a walk to the target, whose hops
start at ends that have been expanded, or there is no walk. -/
theorem RunInv.answer (hmono : ∀ u v e, Monotone fun d => extend d u v e)
    (h : RunInv adj extend start root target P s) (hrooted : Rooted root s) {found : Bool}
    (hstep : BestFirst.step adj extend target s = .inr (found, s')) :
    (found = true → ∃ H, ParentChain s'.parent s'.via root H target ∧ IsWalk adj root H target ∧
      ∀ hop ∈ H, ∃ A, P A ∧ walkEnd root A = hop.src) ∧
    (found = false → ∀ H, ¬ IsWalk adj root H target) := by
  obtain ⟨label, popped, I, hall⟩ := h
  rcases step_eq_inr hstep with ⟨hq, hr⟩ | ⟨d, rest, hq, hr⟩
  · obtain ⟨rfl, rfl⟩ := Prod.mk.inj hr
    refine ⟨by simp, fun _ H hH => ?_⟩
    -- an exhausted queue has passed everything that can be reached
    obtain ⟨A, hA, hend, -⟩ := I.passed hmono hq hH
    exact I.history.noTarget A hA hend
  · obtain ⟨rfl, rfl⟩ := Prod.mk.inj hr
    refine ⟨fun _ => ?_, by simp⟩
    obtain ⟨T, hT, -, -⟩ := I.target_top hq
    obtain ⟨H, hH⟩ := hrooted target _ (by rw [I.dist, hT, Option.map_some])
    obtain ⟨hwalk, hsources⟩ := I.isWalk_of_chain hH hT
    exact ⟨H, hH, hwalk, fun hop hhop =>
      (hsources hop hhop).imp fun A hA => ⟨hall A hA.1, hA.2⟩⟩

/-- A target that is found can be reached. -/
theorem RunInv.reached (h : RunInv adj extend start root target P s)
    (hstep : BestFirst.step adj extend target s = .inr (true, s')) :
    ∃ H, IsWalk adj root H target := by
  obtain ⟨label, popped, I, -⟩ := h
  rcases step_eq_inr hstep with ⟨-, hr⟩ | ⟨d, rest, hq, -⟩
  · cases (Prod.mk.inj hr).1
  · obtain ⟨T, hT, -⟩ := I.target_top hq
    exact ⟨T, I.walk target T hT⟩

/-- **What a search that stops has done with a walk** that avoids the target: the walk is overtaken,
or all its nodes have been expanded at no more than their values on the walk. -/
theorem RunInv.overtaken_or_passed (hmono : ∀ u v e, Monotone fun d => extend d u v e)
    (hne : root ≠ target) (h : RunInv adj extend start root target P s)
    {r : Bool × State V E D} (hstep : BestFirst.step adj extend target s = .inr r)
    {Q : List (Hop V E)} (hQ : IsWalk adj root Q (walkEnd root Q))
    (havoid : ∀ hop ∈ Q, hop.dst ≠ target) :
    Overtaken adj extend start root target Q ∨ ∀ B, B <+: Q → ∃ A, P A ∧
      walkEnd root A = walkEnd root B ∧ walkValue extend start A ≤ walkValue extend start B := by
  obtain ⟨label, popped, I, hall⟩ := h
  rcases step_eq_inr hstep with ⟨hq, -⟩ | ⟨d, rest, hq, -⟩
  · -- with an empty queue every walk has been passed
    refine Or.inr fun B hB => ?_
    obtain ⟨C, rfl⟩ := hB
    obtain ⟨A, hA, hA'⟩ := I.passed hmono hq (isWalk_append hQ).1
    exact ⟨A, hall A hA, hA'⟩
  · obtain ⟨T, hT, hpop, hmin⟩ := I.target_top hq
    refine (overtaken_or_popped I hT hpop hmono hmin hne hQ havoid).imp id fun hpassed B hB => ?_
    obtain ⟨A, hA, hA'⟩ := hpassed B hB
    exact ⟨A, hall A hA, hA'⟩

end Runs

/-! ## Termination -/

section Termination

variable {ε : Type x} (adj : V → List (V × E)) (extend : D → V → V → E → D) (start : D)
  (root target : V)

/-- **Termination with decreasing values**: over a graph that stays in a finite set the search
finishes if every trap is overtaken. The parents then lead back to the root, along hops that start at
ends of walks with `P`, or there is no walk to the target. -/
theorem labelCorrecting_returns (hmono : ∀ u v e, Monotone fun d => extend d u v e)
    (hover : TrapsOvertaken adj extend start root target) (U : Finset V)
    (hU : ∀ u, ∀ p ∈ adj u, p.1 ∈ U) {P : List (Hop V E) → Prop}
    (hP : ∀ s Q, Expands adj extend start root target s Q → P Q) :
    ∃ r : Bool × State V E D,
      ((r.1 = true → ∃ H, ParentChain r.2.parent r.2.via root H target ∧ IsWalk adj root H target ∧
          ∀ hop ∈ H, ∃ A, P A ∧ walkEnd root A = hop.src) ∧
        (r.1 = false → ∀ H, ¬ IsWalk adj root H target)) ∧
      Returns (loop (fun s => (.ok (step adj extend target s) : Outcome ε _)) · (init start root))
        r := by
  -- the variant: a round pops a new walk, of which there are finitely many, or shortens the queue
  refine loop_total (WellFounded.prod_lex Nat.lt_wfRel.wf Nat.lt_wfRel.wf)
    (fun i s => RunInv adj extend start root target P s ∧ Rooted root s ∧
      ∃ label popped, Inv adj extend start root target (fun _ _ => True) s label popped ∧
        i = ((walksUpTo adj U.card root).length - popped.length, s.pq.length)) ?_ _ _
    ⟨runInv_init, rooted_init start root, firstLabel root, [],
      inv_init adj extend start root target _, rfl⟩
  rintro i s ⟨hrun, hrooted, label, popped, I, rfl⟩
  cases hstep : step adj extend target s with
  | inr r => exact Or.inr ⟨r, rfl, hrun.answer hmono hrooted hstep⟩
  | inl s' =>
    refine Or.inl ⟨s', ?_⟩
    have hrun' := hrun.step hmono hstep (hP s)
    have hrooted' := I.rooted_round hmono hover hrooted hstep
    obtain ⟨label', popped', I', hless⟩ := I.round hmono hstep
    refine ⟨_, rfl, ⟨hrun', hrooted', label', popped', I', rfl⟩, ?_⟩
    rcases hless with ⟨rfl, hlt⟩ | ⟨Q, rest, rfl, -, -, -⟩
    · exact Prod.Lex.right _ hlt
    · -- no walk goes round a trap, so the popped walks are short
      have hle := I'.history.length_popped_le hover hU
      have hlt : (walksUpTo adj U.card root).length - (Q :: popped).length <
          (walksUpTo adj U.card root).length - popped.length := by
        rw [List.length_cons] at hle ⊢
        omega
      exact Prod.Lex.left _ _ hlt

end Termination

/-! ## Sums of costs -/

section Costs

variable {ε : Type x} {adj : V → List (V × E)} {cost : V → V → E → ℚ} {root target : V}

omit [LinearOrder V] in
/-- A trap goes round a closed walk of negative cost that the root leads to. -/
theorem Trap.exists_negative {Q : List (Hop V E)} (h : Trap adj (addCost cost) 0 root target Q) :
    ∃ x A C, IsWalk adj root A x ∧ IsWalk adj x C x ∧ walkCost cost C < 0 := by
  cases h with
  | back hwalk _ hneg => exact ⟨root, [], Q, .nil root, hwalk, by rwa [walkValue_zero] at hneg⟩
  | circle hwalk _ hA _ hmem hneg =>
    obtain ⟨C, rfl⟩ := hA
    obtain ⟨hA, hC⟩ := isWalk_append hwalk
    refine ⟨_, _, _, hA, hC.snoc hmem, ?_⟩
    rw [walkValue_zero, walkValue_zero, walkCost_append, addCost] at hneg
    rw [walkCost_append, walkCost_cons, walkCost_nil]
    linarith

/-- A closed walk of negative cost that the root leads to keeps the queue from being exhausted. -/
theorem Inv.pq_ne_nil {s : State V E ℚ} {label : V → Option (List (Hop V E))}
    {popped : List (List (Hop V E))}
    (I : Inv adj (addCost cost) 0 root target (fun _ _ => True) s label popped) {x : V}
    {A C : List (Hop V E)} (hA : IsWalk adj root A x) (hC : IsWalk adj x C x)
    (hneg : walkCost cost C < 0) : s.pq ≠ [] := by
  intro hempty
  have hmono : ∀ u v e, Monotone fun d => addCost cost d u v e := monotone_addCost cost
  obtain ⟨Q, hQ, hle⟩ := I.started
  obtain ⟨Q₁, hQ₁, -⟩ := I.label_le hmono hempty hA Q 0 hQ hle
  obtain ⟨Q₂, hQ₂, hle₂⟩ := I.label_le hmono hempty hC Q₁ _ hQ₁ le_rfl
  obtain rfl : Q₁ = Q₂ := Option.some.inj (hQ₁.symm.trans hQ₂)
  simp only [walkValue_addCost] at hle₂
  linarith

/-- **Divergence with negative costs**: if the root leads to a closed walk of negative cost and not
to the target, the search goes on for ever. -/
theorem labelCorrecting_diverges (hreach : ∀ hops, ¬ IsWalk adj root hops target) {x : V}
    {A C : List (Hop V E)} (hA : IsWalk adj root A x) (hC : IsWalk adj x C x)
    (hneg : walkCost cost C < 0) :
    Diverges (loop (fun s => (.ok (step adj (addCost cost) target s) : Outcome ε _)) ·
      (init 0 root)) := by
  refine @loop_diverges ε (State V E ℚ) (Bool × State V E ℚ) _ (fun s => ∃ label popped,
    Inv adj (addCost cost) 0 root target (fun _ _ => True) s label popped) ?_ _
    ⟨firstLabel root, [], inv_init adj (addCost cost) 0 root target _⟩
  rintro s ⟨label, popped, I⟩
  cases hstep : step adj (addCost cost) target s with
  | inl s' =>
    obtain ⟨label', popped', I', -⟩ := I.round (monotone_addCost cost) hstep
    exact ⟨s', rfl, label', popped', I'⟩
  | inr r =>
    -- neither is the queue exhausted, nor is the target found
    rcases step_eq_inr hstep with ⟨hq, -⟩ | ⟨d, rest, hq, -⟩
    · exact absurd hq (I.pq_ne_nil hA hC hneg)
    · obtain ⟨T, hT, -⟩ := I.target_top hq
      exact absurd (I.walk target T hT) (hreach T)

end Costs

end TopologyFabric.Library.LabelCorrecting

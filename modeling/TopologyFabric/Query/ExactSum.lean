import TopologyFabric.Query.Cost

/-!
# Exact Sums

Without rounding the order of a sum does not matter, with infinities and NaN as well.

## Main results

- `add_exact_assoc`, `add_exact_comm`: exact addition is associative and commutative
- `exactSum_cases`: a sum is a number, an infinity or NaN, depending on the summands
-/

namespace TopologyFabric

namespace Double

theorem add_exact_comm (x y : Double) : x.add exact y = y.add exact x := by
  cases x <;> cases y <;> simp [add, exact, toRat, add_comm, eq_comm]
  split_ifs with h
  · rw [h]
  · rfl

theorem add_exact_assoc (x y z : Double) :
    (x.add exact y).add exact z = x.add exact (y.add exact z) := by
  -- an infinite or undefined summand decides the sum, and zeros with a sign add like zero
  cases x with
  | nan => rfl
  | inf a =>
    cases y with
    | nan => rfl
    | inf b =>
      cases z with
      | nan => cases a <;> cases b <;> rfl
      | inf c => cases a <;> cases b <;> cases c <;> rfl
      | negZero => cases a <;> cases b <;> rfl
      | fin r => cases a <;> cases b <;> rfl
    | negZero => cases z <;> rfl
    | fin q => cases z <;> rfl
  | negZero =>
    cases y <;> cases z <;> simp [add, exact, toRat]
    split_ifs <;> rfl
  | fin p =>
    cases y <;> cases z <;> simp [add, exact, toRat, add_assoc]
    split_ifs <;> rfl

instance : Std.Associative (Double.add exact) := ⟨add_exact_assoc⟩

instance : Std.Commutative (Double.add exact) := ⟨add_exact_comm⟩

/-- A value is finite, an infinity or NaN. -/
theorem isFinite_or (x : Double) : x.IsFinite ∨ x = .nan ∨ ∃ neg, x = .inf neg := by
  cases x with
  | nan => exact Or.inr (Or.inl rfl)
  | inf neg => exact Or.inr (Or.inr ⟨neg, rfl⟩)
  | negZero => exact Or.inl ⟨rfl, rfl⟩
  | fin q => exact Or.inl ⟨rfl, rfl⟩

theorem isFinite_fin (q : ℚ) : (fin q).IsFinite := ⟨rfl, rfl⟩

theorem not_isFinite_nan : ¬ nan.IsFinite := fun h => by cases h.1

theorem not_isFinite_inf (neg : Bool) : ¬ (inf neg).IsFinite := fun h => by cases h.2

theorem IsFinite.add {x y : Double} (hx : x.IsFinite) (hy : y.IsFinite) :
    x.add exact y = .fin (x.toRat + y.toRat) := hx.add_eq hy

theorem IsFinite.mul {x y : Double} (hx : x.IsFinite) (hy : y.IsFinite) :
    (x.mul exact y).IsFinite := by
  rw [Double.mul, hx.1, hx.2, hy.1, hy.2]
  exact isFinite_fin _

/-- Dividing by a positive finite number gives a finite one. -/
theorem IsFinite.div {x y : Double} (hx : x.IsFinite) (hy : y.IsFinite) (hpos : y.Pos) :
    (x.div exact y).IsFinite := by
  have hne : y.toRat ≠ 0 := by
    cases y with
    | nan => exact absurd hy not_isFinite_nan
    | inf neg => exact absurd hy (not_isFinite_inf neg)
    | negZero => simp [Pos, lt, rank] at hpos
    | fin q =>
      rw [Pos, lt_fin, decide_eq_true_eq] at hpos
      exact hpos.ne'
  rw [Double.div, hx.1, hx.2, hy.1, hy.2]
  simp only [Bool.or_self, Bool.false_eq_true, if_false, if_neg hne]
  exact isFinite_fin _

/-- What is added to an infinity leaves it or makes it NaN. -/
theorem inf_add_cases (neg : Bool) (y : Double) :
    (inf neg).add exact y = .inf neg ∨ (inf neg).add exact y = .nan := by
  rcases y.isFinite_or with hy | rfl | ⟨neg', rfl⟩
  · exact Or.inl (hy.inf_add neg)
  · exact Or.inr rfl
  · by_cases hsame : neg = neg'
    · exact Or.inl (by simp [Double.add, hsame])
    · exact Or.inr (by simp [Double.add, hsame])

end Double

/-! ## Sums of lists -/

/-- The sum of a list, from zero on. -/
def exactSum (l : List Double) : Double := l.foldl (Double.add exact) (.fin 0)

theorem foldl_add_exact (l : List Double) (x y : Double) :
    l.foldl (Double.add exact) (x.add exact y) = (l.foldl (Double.add exact) x).add exact y := by
  induction l generalizing x with
  | nil => rfl
  | cons z l ih =>
    rw [List.foldl_cons, List.foldl_cons, ← ih, Double.add_exact_assoc, Double.add_exact_comm y,
      ← Double.add_exact_assoc]

theorem exactSum_cons (x : Double) (l : List Double) :
    exactSum (x :: l) = (exactSum l).add exact x := foldl_add_exact l _ _

theorem exactSum_append_singleton (l : List Double) (x : Double) :
    exactSum (l ++ [x]) = (exactSum l).add exact x := by
  rw [exactSum, List.foldl_append]
  rfl

/-- All summands are finite, or an infinity is among them and no other infinity or NaN, or they
leave no sum. -/
theorem exactSum_cases (l : List Double) :
    ((∀ x ∈ l, x.IsFinite) ∧ exactSum l = .fin (l.map Double.toRat).sum) ∨
      (∃ neg, .inf neg ∈ l ∧ (∀ x ∈ l, x.IsFinite ∨ x = .inf neg) ∧ exactSum l = .inf neg) ∨
      ((∀ neg, ¬ ∀ x ∈ l, x.IsFinite ∨ x = .inf neg) ∧ exactSum l = .nan) := by
  induction l with
  | nil => exact Or.inl ⟨by simp, rfl⟩
  | cons y l ih =>
    simp only [exactSum_cons, List.forall_mem_cons, List.map_cons, List.sum_cons]
    rcases ih with ⟨hfinite, hsum⟩ | ⟨neg, hmem, hall, hsum⟩ | ⟨hall, hsum⟩
    · rw [hsum]
      rcases y.isFinite_or with hy | rfl | ⟨neg, rfl⟩
      · refine Or.inl ⟨⟨hy, hfinite⟩, ?_⟩
        rw [(Double.isFinite_fin _).add hy, add_comm]
        rfl
      · exact Or.inr (Or.inr ⟨fun neg h => absurd h.1 (by simp [Double.not_isFinite_nan]), rfl⟩)
      · exact Or.inr (Or.inl ⟨neg, List.mem_cons_self ..,
          ⟨Or.inr rfl, fun x hx => Or.inl (hfinite x hx)⟩, rfl⟩)
    · rw [hsum]
      rcases y.isFinite_or with hy | rfl | ⟨neg', rfl⟩
      · exact Or.inr (Or.inl ⟨neg, List.mem_cons_of_mem _ hmem, ⟨Or.inl hy, hall⟩, hy.inf_add neg⟩)
      · exact Or.inr (Or.inr ⟨fun neg h => absurd h.1 (by simp [Double.not_isFinite_nan]), rfl⟩)
      · by_cases hsame : neg = neg'
        · subst hsame
          exact Or.inr (Or.inl ⟨neg, List.mem_cons_of_mem _ hmem, ⟨Or.inr rfl, hall⟩,
            by simp [Double.add]⟩)
        · refine Or.inr (Or.inr ⟨fun neg'' h => ?_, by simp [Double.add, hsame]⟩)
          -- both infinities would have the sign
          have h1 : neg' = neg'' := by simpa [Double.not_isFinite_inf] using h.1
          have h2 : neg = neg'' := by simpa [Double.not_isFinite_inf] using h.2 _ hmem
          exact hsame (h2.trans h1.symm)
    · rw [hsum]
      exact Or.inr (Or.inr ⟨fun neg h => hall neg h.2, rfl⟩)

/-- A sum with an infinity among its terms is that infinity or NaN. -/
theorem exactSum_of_inf_mem {l : List Double} {neg : Bool} (hmem : .inf neg ∈ l) :
    exactSum l = .inf neg ∨ exactSum l = .nan := by
  rcases exactSum_cases l with ⟨hall, -⟩ | ⟨neg', -, hall, hsum⟩ | ⟨-, hsum⟩
  · exact absurd (hall _ hmem) (Double.not_isFinite_inf neg)
  · have hsign := (hall _ hmem).resolve_left (Double.not_isFinite_inf neg)
    exact Or.inl (hsum.trans hsign.symm)
  · exact Or.inr hsum

/-- The sum of finite values is a number. -/
theorem exactSum_of_isFinite {l : List Double} (h : ∀ x ∈ l, x.IsFinite) :
    exactSum l = .fin (l.map Double.toRat).sum := by
  rcases exactSum_cases l with ⟨-, hsum⟩ | ⟨neg, hmem, -⟩ | ⟨hall, -⟩
  · exact hsum
  · exact absurd (h _ hmem) (Double.not_isFinite_inf neg)
  · exact absurd (fun x hx => Or.inl (h x hx)) (hall false)

end TopologyFabric

import Mathlib.Tactic

/-!
# Searching

Where the first or the last occurrence of a key in a text starts, as `find` and `rfind` of strings
give it, and what looking up several elements gives.

## Main results

- `findText_isSome`: a key is found iff it stands somewhere in the text
- `findText_append`: the first occurrence, when nothing before it can start one
- `rfindText_append`: the last occurrence, when nothing after it can start one
- `mapM_eq_some_map`, `mem_of_mapM`: several elements are found iff each one is
-/

namespace TopologyFabric.Library

universe u

variable {α : Type u} [DecidableEq α]

/-- Where the key occurs first. -/
def findText (key : List α) : List α → Option ℕ
  | [] => if key = [] then some 0 else none
  | a :: s => if key.isPrefixOf (a :: s) then some 0 else (findText key s).map (· + 1)

/-- Where the key occurs last. -/
def rfindText (key : List α) : List α → Option ℕ
  | [] => if key = [] then some 0 else none
  | a :: s =>
    match rfindText key s with
    | some i => some (i + 1)
    | none => if key.isPrefixOf (a :: s) then some 0 else none

/-- **A key is found** iff it stands somewhere in the text. -/
theorem findText_isSome {key s : List α} : (findText key s).isSome = true ↔ key <:+: s := by
  induction s with
  | nil =>
    rw [findText, List.infix_nil]
    split_ifs with hkey <;> simp [hkey]
  | cons a s ih =>
    rw [findText, List.infix_cons_iff, ← ih, ← List.isPrefixOf_iff_prefix]
    split_ifs with hfront <;> simp [hfront]

/-- **The first occurrence**, when nothing before it can start one. -/
theorem findText_append {k : α} {ks pre s : List α} (hpre : k ∉ pre) :
    findText (k :: ks) (pre ++ (k :: ks ++ s)) = some pre.length := by
  induction pre with
  | nil =>
    have hfront : (k :: ks).isPrefixOf (k :: (ks ++ s)) = true := by
      rw [List.isPrefixOf_iff_prefix]
      exact ⟨s, rfl⟩
    rw [List.nil_append, List.cons_append, findText, if_pos hfront]
    rfl
  | cons a pre ih =>
    rw [List.mem_cons, not_or] at hpre
    have hnot : ¬ (k :: ks).isPrefixOf (a :: (pre ++ (k :: ks ++ s))) = true := by
      rw [List.isPrefixOf_cons_cons, Bool.and_eq_true, beq_iff_eq]
      exact fun h => hpre.1 h.1
    rw [List.cons_append, findText, if_neg hnot, ih hpre.2]
    rfl

theorem rfindText_eq_none {k : α} {ks s : List α} (hs : k ∉ s) :
    rfindText (k :: ks) s = none := by
  induction s with
  | nil => rw [rfindText, if_neg (List.cons_ne_nil k ks)]
  | cons a s ih =>
    rw [List.mem_cons, not_or] at hs
    have hnot : ¬ (k :: ks).isPrefixOf (a :: s) = true := by
      rw [List.isPrefixOf_cons_cons, Bool.and_eq_true, beq_iff_eq]
      exact fun h => hs.1 h.1
    rw [rfindText, ih hs.2]
    exact if_neg hnot

/-- **The last occurrence** is the one after which the first letter of the key does not occur. -/
theorem rfindText_append {k : α} {ks s : List α} (pre : List α) (hks : k ∉ ks) (hs : k ∉ s) :
    rfindText (k :: ks) (pre ++ (k :: ks ++ s)) = some pre.length := by
  induction pre with
  | nil =>
    have hrest : k ∉ ks ++ s := by
      rw [List.mem_append, not_or]
      exact ⟨hks, hs⟩
    have hfront : (k :: ks).isPrefixOf (k :: (ks ++ s)) = true := by
      rw [List.isPrefixOf_iff_prefix]
      exact ⟨s, rfl⟩
    rw [List.nil_append, List.cons_append, rfindText, rfindText_eq_none hrest]
    exact if_pos hfront
  | cons a pre ih =>
    rw [List.cons_append, rfindText, ih]
    rfl

/-! ## Looking up several elements -/

theorem mapM_eq_some_map {α β : Type*} {f : α → Option β} {g : α → β} {l : List α} :
    l.mapM f = some (l.map g) ↔ ∀ a ∈ l, f a = some (g a) := by
  induction l with
  | nil => simp
  | cons a l ih =>
    rw [List.forall_mem_cons, ← ih, List.mapM_cons]
    cases f a with
    | none => simp
    | some b => cases l.mapM f <;> simp

theorem mem_of_mapM {α β : Type*} {f : α → Option β} {l : List α} {bs : List β}
    (h : l.mapM f = some bs) : ∀ b ∈ bs, ∃ a ∈ l, f a = some b := by
  induction l generalizing bs with
  | nil =>
    cases h
    simp
  | cons a l ih =>
    rw [List.mapM_cons] at h
    -- one failure makes the whole fail
    cases hb : f a with
    | none => simp [hb] at h
    | some b =>
      cases hbs : l.mapM f with
      | none => simp [hb, hbs] at h
      | some bs' =>
        simp only [hb, hbs, Option.bind_eq_bind, Option.bind_some, Option.pure_def,
          Option.some.injEq] at h
        rw [← h, List.forall_mem_cons]
        refine ⟨⟨a, List.mem_cons_self .., hb⟩, fun b' hb' => ?_⟩
        obtain ⟨a', ha', hf⟩ := ih hbs b' hb'
        exact ⟨a', List.mem_cons_of_mem _ ha', hf⟩

end TopologyFabric.Library

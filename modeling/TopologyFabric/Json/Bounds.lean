import TopologyFabric.Json.Refinement
import TopologyFabric.Json.RoundTrip

/-!
# Bounds on Parsed Values

Every value that the parser builds is counted before it is read, is read at the depth at which it
stands in the result, and takes its strings from the size check. A value may be counted and then
dropped, when a later member has its key or when its object ends at a broken key.

## Main results

- `Reads.bounded`: what is read is within the limits of the options
- `parse_bounded`: the parser returns, and within which bounds
-/

namespace TopologyFabric.Json

open Library

/-! ## Counting -/

namespace Value

theorem countElements_append (a b : List Value) :
    countElements (a ++ b) = countElements a + countElements b := by
  induction a with
  | nil => simp [countElements]
  | cons v a ih => rw [List.cons_append, countElements, countElements, ih, Nat.add_assoc]

/-- A member that replaces another may make an object smaller. -/
theorem countMembers_insertEntry_le (k : Bytes) (v : Value) (o : List (Bytes × Value)) :
    countMembers (insertEntry k v o) ≤ countMembers o + v.count := by
  induction o with
  | nil => simp [insertEntry, countMembers]
  | cons e o ih =>
    obtain ⟨k', v'⟩ := e
    unfold insertEntry
    split_ifs with hlt heq
    · simp only [countMembers]
      omega
    · simp only [countMembers]
      omega
    · simp only [countMembers]
      omega

end Value

/-! ## Limits -/

/-- The value is within the limits for its nesting and its strings. -/
abbrev Value.Limited (opt : ParseOptions) (d : ℕ) (v : Value) : Prop :=
  v.Fits opt.maxDepth (fun s => s.length ≤ opt.maxStringBytes) d

/-- The elements of an array that have been read. -/
abbrev LimitedElements (opt : ParseOptions) (d : ℕ) (arr : List Value) : Prop :=
  Value.FitElements opt.maxDepth (fun s => s.length ≤ opt.maxStringBytes) d arr

/-- The members of an object that have been read. -/
structure LimitedMembers (opt : ParseOptions) (d : ℕ) (obj : List (Bytes × Value)) : Prop where
  sorted : SortedKeys obj
  fit : Value.FitMembers opt.maxDepth (fun s => s.length ≤ opt.maxStringBytes) d obj

variable {opt : ParseOptions} {d n : ℕ} {text rest : Bytes} {v : Value}

theorem LimitedElements.append {arr : List Value} (harr : LimitedElements opt d arr)
    (hv : v.Limited opt d) : LimitedElements opt d (arr ++ [v]) := by
  rw [LimitedElements, Value.fitElements_iff] at harr ⊢
  intro w hw
  rcases List.mem_append.mp hw with hw | hw
  · exact harr w hw
  · rw [List.mem_singleton.mp hw]
    exact hv

theorem LimitedMembers.insert {obj : List (Bytes × Value)} (hobj : LimitedMembers opt d obj)
    {key : Bytes} (hkey : key.length ≤ opt.maxStringBytes) (hv : v.Limited opt d) :
    LimitedMembers opt d (insertEntry key v obj) where
  sorted := sortedKeys_insertEntry hobj.sorted
  fit := by
    rw [Value.fitMembers_iff]
    intro e he
    -- the entry that is new, or one of those that stay
    rcases mem_insertEntry he with rfl | he
    · exact ⟨hkey, hv⟩
    · exact Value.fitMembers_iff.mp hobj.fit e he

/-- What a reading of `n` values says about its result. Behind an opening bracket the values before
it count as well; at a broken key all of them are dropped. -/
def Reading.Bounded (opt : ParseOptions) (d n : ℕ) (v : Value) : Reading → Prop
  | .value => v.Limited opt d ∧ v.count ≤ n
  | .elements arr => LimitedElements opt d arr →
      ∃ a, v = .array a ∧ LimitedElements opt d a ∧
        Value.countElements a ≤ Value.countElements arr + n
  | .members obj => LimitedMembers opt d obj →
      v = .null ∨ ∃ o, v = .object o ∧ LimitedMembers opt d o ∧
        Value.countMembers o ≤ Value.countMembers obj + n

/-- What is read is within the limits. The induction is on the reading: a value behind a bracket is
read one level deeper, and the values that have been read before go with the nonterminal. -/
theorem Reads.bounded {g : Reading} {met : List (Bytes × Bytes)}
    (h : Reads opt g d n text rest v met) : g.Bounded opt d n v := by
  induction h with
  | ws _ _ ih => exact ih
  | word hd hword =>
    rcases hword with ⟨-, rfl⟩ | ⟨-, rfl⟩ | ⟨-, rfl⟩
    · exact ⟨hd, le_rfl⟩
    · exact ⟨hd, le_rfl⟩
    · exact ⟨hd, le_rfl⟩
  | number hd _ hv =>
    rcases hv with ⟨_, rfl⟩ | ⟨_, rfl⟩ | ⟨_, rfl⟩
    · exact ⟨hd, le_rfl⟩
    · exact ⟨hd, le_rfl⟩
    · exact ⟨hd, le_rfl⟩
  | nanInf hd _ _ => exact ⟨hd, le_rfl⟩
  | string hd _ hlen => exact ⟨⟨hd, hlen⟩, le_rfl⟩
  | brokenString hd _ => exact ⟨hd, le_rfl⟩
  | emptyArray hd _ => exact ⟨⟨hd, trivial⟩, le_rfl⟩
  | array hd _ ih =>
    obtain ⟨a, rfl, ha, hcount⟩ := ih trivial
    rw [Value.countElements, Nat.zero_add] at hcount
    exact ⟨⟨hd, ha⟩, Nat.succ_le_succ hcount⟩
  | emptyObject hd _ => exact ⟨⟨hd, sortedKeys_nil, trivial⟩, le_rfl⟩
  | object hd _ ih =>
    rcases ih ⟨sortedKeys_nil, trivial⟩ with rfl | ⟨o, rfl, ho, hcount⟩
    · -- a broken key leaves a null value
      exact ⟨hd, Nat.succ_le_succ (Nat.zero_le _)⟩
    · rw [Value.countMembers, Nat.zero_add] at hcount
      exact ⟨⟨hd, ho.sorted, ho.fit⟩, Nat.succ_le_succ hcount⟩
  | @lastElement d n arr text ws rest v met _ _ ih =>
    intro harr
    refine ⟨_, rfl, harr.append ih.1, ?_⟩
    have hcount := ih.2
    simp only [Value.countElements_append, Value.countElements]
    omega
  | @moreElements d m n arr text ws text' rest v v' met met' _ _ _ ih ihmore =>
    intro harr
    obtain ⟨a, rfl, ha, hcount⟩ := ihmore (harr.append ih.1)
    refine ⟨a, rfl, ha, ?_⟩
    have hvalue := ih.2
    simp only [Value.countElements_append, Value.countElements] at hcount
    omega
  | @lastMember d n obj ws key dec ws' text ws'' rest v met _ _ _ _ hlen _ ih =>
    intro hobj
    refine Or.inr ⟨_, rfl, hobj.insert hlen ih.1, ?_⟩
    have hvalue := ih.2
    have hinsert := Value.countMembers_insertEntry_le dec v obj
    omega
  | @moreMembers d m n obj ws key dec ws' text ws'' text' rest v v' met met' _ _ _ _ hlen _ _ ih
      ihmore =>
    intro hobj
    refine (ihmore (hobj.insert hlen ih.1)).imp_right ?_
    rintro ⟨o, rfl, ho, hcount⟩
    refine ⟨o, rfl, ho, ?_⟩
    have hvalue := ih.2
    have hinsert := Value.countMembers_insertEntry_le dec v obj
    omega
  | brokenKey _ _ => exact fun _ => Or.inl rfl

/-! ## The parser -/

/-- The parser returns for every text, within a budget that its length and the depth limit set. It
reads no byte behind the text, its position stays in the text, and `parse_value` is entered at most
one level below the depth limit. What it accepts is within the limits for the number of values,
their nesting, and the length of strings and keys. -/
theorem parse_bounded (opt : ParseOptions) (text : Bytes) :
    ∃ r : ParseResult,
      (∀ fuel, text.length + (opt.maxDepth + 2) < fuel →
        ∃ deepest, parseAt fuel opt text = .ok ⟨r, deepest⟩ ∧ deepest ≤ opt.maxDepth + 1) ∧
      r.consumed ≤ text.length ∧
      (r.ok = true → r.value.count ≤ opt.maxNodes ∧
        r.value.Fits opt.maxDepth (fun s => s.length ≤ opt.maxStringBytes) 0) := by
  obtain ⟨r, hr⟩ := parse_returns opt text
  refine ⟨r, fun fuel hfuel => ?_, ?_, fun hok => ?_⟩
  · obtain ⟨deepest, hrun, hdeepest, -⟩ := parseAt_agrees hr hfuel
    exact ⟨deepest, hrun, hdeepest⟩
  · obtain ⟨-, -, -, hconsumed⟩ := parseAt_agrees hr (Nat.lt_succ_self _)
    exact hconsumed
  · obtain ⟨n, rest, met, hreads, hmax, -⟩ := parse_reads hr hok
    exact ⟨hreads.bounded.2.trans hmax, hreads.bounded.1⟩

end TopologyFabric.Json

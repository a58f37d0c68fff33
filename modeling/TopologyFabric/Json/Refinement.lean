import TopologyFabric.Json.Cursor
import TopologyFabric.Json.Reads

/-!
# Positions and Rests

The parser on positions does what the parser on the rest of the text does: at position `i` the rest
is `text.drop i`. No read is a fault, and every budget above the length of the text is enough for
the loops.

## Main results

- `skipAt_eq`, `stringAt_eq`, `numberAt_agrees`: the scanning functions
- `parseValueAt_agrees`: the recursion
- `parseAt_agrees`: the whole parser returns what `parse` returns
-/

namespace TopologyFabric.Json

open Library

variable {opt : ParseOptions} {text rest : Bytes} {fuel i : ℕ}

/-! ## Reads -/

theorem lt_of_drop {c : UInt8} (h : text.drop i = c :: rest) : i < text.length := by
  by_contra hge
  rw [List.drop_eq_nil_of_le (not_lt.mp hge)] at h
  cases h

/-- A step forward takes one character off the rest. -/
theorem drop_succ {c : UInt8} (h : text.drop i = c :: rest) : text.drop (i + 1) = rest := by
  rw [← List.drop_drop, h]
  rfl

theorem drop_ne_nil_iff : text.drop i ≠ [] ↔ i < text.length := by
  rw [ne_eq, List.drop_eq_nil_iff, not_le]

theorem charAt_eq {c : UInt8} (h : text.drop i = c :: rest) : charAt text i = .ok c := by
  have hget : text[i]? = some c := by
    rw [← List.head?_drop, h, List.head?_cons]
  rw [charAt, hget]

theorem testAt_eq (p : UInt8 → Bool) (text : Bytes) (i : ℕ) :
    testAt p text i = .ok ((text.drop i).head?.any p) := by
  unfold testAt
  cases h : text.drop i with
  | nil => rw [if_neg (fun hlt => drop_ne_nil_iff.mpr hlt h), List.head?_nil, Option.any_none]
  | cons c rest =>
    rw [if_pos (lt_of_drop h), charAt_eq h, List.head?_cons, Option.any_some]
    rfl

theorem isAt_eq (c : UInt8) (text : Bytes) (i : ℕ) :
    isAt c text i = .ok (decide ((text.drop i).head? = some c)) := by
  rw [isAt, testAt_eq]
  cases (text.drop i).head? with
  | none => rfl
  | some d => simp

/-! ## Skipping -/

/-- The position behind the characters with the property. -/
theorem skipAt_eq (p : UInt8 → Bool) (hi : i ≤ text.length) (hfuel : text.length < fuel + i) :
    ∃ j, skipAt p fuel text i = .ok j ∧ text.drop j = (text.drop i).dropWhile p ∧
      i ≤ j ∧ j ≤ text.length := by
  induction fuel generalizing i with
  | zero => omega
  | succ fuel ih =>
    -- one round looks at one character
    have hstep : skipStep p text i =
        .ok (if (text.drop i).head?.any p then .inl (i + 1) else .inr i) := by
      rw [skipStep, testAt_eq]
      rfl
    cases h : text.drop i with
    | nil =>
      rw [h] at hstep
      exact ⟨i, loop_succ_inr hstep fuel, h, le_rfl, hi⟩
    | cons c rest =>
      rw [h, List.head?_cons, Option.any_some] at hstep
      by_cases hc : p c = true
      · rw [if_pos hc] at hstep
        obtain ⟨j, hj, hdrop, hle, hlen⟩ := ih (lt_of_drop h) (by omega)
        refine ⟨j, (loop_succ_inl hstep fuel).trans hj, ?_, by omega, hlen⟩
        rw [hdrop, drop_succ h, List.dropWhile_cons_of_pos hc]
      · rw [if_neg hc] at hstep
        refine ⟨i, loop_succ_inr hstep fuel, ?_, le_rfl, hi⟩
        rw [h, List.dropWhile_cons_of_neg hc]

theorem skipWsAt_eq (hi : i ≤ text.length) (hfuel : text.length < fuel) :
    ∃ j, skipWsAt fuel text i = .ok j ∧ text.drop j = skipWs (text.drop i) ∧ i ≤ j ∧
      j ≤ text.length :=
  skipAt_eq isWs hi (by omega)

theorem digitsAt_eq (hi : i ≤ text.length) (hfuel : text.length < fuel) :
    ∃ j, digitsAt fuel text i = .ok j ∧ text.drop j = (text.drop i).dropWhile isDigit ∧ i ≤ j ∧
      j ≤ text.length :=
  skipAt_eq isDigit hi (by omega)

/-! ## Words -/

theorem lettersAt_eq {word : Bytes} (hword : i + word.length ≤ text.length) :
    lettersAt text word i = .ok (word.isPrefixOf (text.drop i)) := by
  induction word generalizing i with
  | nil => rfl
  | cons w word ih =>
    rw [List.length_cons] at hword
    obtain ⟨c, rest, h⟩ := List.exists_cons_of_ne_nil
      (drop_ne_nil_iff.mpr (show i < text.length by omega))
    rw [lettersAt, charAt_eq h, h, Outcome.ok_bind, List.isPrefixOf_cons_cons]
    by_cases hc : c = w
    · rw [if_neg (not_not.mpr hc), ih (by omega), drop_succ h, hc, beq_self_eq_true, Bool.true_and]
    · have hne : (w == c) = false := beq_false_of_ne (Ne.symm hc)
      rw [if_pos hc, hne, Bool.false_and]
      rfl

/-- The word is found where the rest of the text starts with it. -/
theorem matchAt_eq (word : Bytes) (hi : i ≤ text.length) :
    (∃ rest, matchWord word (text.drop i) = some rest ∧
      matchAt text word i = .ok (some (i + word.length)) ∧ text.drop (i + word.length) = rest ∧
      i + word.length ≤ text.length) ∨
    (matchWord word (text.drop i) = none ∧ matchAt text word i = .ok none) := by
  by_cases hlen : text.length < i + word.length
  · refine Or.inr ⟨?_, by rw [matchAt, if_pos hlen]⟩
    -- a word that is longer than the rest is not found in it
    by_contra hsome
    obtain ⟨rest, hrest⟩ := Option.ne_none_iff_exists'.mp hsome
    have h := congrArg List.length (matchWord_eq_some.mp hrest)
    rw [List.length_drop, List.length_append] at h
    omega
  · have hmatch : matchAt text word i =
        .ok (if word.isPrefixOf (text.drop i) then some (i + word.length) else none) := by
      rw [matchAt, if_neg hlen, lettersAt_eq (not_lt.mp hlen)]
      rfl
    unfold matchWord
    by_cases hword : word.isPrefixOf (text.drop i) = true
    · rw [if_pos hword] at hmatch ⊢
      exact Or.inl ⟨_, rfl, hmatch, List.drop_drop.symm, not_lt.mp hlen⟩
    · rw [if_neg hword] at hmatch ⊢
      exact Or.inr ⟨rfl, hmatch⟩

/-! ## Strings -/

/-- The four digits of an escape. -/
theorem hexAt_eq {h₁ h₂ h₃ h₄ : UInt8} (h : text.drop i = h₁ :: h₂ :: h₃ :: h₄ :: rest) :
    hexAt text 4 i 0 = .ok (hexCodePoint h₁ h₂ h₃ h₄) := by
  have hdrop₂ := drop_succ h
  have hdrop₃ := drop_succ hdrop₂
  have hdrop₄ := drop_succ hdrop₃
  simp only [hexAt, hexCodePoint, charAt_eq h, charAt_eq hdrop₂, charAt_eq hdrop₃,
    charAt_eq hdrop₄, Outcome.ok_bind, Option.bind_eq_bind]
  -- the first character that is no digit ends the loop
  cases hexValue? h₁ with
  | none => rfl
  | some d₁ =>
    cases hexValue? h₂ with
    | none => rfl
    | some d₂ =>
      cases hexValue? h₃ with
      | none => rfl
      | some d₃ =>
        cases hexValue? h₄ with
        | none => rfl
        | some d₄ => simp

/-- A round of the loop of `parse_string` at position `i`: it goes on behind something that is added
to the buffer, or it leaves the loop as the string loop on the rest does. -/
def RoundAgrees (opt : ParseOptions) (text buf : Bytes) (i : ℕ) (rest : Bytes)
    (x : (Bytes × ℕ) ⊕ (Option Bytes × ℕ)) : Prop :=
  (∃ buf' j, x = checkSize opt buf' j ∧ i < j ∧ j ≤ text.length ∧
    stringLoop opt buf rest =
      if opt.maxStringBytes < buf'.length then (none, text.drop j)
      else stringLoop opt buf' (text.drop j)) ∨
  ∃ out j, x = .inr (out, j) ∧ j ≤ text.length ∧ stringLoop opt buf rest = (out, text.drop j)

/-- An escape at position `i`, with its backslash before it. -/
private theorem four_of_le_length {l : Bytes} (h : 4 ≤ l.length) :
    ∃ a b c d tail, l = a :: b :: c :: d :: tail := by
  rcases l with _ | ⟨a, _ | ⟨b, _ | ⟨c, _ | ⟨d, tail⟩⟩⟩⟩
  all_goals simp only [List.length_cons, List.length_nil] at h
  · omega
  · omega
  · omega
  · omega
  · exact ⟨a, b, c, d, tail, rfl⟩

theorem escapeAt_agrees (buf : Bytes) (hi : i ≤ text.length) :
    ∃ x, escapeAt opt text buf i = .ok x ∧
      RoundAgrees opt text buf i (byte '\\' :: text.drop i) x := by
  have hslash : byte '\\' ≠ byte '"' := by decide
  unfold escapeAt
  cases h : text.drop i with
  | nil =>
    have hend : text.length ≤ i := not_lt.mp fun hlt => drop_ne_nil_iff.mpr hlt h
    refine ⟨_, if_pos hend, Or.inr ⟨none, i, rfl, hi, ?_⟩⟩
    rw [stringLoop.eq_def, h]
    rfl
  | cons e rest =>
    rw [if_neg (not_le.mpr (lt_of_drop h)), charAt_eq h, Outcome.ok_bind]
    have hrest := drop_succ h
    have hlt := lt_of_drop h
    cases hesc : simpleEscape e with
    | some b =>
      refine ⟨_, rfl, Or.inl ⟨buf ++ [b], i + 1, rfl, Nat.lt_succ_self i, hlt, ?_⟩⟩
      rw [stringLoop.eq_def, hrest]
      simp only [if_neg hslash, if_true, hesc]
    | none =>
      by_cases hu : e = byte 'u'
      swap
      · refine ⟨_, if_neg hu, Or.inr ⟨none, i, rfl, hi, ?_⟩⟩
        rw [stringLoop.eq_def, h]
        simp only [if_neg hslash, if_true, hesc, if_neg hu]
      by_cases hlen : text.length < i + 5
      · -- fewer than four characters are left
        refine ⟨_, by rw [if_pos hu, if_pos hlen]; rfl, Or.inr ⟨none, i, rfl, hi, ?_⟩⟩
        have hshort : rest.length < 4 := by
          rw [← hrest, List.length_drop]
          omega
        rw [stringLoop.eq_def, h]
        simp only [if_neg hslash, if_true, hesc, if_pos hu]
        rcases rest with _ | ⟨h₁, _ | ⟨h₂, _ | ⟨h₃, _ | ⟨h₄, rest⟩⟩⟩⟩
        · rfl
        · rfl
        · rfl
        · rfl
        · exact absurd hshort (by simp only [List.length_cons]; omega)
      · have hlong : 4 ≤ rest.length := by
          rw [← hrest, List.length_drop]
          omega
        obtain ⟨h₁, h₂, h₃, h₄, tail, rfl⟩ := four_of_le_length hlong
        have hafter : text.drop (i + 5) = tail :=
          drop_succ (drop_succ (drop_succ (drop_succ hrest)))
        rw [if_pos hu, if_neg hlen, hexAt_eq hrest, Outcome.ok_bind]
        cases hcp : hexCodePoint h₁ h₂ h₃ h₄ with
        | some cp =>
          refine ⟨_, rfl, Or.inl ⟨buf ++ utf8 cp, i + 5, rfl, by omega, by omega, ?_⟩⟩
          rw [stringLoop.eq_def, hafter]
          simp only [if_neg hslash, if_true, hesc, if_pos hu, hcp]
        | none =>
          refine ⟨_, rfl, Or.inr ⟨none, i, rfl, hi, ?_⟩⟩
          rw [stringLoop.eq_def, h]
          simp only [if_neg hslash, if_true, hesc, if_pos hu, hcp]

theorem stringStepAt_agrees (buf : Bytes) (hi : i ≤ text.length) :
    ∃ x, stringStepAt opt text (buf, i) = .ok x ∧ RoundAgrees opt text buf i (text.drop i) x := by
  simp only [stringStepAt]
  cases h : text.drop i with
  | nil =>
    refine ⟨_, if_neg fun hlt => drop_ne_nil_iff.mpr hlt h, Or.inr ⟨none, i, rfl, hi, ?_⟩⟩
    rw [stringLoop.eq_def, h]
  | cons c rest =>
    have hrest := drop_succ h
    have hlt := lt_of_drop h
    rw [if_pos hlt, charAt_eq h, Outcome.ok_bind]
    by_cases hquote : c = byte '"'
    · refine ⟨_, if_pos hquote, Or.inr ⟨some buf, i + 1, rfl, hlt, ?_⟩⟩
      rw [stringLoop.eq_def, hrest]
      simp only [if_pos hquote]
    rw [if_neg hquote]
    -- an escape takes up to six characters
    by_cases hslash : c = byte '\\'
    · obtain ⟨x, hx, hround⟩ := @escapeAt_agrees opt text (i + 1) buf hlt
      refine ⟨x, by rw [if_pos hslash, hx], ?_⟩
      rw [hrest, ← hslash] at hround
      -- what moves on from behind the backslash moves on from the backslash
      rcases hround with ⟨buf', j, hx, hj, h⟩ | hstop
      · exact Or.inl ⟨buf', j, hx, Nat.lt_of_succ_lt hj, h⟩
      · exact Or.inr hstop
    rw [if_neg hslash]
    -- every other character is taken as it is, unless it is not ASCII
    by_cases hascii : 0x80 ≤ c
    · refine ⟨_, if_pos hascii, Or.inr ⟨none, i, rfl, hi, ?_⟩⟩
      rw [stringLoop.eq_def, h]
      simp only [if_neg hquote, if_neg hslash, if_pos hascii]
    · refine ⟨_, if_neg hascii, Or.inl ⟨buf ++ [c], i + 1, rfl, Nat.lt_succ_self i, hlt, ?_⟩⟩
      rw [stringLoop.eq_def, hrest]
      simp only [if_neg hquote, if_neg hslash, if_neg hascii]

/-- The loop of `parse_string`. -/
theorem stringLoopAt_eq (buf : Bytes) (hi : i ≤ text.length) (hfuel : text.length < fuel + i) :
    ∃ j, loop (stringStepAt opt text) fuel (buf, i) =
        .ok ((stringLoop opt buf (text.drop i)).1, j) ∧
      text.drop j = (stringLoop opt buf (text.drop i)).2 ∧ j ≤ text.length := by
  induction fuel generalizing i buf with
  | zero => omega
  | succ fuel ih =>
    obtain ⟨x, hx, ⟨buf', j, rfl, hlt, hj, heq⟩ | ⟨out, j, rfl, hj, heq⟩⟩ :=
      @stringStepAt_agrees opt text i buf hi
    · rw [heq]
      unfold checkSize at hx
      -- the size check behind what has been added
      by_cases hlong : opt.maxStringBytes < buf'.length
      · rw [if_pos hlong] at hx ⊢
        exact ⟨j, loop_succ_inr hx fuel, rfl, hj⟩
      · rw [if_neg hlong] at hx ⊢
        obtain ⟨k, hk, hdrop, hlen⟩ := ih buf' hj (by omega)
        exact ⟨k, (loop_succ_inl hx fuel).trans hk, hdrop, hlen⟩
    · rw [heq]
      exact ⟨j, loop_succ_inr hx fuel, rfl, hj⟩

/-- A string at its opening quote. -/
theorem stringAt_eq {c : UInt8} (h : text.drop i = c :: rest) (hfuel : text.length < fuel) :
    ∃ j, stringAt fuel opt text i = .ok ((parseString opt (c :: rest)).1, j) ∧
      text.drop j = (parseString opt (c :: rest)).2 ∧ j ≤ text.length := by
  rw [stringAt, charAt_eq h, Outcome.ok_bind, parseString]
  by_cases hquote : c ≠ byte '"'
  · rw [if_pos hquote, if_pos hquote]
    exact ⟨i, rfl, h, (lt_of_drop h).le⟩
  · rw [if_neg hquote, if_neg hquote, ← drop_succ h]
    exact stringLoopAt_eq [] (lt_of_drop h) (by omega)

/-! ## Scanning a number -/

/-- How much is left of a text behind the characters that a scan has used does not matter to the
scan. -/
def StopsFirmly {β : Type} (scan : Bytes → β × Bytes) (text : Bytes) : Prop :=
  ∃ used, text = used ++ (scan text).2 ∧
    ∀ rest, rest <+: (scan text).2 → scan (used ++ rest) = ((scan text).1, rest)

theorem head_of_used {c d : UInt8} {rest' : Bytes} (h : rest' <+: c :: rest)
    (hd : rest'.head? = some d) : d = c := by
  obtain ⟨t, ht⟩ := h
  obtain ⟨l, rfl⟩ := List.head?_eq_some_iff.mp hd
  exact (List.cons.inj ht).1

theorem digits_stopsFirmly (text : Bytes) :
    StopsFirmly (fun text => (text.takeWhile isDigit, text.dropWhile isDigit)) text := by
  refine ⟨text.takeWhile isDigit, List.takeWhile_append_dropWhile.symm, fun rest hrest => ?_⟩
  have hdigits : ∀ c ∈ text.takeWhile isDigit, isDigit c = true :=
    fun _ hc => List.mem_takeWhile_imp hc
  -- what is left starts with what stopped the scan, which is no digit
  have hhead : ∀ c, rest.head? = some c → isDigit c = false := by
    intro c hc
    simp only at hrest
    cases hdrop : text.dropWhile isDigit with
    | nil =>
      rw [hdrop, List.prefix_nil] at hrest
      simp [hrest] at hc
    | cons d tail =>
      rw [hdrop] at hrest
      rw [head_of_used hrest hc]
      have hnot := List.head_dropWhile_not isDigit (l := text) (by simp [hdrop])
      simpa only [hdrop, List.head_cons] using hnot
  obtain ⟨htake, hdrop⟩ := span_digits hdigits hhead
  exact Prod.ext htake hdrop

theorem stopsFirmly_nil {β : Type} {scan : Bytes → β × Bytes} {nothing : β}
    (hnil : scan [] = (nothing, [])) : StopsFirmly scan [] := by
  refine ⟨[], by rw [hnil]; rfl, fun rest hrest => ?_⟩
  rw [hnil] at hrest ⊢
  rw [List.prefix_nil.mp hrest]
  exact hnil

/-- A scan that finds nothing at `c` uses nothing. -/
theorem stopsFirmly_skip {β : Type} {scan : Bytes → β × Bytes} {c : UInt8} {nothing : β}
    (hnil : scan [] = (nothing, [])) (hcons : ∀ l, scan (c :: l) = (nothing, c :: l))
    (text : Bytes) : StopsFirmly scan (c :: text) := by
  refine ⟨[], by rw [hcons, List.nil_append], fun rest hrest => ?_⟩
  rw [hcons] at hrest ⊢
  cases rest with
  | nil => exact hnil
  | cons d rest =>
    obtain rfl := head_of_used hrest rfl
    exact hcons rest

theorem scanFrac_stopsFirmly (text : Bytes) : StopsFirmly scanFrac text := by
  cases text with
  | nil => exact stopsFirmly_nil rfl
  | cons c text =>
    by_cases hc : c = byte '.'
    · obtain ⟨used, htext, hfirm⟩ := digits_stopsFirmly text
      have hscan : ∀ l, scanFrac (c :: l) = (some (l.takeWhile isDigit), l.dropWhile isDigit) :=
        fun l => by rw [scanFrac, if_pos hc]
      refine ⟨c :: used, ?_, fun rest hrest => ?_⟩
      · rw [hscan, List.cons_append]
        exact congrArg (c :: ·) htext
      · rw [hscan] at hrest ⊢
        obtain ⟨htake, hdrop⟩ := Prod.mk.inj (hfirm rest hrest)
        rw [List.cons_append, hscan, htake, hdrop]
    · exact @stopsFirmly_skip _ scanFrac c none rfl (fun l => if_neg hc) text

theorem scanSign_stopsFirmly (text : Bytes) : StopsFirmly scanSign text := by
  cases text with
  | nil => exact stopsFirmly_nil rfl
  | cons c text =>
    by_cases hc : c = byte '+' ∨ c = byte '-'
    · have hscan : ∀ l, scanSign (c :: l) = ([c], l) := fun l => by rw [scanSign, if_pos hc]
      refine ⟨[c], by rw [hscan]; rfl, fun rest _ => ?_⟩
      rw [hscan, List.singleton_append, hscan]
    · exact @stopsFirmly_skip _ scanSign c [] rfl (fun l => if_neg hc) text

theorem scanExp_stopsFirmly (text : Bytes) : StopsFirmly scanExp text := by
  cases text with
  | nil => exact stopsFirmly_nil rfl
  | cons c text =>
    by_cases hc : c = byte 'e' ∨ c = byte 'E'
    · obtain ⟨usedSign, htext, hsign⟩ := scanSign_stopsFirmly text
      obtain ⟨usedDigits, hrest, hdigits⟩ := digits_stopsFirmly (scanSign text).2
      -- behind the letter the exponent is a sign and a run of digits, and each of them stops firmly
      have hscan : ∀ l, scanExp (c :: l) = (some ((scanSign l).1,
          (scanSign l).2.takeWhile isDigit), (scanSign l).2.dropWhile isDigit) :=
        fun l => by rw [scanExp, if_pos hc]
      simp only at hrest hdigits
      refine ⟨c :: (usedSign ++ usedDigits), ?_, fun rest hprefix => ?_⟩
      · rw [hscan, List.cons_append, List.append_assoc, ← hrest, ← htext]
      · rw [hscan] at hprefix ⊢
        have hdigits' := Prod.mk.inj (hdigits rest hprefix)
        have hsign' : scanSign (usedSign ++ (usedDigits ++ rest)) =
            ((scanSign text).1, usedDigits ++ rest) := by
          apply hsign
          rw [hrest]
          exact (List.prefix_append_right_inj _).mpr hprefix
        rw [List.cons_append, List.append_assoc, hscan, hsign']
        simp only [hdigits'.1, hdigits'.2]
    · exact @stopsFirmly_skip _ scanExp c none rfl (fun l => if_neg hc) text

/-- The token whose digits start at the head of the text. -/
def scanBody (neg : Bool) (body : Bytes) : NumberScan where
  neg := neg
  ints := body.takeWhile isDigit
  frac := (scanFrac (body.dropWhile isDigit)).1
  exp := (scanExp (scanFrac (body.dropWhile isDigit)).2).1
  rest := (scanExp (scanFrac (body.dropWhile isDigit)).2).2

theorem scanNumber_minus (text : Bytes) : scanNumber (byte '-' :: text) = scanBody true text := by
  rw [scanNumber]
  rfl

theorem scanNumber_body (h : text.head? ≠ some (byte '-')) :
    scanNumber text = scanBody false text := by
  cases text with
  | nil => rfl
  | cons c text =>
    have hc : c ≠ byte '-' := fun hc => h (by rw [hc]; rfl)
    unfold scanNumber
    simp only [if_neg hc]
    rfl

/-- The characters of a token are scanned as they are in front of the rest of the text. -/
theorem scanBody_used (neg : Bool) (body : Bytes) :
    ∃ used, body = used ++ (scanBody neg body).rest ∧
      scanBody neg used = { scanBody neg body with rest := [] } := by
  obtain ⟨ints, hints, hfirm⟩ := digits_stopsFirmly body
  obtain ⟨frac, hfrac, hfirm'⟩ := scanFrac_stopsFirmly (body.dropWhile isDigit)
  obtain ⟨exp, hexp, hfirm''⟩ := scanExp_stopsFirmly (scanFrac (body.dropWhile isDigit)).2
  simp only at hints hfirm
  refine ⟨ints ++ (frac ++ exp), ?_, ?_⟩
  · show body = ints ++ (frac ++ exp) ++ (scanExp (scanFrac (body.dropWhile isDigit)).2).2
    rw [List.append_assoc, List.append_assoc, ← hexp, ← hfrac, ← hints]
  · -- each part is followed by the start of what followed it before
    have hrest := hfirm'' [] List.nil_prefix
    rw [List.append_nil] at hrest
    have hafter : exp <+: (scanFrac (body.dropWhile isDigit)).2 := ⟨_, hexp.symm⟩
    have hfraction := hfirm' exp hafter
    have hdigits := hfirm (frac ++ exp) (by
      rw [hfrac]
      exact (List.prefix_append_right_inj _).mpr hafter)
    obtain ⟨htake, hdrop⟩ := Prod.mk.inj hdigits
    rw [scanBody, htake, hdrop, hfraction, hrest]
    rfl

theorem scanNumber_used (text : Bytes) :
    ∃ tok, text = tok ++ (scanNumber text).rest ∧
      scanNumber tok = { scanNumber text with rest := [] } := by
  by_cases hminus : text.head? = some (byte '-')
  · obtain ⟨body, rfl⟩ := List.head?_eq_some_iff.mp hminus
    obtain ⟨used, hbody, hscan⟩ := scanBody_used true body
    refine ⟨byte '-' :: used, ?_, ?_⟩
    · rw [scanNumber_minus, List.cons_append, ← hbody]
    · rw [scanNumber_minus, scanNumber_minus, hscan]
  · obtain ⟨used, hbody, hscan⟩ := scanBody_used false text
    -- without a minus in front of the text there is none in front of the token
    have hused : used.head? ≠ some (byte '-') := by
      intro hhead
      obtain ⟨l, rfl⟩ := List.head?_eq_some_iff.mp hhead
      rw [hbody] at hminus
      exact hminus rfl
    refine ⟨used, ?_, ?_⟩
    · rw [scanNumber_body hminus, ← hbody]
    · rw [scanNumber_body hminus, scanNumber_body hused, hscan]

theorem scanNumber_neg (text : Bytes) :
    (scanNumber text).neg = decide (text.head? = some (byte '-')) := by
  by_cases hminus : text.head? = some (byte '-')
  · obtain ⟨body, rfl⟩ := List.head?_eq_some_iff.mp hminus
    rw [scanNumber_minus]
    rfl
  · rw [scanNumber_body hminus, decide_eq_false hminus]
    rfl

/-- What `strtod` and `strtoll` say of the token alone. -/
theorem tokenResult_eq {tok : Bytes} {t : NumberScan} (h : scanNumber tok = { t with rest := [] }) :
    tokenResult (t.frac.isSome || t.exp.isSome) tok = t.value := by
  have hneg : (tok.head? = some (byte '-')) ↔ t.neg = true := by
    have := scanNumber_neg tok
    rw [h] at this
    rw [this, decide_eq_true_eq]
  unfold tokenResult NumberScan.value
  rw [h]
  simp only [hneg]
  rfl

theorem fractionAt_eq (hi : i ≤ text.length) (hfuel : text.length < fuel) :
    ∃ j, fractionAt fuel text i = .ok ((scanFrac (text.drop i)).1.isSome, j) ∧
      text.drop j = (scanFrac (text.drop i)).2 ∧ j ≤ text.length := by
  rw [fractionAt, isAt_eq, Outcome.ok_bind]
  cases h : text.drop i with
  | nil => exact ⟨i, rfl, h, hi⟩
  | cons c rest =>
    -- a point and the digits behind it, or nothing
    by_cases hc : c = byte '.'
    · obtain ⟨j, hj, hdrop, -, hlen⟩ := digitsAt_eq (lt_of_drop h) hfuel
      rw [drop_succ h] at hdrop
      refine ⟨j, ?_, ?_, hlen⟩
      · rw [scanFrac, if_pos hc, if_pos (by simp [hc]), hj]
        rfl
      · rw [scanFrac, if_pos hc, hdrop]
    · refine ⟨i, ?_, ?_, hi⟩
      · rw [scanFrac, if_neg hc, if_neg (by simp [hc])]
        rfl
      · rw [scanFrac, if_neg hc, h]

/-- The sign of an exponent is passed over. -/
theorem signed_eq (hi : i ≤ text.length) :
    ∃ signed, testAt (fun c => c = byte '+' || c = byte '-') text i = .ok signed ∧
      text.drop (if signed then i + 1 else i) = (scanSign (text.drop i)).2 ∧
      (if signed then i + 1 else i) ≤ text.length := by
  rw [testAt_eq]
  cases h : text.drop i with
  | nil => exact ⟨false, rfl, h, hi⟩
  | cons c rest =>
    by_cases hc : c = byte '+' ∨ c = byte '-'
    · refine ⟨true, by simp [hc], ?_, lt_of_drop h⟩
      rw [scanSign, if_pos hc, if_pos rfl]
      exact drop_succ h
    · refine ⟨false, by simpa [not_or] using hc, ?_, hi⟩
      rw [scanSign, if_neg hc]
      exact h

theorem exponentAt_eq (hi : i ≤ text.length) (hfuel : text.length < fuel) :
    ∃ j, exponentAt fuel text i = .ok ((scanExp (text.drop i)).1.isSome, j) ∧
      text.drop j = (scanExp (text.drop i)).2 ∧ j ≤ text.length := by
  rw [exponentAt, testAt_eq, Outcome.ok_bind]
  cases h : text.drop i with
  | nil => exact ⟨i, rfl, h, hi⟩
  | cons c rest =>
    by_cases hc : c = byte 'e' ∨ c = byte 'E'
    · -- the digits start behind the sign, if there is one
      obtain ⟨signed, hsigned, hsign, hlen⟩ := signed_eq (lt_of_drop h)
      have hstart : (if signed then i + 2 else i + 1) = if signed then i + 1 + 1 else i + 1 := rfl
      obtain ⟨j, hj, hdrop, -, hlen'⟩ := digitsAt_eq hlen hfuel
      rw [hsign, drop_succ h] at hdrop
      refine ⟨j, ?_, ?_, hlen'⟩
      · rw [scanExp, if_pos hc, if_pos (by simpa using hc), hsigned, Outcome.ok_bind, hstart, hj]
        rfl
      · rw [scanExp, if_pos hc, hdrop]
    · refine ⟨i, ?_, ?_, hi⟩
      · rw [scanExp, if_neg hc, if_neg (by simpa [not_or] using hc)]
        rfl
      · rw [scanExp, if_neg hc, h]

/-- The token at position `i`. -/
theorem tokenAt_eq {c : UInt8} (h : text.drop i = c :: rest) (hfuel : text.length < fuel) :
    ∃ j, tokenAt fuel text i = .ok ((scanNumber (c :: rest)).frac.isSome ||
        (scanNumber (c :: rest)).exp.isSome, j) ∧
      text.drop j = (scanNumber (c :: rest)).rest ∧ j ≤ text.length := by
  -- behind a minus sign the digits start one position later
  obtain ⟨body, start, hstart, hlen, hbody, hscan⟩ : ∃ body start,
      (if c = byte '-' then i + 1 else i) = start ∧ start ≤ text.length ∧
      text.drop start = body ∧ ∃ neg, scanNumber (c :: rest) = scanBody neg body := by
    by_cases hminus : c = byte '-'
    · refine ⟨rest, i + 1, if_pos hminus, lt_of_drop h, drop_succ h, true, ?_⟩
      rw [hminus, scanNumber_minus]
    · refine ⟨c :: rest, i, if_neg hminus, (lt_of_drop h).le, h, false, scanNumber_body ?_⟩
      simpa using hminus
  obtain ⟨neg, hscan⟩ := hscan
  obtain ⟨j₁, hj₁, hdrop₁, -, hlen₁⟩ := digitsAt_eq hlen hfuel
  obtain ⟨j₂, hj₂, hdrop₂, hlen₂⟩ := fractionAt_eq hlen₁ hfuel
  obtain ⟨j₃, hj₃, hdrop₃, hlen₃⟩ := exponentAt_eq hlen₂ hfuel
  rw [hdrop₁, hbody] at hdrop₂
  rw [hdrop₂] at hdrop₃
  refine ⟨j₃, ?_, ?_, hlen₃⟩
  · rw [tokenAt, charAt_eq h, Outcome.ok_bind, hstart, hj₁, Outcome.ok_bind, hj₂, Outcome.ok_bind]
    simp only [hj₃, Outcome.ok_bind, hscan, scanBody, hdrop₁, hdrop₂, hbody]
    rfl
  · rw [hdrop₃, hscan]
    rfl

/-! ## Cursors -/

/-- The state that a cursor stands for. -/
def Cursor.view (text : Bytes) (s : Cursor) : ParserState := ⟨text.drop s.pos, s.nodes⟩

/-- The cursor is in the text, and `parse_value` has not been entered too deeply. -/
structure Cursor.Within (opt : ParseOptions) (text : Bytes) (s : Cursor) : Prop where
  pos : s.pos ≤ text.length
  deepest : s.deepest ≤ opt.maxDepth + 1

/-- What a function does on positions is what it does on the rest of the text. -/
structure ParsedAt.Agrees (opt : ParseOptions) (text : Bytes) (r' : ParsedAt) (r : Parsed) :
    Prop where
  error : r'.error = r.error
  out : r'.out = r.out
  state : r'.state.view text = r.state
  within : r'.state.Within opt text

section Cursors

variable {s : Cursor}

theorem Cursor.Within.move (h : s.Within opt text) (hi : i ≤ text.length) :
    Cursor.Within opt text { s with pos := i } := ⟨hi, h.deepest⟩

/-- The two agree when they stop at the same place. -/
theorem ParsedAt.agrees (h : s.Within opt text) (hi : i ≤ text.length) (hdrop : text.drop i = rest)
    (e : ParseError) (v : Value) :
    ParsedAt.Agrees opt text ⟨e, v, { s with pos := i }⟩ ⟨e, v, ⟨rest, s.nodes⟩⟩ :=
  ⟨rfl, rfl, by rw [Cursor.view, hdrop], h.move hi⟩

/-- A word is found at a position where the rest of the text starts with it. -/
theorem wordAt_agrees (h : s.Within opt text) (word : Bytes) (v : Value) :
    ∃ r', wordAt text word v s = .ok r' ∧
      ParsedAt.Agrees opt text r' (parseWord word v (s.view text)) := by
  unfold wordAt parseWord
  rcases matchAt_eq word h.pos with ⟨rest, hword, hmatch, hdrop, hlen⟩ | ⟨hword, hmatch⟩
  · rw [hmatch, show (s.view text).rest = text.drop s.pos from rfl, hword]
    exact ⟨_, rfl, ParsedAt.agrees h hlen hdrop _ _⟩
  · rw [hmatch, show (s.view text).rest = text.drop s.pos from rfl, hword]
    exact ⟨_, rfl, ParsedAt.agrees h h.pos rfl _ _⟩

/-- One of two words of three letters. -/
theorem eitherAt_eq {upper lower : Bytes} (hupper : upper.length = 3) (hlower : lower.length = 3)
    (hi : i ≤ text.length) :
    (∃ j rest, (matchWord upper (text.drop i)).or (matchWord lower (text.drop i)) = some rest ∧
      eitherAt text upper lower i = .ok (some j) ∧ text.drop j = rest ∧ j ≤ text.length) ∨
    ((matchWord upper (text.drop i)).or (matchWord lower (text.drop i)) = none ∧
      eitherAt text upper lower i = .ok none) := by
  rcases matchAt_eq upper hi with ⟨rest, hword, hmatch, hdrop, hlen⟩ | ⟨hword, hmatch⟩
  · refine Or.inl ⟨_, rest, by rw [hword, Option.some_or], ?_, hdrop, hlen⟩
    rw [eitherAt, if_pos (hupper ▸ hlen), hmatch]
    rfl
  rcases matchAt_eq lower hi with ⟨rest, hword', hmatch', hdrop, hlen⟩ | ⟨hword', hmatch'⟩
  · refine Or.inl ⟨_, rest, by rw [hword, hword', Option.none_or], ?_, hdrop, hlen⟩
    rw [eitherAt, if_pos (hlower ▸ hlen), hmatch]
    exact hmatch'
  · refine Or.inr ⟨by rw [hword, hword', Option.none_or], ?_⟩
    -- with fewer than three characters left neither word is looked for
    unfold eitherAt
    split
    · rw [hmatch]
      exact hmatch'
    · rfl

theorem nanInfAt_agrees (h : s.Within opt text) {c : UInt8}
    (hc : c = byte '+' ∨ c = byte 'I' ∨ c = byte 'N') :
    ∃ r', nanInfAt opt text s = .ok r' ∧
      ParsedAt.Agrees opt text r' (parseNumber opt c (s.view text)) := by
  unfold nanInfAt parseNumber
  rw [if_pos hc, show (s.view text).rest = text.drop s.pos from rfl]
  have hnan := @eitherAt_eq text s.pos (str "NaN") (str "nan") rfl rfl h.pos
  have hinf := @eitherAt_eq text s.pos (str "Inf") (str "inf") rfl rfl h.pos
  rcases hnan with ⟨j, rest, hword, hmatch, hdrop, hlen⟩ | ⟨hword, hmatch⟩
  · rw [hmatch, hword]
    -- the word is there, and the option decides
    by_cases hallow : opt.allowNanInf = true
    · simp only [Outcome.ok_bind, if_pos hallow]
      exact ⟨_, rfl, ParsedAt.agrees h hlen hdrop _ _⟩
    · simp only [Outcome.ok_bind, if_neg hallow]
      exact ⟨_, rfl, ParsedAt.agrees h hlen hdrop _ _⟩
  rw [hmatch, hword]
  rcases hinf with ⟨j, rest, hword, hmatch, hdrop, hlen⟩ | ⟨hword, hmatch⟩
  · rw [hword]
    simp only [Outcome.ok_bind, hmatch]
    by_cases hallow : opt.allowNanInf = true
    · simp only [if_pos hallow]
      exact ⟨_, rfl, ParsedAt.agrees h hlen hdrop _ _⟩
    · simp only [if_neg hallow]
      exact ⟨_, rfl, ParsedAt.agrees h hlen hdrop _ _⟩
  · rw [hword]
    simp only [Outcome.ok_bind, hmatch]
    exact ⟨_, rfl, ParsedAt.agrees h h.pos rfl _ _⟩

/-- `parse_number` at its first character. -/
theorem numberAt_agrees (h : s.Within opt text) {c : UInt8} (hdrop : text.drop s.pos = c :: rest)
    (hfuel : text.length < fuel) :
    ∃ r', numberAt fuel opt text s = .ok r' ∧
      ParsedAt.Agrees opt text r' (parseNumber opt c (s.view text)) := by
  rw [numberAt, charAt_eq hdrop, Outcome.ok_bind]
  by_cases hword : c = byte '+' ∨ c = byte 'I' ∨ c = byte 'N'
  · rw [if_pos hword]
    exact nanInfAt_agrees h hword
  rw [if_neg hword]
  obtain ⟨j, hj, hrest, hlen⟩ := tokenAt_eq hdrop hfuel
  obtain ⟨tok, htok, hscan⟩ := scanNumber_used (c :: rest)
  have hview : (s.view text).rest = c :: rest := hdrop
  -- the token is what lies between the two positions
  have hlength : tok.length + (text.length - j) = text.length - s.pos := by
    rw [← List.length_drop, ← List.length_drop, hdrop, hrest, ← List.length_append, ← htok]
  have hpos := h.pos
  have hslice : sliceAt text s.pos j = .ok tok := by
    rw [sliceAt, if_pos hlen, hdrop, htok, List.take_left' (by omega)]
  rw [hj, Outcome.ok_bind, parseNumber_eq hword, hview, ← tokenResult_eq hscan]
  by_cases hempty : j = s.pos
  · -- an empty token has no value
    have hnil : tok = [] := by
      apply List.eq_nil_of_length_eq_zero
      omega
    have hnone : tokenResult ((scanNumber (c :: rest)).frac.isSome ||
        (scanNumber (c :: rest)).exp.isSome) tok = none := by
      rw [hnil, tokenResult]
      split <;> rfl
    rw [hnone]
    simp only [if_pos hempty]
    exact ⟨_, rfl, ParsedAt.agrees h hlen hrest _ _⟩
  · simp only [if_neg hempty, hslice, Outcome.ok_bind]
    cases tokenResult ((scanNumber (c :: rest)).frac.isSome ||
        (scanNumber (c :: rest)).exp.isSome) tok with
    | some v => exact ⟨_, rfl, ParsedAt.agrees h hlen hrest _ _⟩
    | none => exact ⟨_, rfl, ParsedAt.agrees h hlen hrest _ _⟩

/-- The cases of `parse_value` without recursion. -/
theorem scalarAt_agrees (h : s.Within opt text) {c : UInt8} (hdrop : text.drop s.pos = c :: rest)
    (hfuel : text.length < fuel) :
    ∃ r', scalarAt fuel opt text c s = .ok r' ∧
      ParsedAt.Agrees opt text r' (parseScalar opt c (s.view text)) := by
  unfold scalarAt parseScalar
  by_cases hquote : c = byte '"'
  · obtain ⟨j, hj, hrest, hlen⟩ := @stringAt_eq opt text rest fuel s.pos c hdrop hfuel
    rw [if_pos hquote, if_pos hquote, hj, show (s.view text).rest = c :: rest from hdrop]
    rcases hparse : parseString opt (c :: rest) with ⟨str?, after⟩
    rw [hparse] at hrest
    cases str? with
    | some str => exact ⟨_, rfl, ParsedAt.agrees h hlen hrest _ _⟩
    | none => exact ⟨_, rfl, ParsedAt.agrees h hlen hrest _ _⟩
  rw [if_neg hquote, if_neg hquote]
  -- the first character decides which token is read, in the same order in both parsers
  split_ifs
  · exact wordAt_agrees h _ _
  · exact wordAt_agrees h _ _
  · exact wordAt_agrees h _ _
  · exact numberAt_agrees h hdrop hfuel
  · exact ⟨_, rfl, ParsedAt.agrees h h.pos rfl _ _⟩

/-! ## Items of arrays and objects -/

/-- What follows an item, on positions and on the rest of the text. -/
theorem separatorAt_agrees (h : s.Within opt text) (hfuel : text.length < fuel) (closing : UInt8) :
    ∃ s' : Cursor, s'.Within opt text ∧
      ((separatorAt fuel text closing s = .ok (.comma s') ∧
          separator closing (s.view text) = .comma (s'.view text)) ∨
        (separatorAt fuel text closing s = .ok (.close s') ∧
          separator closing (s.view text) = .close (s'.view text)) ∨
        ∃ e, separatorAt fuel text closing s = .ok (.bad e s') ∧
          separator closing (s.view text) = .bad e (s'.view text)) := by
  obtain ⟨j, hj, hskip, -, hlen⟩ := skipWsAt_eq h.pos hfuel
  unfold separatorAt separator ParserState.skipWs Cursor.view
  rw [hj, Outcome.ok_bind]
  cases hdrop : text.drop j with
  | nil =>
    have hend : text.length ≤ j := not_lt.mp fun hlt => drop_ne_nil_iff.mpr hlt hdrop
    rw [hdrop] at hskip
    refine ⟨{ s with pos := j }, h.move hlen, Or.inr (Or.inr ⟨.unexpectedEnd, if_pos hend, ?_⟩)⟩
    simp only [← hskip, hdrop]
  | cons c rest =>
    have hlt := lt_of_drop hdrop
    rw [if_neg (not_le.mpr hlt), charAt_eq hdrop, Outcome.ok_bind]
    rw [hdrop] at hskip
    -- the separator is looked at in the same order on both sides
    by_cases hcomma : c = byte ','
    · refine ⟨{ s with pos := j + 1 }, h.move hlt, Or.inl ⟨if_pos hcomma, ?_⟩⟩
      simp only [← hskip, if_pos hcomma, drop_succ hdrop]
    rw [if_neg hcomma]
    by_cases hclose : c = closing
    · refine ⟨{ s with pos := j + 1 }, h.move hlt, Or.inr (Or.inl ⟨if_pos hclose, ?_⟩)⟩
      simp only [← hskip, if_neg hcomma, if_pos hclose, drop_succ hdrop]
    · refine ⟨{ s with pos := j }, h.move hlen,
        Or.inr (Or.inr ⟨.unexpectedChar, if_neg hclose, ?_⟩)⟩
      simp only [← hskip, if_neg hcomma, if_neg hclose, hdrop]

/-- A round of a loop on positions is a round of the loop on the rest of the text. -/
inductive StepAgrees (opt : ParseOptions) (text : Bytes) {α : Type} :
    (α × Cursor) ⊕ ParsedAt → (α × ParserState) ⊕ Parsed → Prop
  | more (a : α) {s : Cursor} (h : s.Within opt text) :
      StepAgrees opt text (.inl (a, s)) (.inl (a, s.view text))
  | done {r' : ParsedAt} {r : Parsed} (h : r'.Agrees opt text r) :
      StepAgrees opt text (.inr r') (.inr r)

theorem nextAt_agrees {α : Type} {r' : ParsedAt} {r : Parsed} (hr : r'.Agrees opt text r)
    (hfuel : text.length < fuel) (closing : UInt8) (more : α) (done : Value) :
    ∃ x', nextAt fuel text closing more done r' = .ok x' ∧
      StepAgrees opt text x' (nextOf closing more done r) := by
  unfold nextAt nextOf
  rw [hr.error]
  by_cases herror : r.error ≠ .none
  · rw [if_pos herror, if_pos herror]
    exact ⟨_, rfl, .done ⟨rfl, rfl, hr.state, hr.within⟩⟩
  rw [if_neg herror, if_neg herror, ← hr.state]
  -- a comma goes on with more; the closing bracket and a bad separator end the loop
  obtain ⟨s', hs', ⟨hat, hsep⟩ | ⟨hat, hsep⟩ | ⟨e, hat, hsep⟩⟩ :=
    separatorAt_agrees hr.within hfuel closing
  · rw [hat, hsep]
    exact ⟨_, rfl, .more more hs'⟩
  · rw [hat, hsep]
    exact ⟨_, rfl, .done ⟨rfl, rfl, rfl, hs'⟩⟩
  · rw [hat, hsep]
    exact ⟨_, rfl, .done ⟨rfl, rfl, rfl, hs'⟩⟩

/-- The call that parses a child, on positions and on the rest of the text. -/
def ChildAgrees (opt : ParseOptions) (text : Bytes) (childAt : Cursor → Checked ParsedAt)
    (child : ParserState → Run Parsed) : Prop :=
  ∀ (s : Cursor) (r : Parsed), s.Within opt text → child (s.view text) = .ok r →
    ∃ r', childAt s = .ok r' ∧ r'.Agrees opt text r

/-- Loops whose rounds agree return results that agree, whatever the budget of the second. -/
theorem loop_agrees {α : Type} {step : α × ParserState → Run ((α × ParserState) ⊕ Parsed)}
    {stepAt : α × Cursor → Checked ((α × Cursor) ⊕ ParsedAt)}
    (hstep : ∀ (a : α) (s : Cursor) x, s.Within opt text → step (a, s.view text) = .ok x →
      ∃ x', stepAt (a, s) = .ok x' ∧ StepAgrees opt text x' x)
    {budget : ℕ} (hbudget : budget ≤ fuel) {a : α} {r : Parsed} (h : s.Within opt text)
    (hloop : loop step budget (a, s.view text) = .ok r) :
    ∃ r', loop stepAt fuel (a, s) = .ok r' ∧ r'.Agrees opt text r := by
  -- the items so far are the same, and the position shows the rest of the text
  let R : α × ParserState → α × Cursor → Prop :=
    fun st st' => st'.1 = st.1 ∧ st'.2.view text = st.2 ∧ st'.2.Within opt text
  have hinl : ∀ st st' t, R st st' → step st = .ok (.inl t) →
      ∃ t', stepAt st' = .ok (.inl t') ∧ R t t' := by
    rintro ⟨b, st⟩ ⟨b', st'⟩ t ⟨rfl, rfl, hst⟩ hround
    obtain ⟨x', hx', hagrees⟩ := hstep _ _ _ hst hround
    cases hagrees with
    | more c hs => exact ⟨_, hx', rfl, rfl, hs⟩
  have hinr : ∀ st st' q, R st st' → step st = .ok (.inr q) →
      ∃ q', stepAt st' = .ok (.inr q') ∧ q'.Agrees opt text q := by
    rintro ⟨b, st⟩ ⟨b', st'⟩ q ⟨rfl, rfl, hst⟩ hround
    obtain ⟨x', hx', hagrees⟩ := hstep _ _ _ hst hround
    cases hagrees with
    | done hq => exact ⟨_, hx', hq⟩
  obtain ⟨r', hr', hloop'⟩ := loop_simulate (Q := fun q q' => q'.Agrees opt text q) hinl hinr
    (show R (a, s.view text) (a, s) from ⟨rfl, rfl, h⟩) hloop
  exact ⟨r', loop_mono hbudget hloop', hr'⟩

section Items

variable {childAt : Cursor → Checked ParsedAt} {child : ParserState → Run Parsed}

/-- One round of the loop of `parse_array`. -/
theorem arrayStepAt_agrees (hchild : ChildAgrees opt text childAt child)
    (hfuel : text.length < fuel) (arr : List Value) (h : s.Within opt text)
    {x : (List Value × ParserState) ⊕ Parsed}
    (hstep : arrayStep child (arr, s.view text) = .ok x) :
    ∃ x', arrayStepAt fuel text childAt (arr, s) = .ok x' ∧ StepAgrees opt text x' x := by
  obtain ⟨j, hj, hskip, -, hlen⟩ := skipWsAt_eq h.pos hfuel
  have hview : (s.view text).skipWs = Cursor.view text { s with pos := j } := by
    simp only [ParserState.skipWs, Cursor.view, hskip]
  simp only [arrayStep, hview] at hstep
  simp only [arrayStepAt, hj, Outcome.ok_bind]
  -- at the end of the text both report it; else both read an element and go on behind it
  by_cases hend : text.length ≤ j
  · have hnil : text.drop j = [] := List.drop_eq_nil_of_le hend
    rw [if_pos (show (Cursor.view text { s with pos := j }).rest = [] from hnil)] at hstep
    rw [if_pos hend, ← Outcome.ok.inj hstep]
    exact ⟨_, rfl, .done ⟨rfl, rfl, rfl, h.move hlen⟩⟩
  · have hne : (Cursor.view text { s with pos := j }).rest ≠ [] :=
      drop_ne_nil_iff.mpr (not_le.mp hend)
    rw [if_neg hne] at hstep
    obtain ⟨r, hr, hnext⟩ := Outcome.bind_eq_ok.mp hstep
    obtain ⟨r', hr', hagrees⟩ := hchild _ r (h.move hlen) hr
    rw [if_neg hend, hr', Outcome.ok_bind, arrayNextAt, ← Outcome.ok.inj hnext, arrayNext_eq,
      hagrees.out]
    exact nextAt_agrees hagrees hfuel _ _ _

/-- A round of the loop of `parse_object` behind its key. -/
theorem memberAt_agrees (hchild : ChildAgrees opt text childAt child)
    (hfuel : text.length < fuel) (key : Bytes) (obj : List (Bytes × Value)) (h : s.Within opt text)
    {quote after : Bytes} {s₀ : ParserState} (hnodes : s₀.nodes = s.nodes)
    (hquote : skipWs s₀.rest = byte '"' :: quote)
    (hkey : parseString opt (byte '"' :: quote) = (some key, after))
    (hafter : text.drop s.pos = after) {x : (List (Bytes × Value) × ParserState) ⊕ Parsed}
    (hstep : objectStep opt child (obj, s₀) = .ok x) :
    ∃ x', memberAt fuel text childAt key obj s = .ok x' ∧ StepAgrees opt text x' x := by
  obtain ⟨j, hj, hskip, -, hlen⟩ := skipWsAt_eq h.pos hfuel
  rw [hafter] at hskip
  rw [memberAt, hj, Outcome.ok_bind, isAt_eq, Outcome.ok_bind, hskip]
  by_cases hcolon : (skipWs after).head? = some (byte ':')
  · obtain ⟨rest, hrest⟩ := List.head?_eq_some_iff.mp hcolon
    have hdrop : text.drop j = byte ':' :: rest := hskip.trans hrest
    obtain ⟨k, hk, hskip', -, hlen'⟩ := skipWsAt_eq (lt_of_drop hdrop) hfuel
    rw [drop_succ hdrop] at hskip'
    rw [objectStep_key hquote hkey hrest obj, hnodes, ← hskip'] at hstep
    -- the colon is there, so the child is parsed
    obtain ⟨r, hr, hnext⟩ := Outcome.bind_eq_ok.mp hstep
    obtain ⟨r', hr', hagrees⟩ := hchild { s with pos := k } r (h.move hlen') hr
    rw [decide_eq_true hcolon, if_neg (by simp), hk, Outcome.ok_bind, hr', Outcome.ok_bind,
      objectNextAt, ← Outcome.ok.inj hnext, objectNext_eq, hagrees.out]
    exact nextAt_agrees hagrees hfuel _ _ _
  · rw [objectStep_noColon hquote hkey hcolon obj, hnodes] at hstep
    rw [decide_eq_false hcolon, if_pos (by simp), ← Outcome.ok.inj hstep]
    exact ⟨_, rfl, .done (ParsedAt.agrees h hlen hskip _ _)⟩

/-- One round of the loop of `parse_object`. -/
theorem objectStepAt_agrees (hchild : ChildAgrees opt text childAt child)
    (hfuel : text.length < fuel) (obj : List (Bytes × Value)) (h : s.Within opt text)
    {x : (List (Bytes × Value) × ParserState) ⊕ Parsed}
    (hstep : objectStep opt child (obj, s.view text) = .ok x) :
    ∃ x', objectStepAt fuel opt text childAt (obj, s) = .ok x' ∧ StepAgrees opt text x' x := by
  obtain ⟨j, hj, hskip, -, hlen⟩ := skipWsAt_eq h.pos hfuel
  simp only [objectStepAt, hj, Outcome.ok_bind, isAt_eq, hskip]
  by_cases hquote : (skipWs (text.drop s.pos)).head? = some (byte '"')
  · obtain ⟨quote, hrest⟩ := List.head?_eq_some_iff.mp hquote
    have hdrop : text.drop j = byte '"' :: quote := hskip.trans hrest
    obtain ⟨k, hk, hafter, hlen'⟩ := @stringAt_eq opt text quote fuel j (byte '"') hdrop hfuel
    rw [decide_eq_true hquote, if_neg (by simp), hk, Outcome.ok_bind]
    rcases hkey : parseString opt (byte '"' :: quote) with ⟨key?, after⟩
    rw [hkey] at hafter
    cases key? with
    | none =>
      -- a broken key
      rw [objectStep_brokenKey (s := s.view text) hrest hkey obj] at hstep
      rw [← Outcome.ok.inj hstep]
      exact ⟨_, rfl, .done (ParsedAt.agrees h hlen' hafter _ _)⟩
    | some key =>
      exact memberAt_agrees (s := { s with pos := k }) hchild hfuel key obj (h.move hlen') rfl hrest
        hkey hafter hstep
  · rw [objectStep_noQuote (s := s.view text) hquote obj] at hstep
    rw [decide_eq_false hquote, if_pos (by simp), ← Outcome.ok.inj hstep]
    exact ⟨_, rfl, .done (ParsedAt.agrees h hlen hskip _ _)⟩

end Items

/-- An array or object at its bracket: the brackets are closed at once, or the loops agree. -/
theorem bracketAt_agrees {α : Type} {opening closing : UInt8} {empty : Value} {start : α}
    {step : α × ParserState → Run ((α × ParserState) ⊕ Parsed)}
    {stepAt : α × Cursor → Checked ((α × Cursor) ⊕ ParsedAt)}
    (hstep : ∀ (a : α) (s : Cursor) x, s.Within opt text → step (a, s.view text) = .ok x →
      ∃ x', stepAt (a, s) = .ok x' ∧ StepAgrees opt text x' x)
    (hfuel : text.length < fuel) (h : s.Within opt text)
    (hdrop : text.drop s.pos = opening :: rest) {r : Parsed}
    (hr : (if (skipWs rest).head? = some closing then
        .ok ⟨.none, empty, ⟨(skipWs rest).tail, s.nodes⟩⟩
      else loop step ((skipWs rest).length + 1) (start, ⟨skipWs rest, s.nodes⟩)) = .ok r) :
    ∃ r', (do
        let pos ← skipWsAt fuel text (s.pos + 1)
        let closed ← isAt closing text pos
        if closed then return ⟨.none, empty, { s with pos := pos + 1 }⟩
        else loop stepAt fuel (start, { s with pos := pos }) : Checked ParsedAt) = .ok r' ∧
      r'.Agrees opt text r := by
  obtain ⟨j, hj, hskip, -, hlen⟩ := skipWsAt_eq (lt_of_drop hdrop) hfuel
  rw [drop_succ hdrop] at hskip
  rw [hj, Outcome.ok_bind, isAt_eq, Outcome.ok_bind, hskip]
  by_cases hclose : (skipWs rest).head? = some closing
  · obtain ⟨after, hafter⟩ := List.head?_eq_some_iff.mp hclose
    have hdrop' : text.drop j = closing :: after := hskip.trans hafter
    rw [if_pos hclose, hafter] at hr
    rw [decide_eq_true hclose, if_pos rfl, ← Outcome.ok.inj hr]
    exact ⟨_, rfl, ParsedAt.agrees h (lt_of_drop hdrop') (drop_succ hdrop') _ _⟩
  · rw [if_neg hclose] at hr
    rw [decide_eq_false hclose, if_neg (by simp)]
    -- the loop on the text has fewer rounds than the budget
    have hbudget : (skipWs rest).length + 1 ≤ fuel := by
      rw [← hskip, List.length_drop]
      omega
    rw [← hskip] at hr hbudget
    exact loop_agrees hstep hbudget (s := { s with pos := j }) (h.move hlen) hr

/-- `parse_array` at its bracket. -/
theorem arrayAt_agrees {childAt : Cursor → Checked ParsedAt} {child : ParserState → Run Parsed}
    (hchild : ChildAgrees opt text childAt child) (hfuel : text.length < fuel)
    (h : s.Within opt text) (hdrop : text.drop s.pos = byte '[' :: rest) {r : Parsed}
    (hr : parseArray child (s.view text) = .ok r) :
    ∃ r', arrayAt fuel text childAt s = .ok r' ∧ r'.Agrees opt text r := by
  rw [Cursor.view, hdrop, parseArray_eq] at hr
  exact bracketAt_agrees (fun arr s x hs hx => arrayStepAt_agrees hchild hfuel arr hs hx) hfuel h
    hdrop hr

/-- `parse_object` at its brace. -/
theorem objectAt_agrees {childAt : Cursor → Checked ParsedAt} {child : ParserState → Run Parsed}
    (hchild : ChildAgrees opt text childAt child) (hfuel : text.length < fuel)
    (h : s.Within opt text) (hdrop : text.drop s.pos = byte '{' :: rest) {r : Parsed}
    (hr : parseObject opt child (s.view text) = .ok r) :
    ∃ r', objectAt fuel opt text childAt s = .ok r' ∧ r'.Agrees opt text r := by
  rw [Cursor.view, hdrop, parseObject_eq] at hr
  exact bracketAt_agrees (fun obj s x hs hx => objectStepAt_agrees hchild hfuel obj hs hx) hfuel h
    hdrop hr

end Cursors

/-! ## Values -/

/-- `parse_value`, with a budget for the loops and the levels of recursion that are left. -/
theorem parseValueAt_agrees {levels depth : ℕ} (hdepth : depth ≤ opt.maxDepth + 1)
    (hfuel : text.length + levels < fuel) :
    ChildAgrees opt text (parseValueAt opt text fuel depth) (parseValue opt levels depth) := by
  induction levels generalizing fuel depth with
  | zero =>
    intro s r _ hr
    cases hr
  | succ levels ih =>
    intro s r h hr
    obtain ⟨fuel, rfl⟩ := Nat.exists_eq_succ_of_ne_zero (by omega : fuel ≠ 0)
    -- entering notes the depth
    have hentered : Cursor.Within opt text { s with deepest := max s.deepest depth } :=
      ⟨h.pos, max_le h.deepest hdepth⟩
    rw [parseValueAt]
    by_cases hdeep : opt.maxDepth < depth
    · rw [parseValue, if_pos hdeep] at hr
      rw [if_pos hdeep, ← Outcome.ok.inj hr]
      exact ⟨_, rfl, rfl, rfl, rfl, hentered⟩
    simp only [if_neg hdeep]
    have hle : depth ≤ opt.maxDepth := not_lt.mp hdeep
    by_cases hmany : opt.maxNodes < s.nodes + 1
    · rw [parseValue_tooMany hle (not_le.mpr hmany)] at hr
      rw [if_pos hmany, ← Outcome.ok.inj hr]
      exact ⟨_, rfl, rfl, rfl, rfl, hentered.pos, hentered.deepest⟩
    have hroom : (s.view text).nodes + 1 ≤ opt.maxNodes := not_lt.mp hmany
    obtain ⟨j, hj, hskip, -, hlen⟩ := skipWsAt_eq h.pos (show text.length < fuel by omega)
    have hcounted : Cursor.Within opt text ⟨j, s.nodes + 1, max s.deepest depth⟩ :=
      ⟨hlen, hentered.deepest⟩
    simp only [if_neg hmany, hj, Outcome.ok_bind]
    cases hdrop : text.drop j with
    | nil =>
      have hend : text.length ≤ j := not_lt.mp fun hlt => drop_ne_nil_iff.mpr hlt hdrop
      rw [parseValue_end hle hroom (hskip.symm.trans hdrop)] at hr
      rw [if_pos hend, ← Outcome.ok.inj hr]
      exact ⟨_, rfl, rfl, rfl, by rw [Cursor.view, hdrop]; rfl, hcounted⟩
    | cons c rest =>
      have hchild := @ih fuel (depth + 1) (by omega) (by omega)
      rw [parseValue_eq hle hroom (hskip.symm.trans hdrop), ← hdrop] at hr
      rw [if_neg (not_le.mpr (lt_of_drop hdrop)), charAt_eq hdrop, Outcome.ok_bind]
      by_cases hbrace : c = byte '{'
      · subst hbrace
        rw [if_pos rfl] at hr ⊢
        exact objectAt_agrees hchild (by omega) hcounted hdrop hr
      rw [if_neg hbrace] at hr ⊢
      by_cases hbracket : c = byte '['
      · subst hbracket
        rw [if_pos rfl] at hr ⊢
        exact arrayAt_agrees hchild (by omega) hcounted hdrop hr
      rw [if_neg hbracket] at hr ⊢
      rw [← Outcome.ok.inj hr]
      exact scalarAt_agrees hcounted hdrop (by omega)

/-- The parser on positions returns what the parser on texts returns: it never reads past the end of
the text, its position stays in the text, and `parse_value` is never entered more deeply than one
level below the limit. -/
theorem parseAt_agrees {r : ParseResult} (h : parse opt text = .ok r)
    (hfuel : text.length + (opt.maxDepth + 2) < fuel) :
    ∃ deepest, parseAt fuel opt text = .ok ⟨r, deepest⟩ ∧ deepest ≤ opt.maxDepth + 1 ∧
      r.consumed ≤ text.length := by
  have hstart : Cursor.Within opt text ⟨0, 0, 0⟩ := ⟨Nat.zero_le _, Nat.zero_le _⟩
  have hconsumed : ∀ {j : ℕ}, j ≤ text.length → text.length - (text.drop j).length = j := by
    intro j hj
    rw [List.length_drop]
    omega
  obtain ⟨p, hp, h⟩ := Outcome.bind_eq_ok.mp h
  obtain ⟨p', hp', hagrees⟩ :=
    parseValueAt_agrees (Nat.zero_le _) hfuel ⟨0, 0, 0⟩ p hstart hp
  have hrest : text.drop p'.state.pos = p.state.rest := congrArg ParserState.rest hagrees.state
  obtain ⟨j, hj, hskip, -, hlen⟩ := skipWsAt_eq hagrees.within.pos
    (show text.length < fuel by omega)
  rw [parseAt, hp', Outcome.ok_bind, hagrees.error]
  by_cases herror : p.error ≠ .none
  · -- the value is rejected
    rw [if_pos herror] at h ⊢
    dsimp only at h
    rw [← hrest, hconsumed hagrees.within.pos] at h
    obtain rfl := Outcome.ok.inj h
    exact ⟨_, rfl, hagrees.within.deepest, hagrees.within.pos⟩
  rw [if_neg herror] at h ⊢
  have hview : p.state.skipWs.rest = text.drop j := by
    rw [ParserState.skipWs, ← hrest, hskip]
  rw [hj, Outcome.ok_bind]
  simp only [hview, hconsumed hlen] at h
  by_cases hend : j ≠ text.length
  · -- something follows the value
    have hlt : j < text.length := lt_of_le_of_ne hlen hend
    rw [if_pos (drop_ne_nil_iff.mpr hlt)] at h
    rw [if_pos hend]
    obtain rfl := Outcome.ok.inj h
    exact ⟨_, rfl, hagrees.within.deepest, hlen⟩
  · have hnil : ¬ text.drop j ≠ [] := fun hne =>
      hend (drop_ne_nil_iff.mp hne).ne
    rw [if_neg hnil] at h
    rw [if_neg hend, hagrees.out]
    obtain rfl := Outcome.ok.inj h
    exact ⟨_, rfl, hagrees.within.deepest, hlen⟩

end TopologyFabric.Json

import TopologyFabric.Json.Written

/-!
# Reading Back What Was Written

The parser on a text of the writer. The text is read back if its strings are short ASCII strings and
if its nesting and the number of its values are within the limits; with too many values it is
rejected. A text that is accepted has no byte from `0x80` on, and the writer leaves such a byte in
place, so no other string is ever read back.

## Main results

- `parseValue_written`: what `parse_value` does on a written value
- `parse_written_iff`: a written value is accepted iff its strings are ASCII and its values are few
- `isAscii_of_accepted`: an accepted text is ASCII
-/

namespace TopologyFabric.Json

open Library

/-! ## Sizes and limits -/

namespace Value

mutual

/-- The number of values in a value. -/
def count : Value → ℕ
  | .array a => countElements a + 1
  | .object o => countMembers o + 1
  | _ => 1

def countElements : List Value → ℕ
  | [] => 0
  | v :: a => count v + countElements a

def countMembers : List (Bytes × Value) → ℕ
  | [] => 0
  | (_, v) :: o => count v + countMembers o

end

mutual

/-- At nesting depth `d` the value stays within the depth limit, all its strings and keys have the
property, and its objects are sorted as those of the program are. -/
def Fits (maxDepth : ℕ) (P : Bytes → Prop) (d : ℕ) : Value → Prop
  | .string s => d ≤ maxDepth ∧ P s
  | .array a => d ≤ maxDepth ∧ FitElements maxDepth P (d + 1) a
  | .object o => d ≤ maxDepth ∧ SortedKeys o ∧ FitMembers maxDepth P (d + 1) o
  | _ => d ≤ maxDepth

def FitElements (maxDepth : ℕ) (P : Bytes → Prop) (d : ℕ) : List Value → Prop
  | [] => True
  | v :: a => Fits maxDepth P d v ∧ FitElements maxDepth P d a

def FitMembers (maxDepth : ℕ) (P : Bytes → Prop) (d : ℕ) : List (Bytes × Value) → Prop
  | [] => True
  | (k, v) :: o => P k ∧ Fits maxDepth P d v ∧ FitMembers maxDepth P d o

end

mutual

/-- The value that is read back: integers keep their value up to `2 ^ 63`, a double is rounded to
the six decimals that are written, and NaN becomes null. -/
def reread : Value → Value
  | .null => .null
  | .bool b => .bool b
  | .int v => tokenValue (intToString v.toInt)
  | .uint v => tokenValue (natToString v.toNat)
  | .double d => if d = .nan then .null else tokenValue (writeDouble d)
  | .string s => .string s
  | .array a => .array (rereadElements a)
  | .object o => .object (rereadMembers o)

def rereadElements : List Value → List Value
  | [] => []
  | v :: a => reread v :: rereadElements a

def rereadMembers : List (Bytes × Value) → List (Bytes × Value)
  | [] => []
  | (k, v) :: o => (k, reread v) :: rereadMembers o

end

variable {maxDepth d : ℕ} {P : Bytes → Prop}

theorem fitElements_iff {a : List Value} :
    FitElements maxDepth P d a ↔ ∀ v ∈ a, v.Fits maxDepth P d := by
  induction a with
  | nil => simp [FitElements]
  | cons v a ih => rw [FitElements, ih, List.forall_mem_cons]

theorem fitMembers_iff {o : List (Bytes × Value)} :
    FitMembers maxDepth P d o ↔ ∀ e ∈ o, P e.1 ∧ e.2.Fits maxDepth P d := by
  induction o with
  | nil => simp [FitMembers]
  | cons e o ih =>
    obtain ⟨k, v⟩ := e
    rw [FitMembers, ih, List.forall_mem_cons, and_assoc]

theorem rereadElements_eq_map (a : List Value) : rereadElements a = a.map reread := by
  induction a with
  | nil => rfl
  | cons v a ih => rw [rereadElements, ih, List.map_cons]

theorem rereadMembers_eq_map (o : List (Bytes × Value)) :
    rereadMembers o = o.map fun e => (e.1, e.2.reread) := by
  induction o with
  | nil => rfl
  | cons e o ih =>
    obtain ⟨k, v⟩ := e
    rw [rereadMembers, ih, List.map_cons]

theorem sortedKeys_rereadMembers {o : List (Bytes × Value)} (h : SortedKeys o) :
    SortedKeys (rereadMembers o) := by
  rw [rereadMembers_eq_map]
  exact List.pairwise_map.mpr h

end Value

/-! ## The shape of written text -/

variable {opt : ParseOptions} {mode : WriteMode} {d wd fuel : ℕ} {rest : Bytes}

theorem allWs_indent (mode : WriteMode) (d : ℕ) : AllWs (indent mode d) := by
  intro c hc
  cases mode with
  | compact => simp [indent] at hc
  | pretty =>
    rcases List.mem_cons.mp hc with rfl | hc
    · decide
    · rw [(List.mem_replicate.mp hc).2]
      decide

/-- A written value starts with a character that closes nothing. -/
theorem writeValue_head (v : Value) : ∃ c t, writeValue mode wd v = c :: t ∧ StartsValue c := by
  have hnumber : ∀ {tok : Bytes}, NumberToken tok → ∃ c t, tok = c :: t ∧ StartsValue c := by
    intro tok htok
    obtain ⟨c, t, rfl, hc⟩ := htok.head
    exact ⟨c, t, rfl, startsValue_of_number hc⟩
  -- numbers aside, the first character is fixed
  cases v with
  | null => exact ⟨byte 'n', _, rfl, by decide, by decide, by decide⟩
  | bool b =>
    cases b with
    | false => exact ⟨byte 'f', _, rfl, by decide, by decide, by decide⟩
    | true => exact ⟨byte 't', _, rfl, by decide, by decide, by decide⟩
  | int i => exact hnumber (numberToken_intToString _)
  | uint u => exact hnumber (numberToken_natToString _)
  | double x =>
    by_cases hx : x = .nan
    · subst hx
      exact ⟨byte 'n', _, rfl, by decide, by decide, by decide⟩
    · exact hnumber (numberToken_writeDouble hx)
  | string s => exact ⟨byte '"', _, rfl, by decide, by decide, by decide⟩
  | array a => exact ⟨byte '[', _, rfl, by decide, by decide, by decide⟩
  | object o => exact ⟨byte '{', _, rfl, by decide, by decide, by decide⟩

theorem skipWs_written {ws : Bytes} (hws : AllWs ws) (v : Value) (rest : Bytes) :
    skipWs (ws ++ (writeValue mode wd v ++ rest)) = writeValue mode wd v ++ rest := by
  obtain ⟨c, t, htext, hc⟩ := @writeValue_head mode wd v
  rw [skipWs_append hws, htext, List.cons_append, skipWs_eq_self hc.1]

/-! ## Reading a written value back -/

/-- What a call does on the text of a value that contains `n` values: it reads the value back if
they are within the limit, else it fails. -/
def ReadsBack (opt : ParseOptions) (nodes n : ℕ) (v : Value) (rest : Bytes) (r : Parsed) : Prop :=
  if nodes + n ≤ opt.maxNodes then r = ⟨.none, v, ⟨rest, nodes + n⟩⟩ else r.error ≠ .none

/-- What is left of the limits for the rest of an array or object once a part has been read. -/
theorem ReadsBack.add {nodes m n : ℕ} {v : Value} {r : Parsed}
    (h : ReadsBack opt (nodes + m) n v rest r) : ReadsBack opt nodes (m + n) v rest r := by
  unfold ReadsBack at h ⊢
  rwa [← Nat.add_assoc]

/-- A string that is written as a literal within the limits. -/
def Writable (opt : ParseOptions) (s : Bytes) : Prop := IsAscii s ∧ s.length ≤ opt.maxStringBytes

/-- A single value, given what is read when the limit allows it. -/
private theorem readsBack_single {s : ParserState} {v : Value} (hd : d ≤ opt.maxDepth)
    (h : s.nodes + 1 ≤ opt.maxNodes →
      parseValue opt (fuel + 1) d s = .ok ⟨.none, v, ⟨rest, s.nodes + 1⟩⟩) :
    ∃ r, parseValue opt (fuel + 1) d s = .ok r ∧ ReadsBack opt s.nodes 1 v rest r := by
  by_cases hmax : s.nodes + 1 ≤ opt.maxNodes
  · refine ⟨_, h hmax, ?_⟩
    rw [ReadsBack, if_pos hmax]
  · refine ⟨_, parseValue_tooMany hd hmax, ?_⟩
    rw [ReadsBack, if_neg hmax]
    exact ParseError.noConfusion

/-- A value without children. -/
private theorem readsBack_scalar {s : ParserState} {text : Bytes} {v : Value}
    (hd : d ≤ opt.maxDepth) (hfuel : opt.maxDepth + 2 ≤ fuel + d) (htext : skipWs s.rest = text)
    (h : ReadsScalar opt text rest v) :
    ∃ r, parseValue opt fuel d s = .ok r ∧ ReadsBack opt s.nodes 1 v rest r := by
  obtain ⟨fuel, rfl⟩ : ∃ k, fuel = k + 1 := ⟨fuel - 1, by omega⟩
  obtain ⟨c, t, rfl, -, hbrace, hbracket, hv⟩ := h
  refine readsBack_single hd fun hmax => ?_
  rw [parseValue_eq hd hmax htext, if_neg hbrace, if_neg hbracket, hv]

/-- Between elements there is a comma. -/
theorem writeElements_next {a : List Value} (hne : a ≠ []) :
    writeElements mode wd false a = byte ',' :: writeElements mode wd true a := by
  cases a with
  | nil => exact absurd rfl hne
  | cons v a => rfl

theorem writeMembers_next {o : List (Bytes × Value)} (hne : o ≠ []) :
    writeMembers mode wd false o = byte ',' :: writeMembers mode wd true o := by
  cases o with
  | nil => exact absurd rfl hne
  | cons e o => rfl

/-- The first element, and what follows it. -/
theorem skipWs_elements (v : Value) (a : List Value) (after : Bytes) :
    skipWs (writeElements mode wd true (v :: a) ++ after) =
      writeValue mode (wd + 1) v ++ (writeElements mode wd false a ++ after) := by
  rw [writeElements, comma, if_pos rfl, List.nil_append, List.append_assoc, List.append_assoc,
    skipWs_written (allWs_indent mode _)]

/-- The blank behind a colon. -/
theorem allWs_blank (mode : WriteMode) :
    AllWs (if mode = .pretty then [byte ' '] else []) := by
  cases mode <;> decide

/-- The first key, its value, and what follows it. -/
private theorem skipWs_members (k : Bytes) (v : Value) (o : List (Bytes × Value))
    (after : Bytes) : ∃ text, skipWs text =
        writeValue mode (wd + 1) v ++ (writeMembers mode wd false o ++ after) ∧
      skipWs (writeMembers mode wd true ((k, v) :: o) ++ after) =
        writeString k ++ byte ':' :: text := by
  refine ⟨_, skipWs_written (allWs_blank mode) v _, ?_⟩
  rw [writeMembers, comma, if_pos rfl, List.nil_append, List.append_assoc,
    skipWs_append (allWs_indent mode _)]
  simp only [writeString, List.cons_append, List.append_assoc]
  rw [skipWs_eq_self (by decide)]

/-- A number ends before the comma or the closing bracket behind it. -/
theorem numberEnd_elements (a : List Value) {ws : Bytes} (hws : AllWs ws) (rest : Bytes) :
    NumberEnd (writeElements mode wd false a ++ (ws ++ byte ']' :: rest)) := by
  cases a with
  | nil =>
    rw [writeElements, List.nil_append]
    exact numberEnd_append hws (numberEnd_cons (Or.inr (Or.inl rfl)) _)
  | cons v a =>
    rw [writeElements_next (List.cons_ne_nil _ _)]
    exact numberEnd_cons (Or.inl rfl) _

theorem numberEnd_members (o : List (Bytes × Value)) {ws : Bytes} (hws : AllWs ws)
    (rest : Bytes) : NumberEnd (writeMembers mode wd false o ++ (ws ++ byte '}' :: rest)) := by
  cases o with
  | nil =>
    rw [writeMembers, List.nil_append]
    exact numberEnd_append hws (numberEnd_cons (Or.inr (Or.inr rfl)) _)
  | cons e o =>
    rw [writeMembers_next (List.cons_ne_nil _ _)]
    exact numberEnd_cons (Or.inl rfl) _

/-- A value with children, given what is made of them if the value itself is not one too many. -/
private theorem readsBack_open {s : ParserState} {n : ℕ} {v : Value} (hd : d ≤ opt.maxDepth)
    (h : s.nodes + 1 ≤ opt.maxNodes → ∃ r, parseValue opt (fuel + 1) d s = .ok r ∧
      ReadsBack opt (s.nodes + 1) n v rest r) :
    ∃ r, parseValue opt (fuel + 1) d s = .ok r ∧ ReadsBack opt s.nodes (n + 1) v rest r := by
  by_cases hmax : s.nodes + 1 ≤ opt.maxNodes
  · obtain ⟨r, hr, hback⟩ := h hmax
    exact ⟨r, hr, Nat.add_comm 1 n ▸ hback.add⟩
  · refine ⟨_, parseValue_tooMany hd hmax, ?_⟩
    rw [ReadsBack, if_neg (by omega)]
    exact ParseError.noConfusion

/-- A nonempty array, given what its loop does. -/
private theorem readsBack_array {s : ParserState} {n : ℕ}
    {text : Bytes} {v : Value} (hd : d ≤ opt.maxDepth)
    (hfuel : opt.maxDepth + 2 ≤ fuel + 1 + d) (htext : skipWs s.rest = byte '[' :: text)
    (hhead : ∃ c t, skipWs text = c :: t ∧ c ≠ byte ']')
    (h : ∃ budget r, loop (arrayStep (parseValue opt fuel (d + 1))) budget
      ([], ⟨skipWs text, s.nodes + 1⟩) = .ok r ∧ ReadsBack opt (s.nodes + 1) n v rest r) :
    ∃ r, parseValue opt (fuel + 1) d s = .ok r ∧ ReadsBack opt s.nodes (n + 1) v rest r := by
  obtain ⟨budget, r, hloop, hback⟩ := h
  obtain ⟨c, t, hhead, hc⟩ := hhead
  refine readsBack_open hd fun hmax => ⟨r, ?_, hback⟩
  exact parseValue_array hd (by omega) hmax htext (by simp [hhead, hc]) hloop

/-- A nonempty object, given what its loop does. -/
private theorem readsBack_object {s : ParserState} {n : ℕ}
    {text : Bytes} {v : Value} (hd : d ≤ opt.maxDepth)
    (hfuel : opt.maxDepth + 2 ≤ fuel + 1 + d) (htext : skipWs s.rest = byte '{' :: text)
    (hhead : ∃ t, skipWs text = byte '"' :: t)
    (h : ∃ budget r, loop (objectStep opt (parseValue opt fuel (d + 1))) budget
      ([], ⟨skipWs text, s.nodes + 1⟩) = .ok r ∧ ReadsBack opt (s.nodes + 1) n v rest r) :
    ∃ r, parseValue opt (fuel + 1) d s = .ok r ∧ ReadsBack opt s.nodes (n + 1) v rest r := by
  obtain ⟨budget, r, hloop, hback⟩ := h
  refine readsBack_open hd fun hmax => ⟨r, ?_, hback⟩
  exact parseValue_object hd (by omega) hmax htext (head_ne_brace hhead) hloop

mutual

/-- What `parse_value` does on a written value. -/
theorem parseValue_written (v : Value) (d wd fuel : ℕ)
    (rest : Bytes) (s : ParserState) (hfit : v.Fits opt.maxDepth (Writable opt) d)
    (hfuel : opt.maxDepth + 2 ≤ fuel + d) (hend : NumberEnd rest)
    (htext : skipWs s.rest = writeValue mode wd v ++ rest) :
    ∃ r, parseValue opt fuel d s = .ok r ∧ ReadsBack opt s.nodes v.count v.reread rest r := by
  match v with
  | .null =>
    exact readsBack_scalar hfit hfuel htext (readsScalar_word opt (Or.inl ⟨rfl, rfl⟩) rest)
  | .bool true =>
    exact readsBack_scalar hfit hfuel htext
      (readsScalar_word opt (Or.inr (Or.inl ⟨rfl, rfl⟩)) rest)
  | .bool false =>
    exact readsBack_scalar hfit hfuel htext
      (readsScalar_word opt (Or.inr (Or.inr ⟨rfl, rfl⟩)) rest)
  | .int i =>
    exact readsBack_scalar hfit hfuel htext (readsScalar_number (numberToken_intToString _) hend)
  | .uint u =>
    exact readsBack_scalar hfit hfuel htext (readsScalar_number (numberToken_natToString _) hend)
  | .double x =>
    by_cases hx : x = .nan
    · subst hx
      exact readsBack_scalar hfit hfuel htext (readsScalar_word opt (Or.inl ⟨rfl, rfl⟩) rest)
    · rw [Value.reread, if_neg hx]
      exact readsBack_scalar hfit hfuel htext (readsScalar_number (numberToken_writeDouble hx) hend)
  | .string str =>
    obtain ⟨hd, hascii, hlen⟩ := hfit
    exact readsBack_scalar hd hfuel htext
      (readsScalar_string (parseString_written hascii hlen rest))
  | .array [] =>
    obtain ⟨hd, -⟩ := hfit
    obtain ⟨fuel, rfl⟩ : ∃ k, fuel = k + 1 := ⟨fuel - 1, by omega⟩
    refine readsBack_single hd fun hmax => ?_
    rw [parseValue_eq hd hmax htext, if_neg (by decide), if_pos rfl]
    rfl
  | .array (v :: a) =>
    obtain ⟨hd, hfit⟩ := hfit
    obtain ⟨fuel, rfl⟩ : ∃ k, fuel = k + 1 := ⟨fuel - 1, by omega⟩
    rw [writeValue, if_neg (List.cons_ne_nil _ _), List.cons_append, List.append_assoc,
      List.append_assoc, List.singleton_append] at htext
    -- the array is not empty, so what follows the bracket is its first element
    refine readsBack_array hd hfuel htext ?_ ?_
    · obtain ⟨c, t, hhead, -, hc, -⟩ := @writeValue_head mode (wd + 1) v
      exact ⟨c, _, by rw [skipWs_elements, hhead, List.cons_append], hc⟩
    · exact arrayLoop_written (v :: a) (d + 1) wd fuel rest _ [] (List.cons_ne_nil _ _) hfit
        (by omega) (skipWs_idem _)
  | .object [] =>
    obtain ⟨hd, -⟩ := hfit
    obtain ⟨fuel, rfl⟩ : ∃ k, fuel = k + 1 := ⟨fuel - 1, by omega⟩
    refine readsBack_single hd fun hmax => ?_
    rw [parseValue_eq hd hmax htext, if_pos rfl]
    rfl
  | .object ((k, v) :: o) =>
    obtain ⟨hd, hsorted, hfit⟩ := hfit
    obtain ⟨fuel, rfl⟩ : ∃ k, fuel = k + 1 := ⟨fuel - 1, by omega⟩
    rw [writeValue, if_neg (List.cons_ne_nil _ _), List.cons_append, List.append_assoc,
      List.append_assoc, List.singleton_append] at htext
    refine readsBack_object hd hfuel htext ?_ ?_
    · obtain ⟨text, -, hskip⟩ := skipWs_members k v o (indent mode wd ++ byte '}' :: rest)
      exact ⟨_, hskip⟩
    · have hloop := objectLoop_written ((k, v) :: o) (d + 1) wd fuel rest
        ⟨skipWs (writeMembers mode wd true ((k, v) :: o) ++ (indent mode wd ++ byte '}' :: rest)),
          s.nodes + 1⟩ [] (List.cons_ne_nil _ _) hfit (by omega) (skipWs_idem _)
      -- the members were written in the order of their keys, so inserting them keeps the list
      rwa [foldl_insertEntry_of_sorted (Value.sortedKeys_rereadMembers hsorted)] at hloop

/-- What the loop of `parse_array` does on written elements. -/
theorem arrayLoop_written (a : List Value) (d wd fuel : ℕ)
    (rest : Bytes) (s : ParserState) (arr : List Value) (hne : a ≠ [])
    (hfit : Value.FitElements opt.maxDepth (Writable opt) d a)
    (hfuel : opt.maxDepth + 2 ≤ fuel + d)
    (htext : skipWs s.rest =
      skipWs (writeElements mode wd true a ++ (indent mode wd ++ byte ']' :: rest))) :
    ∃ budget r, loop (arrayStep (parseValue opt fuel d)) budget (arr, s) = .ok r ∧
      ReadsBack opt s.nodes (Value.countElements a) (.array (arr ++ Value.rereadElements a))
        rest r := by
  match a with
  | [] => exact absurd rfl hne
  | v :: a =>
    obtain ⟨hv, ha⟩ := hfit
    rw [skipWs_elements] at htext
    have hend : NumberEnd (writeElements mode wd false a ++ (indent mode wd ++ byte ']' :: rest)) :=
      numberEnd_elements a (allWs_indent mode wd) rest
    obtain ⟨r, hr, hback⟩ : ∃ r, parseValue opt fuel d s.skipWs = .ok r ∧
        ReadsBack opt s.nodes v.count v.reread _ r :=
      parseValue_written v d (wd + 1) fuel _ s.skipWs hv hfuel hend
        ((skipWs_idem _).trans htext)
    have hrest : s.skipWs.rest ≠ [] := by
      obtain ⟨c, t, hhead, -⟩ := @writeValue_head mode (wd + 1) v
      rw [show s.skipWs.rest = skipWs s.rest from rfl, htext, hhead]
      exact List.cons_ne_nil _ _
    have hstep := arrayStep_eq hrest hr arr
    by_cases hmax : s.nodes + v.count ≤ opt.maxNodes
    · rw [ReadsBack, if_pos hmax] at hback
      subst hback
      by_cases hnil : a = []
      · -- the last element
        subst hnil
        rw [writeElements, List.nil_append, arrayNext_close (allWs_indent mode wd)] at hstep
        refine ⟨1, _, loop_succ_inr hstep 0, ?_⟩
        rw [ReadsBack, Value.countElements, Value.countElements, Nat.add_zero, if_pos hmax]
        rfl
      · rw [writeElements_next hnil, List.cons_append, ← List.nil_append (byte ',' :: _),
          arrayNext_comma (fun _ h => by simp at h)] at hstep
        obtain ⟨budget, r, hloop, hback⟩ := arrayLoop_written a d wd fuel rest
          ⟨_, s.nodes + v.count⟩ (arr ++ [v.reread]) hnil ha hfuel rfl
        refine ⟨budget + 1, r, (loop_succ_inl hstep budget).trans hloop, ?_⟩
        rw [Value.rereadElements, List.append_cons]
        exact hback.add
    · rw [ReadsBack, if_neg hmax] at hback
      rw [arrayNext, if_pos hback] at hstep
      refine ⟨1, _, loop_succ_inr hstep 0, ?_⟩
      rw [ReadsBack, Value.countElements, if_neg (by omega)]
      exact hback

/-- What the loop of `parse_object` does on written members. -/
theorem objectLoop_written (o : List (Bytes × Value))
    (d wd fuel : ℕ) (rest : Bytes) (s : ParserState) (obj : List (Bytes × Value)) (hne : o ≠ [])
    (hfit : Value.FitMembers opt.maxDepth (Writable opt) d o)
    (hfuel : opt.maxDepth + 2 ≤ fuel + d)
    (htext : skipWs s.rest =
      skipWs (writeMembers mode wd true o ++ (indent mode wd ++ byte '}' :: rest))) :
    ∃ budget r, loop (objectStep opt (parseValue opt fuel d)) budget (obj, s) = .ok r ∧
      ReadsBack opt s.nodes (Value.countMembers o)
        (.object ((Value.rereadMembers o).foldl (fun o e => insertEntry e.1 e.2 o) obj))
        rest r := by
  match o with
  | [] => exact absurd rfl hne
  | (k, v) :: o =>
    obtain ⟨hk, hv, ho⟩ := hfit
    obtain ⟨text, hvalue, hskip⟩ :=
      @skipWs_members mode wd k v o (indent mode wd ++ byte '}' :: rest)
    rw [hskip] at htext
    have hend : NumberEnd (writeMembers mode wd false o ++ (indent mode wd ++ byte '}' :: rest)) :=
      numberEnd_members o (allWs_indent mode wd) rest
    obtain ⟨r, hr, hback⟩ : ∃ r, parseValue opt fuel d ⟨skipWs text, s.nodes⟩ = .ok r ∧
        ReadsBack opt s.nodes v.count v.reread _ r :=
      parseValue_written v d (wd + 1) fuel _ ⟨skipWs text, s.nodes⟩ hv hfuel hend
        ((skipWs_idem _).trans hvalue)
    have hstep := objectStep_eq htext (parseString_written hk.1 hk.2 _)
      (skipWs_eq_self (by decide) text) hr obj
    by_cases hmax : s.nodes + v.count ≤ opt.maxNodes
    · rw [ReadsBack, if_pos hmax] at hback
      subst hback
      by_cases hnil : o = []
      · -- the last member
        subst hnil
        rw [writeMembers, List.nil_append, objectNext_close (allWs_indent mode wd)] at hstep
        refine ⟨1, _, loop_succ_inr hstep 0, ?_⟩
        rw [ReadsBack, Value.countMembers, Value.countMembers, Nat.add_zero, if_pos hmax]
        rfl
      · rw [writeMembers_next hnil, List.cons_append, ← List.nil_append (byte ',' :: _),
          objectNext_comma (fun _ h => by simp at h)] at hstep
        obtain ⟨budget, r, hloop, hback⟩ := objectLoop_written o d wd fuel rest
          ⟨_, s.nodes + v.count⟩ (insertEntry k v.reread obj) hnil ho hfuel rfl
        exact ⟨budget + 1, r, (loop_succ_inl hstep budget).trans hloop, hback.add⟩
    · rw [ReadsBack, if_neg hmax] at hback
      rw [objectNext, if_pos hback] at hstep
      refine ⟨1, _, loop_succ_inr hstep 0, ?_⟩
      rw [ReadsBack, Value.countMembers, if_neg (by omega)]
      exact hback

end

/-! ## Accepted texts are ASCII -/

theorem isAscii_cons {c : UInt8} {s : Bytes} : IsAscii (c :: s) ↔ c < 0x80 ∧ IsAscii s :=
  List.forall_mem_cons

private theorem isAscii_ws {ws : Bytes} (hws : AllWs ws) : IsAscii ws := by
  intro c hc
  have hchar : ((c = byte ' ' ∨ c = 9) ∨ c = 10) ∨ c = 13 := by simpa [isWs] using hws c hc
  rcases hchar with ((rfl | rfl) | rfl) | rfl <;> decide

private theorem StringUnit.isAscii {raw dec : Bytes} (h : StringUnit raw dec) : IsAscii raw := by
  cases h with
  | plain _ _ hascii => exact isAscii_cons.mpr ⟨hascii, by decide⟩
  | @escape e b h =>
    have he : e < 0x80 := by
      -- every simple escape is one of eight characters
      by_contra hlarge
      have hne : ∀ a, a < 0x80 → e ≠ a := fun a ha => ne_of_not_ascii hlarge ha
      unfold simpleEscape at h
      rw [if_neg (hne _ (by decide)), if_neg (hne _ (by decide)), if_neg (hne _ (by decide)),
        if_neg (hne _ (by decide)), if_neg (hne _ (by decide)), if_neg (hne _ (by decide)),
        if_neg (hne _ (by decide)), if_neg (hne _ (by decide))] at h
      cases h
    exact isAscii_cons.mpr ⟨by decide, isAscii_cons.mpr ⟨he, by decide⟩⟩
  | @unicode h₁ h₂ h₃ h₄ cp h =>
    simp only [hexCodePoint, Option.bind_eq_bind, Option.bind_eq_some_iff] at h
    obtain ⟨_, hd₁, _, hd₂, _, hd₃, _, hd₄, -⟩ := h
    simp only [isAscii_cons]
    exact ⟨by decide, by decide, hexValue?_ascii hd₁, hexValue?_ascii hd₂, hexValue?_ascii hd₃,
      hexValue?_ascii hd₄, by decide⟩

private theorem StringBody.isAscii {raw dec : Bytes} (h : StringBody raw dec) : IsAscii raw := by
  induction h with
  | nil => decide
  | cons hunit _ ih => exact isAscii_append.mpr ⟨hunit.isAscii, ih⟩

private theorem BrokenString.isAscii {text : Bytes} (h : BrokenString opt text rest)
    (hrest : IsAscii rest) : IsAscii text := by
  obtain ⟨raw, dec, text', hbody, -, rfl, hstop⟩ := h
  have htext' : IsAscii text' := by
    cases hstop with
    | endOfText => exact hrest
    | nonAscii _ => exact hrest
    | badEscape _ => exact isAscii_cons.mpr ⟨by decide, hrest⟩
    | tooLong hunit _ => exact isAscii_append.mpr ⟨hunit.isAscii, hrest⟩
  exact isAscii_cons.mpr ⟨by decide, isAscii_append.mpr ⟨hbody.isAscii, htext'⟩⟩

private theorem NumberToken.isAscii {tok : Bytes} (h : NumberToken tok) : IsAscii tok := by
  refine h.forall_mem (fun c hc => ?_) (by decide)
  have hle : byte '0' ≤ c ∧ c ≤ byte '9' := by simpa [isDigit] using hc
  exact hle.2.trans_lt (by decide)

/-- Nothing that is read takes a byte from `0x80` on off the text: a string that reaches one is
broken there, and nothing else that is read has one. -/
theorem Reads.isAscii {g : Reading} {n : ℕ} {text : Bytes} {v : Value} {met : List (Bytes × Bytes)}
    (h : Reads opt g d n text rest v met) : IsAscii rest → IsAscii text := by
  -- the two pieces of text that the rules put together
  have hsep : ∀ {ws : Bytes} {c : UInt8} {text : Bytes}, AllWs ws → c < 0x80 → IsAscii text →
      IsAscii (ws ++ c :: text) := fun hws hc htext =>
    isAscii_append.mpr ⟨isAscii_ws hws, isAscii_cons.mpr ⟨hc, htext⟩⟩
  have hstring : ∀ {raw dec text : Bytes}, StringBody raw dec → IsAscii text →
      IsAscii (byte '"' :: (raw ++ byte '"' :: text)) := fun hbody htext =>
    isAscii_cons.mpr ⟨by decide, isAscii_append.mpr ⟨hbody.isAscii,
      isAscii_cons.mpr ⟨by decide, htext⟩⟩⟩
  induction h with
  | ws hc _ ih =>
    intro hrest
    exact isAscii_cons.mpr ⟨isAscii_ws (fun _ h => List.mem_singleton.mp h ▸ hc) _
      (List.mem_singleton_self _), ih hrest⟩
  | word _ hword =>
    intro hrest
    refine isAscii_append.mpr ⟨?_, hrest⟩
    rcases hword with ⟨rfl, -⟩ | ⟨rfl, -⟩ | ⟨rfl, -⟩ <;> decide
  | number _ htok _ => exact fun hrest => isAscii_append.mpr ⟨htok.isAscii, hrest⟩
  | nanInf _ _ hword =>
    intro hrest
    refine isAscii_append.mpr ⟨?_, hrest⟩
    simp only [List.mem_cons, List.not_mem_nil, or_false] at hword
    rcases hword with rfl | rfl | rfl | rfl <;> decide
  | string _ hbody _ => exact hstring hbody
  | brokenString _ h => exact h.brokenString.isAscii
  | emptyArray _ hws => exact fun hrest => isAscii_cons.mpr ⟨by decide, hsep hws (by decide) hrest⟩
  | array _ _ ih => exact fun hrest => isAscii_cons.mpr ⟨by decide, ih hrest⟩
  | emptyObject _ hws => exact fun hrest => isAscii_cons.mpr ⟨by decide, hsep hws (by decide) hrest⟩
  | object _ _ ih => exact fun hrest => isAscii_cons.mpr ⟨by decide, ih hrest⟩
  | lastElement hws _ ih => exact fun hrest => ih (hsep hws (by decide) hrest)
  | moreElements hws _ _ ih ihmore => exact fun hrest => ih (hsep hws (by decide) (ihmore hrest))
  | lastMember hws hws' hws'' hbody _ _ ih =>
    exact fun hrest => isAscii_append.mpr ⟨isAscii_ws hws,
      hstring hbody (hsep hws' (by decide) (ih (hsep hws'' (by decide) hrest)))⟩
  | moreMembers hws hws' hws'' hbody _ _ _ ih ihmore =>
    exact fun hrest => isAscii_append.mpr ⟨isAscii_ws hws,
      hstring hbody (hsep hws' (by decide) (ih (hsep hws'' (by decide) (ihmore hrest))))⟩
  | brokenKey hws h =>
    exact fun hrest => isAscii_append.mpr ⟨isAscii_ws hws, h.brokenString.isAscii hrest⟩

/-- An accepted text is ASCII. -/
theorem isAscii_of_accepted {text : Bytes} {r : ParseResult} (h : parse opt text = .ok r)
    (hok : r.ok = true) : IsAscii text := by
  obtain ⟨n, rest, met, hreads, -, hrest⟩ := parse_reads h hok
  exact hreads.isAscii (isAscii_ws hrest)

/-! ## The strings of a written value -/

mutual

/-- In an ASCII text all strings are ASCII. -/
theorem Value.Fits.of_isAscii {maxDepth : ℕ} {P : Bytes → Prop} (v : Value) (d wd : ℕ)
    (hfit : v.Fits maxDepth P d) (h : IsAscii (writeValue mode wd v)) :
    v.Fits maxDepth (fun s => IsAscii s ∧ P s) d := by
  match v with
  | .null => exact hfit
  | .bool _ => exact hfit
  | .int _ => exact hfit
  | .uint _ => exact hfit
  | .double _ => exact hfit
  | .string s => exact ⟨hfit.1, isAscii_of_writeString h, hfit.2⟩
  | .array a =>
    rw [writeValue, isAscii_cons, isAscii_append] at h
    exact ⟨hfit.1, Value.FitElements.of_isAscii a true (d + 1) wd hfit.2 h.2.1⟩
  | .object o =>
    rw [writeValue, isAscii_cons, isAscii_append] at h
    exact ⟨hfit.1, hfit.2.1, Value.FitMembers.of_isAscii o true (d + 1) wd hfit.2.2 h.2.1⟩

theorem Value.FitElements.of_isAscii {maxDepth : ℕ} {P : Bytes → Prop} (a : List Value)
    (first : Bool) (d wd : ℕ) (hfit : Value.FitElements maxDepth P d a)
    (h : IsAscii (writeElements mode wd first a)) :
    Value.FitElements maxDepth (fun s => IsAscii s ∧ P s) d a := by
  match a with
  | [] => exact hfit
  | v :: a =>
    simp only [writeElements, isAscii_append] at h
    exact ⟨Value.Fits.of_isAscii v d (wd + 1) hfit.1 h.2.2.1,
      Value.FitElements.of_isAscii a false d wd hfit.2 h.2.2.2⟩

theorem Value.FitMembers.of_isAscii {maxDepth : ℕ} {P : Bytes → Prop}
    (o : List (Bytes × Value)) (first : Bool) (d wd : ℕ) (hfit : Value.FitMembers maxDepth P d o)
    (h : IsAscii (writeMembers mode wd first o)) :
    Value.FitMembers maxDepth (fun s => IsAscii s ∧ P s) d o := by
  match o with
  | [] => exact hfit
  | (k, v) :: o =>
    simp only [writeMembers, isAscii_append, isAscii_cons] at h
    obtain ⟨hk, hv, ho⟩ := hfit
    exact ⟨⟨isAscii_of_writeString h.2.2.1, hk⟩,
      Value.Fits.of_isAscii v d (wd + 1) hv h.2.2.2.2.2.1,
      Value.FitMembers.of_isAscii o false d wd ho h.2.2.2.2.2.2⟩

end

/-! ## Whole texts -/

/-- A written value whose strings are not too long is accepted iff they are ASCII and its values are
within the limit, and then it is read back. -/
theorem parse_written_iff {v : Value}
    (hfit : v.Fits opt.maxDepth (fun s => s.length ≤ opt.maxStringBytes) 0) (mode : WriteMode) :
    ∃ r, parse opt (dump mode v) = .ok r ∧
      (r.ok = true ↔ v.Fits opt.maxDepth (Writable opt) 0 ∧ v.count ≤ opt.maxNodes) ∧
      (r.ok = true → r.value = v.reread) := by
  by_cases hascii : v.Fits opt.maxDepth (Writable opt) 0
  · have hskip : skipWs (dump mode v) = writeValue mode 0 v ++ [] := by
      have h := @skipWs_written mode 0 [] (by decide) v []
      rw [List.nil_append, List.append_nil] at h
      rwa [List.append_nil]
    obtain ⟨p, hp, hback⟩ := parseValue_written v 0 0 (opt.maxDepth + 2) [] ⟨dump mode v, 0⟩
      hascii le_rfl (fun c hc => by simp at hc) hskip
    rw [ReadsBack, Nat.zero_add] at hback
    unfold parse
    rw [hp, Outcome.ok_bind]
    -- the whole text is read, unless it has too many values
    by_cases hmax : v.count ≤ opt.maxNodes
    · rw [if_pos hmax] at hback
      subst hback
      exact ⟨_, rfl, by simp [ParseResult.ok, hascii, hmax], fun _ => rfl⟩
    · rw [if_neg hmax] at hback
      rw [if_pos hback]
      exact ⟨_, rfl, by simp [ParseResult.ok, hback, hmax], fun h => by
        simp [ParseResult.ok, hback] at h⟩
  · obtain ⟨r, hr⟩ := parse_returns opt (dump mode v)
    -- a text that is accepted is ASCII, and then its strings are writable
    have hnot : ¬ r.ok = true := fun hok =>
      hascii (Value.Fits.of_isAscii v 0 0 hfit (isAscii_of_accepted hr hok))
    exact ⟨r, hr, ⟨fun h => absurd h hnot, fun h => absurd h.1 hascii⟩, fun h => absurd h hnot⟩

end TopologyFabric.Json

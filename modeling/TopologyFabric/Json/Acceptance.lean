import TopologyFabric.Json.Reads

/-!
# What the Parser Accepts

The parser accepts the texts of the tolerant grammar. The texts of the strict grammar are among
them; the others are those that the parser accepts only because it passes over a broken string.

## Main results

- `Reads.derives`: what is read the tolerant grammar derives
- `parseValue_complete`: what the tolerant grammar derives within the limits is accepted
- `parse_ok_iff`: a text is accepted iff it is a document of the tolerant grammar
- `parse_document_iff`: when acceptance agrees with the strict grammar
-/

namespace TopologyFabric.Json

open Library

variable {opt : ParseOptions} {d : ℕ} {text rest : Bytes}

/-! ## What is read is derived -/

/-- Without the option for NaN and infinity, what is read is derived by the tolerant grammar. -/
theorem Reads.derives (hnan : opt.allowNanInf = false) {g : Reading} {n : ℕ} {v : Value}
    {met : List (Bytes × Bytes)} (h : Reads opt g d n text rest v met) :
    Derives true opt g.symbol d n text rest := by
  induction h with
  | ws hc _ ih => exact .ws hc ih
  | word hd hword =>
    exact .word hd (hword.imp And.left (Or.imp And.left And.left))
  | number hd htok _ => exact .number hd htok
  | nanInf _ hallow _ =>
    -- the grammar has no such words, and the parser takes them only on request
    exact absurd (hallow.symm.trans hnan) Bool.noConfusion
  | string hd hbody hlen => exact .string hd ⟨_, _, hbody, hlen, rfl⟩
  | brokenString hd h => exact .brokenString rfl hd h.brokenString
  | emptyArray hd hws => exact .emptyArray hd hws
  | array hd _ ih => exact .array hd ih
  | emptyObject hd hws => exact .emptyObject hd hws
  | object hd _ ih => exact .object hd ih
  | lastElement hws _ ih => exact .lastElement hws ih
  | moreElements hws _ _ ih ihmore => exact .moreElements hws ih ihmore
  | lastMember hws hws' hws'' hbody hlen _ ih =>
    exact .lastMember hws hws' hws'' ⟨_, _, hbody, hlen, rfl⟩ ih
  | moreMembers hws hws' hws'' hbody hlen _ _ ih ihmore =>
    exact .moreMembers hws hws' hws'' ⟨_, _, hbody, hlen, rfl⟩ ih ihmore
  | brokenKey hws h => exact .brokenKey rfl hws h.brokenString

/-! ## What is derived is accepted -/

variable {lenient : Bool} {sym : Symbol} {n : ℕ}

private theorem numberEnd_of_isWs {c : UInt8} (hc : isWs c = true) (text : Bytes) :
    NumberEnd (c :: text) := by
  intro c' hc'
  obtain rfl := Option.some.inj hc'
  simp only [isWs, Bool.or_eq_true, decide_eq_true_eq] at hc
  rcases hc with ((rfl | rfl) | rfl) | rfl <;> decide

/-- A number ends before whitespace, and before what follows a value. -/
theorem numberEnd_append {ws : Bytes} (hws : AllWs ws) (htext : NumberEnd text) :
    NumberEnd (ws ++ text) := by
  cases ws with
  | nil => exact htext
  | cons c ws => exact numberEnd_of_isWs (hws c (List.mem_cons_self ..)) _

theorem numberEnd_cons {c : UInt8}
    (hc : c = byte ',' ∨ c = byte ']' ∨ c = byte '}') (text : Bytes) : NumberEnd (c :: text) := by
  intro c' hc'
  obtain rfl := Option.some.inj hc'
  rcases hc with rfl | rfl | rfl <;> decide

theorem separator_comma {ws : Bytes} (hws : AllWs ws) (closing : UInt8) (text : Bytes)
    (nodes : ℕ) : separator closing ⟨ws ++ byte ',' :: text, nodes⟩ = .comma ⟨text, nodes⟩ := by
  have hskip : skipWs (byte ',' :: text) = byte ',' :: text := skipWs_eq_self (by decide) text
  simp only [separator, ParserState.skipWs, skipWs_append hws, hskip, if_true]

theorem separator_close {ws : Bytes} (hws : AllWs ws) {closing : UInt8}
    (hclosing : closing = byte ']' ∨ closing = byte '}') (text : Bytes) (nodes : ℕ) :
    separator closing ⟨ws ++ closing :: text, nodes⟩ = .close ⟨text, nodes⟩ := by
  have hskip : skipWs (closing :: text) = closing :: text :=
    skipWs_eq_self (by rcases hclosing with rfl | rfl <;> decide) text
  have hcomma : closing ≠ byte ',' := by rcases hclosing with rfl | rfl <;> decide
  simp only [separator, ParserState.skipWs, skipWs_append hws, hskip, if_neg hcomma, if_true]

/-- The characters that a value starts with. -/
def StartsValue (c : UInt8) : Prop :=
  isWs c = false ∧ c ≠ byte ']' ∧ c ≠ byte '}'

theorem NumberToken.head {tok : Bytes} (h : NumberToken tok) :
    ∃ c t, tok = c :: t ∧ (c = byte '-' ∨ isDigit c = true) := by
  obtain ⟨sign, ints, frac, fracDigits, exp, hsign, hints, -, -, rfl, hdigit⟩ := h
  rcases hsign with rfl | rfl
  · cases ints with
    | nil => rcases hdigit with h | h <;> simp at h
    | cons c ints =>
      exact ⟨c, ints ++ frac ++ exp, by simp, Or.inr (hints c (List.mem_cons_self ..))⟩
  · exact ⟨byte '-', ints ++ frac ++ exp, by simp [str, byte], Or.inl rfl⟩

private theorem isWs_eq_false_of_number {c : UInt8} (hc : c = byte '-' ∨ isDigit c = true) :
    isWs c = false := by
  rw [Bool.eq_false_iff]
  intro hws
  simp only [isWs, Bool.or_eq_true, decide_eq_true_eq] at hws
  rcases hws with ((rfl | rfl) | rfl) | rfl <;> revert hc <;> decide

theorem startsValue_of_number {c : UInt8} (hc : c = byte '-' ∨ isDigit c = true) :
    StartsValue c := by
  refine ⟨isWs_eq_false_of_number hc, ?_, ?_⟩ <;> rintro rfl <;> revert hc <;> decide

theorem StringLiteral.head (h : StringLiteral opt text rest) : ∃ t, text = byte '"' :: t := by
  obtain ⟨raw, dec, -, -, rfl⟩ := h
  exact ⟨_, rfl⟩

theorem BrokenString.head (h : BrokenString opt text rest) : ∃ t, text = byte '"' :: t := by
  obtain ⟨raw, dec, text', -, -, rfl, -⟩ := h
  exact ⟨_, rfl⟩

/-- Behind whitespace, a value starts with a character that closes nothing. -/
theorem Derives.head (h : Derives lenient opt sym d n text rest) (hsym : sym = .value) :
    ∃ c t, skipWs text = c :: t ∧ StartsValue c := by
  -- a rule that starts with a character of its own
  have hself : ∀ {c : UInt8} (t : Bytes), StartsValue c →
      ∃ c' t', skipWs (c :: t) = c' :: t' ∧ StartsValue c' := fun t hc =>
    ⟨_, t, skipWs_eq_self hc.1 t, hc⟩
  induction h with
  | @ws _ _ c text _ hc _ ih =>
    -- whitespace is skipped
    rw [show skipWs (c :: text) = skipWs text from skipWs_cons hc text]
    exact ih hsym
  | word _ hword =>
    rcases hword with rfl | rfl | rfl <;> exact hself _ ⟨by decide, by decide, by decide⟩
  | number _ htok =>
    obtain ⟨c, t, rfl, hc⟩ := htok.head
    exact hself _ (startsValue_of_number hc)
  | string _ h =>
    obtain ⟨t, rfl⟩ := h.head
    exact hself _ ⟨by decide, by decide, by decide⟩
  | brokenString _ _ h =>
    obtain ⟨t, rfl⟩ := h.head
    exact hself _ ⟨by decide, by decide, by decide⟩
  | emptyArray => exact hself _ ⟨by decide, by decide, by decide⟩
  | array => exact hself _ ⟨by decide, by decide, by decide⟩
  | emptyObject => exact hself _ ⟨by decide, by decide, by decide⟩
  | object => exact hself _ ⟨by decide, by decide, by decide⟩
  | lastElement => cases hsym
  | moreElements => cases hsym
  | lastMember => cases hsym
  | moreMembers => cases hsym
  | brokenKey => cases hsym

private theorem elements_head (h : Derives lenient opt .elements d n text rest) :
    ∃ c t, skipWs text = c :: t ∧ StartsValue c := by
  cases h with
  | lastElement _ h => exact h.head rfl
  | moreElements _ h _ => exact h.head rfl

private theorem members_head (h : Derives lenient opt .members d n text rest) :
    ∃ t, skipWs text = byte '"' :: t := by
  have hkey : ∃ ws t, AllWs ws ∧ text = ws ++ byte '"' :: t := by
    cases h with
    | lastMember hws _ _ hkey _ =>
      obtain ⟨t, rfl⟩ := hkey.head
      exact ⟨_, t, hws, rfl⟩
    | moreMembers hws _ _ hkey _ _ =>
      obtain ⟨t, rfl⟩ := hkey.head
      exact ⟨_, t, hws, rfl⟩
    | brokenKey _ hws h =>
      obtain ⟨t, rfl⟩ := h.head
      exact ⟨_, t, hws, rfl⟩
  obtain ⟨ws, t, hws, rfl⟩ := hkey
  exact ⟨t, by rw [skipWs_append hws, skipWs_eq_self (by decide)]⟩

/-! ### The cases without recursion -/

/-- On this text, `parse_value` is decided by `parseScalar`. -/
def ReadsScalar (opt : ParseOptions) (text rest : Bytes) (v : Value) : Prop :=
  ∃ c t, text = c :: t ∧ isWs c = false ∧ c ≠ byte '{' ∧ c ≠ byte '[' ∧
    ∀ nodes, parseScalar opt c ⟨text, nodes⟩ = ⟨.none, v, ⟨rest, nodes⟩⟩

theorem readsScalar_word (opt : ParseOptions) {word : Bytes} {v : Value}
    (hword : (word = str "null" ∧ v = .null) ∨ (word = str "true" ∧ v = .bool true) ∨
      (word = str "false" ∧ v = .bool false)) (rest : Bytes) :
    ReadsScalar opt (word ++ rest) rest v := by
  have hparse : ∀ nodes, parseWord word v ⟨word ++ rest, nodes⟩ = ⟨.none, v, ⟨rest, nodes⟩⟩ := by
    intro nodes
    rw [parseWord, matchWord_eq_some.mpr rfl]
  rcases hword with ⟨rfl, rfl⟩ | ⟨rfl, rfl⟩ | ⟨rfl, rfl⟩
  · exact ⟨byte 'n', _, rfl, by decide, by decide, by decide, hparse⟩
  · exact ⟨byte 't', _, rfl, by decide, by decide, by decide, hparse⟩
  · exact ⟨byte 'f', _, rfl, by decide, by decide, by decide, hparse⟩

/-- A minus sign or a digit starts a number and nothing else. -/
theorem parseScalar_number {c : UInt8} (hc : c = byte '-' ∨ isDigit c = true) (s : ParserState) :
    c ≠ byte '{' ∧ c ≠ byte '[' ∧ parseScalar opt c s = parseNumber opt c s := by
  have hne : ∀ a, isDigit a = false → a ≠ byte '-' → c ≠ a := by
    rintro a hdigit hminus rfl
    rcases hc with hc | hc
    · exact hminus hc
    · exact absurd hc (by simp [hdigit])
  have hnumber : c = byte '-' ∨ isDigit c = true ∨ c = byte '+' ∨ c = byte 'I' ∨ c = byte 'N' :=
    hc.imp_right Or.inl
  refine ⟨hne _ (by decide) (by decide), hne _ (by decide) (by decide), ?_⟩
  unfold parseScalar
  rw [if_neg (hne _ (by decide) (by decide)), if_neg (hne _ (by decide) (by decide)),
    if_neg (hne _ (by decide) (by decide)), if_neg (hne _ (by decide) (by decide)), if_pos hnumber]

theorem readsScalar_number {tok : Bytes} (htok : NumberToken tok) (hend : NumberEnd rest) :
    ReadsScalar opt (tok ++ rest) rest (tokenValue tok) := by
  obtain ⟨c, t, rfl, hc⟩ := htok.head
  have hscalar := @parseScalar_number opt c hc
  refine ⟨c, t ++ rest, rfl, isWs_eq_false_of_number hc, (hscalar ⟨rest, 0⟩).1,
    (hscalar ⟨rest, 0⟩).2.1, fun nodes => ?_⟩
  exact (hscalar _).2.2.trans (parseNumber_token htok hend hc nodes)

/-- A broken string is read as null. -/
theorem readsScalar_string {t : Bytes} {o : Option Bytes}
    (h : parseString opt (byte '"' :: t) = (o, rest)) :
    ReadsScalar opt (byte '"' :: t) rest ((o.map Value.string).getD .null) := by
  refine ⟨byte '"', t, rfl, by decide, by decide, by decide, fun nodes => ?_⟩
  unfold parseScalar
  rw [if_pos rfl]
  cases o with
  | none => simp [h, err_]
  | some str => simp [h]

/-- What the parsing functions do on a text of the grammar. Whitespace in front of the text may have
been skipped before. -/
def Accepted (opt : ParseOptions) (sym : Symbol) (d n : ℕ) (text rest : Bytes) : Prop :=
  ∀ fuel s, opt.maxDepth + 2 ≤ fuel + d → s.nodes + n ≤ opt.maxNodes →
    skipWs s.rest = skipWs text →
    match sym with
    | .value => NumberEnd rest →
      ∃ v, parseValue opt fuel d s = .ok ⟨.none, v, ⟨rest, s.nodes + n⟩⟩
    | .elements => ∀ arr, ∃ v budget, loop (arrayStep (parseValue opt fuel d)) budget (arr, s) =
      .ok ⟨.none, v, ⟨rest, s.nodes + n⟩⟩
    | .members => ∀ obj, ∃ v budget, loop (objectStep opt (parseValue opt fuel d)) budget (obj, s) =
      .ok ⟨.none, v, ⟨rest, s.nodes + n⟩⟩

private theorem accepted_of_scalar (hd : d ≤ opt.maxDepth)
    (h : NumberEnd rest → ∃ v, ReadsScalar opt text rest v) :
    Accepted opt .value d 1 text rest := by
  intro fuel s hfuel hnodes htext hend
  obtain ⟨fuel, rfl⟩ : ∃ k, fuel = k + 1 := ⟨fuel - 1, by omega⟩
  obtain ⟨v, c, t, rfl, hws, hbrace, hbracket, hv⟩ := h hend
  rw [skipWs_eq_self hws] at htext
  rw [parseValue_eq hd hnodes htext, if_neg hbrace, if_neg hbracket, hv]
  exact ⟨v, rfl⟩

/-- Two budgets that suffice give the same result. -/
theorem loop_unique {σ ρ : Type} {step : σ → Run (σ ⊕ ρ)} {k m : ℕ} {s : σ} {r r' : ρ}
    (h : loop step k s = .ok r) (h' : loop step m s = .ok r') : r = r' :=
  Outcome.ok.inj ((loop_mono (le_max_left k m) h).symm.trans (loop_mono (le_max_right k m) h'))

/-- A nonempty array is what its loop makes of it, whatever budget that takes. -/
theorem parseValue_array {fuel budget : ℕ} {s : ParserState} {r : Parsed} (hd : d ≤ opt.maxDepth)
    (hfuel : opt.maxDepth + 2 ≤ fuel + (d + 1)) (hnodes : s.nodes + 1 ≤ opt.maxNodes)
    (htext : skipWs s.rest = byte '[' :: text) (hopen : (skipWs text).head? ≠ some (byte ']'))
    (hloop : loop (arrayStep (parseValue opt fuel (d + 1))) budget
      ([], ⟨skipWs text, s.nodes + 1⟩) = .ok r) : parseValue opt (fuel + 1) d s = .ok r := by
  -- the budget that the parser gives its loop suffices as well
  have hchild := @parseValue_spec opt fuel (d + 1) (by omega) (by omega)
  obtain ⟨r', hr', -⟩ := arrayLoop_spec hchild [] ⟨skipWs text, s.nodes + 1⟩
  rw [parseValue_eq hd hnodes htext, if_neg (by decide), if_pos rfl, parseArray_eq, if_neg hopen,
    loop_unique hloop hr']
  exact hr'

/-- A nonempty object is what its loop makes of it, whatever budget that takes. -/
theorem parseValue_object {fuel budget : ℕ} {s : ParserState} {r : Parsed} (hd : d ≤ opt.maxDepth)
    (hfuel : opt.maxDepth + 2 ≤ fuel + (d + 1)) (hnodes : s.nodes + 1 ≤ opt.maxNodes)
    (htext : skipWs s.rest = byte '{' :: text) (hopen : (skipWs text).head? ≠ some (byte '}'))
    (hloop : loop (objectStep opt (parseValue opt fuel (d + 1))) budget
      ([], ⟨skipWs text, s.nodes + 1⟩) = .ok r) : parseValue opt (fuel + 1) d s = .ok r := by
  have hchild := @parseValue_spec opt fuel (d + 1) (by omega) (by omega)
  obtain ⟨r', hr', -⟩ := objectLoop_spec hchild [] ⟨skipWs text, s.nodes + 1⟩
  rw [parseValue_eq hd hnodes htext, if_pos rfl, parseObject_eq, if_neg hopen,
    loop_unique hloop hr']
  exact hr'

/-- At a quote no object is closed. -/
theorem head_ne_brace (h : ∃ t, skipWs text = byte '"' :: t) :
    (skipWs text).head? ≠ some (byte '}') := by
  obtain ⟨t, hskip⟩ := h
  rw [hskip]
  exact fun h => absurd (Option.some.inj h) (by decide)

private theorem accepted_array (hd : d ≤ opt.maxDepth)
    (hhead : ∃ c t, skipWs text = c :: t ∧ StartsValue c)
    (h : Accepted opt .elements (d + 1) n text rest) :
    Accepted opt .value d (n + 1) (byte '[' :: text) rest := by
  intro fuel s hfuel hnodes htext _
  obtain ⟨fuel, rfl⟩ : ∃ k, fuel = k + 1 := ⟨fuel - 1, by omega⟩
  rw [skipWs_eq_self (by decide)] at htext
  obtain ⟨c, t, hskip, -, hclose, -⟩ := hhead
  obtain ⟨v, budget, hloop⟩ := h fuel ⟨skipWs text, s.nodes + 1⟩ (by omega) (by simpa using by omega)
    (skipWs_idem text) []
  refine ⟨v, ?_⟩
  rw [parseValue_array hd (by omega) (by omega) htext (by simp [hskip, hclose]) hloop]
  simp only [Nat.add_assoc, Nat.add_comm 1 n]

private theorem accepted_object (hd : d ≤ opt.maxDepth)
    (hhead : ∃ t, skipWs text = byte '"' :: t)
    (h : Accepted opt .members (d + 1) n text rest) :
    Accepted opt .value d (n + 1) (byte '{' :: text) rest := by
  intro fuel s hfuel hnodes htext _
  obtain ⟨fuel, rfl⟩ : ∃ k, fuel = k + 1 := ⟨fuel - 1, by omega⟩
  rw [skipWs_eq_self (by decide)] at htext
  obtain ⟨v, budget, hloop⟩ := h fuel ⟨skipWs text, s.nodes + 1⟩ (by omega) (by simpa using by omega)
    (skipWs_idem text) []
  refine ⟨v, ?_⟩
  rw [parseValue_object hd (by omega) (by omega) htext (head_ne_brace hhead) hloop]
  simp only [Nat.add_assoc, Nat.add_comm 1 n]

/-- A round of the loop of `parse_array` on a value of the grammar. -/
private theorem arrayStep_value {m : ℕ} {after : Bytes} {fuel : ℕ} {s : ParserState}
    (hfuel : opt.maxDepth + 2 ≤ fuel + d) (hnodes : s.nodes + m ≤ opt.maxNodes)
    (htext : skipWs s.rest = skipWs text) (hhead : ∃ c t, skipWs text = c :: t)
    (hend : NumberEnd after) (h : Accepted opt .value d m text after) (arr : List Value) :
    ∃ v, arrayStep (parseValue opt fuel d) (arr, s) =
      .ok (arrayNext arr ⟨.none, v, ⟨after, s.nodes + m⟩⟩) := by
  obtain ⟨c, t, hhead⟩ := hhead
  obtain ⟨v, hv⟩ := h fuel s.skipWs hfuel hnodes ((skipWs_idem _).trans htext) hend
  refine ⟨v, arrayStep_eq ?_ hv arr⟩
  rw [show s.skipWs.rest = skipWs s.rest from rfl, htext, hhead]
  exact List.cons_ne_nil _ _

/-- A round of the loop of `parse_object` on a key and a value of the grammar. -/
private theorem objectStep_member {m : ℕ} {ws key ws' after : Bytes} {fuel : ℕ} {s : ParserState}
    (hfuel : opt.maxDepth + 2 ≤ fuel + d) (hnodes : s.nodes + m ≤ opt.maxNodes) (hws : AllWs ws)
    (hws' : AllWs ws') (hskip : skipWs s.rest = skipWs (ws ++ key))
    (hkey : StringLiteral opt key (ws' ++ byte ':' :: text)) (hend : NumberEnd after)
    (h : Accepted opt .value d m text after) (obj : List (Bytes × Value)) :
    ∃ k v, objectStep opt (parseValue opt fuel d) (obj, s) =
      .ok (objectNext k obj ⟨.none, v, ⟨after, s.nodes + m⟩⟩) := by
  obtain ⟨t, rfl⟩ := hkey.head
  obtain ⟨k, hparse⟩ := hkey.parseString
  rw [skipWs_append hws, skipWs_eq_self (by decide)] at hskip
  have hcolon : skipWs (ws' ++ byte ':' :: text) = byte ':' :: text := by
    rw [skipWs_append hws', skipWs_eq_self (by decide)]
  obtain ⟨v, hv⟩ := h fuel ⟨skipWs text, s.nodes⟩ hfuel hnodes (skipWs_idem _) hend
  exact ⟨k, v, objectStep_eq hskip hparse hcolon hv obj⟩

/-- Behind a value that is parsed, a separator decides how the loop of `parse_array` goes on. -/
theorem arrayNext_comma {ws : Bytes} (hws : AllWs ws) (arr : List Value) (v : Value)
    (text : Bytes) (nodes : ℕ) :
    arrayNext arr ⟨.none, v, ⟨ws ++ byte ',' :: text, nodes⟩⟩ = .inl (arr ++ [v], ⟨text, nodes⟩) := by
  rw [arrayNext, if_neg (by simp), separator_comma hws]

theorem arrayNext_close {ws : Bytes} (hws : AllWs ws) (arr : List Value) (v : Value)
    (text : Bytes) (nodes : ℕ) :
    arrayNext arr ⟨.none, v, ⟨ws ++ byte ']' :: text, nodes⟩⟩ =
      .inr ⟨.none, .array (arr ++ [v]), ⟨text, nodes⟩⟩ := by
  rw [arrayNext, if_neg (by simp), separator_close hws (Or.inl rfl)]

/-- Behind a value that is parsed, a separator decides how the loop of `parse_object` goes on. -/
theorem objectNext_comma {ws : Bytes} (hws : AllWs ws) (key : Bytes) (obj : List (Bytes × Value))
    (v : Value) (text : Bytes) (nodes : ℕ) :
    objectNext key obj ⟨.none, v, ⟨ws ++ byte ',' :: text, nodes⟩⟩ =
      .inl (insertEntry key v obj, ⟨text, nodes⟩) := by
  rw [objectNext, if_neg (by simp), separator_comma hws]

theorem objectNext_close {ws : Bytes} (hws : AllWs ws) (key : Bytes) (obj : List (Bytes × Value))
    (v : Value) (text : Bytes) (nodes : ℕ) :
    objectNext key obj ⟨.none, v, ⟨ws ++ byte '}' :: text, nodes⟩⟩ =
      .inr ⟨.none, .object (insertEntry key v obj), ⟨text, nodes⟩⟩ := by
  rw [objectNext, if_neg (by simp), separator_close hws (Or.inr rfl)]

/-- What the tolerant grammar derives within the limits is accepted. -/
theorem parseValue_complete (h : Derives lenient opt sym d n text rest) :
    Accepted opt sym d n text rest := by
  -- a derivation of elements or members is a run of the loop, one round for each of its rules
  induction h with
  | @ws d n c text rest hc _ ih =>
    intro fuel s hfuel hnodes htext
    refine ih fuel s hfuel hnodes (htext.trans ?_)
    exact skipWs_cons hc text
  | word hd hword =>
    refine accepted_of_scalar hd fun _ => ?_
    rcases hword with rfl | rfl | rfl
    · exact ⟨_, readsScalar_word opt (Or.inl ⟨rfl, rfl⟩) _⟩
    · exact ⟨_, readsScalar_word opt (Or.inr (Or.inl ⟨rfl, rfl⟩)) _⟩
    · exact ⟨_, readsScalar_word opt (Or.inr (Or.inr ⟨rfl, rfl⟩)) _⟩
  | number hd htok => exact accepted_of_scalar hd fun hend => ⟨_, readsScalar_number htok hend⟩
  | string hd h =>
    obtain ⟨t, rfl⟩ := h.head
    obtain ⟨str, hstr⟩ := h.parseString
    exact accepted_of_scalar hd fun _ => ⟨_, readsScalar_string hstr⟩
  | brokenString _ hd h =>
    obtain ⟨t, rfl⟩ := h.head
    exact accepted_of_scalar hd fun _ => ⟨_, readsScalar_string h.parseString⟩
  | @emptyArray d ws rest hd hws =>
    intro fuel s hfuel hnodes htext _
    obtain ⟨fuel, rfl⟩ : ∃ k, fuel = k + 1 := ⟨fuel - 1, by omega⟩
    rw [skipWs_eq_self (by decide)] at htext
    rw [parseValue_eq hd hnodes htext, if_neg (by decide), if_pos rfl, parseArray_eq,
      skipWs_append hws, skipWs_eq_self (by decide), List.head?_cons, if_pos rfl]
    exact ⟨.array [], rfl⟩
  | array hd h ih => exact accepted_array hd (elements_head h) ih
  | @emptyObject d ws rest hd hws =>
    intro fuel s hfuel hnodes htext _
    obtain ⟨fuel, rfl⟩ : ∃ k, fuel = k + 1 := ⟨fuel - 1, by omega⟩
    rw [skipWs_eq_self (by decide)] at htext
    rw [parseValue_eq hd hnodes htext, if_pos rfl, parseObject_eq, skipWs_append hws,
      skipWs_eq_self (by decide), List.head?_cons, if_pos rfl]
    exact ⟨.object [], rfl⟩
  | object hd h ih => exact accepted_object hd (members_head h) ih
  | @lastElement d n text ws rest hws h ih =>
    intro fuel s hfuel hnodes htext arr
    obtain ⟨c, t, hhead, -⟩ := h.head rfl
    obtain ⟨v, hv⟩ := arrayStep_value hfuel hnodes htext ⟨c, t, hhead⟩
      (numberEnd_append hws (numberEnd_cons (by simp) rest)) ih arr
    rw [arrayNext_close hws] at hv
    exact ⟨_, 1, loop_succ_inr hv 0⟩
  | @moreElements d m n text ws text' rest hws h _ ih ihmore =>
    intro fuel s hfuel hnodes htext arr
    obtain ⟨c, t, hhead, -⟩ := h.head rfl
    obtain ⟨v, hv⟩ := arrayStep_value hfuel (by omega) htext ⟨c, t, hhead⟩
      (numberEnd_append hws (numberEnd_cons (by simp) text')) ih arr
    rw [arrayNext_comma hws] at hv
    obtain ⟨v', budget, hloop⟩ := ihmore fuel ⟨text', s.nodes + m⟩ hfuel
      (by simpa [Nat.add_assoc] using hnodes) rfl (arr ++ [v])
    refine ⟨v', budget + 1, (loop_succ_inl hv budget).trans ?_⟩
    rw [hloop]
    simp only [Nat.add_assoc]
  | @lastMember d n ws key ws' text ws'' rest hws hws' hws'' hkey h ih =>
    intro fuel s hfuel hnodes htext obj
    obtain ⟨k, v, hv⟩ := objectStep_member hfuel hnodes hws hws' htext hkey
      (numberEnd_append hws'' (numberEnd_cons (by simp) rest)) ih obj
    rw [objectNext_close hws''] at hv
    exact ⟨_, 1, loop_succ_inr hv 0⟩
  | @moreMembers d m n ws key ws' text ws'' text' rest hws hws' hws'' hkey h _ ih ihmore =>
    intro fuel s hfuel hnodes htext obj
    obtain ⟨k, v, hv⟩ := objectStep_member hfuel (by omega) hws hws' htext hkey
      (numberEnd_append hws'' (numberEnd_cons (by simp) text')) ih obj
    rw [objectNext_comma hws''] at hv
    obtain ⟨v', budget, hloop⟩ := ihmore fuel ⟨text', s.nodes + m⟩ hfuel
      (by simpa [Nat.add_assoc] using hnodes) rfl (insertEntry k v obj)
    refine ⟨v', budget + 1, (loop_succ_inl hv budget).trans ?_⟩
    rw [hloop]
    simp only [Nat.add_assoc]
  | @brokenKey d ws key rest _ hws h =>
    intro fuel s hfuel hnodes htext obj
    obtain ⟨t, rfl⟩ := h.head
    rw [skipWs_append hws, skipWs_eq_self (by decide)] at htext
    have hstep : objectStep opt (parseValue opt fuel d) (obj, s) =
        .ok (.inr ⟨.none, .null, ⟨rest, s.nodes⟩⟩) := by
      simp only [objectStep, ParserState.skipWs, htext, List.head?_cons, ne_eq, not_true, if_false,
        h.parseString, err_]
    exact ⟨_, 1, loop_succ_inr hstep 0⟩

/-! ## Whole texts -/

/-- A text that is one value without children. -/
theorem parse_scalar {text : Bytes} {v : Value} (h : ReadsScalar opt text [] v)
    (hnodes : 0 < opt.maxNodes) : parse opt text = .ok ⟨v, .none, text.length, []⟩ := by
  obtain ⟨c, t, rfl, hws, hbrace, hbracket, hv⟩ := h
  have hvalue : parseValue opt (opt.maxDepth + 2) 0 ⟨c :: t, 0⟩ = .ok ⟨.none, v, ⟨[], 1⟩⟩ := by
    rw [parseValue_eq (Nat.zero_le _) (show 0 + 1 ≤ opt.maxNodes from hnodes)
      (skipWs_eq_self hws t), if_neg hbrace, if_neg hbracket, hv 1]
  unfold parse
  rw [hvalue]
  rfl

/-- A text is accepted iff it is a document of the tolerant grammar. -/
theorem parse_ok_iff (hnan : opt.allowNanInf = false) {text : Bytes} {r : ParseResult}
    (h : parse opt text = .ok r) : r.ok = true ↔ Document true opt text := by
  constructor
  · intro hok
    obtain ⟨n, rest, met, hreads, hn, hrest⟩ := parse_reads h hok
    exact ⟨n, rest, hreads.derives hnan, hn, hrest⟩
  · rintro ⟨n, rest, hderives, hn, hrest⟩
    -- behind the document are spaces only, so a number ends where the document does
    have hend : NumberEnd rest := by
      rw [← List.append_nil rest]
      exact numberEnd_append hrest fun c hc => by simp at hc
    obtain ⟨v, hv⟩ := parseValue_complete hderives (opt.maxDepth + 2) ⟨text, 0⟩ (by omega)
      (by simpa using hn) rfl hend
    unfold parse at h
    rw [hv, Outcome.ok_bind] at h
    have hskip : skipWs rest = [] := skipWs_eq_nil_iff.mpr hrest
    simp only [ne_eq, not_true, if_false, ParserState.skipWs, hskip] at h
    obtain rfl := Outcome.ok.inj h
    rfl

/-- The text is accepted only because a broken string is passed over: the strict grammar does not
derive it, the tolerant one does. -/
def PassesOverBrokenString (opt : ParseOptions) (text : Bytes) : Prop :=
  Document true opt text ∧ ¬ Document false opt text

/-- The parser reports `ok` exactly for the documents of the strict grammar, unless a broken string
is passed over. -/
theorem parse_document_iff (hnan : opt.allowNanInf = false) (text : Bytes) :
    ∃ r, parse opt text = .ok r ∧
      ((r.ok = true ↔ Document false opt text) ↔ ¬ PassesOverBrokenString opt text) := by
  obtain ⟨r, hr⟩ := parse_returns opt text
  refine ⟨r, hr, ?_⟩
  have hmono : Document false opt text → Document true opt text := Document.mono
  rw [parse_ok_iff hnan hr, PassesOverBrokenString]
  tauto

theorem parse_document_iff_empty : ∃ r, parse {} (str "[]") = .ok r ∧
    ((r.ok = true ↔ Document false {} (str "[]")) ↔ ¬ PassesOverBrokenString {} (str "[]")) :=
  parse_document_iff rfl (str "[]")

/-- Behind an opening quote the strict grammar wants a string literal. -/
private theorem Derives.string_literal (h : Derives false opt .value d n (byte '"' :: text) rest) :
    StringLiteral opt (byte '"' :: text) rest := by
  generalize htext : byte '"' :: text = whole at h ⊢
  cases h with
  | ws hc _ =>
    -- the other rules start with another character
    obtain ⟨rfl, -⟩ := List.cons.inj htext
    exact absurd hc (by decide)
  | word _ hword =>
    rcases hword with rfl | rfl | rfl <;> exact absurd (List.cons.inj htext).1 (by decide)
  | number _ htok =>
    obtain ⟨c, t, rfl, hc⟩ := htok.head
    obtain ⟨rfl, -⟩ := List.cons.inj htext
    exact absurd hc (by decide)
  | string _ h => exact h
  | brokenString hlenient => exact absurd hlenient Bool.false_ne_true
  | emptyArray => exact absurd (List.cons.inj htext).1 (by decide)
  | array => exact absurd (List.cons.inj htext).1 (by decide)
  | emptyObject => exact absurd (List.cons.inj htext).1 (by decide)
  | object => exact absurd (List.cons.inj htext).1 (by decide)

/-- An unterminated string is reported `ok`. -/
theorem parse_unterminated_ok : ∃ r, parse {} (str "\"abc") = .ok r ∧ r.ok = true ∧
    ¬ Document false {} (str "\"abc") := by
  obtain ⟨r, hr⟩ := parse_returns {} (str "\"abc")
  have hok : (match parse {} (str "\"abc") with | .ok r => r.ok | _ => false) = true := by decide
  rw [hr] at hok
  refine ⟨r, hr, hok, ?_⟩
  rintro ⟨n, rest, hderives, -, -⟩
  obtain ⟨raw, dec, -, -, htext⟩ := Derives.string_literal hderives
  -- the text has no second quote
  have hquote : byte '"' ∈ str "abc" := by
    rw [show str "abc" = raw ++ byte '"' :: rest from (List.cons.inj htext).2]
    simp
  exact absurd hquote (by decide)

end TopologyFabric.Json

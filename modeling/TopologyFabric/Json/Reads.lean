import TopologyFabric.Json.Tokens
import Mathlib.Data.List.DropRight

/-!
# What the Parser Reads

The value that the parser makes of a text, and the strings that it meets on the way, as a relation.
It has a rule for everything that the parser does not reject: the words for NaN and infinity that an
option allows, and broken strings, which leave a null value or end their object.

## Main results

- `Reads.length_lt`: reading takes something off the text
- `parseValue_spec`: `parse_value` always returns, and what it accepts is read
- `parse_reads`: what `json::parse` accepts is read to its end
-/

namespace TopologyFabric.Json

open Library

variable {opt : ParseOptions} {d : ℕ} {text rest : Bytes}

/-! ## Whitespace -/

theorem skipWs_append {ws : Bytes} (hws : AllWs ws) (text : Bytes) :
    skipWs (ws ++ text) = skipWs text := List.dropWhile_append_of_pos hws

theorem exists_ws (text : Bytes) : ∃ ws, AllWs ws ∧ text = ws ++ skipWs text :=
  ⟨text.takeWhile isWs, fun _ hc => List.mem_takeWhile_imp hc,
    List.takeWhile_append_dropWhile.symm⟩

theorem skipWs_eq_self {c : UInt8} (hc : isWs c = false) (text : Bytes) :
    skipWs (c :: text) = c :: text := by
  simp [skipWs, hc]

/-- A whitespace character is skipped. -/
theorem skipWs_cons {c : UInt8} (hc : isWs c = true) (text : Bytes) :
    skipWs (c :: text) = skipWs text := by
  simp [skipWs, hc]

theorem skipWs_eq_nil_iff : skipWs text = [] ↔ AllWs text := by
  rw [skipWs, List.dropWhile_eq_nil_iff]
  rfl

theorem skipWs_idem (text : Bytes) : skipWs (skipWs text) = skipWs text :=
  List.dropWhile_idempotent ..

theorem AllWs.append {ws ws' : Bytes} (hws : AllWs ws) (hws' : AllWs ws') : AllWs (ws ++ ws') :=
  fun c hc => (List.mem_append.mp hc).elim (hws c) (hws' c)

/-! ## The relation -/

/-- Where a string stops, unless it is too long. -/
inductive Halts : Bytes → Bytes → Prop
  | endOfText : Halts [] []
  | nonAscii {c : UInt8} {rest : Bytes} (hc : 0x80 ≤ c) : Halts (c :: rest) (c :: rest)
  | badEscape {rest : Bytes}
      (h : ∀ raw dec rest', StringUnit raw dec → byte '\\' :: rest ≠ raw ++ rest') :
      Halts (byte '\\' :: rest) rest

/-- A broken string with the characters up to where it breaks, as written and as decoded. -/
inductive BrokenAt (opt : ParseOptions) : Bytes → Bytes → Bytes → Bytes → Prop
  | halts {raw dec text rest : Bytes} (hbody : StringBody raw dec)
      (hlen : dec.length ≤ opt.maxStringBytes) (h : Halts text rest) :
      BrokenAt opt raw dec (byte '"' :: (raw ++ text)) rest
  | tooLong {raw dec unit decUnit rest : Bytes} (hbody : StringBody raw dec)
      (hlen : dec.length ≤ opt.maxStringBytes) (hunit : StringUnit unit decUnit)
      (hlong : opt.maxStringBytes < dec.length + decUnit.length) :
      BrokenAt opt (raw ++ unit) (dec ++ decUnit) (byte '"' :: (raw ++ (unit ++ rest))) rest

/-- What is read: a value, or what follows the opening bracket of an array or object behind the
elements or members that have been read before. -/
inductive Reading where
  | value
  | elements (arr : List Value)
  | members (obj : List (Bytes × Value))

/-- The nonterminal that is read. -/
def Reading.symbol : Reading → Symbol
  | .value => .value
  | .elements _ => .elements
  | .members _ => .members

/-- `Reads opt g d n text rest v met`: `n` values at nesting depth `d` are read off the text, which
goes on with `rest`. The result is `v`, and `met` are the strings and keys, as written and as
decoded. -/
inductive Reads (opt : ParseOptions) :
    Reading → ℕ → ℕ → Bytes → Bytes → Value → List (Bytes × Bytes) → Prop
  | ws {d n : ℕ} {c : UInt8} {text rest : Bytes} {v : Value} {met : List (Bytes × Bytes)}
      (hc : isWs c = true) (h : Reads opt .value d n text rest v met) :
      Reads opt .value d n (c :: text) rest v met
  | word {d : ℕ} {word rest : Bytes} {v : Value} (hd : d ≤ opt.maxDepth)
      (hword : word = str "null" ∧ v = .null ∨ word = str "true" ∧ v = .bool true ∨
        word = str "false" ∧ v = .bool false) :
      Reads opt .value d 1 (word ++ rest) rest v []
  | number {d : ℕ} {tok rest : Bytes} {v : Value} (hd : d ≤ opt.maxDepth) (htok : NumberToken tok)
      (hv : IsNumber v) : Reads opt .value d 1 (tok ++ rest) rest v []
  | nanInf {d : ℕ} {word rest : Bytes} {x : Double} (hd : d ≤ opt.maxDepth)
      (hallow : opt.allowNanInf = true)
      (hword : word ∈ [str "NaN", str "nan", str "Inf", str "inf"]) :
      Reads opt .value d 1 (word ++ rest) rest (.double x) []
  | string {d : ℕ} {raw dec rest : Bytes} (hd : d ≤ opt.maxDepth) (hbody : StringBody raw dec)
      (hlen : dec.length ≤ opt.maxStringBytes) :
      Reads opt .value d 1 (byte '"' :: (raw ++ byte '"' :: rest)) rest (.string dec) [(raw, dec)]
  | brokenString {d : ℕ} {raw dec text rest : Bytes} (hd : d ≤ opt.maxDepth)
      (h : BrokenAt opt raw dec text rest) : Reads opt .value d 1 text rest .null [(raw, dec)]
  | emptyArray {d : ℕ} {ws rest : Bytes} (hd : d ≤ opt.maxDepth) (hws : AllWs ws) :
      Reads opt .value d 1 (byte '[' :: (ws ++ byte ']' :: rest)) rest (.array []) []
  | array {d n : ℕ} {text rest : Bytes} {v : Value} {met : List (Bytes × Bytes)}
      (hd : d ≤ opt.maxDepth) (h : Reads opt (.elements []) (d + 1) n text rest v met) :
      Reads opt .value d (n + 1) (byte '[' :: text) rest v met
  | emptyObject {d : ℕ} {ws rest : Bytes} (hd : d ≤ opt.maxDepth) (hws : AllWs ws) :
      Reads opt .value d 1 (byte '{' :: (ws ++ byte '}' :: rest)) rest (.object []) []
  | object {d n : ℕ} {text rest : Bytes} {v : Value} {met : List (Bytes × Bytes)}
      (hd : d ≤ opt.maxDepth) (h : Reads opt (.members []) (d + 1) n text rest v met) :
      Reads opt .value d (n + 1) (byte '{' :: text) rest v met
  | lastElement {d n : ℕ} {arr : List Value} {text ws rest : Bytes} {v : Value}
      {met : List (Bytes × Bytes)} (hws : AllWs ws)
      (h : Reads opt .value d n text (ws ++ byte ']' :: rest) v met) :
      Reads opt (.elements arr) d n text rest (.array (arr ++ [v])) met
  | moreElements {d m n : ℕ} {arr : List Value} {text ws text' rest : Bytes} {v v' : Value}
      {met met' : List (Bytes × Bytes)} (hws : AllWs ws)
      (h : Reads opt .value d m text (ws ++ byte ',' :: text') v met)
      (hmore : Reads opt (.elements (arr ++ [v])) d n text' rest v' met') :
      Reads opt (.elements arr) d (m + n) text rest v' (met ++ met')
  | lastMember {d n : ℕ} {obj : List (Bytes × Value)} {ws raw dec ws' text ws'' rest : Bytes}
      {v : Value} {met : List (Bytes × Bytes)} (hws : AllWs ws) (hws' : AllWs ws')
      (hws'' : AllWs ws'') (hbody : StringBody raw dec) (hlen : dec.length ≤ opt.maxStringBytes)
      (h : Reads opt .value d n text (ws'' ++ byte '}' :: rest) v met) :
      Reads opt (.members obj) d n
        (ws ++ byte '"' :: (raw ++ byte '"' :: (ws' ++ byte ':' :: text))) rest
        (.object (insertEntry dec v obj)) ((raw, dec) :: met)
  | moreMembers {d m n : ℕ} {obj : List (Bytes × Value)}
      {ws raw dec ws' text ws'' text' rest : Bytes} {v v' : Value}
      {met met' : List (Bytes × Bytes)} (hws : AllWs ws) (hws' : AllWs ws') (hws'' : AllWs ws'')
      (hbody : StringBody raw dec) (hlen : dec.length ≤ opt.maxStringBytes)
      (h : Reads opt .value d m text (ws'' ++ byte ',' :: text') v met)
      (hmore : Reads opt (.members (insertEntry dec v obj)) d n text' rest v' met') :
      Reads opt (.members obj) d (m + n)
        (ws ++ byte '"' :: (raw ++ byte '"' :: (ws' ++ byte ':' :: text))) rest v'
        ((raw, dec) :: (met ++ met'))
  | brokenKey {d : ℕ} {obj : List (Bytes × Value)} {ws raw dec text rest : Bytes} (hws : AllWs ws)
      (h : BrokenAt opt raw dec text rest) :
      Reads opt (.members obj) d 0 (ws ++ text) rest .null [(raw, dec)]

/-! ## Properties of readings -/

section Reads

variable {g : Reading} {n : ℕ} {v : Value} {met : List (Bytes × Bytes)}

theorem BrokenString.exists_at (h : BrokenString opt text rest) :
    ∃ raw dec, BrokenAt opt raw dec text rest := by
  obtain ⟨raw, dec, text', hbody, hlen, rfl, hstop⟩ := h
  cases hstop with
  | endOfText => exact ⟨raw, dec, .halts hbody hlen .endOfText⟩
  | nonAscii hc => exact ⟨raw, dec, .halts hbody hlen (.nonAscii hc)⟩
  | badEscape h => exact ⟨raw, dec, .halts hbody hlen (.badEscape h)⟩
  | @tooLong unit decUnit _ hunit hlong =>
    exact ⟨raw ++ unit, dec ++ decUnit, .tooLong hbody hlen hunit hlong⟩

theorem BrokenAt.brokenString {raw dec : Bytes} (h : BrokenAt opt raw dec text rest) :
    BrokenString opt text rest := by
  cases h with
  | @halts raw dec text' _ hbody hlen h =>
    refine ⟨raw, dec, text', hbody, hlen, rfl, ?_⟩
    cases h with
    | endOfText => exact .endOfText
    | nonAscii hc => exact .nonAscii hc
    | badEscape h => exact .badEscape h
  | @tooLong raw dec unit decUnit _ hbody hlen hunit hlong =>
    exact ⟨raw, dec, unit ++ rest, hbody, hlen, rfl, .tooLong hunit hlong⟩

/-- Reading takes something off the text. -/
theorem Reads.length_lt (h : Reads opt g d n text rest v met) : rest.length < text.length := by
  -- every token has a character, and a step within an array or an object has more than its parts
  induction h with
  | ws hc _ ih => exact ih.trans (Nat.lt_succ_self _)
  | @word _ word rest _ _ hword =>
    have hne : word ≠ [] := by rcases hword with ⟨rfl, -⟩ | ⟨rfl, -⟩ | ⟨rfl, -⟩ <;> decide
    have := List.length_pos_iff.mpr hne
    rw [List.length_append]
    omega
  | number _ htok _ =>
    have := List.length_pos_iff.mpr htok.ne_nil
    rw [List.length_append]
    omega
  | @nanInf _ word rest _ _ _ hword =>
    have hne : word ≠ [] := by
      rintro rfl
      revert hword
      decide
    have := List.length_pos_iff.mpr hne
    rw [List.length_append]
    omega
  | string _ _ _ =>
    simp only [List.length_cons, List.length_append]
    omega
  | brokenString _ h => exact h.brokenString.length_lt
  | emptyArray _ _ =>
    simp only [List.length_cons, List.length_append]
    omega
  | array _ _ ih => exact ih.trans (Nat.lt_succ_self _)
  | emptyObject _ _ =>
    simp only [List.length_cons, List.length_append]
    omega
  | object _ _ ih => exact ih.trans (Nat.lt_succ_self _)
  | lastElement _ _ ih =>
    simp only [List.length_cons, List.length_append] at ih
    omega
  | moreElements _ _ _ ih ihmore =>
    simp only [List.length_cons, List.length_append] at ih
    omega
  | lastMember _ _ _ _ _ _ ih =>
    simp only [List.length_cons, List.length_append] at ih ⊢
    omega
  | moreMembers _ _ _ _ _ _ _ ih ihmore =>
    simp only [List.length_cons, List.length_append] at ih ⊢
    omega
  | brokenKey _ h =>
    have := h.brokenString.length_lt
    rw [List.length_append]
    omega

private theorem Reads.wsAppend_value {ws : Bytes} (hws : AllWs ws)
    (h : Reads opt .value d n text rest v met) :
    Reads opt .value d n (ws ++ text) rest v met := by
  induction ws with
  | nil => exact h
  | cons c ws ih =>
    exact .ws (hws c (List.mem_cons_self ..)) (ih fun a ha => hws a (List.mem_cons_of_mem _ ha))

/-- Whitespace may stand in front of everything that is read. -/
theorem Reads.wsAppend {ws : Bytes} (hws : AllWs ws) (h : Reads opt g d n text rest v met) :
    Reads opt g d n (ws ++ text) rest v met := by
  -- spaces before an element belong to the element, and spaces before a key to the member
  cases g with
  | value => exact h.wsAppend_value hws
  | elements arr =>
    cases h with
    | lastElement hws' h => exact .lastElement hws' (h.wsAppend_value hws)
    | moreElements hws' h hmore => exact .moreElements hws' (h.wsAppend_value hws) hmore
  | members obj =>
    cases h with
    | lastMember hws₁ hws₂ hws₃ hbody hlen h =>
      rw [← List.append_assoc]
      exact .lastMember (hws.append hws₁) hws₂ hws₃ hbody hlen h
    | moreMembers hws₁ hws₂ hws₃ hbody hlen h hmore =>
      rw [← List.append_assoc]
      exact .moreMembers (hws.append hws₁) hws₂ hws₃ hbody hlen h hmore
    | brokenKey hws₁ h =>
      rw [← List.append_assoc]
      exact .brokenKey (hws.append hws₁) h

theorem Reads.of_skipWs (h : Reads opt g d n (skipWs text) rest v met) :
    Reads opt g d n text rest v met := by
  obtain ⟨ws, hws, htext⟩ := exists_ws text
  rw [htext]
  exact h.wsAppend hws

end Reads

/-! ## What is accepted is read -/

/-- What a successful call of a parsing function says. -/
def Accepts (opt : ParseOptions) (g : Reading) (d : ℕ) (s : ParserState) (r : Parsed) : Prop :=
  r.error = .none → ∃ n met, Reads opt g d n s.rest r.state.rest r.out met ∧
    r.state.nodes = s.nodes + n ∧ (s.nodes ≤ opt.maxNodes → r.state.nodes ≤ opt.maxNodes)

/-- The specification of the call that parses a child. -/
def ChildSpec (opt : ParseOptions) (d : ℕ) (child : ParserState → Run Parsed) : Prop :=
  ∀ s, ∃ r, child s = .ok r ∧ Accepts opt .value d s r

/-- A separator is found behind whitespace. -/
theorem separator_sound (closing : UInt8) (s : ParserState) :
    (∃ ws text, AllWs ws ∧ s.rest = ws ++ byte ',' :: text ∧
      separator closing s = .comma { s with rest := text }) ∨
    (∃ ws text, AllWs ws ∧ s.rest = ws ++ closing :: text ∧
      separator closing s = .close { s with rest := text }) ∨
    ∃ e s', separator closing s = .bad e s' ∧ e ≠ .none := by
  obtain ⟨ws, hws, htext⟩ := exists_ws s.rest
  unfold separator ParserState.skipWs
  -- behind the spaces is the end, a comma, the closing bracket, or something else
  cases hskip : skipWs s.rest with
  | nil => exact Or.inr (Or.inr ⟨_, _, rfl, by decide⟩)
  | cons c text =>
    rw [hskip] at htext
    by_cases hcomma : c = byte ','
    · subst hcomma
      exact Or.inl ⟨ws, text, hws, htext, by simp⟩
    · by_cases hclose : c = closing
      · subst hclose
        exact Or.inr (Or.inl ⟨ws, text, hws, htext, by simp [hcomma]⟩)
      · exact Or.inr (Or.inr ⟨.unexpectedChar, ⟨c :: text, s.nodes⟩, by simp [hcomma, hclose],
          by decide⟩)

/-- A failed call says nothing. -/
theorem Accepts.of_error {g : Reading} {s s' : ParserState} {e : ParseError} {v : Value}
    (he : e ≠ .none) : Accepts opt g d s ⟨e, v, s'⟩ := fun h => absurd h he

/-- A round of the loop of `parse_array` on a child that is parsed. -/
theorem arrayStep_eq {child : ParserState → Run Parsed} {s : ParserState} {r : Parsed}
    (hrest : s.skipWs.rest ≠ []) (hchild : child s.skipWs = .ok r) (arr : List Value) :
    arrayStep child (arr, s) = .ok (arrayNext arr r) := by
  simp only [arrayStep, if_neg hrest, hchild, Outcome.ok_bind]

/-- A round of the loop of `parse_object` on a key that is parsed. -/
theorem objectStep_key {child : ParserState → Run Parsed} {s : ParserState}
    {key t rest text : Bytes} (hquote : skipWs s.rest = byte '"' :: t)
    (hkey : parseString opt (byte '"' :: t) = (some key, rest))
    (hcolon : skipWs rest = byte ':' :: text) (obj : List (Bytes × Value)) :
    objectStep opt child (obj, s) =
      child ⟨skipWs text, s.nodes⟩ >>= fun r => .ok (objectNext key obj r) := by
  simp only [objectStep, ParserState.skipWs, hquote, List.head?_cons, ne_eq, not_true, if_false,
    hkey, hcolon]

/-- A round of the loop of `parse_object` without a key. -/
theorem objectStep_noQuote {child : ParserState → Run Parsed} {s : ParserState}
    (hquote : (skipWs s.rest).head? ≠ some (byte '"')) (obj : List (Bytes × Value)) :
    objectStep opt child (obj, s) = .ok (.inr ⟨.unexpectedChar, .null, s.skipWs⟩) := by
  simp only [objectStep, ParserState.skipWs, ne_eq, hquote, not_false_eq_true, if_true]

/-- A broken key ends the object. -/
theorem objectStep_brokenKey {child : ParserState → Run Parsed} {s : ParserState}
    {t rest : Bytes} (hquote : skipWs s.rest = byte '"' :: t)
    (hkey : parseString opt (byte '"' :: t) = (none, rest)) (obj : List (Bytes × Value)) :
    objectStep opt child (obj, s) = .ok (.inr ⟨err_, .null, ⟨rest, s.nodes⟩⟩) := by
  simp only [objectStep, ParserState.skipWs, hquote, List.head?_cons, ne_eq, not_true, if_false,
    hkey]

/-- A round of the loop of `parse_object` on a key without a colon. -/
theorem objectStep_noColon {child : ParserState → Run Parsed} {s : ParserState}
    {key t rest : Bytes} (hquote : skipWs s.rest = byte '"' :: t)
    (hkey : parseString opt (byte '"' :: t) = (some key, rest))
    (hcolon : (skipWs rest).head? ≠ some (byte ':')) (obj : List (Bytes × Value)) :
    objectStep opt child (obj, s) =
      .ok (.inr ⟨.unexpectedChar, .null, ⟨skipWs rest, s.nodes⟩⟩) := by
  simp only [objectStep, ParserState.skipWs, hquote, List.head?_cons, ne_eq, not_true, if_false,
    hkey]
  cases hafter : skipWs rest with
  | nil => rfl
  | cons c text =>
    have hc : c ≠ byte ':' := by
      rintro rfl
      exact hcolon (by rw [hafter]; rfl)
    simp only [hc, not_false_eq_true, if_true]

/-- A round of the loop of `parse_object` on a key and a child that are parsed. -/
theorem objectStep_eq {child : ParserState → Run Parsed} {s : ParserState}
    {key t rest text : Bytes} {r : Parsed} (hquote : skipWs s.rest = byte '"' :: t)
    (hkey : parseString opt (byte '"' :: t) = (some key, rest))
    (hcolon : skipWs rest = byte ':' :: text) (hchild : child ⟨skipWs text, s.nodes⟩ = .ok r)
    (obj : List (Bytes × Value)) :
    objectStep opt child (obj, s) = .ok (objectNext key obj r) := by
  rw [objectStep_key hquote hkey hcolon, hchild, Outcome.ok_bind]

/-! ### Loops over items -/

/-- The loops of `parse_array` and `parse_object` behind an item. -/
def nextOf {α : Type} (closing : UInt8) (more : α) (done : Value) (r : Parsed) :
    (α × ParserState) ⊕ Parsed :=
  if r.error ≠ .none then .inr ⟨r.error, .null, r.state⟩
  else
    match separator closing r.state with
    | .comma s => .inl (more, s)
    | .close s => .inr ⟨.none, done, s⟩
    | .bad e s => .inr ⟨e, .null, s⟩

theorem arrayNext_eq (arr : List Value) (r : Parsed) :
    arrayNext arr r = nextOf (byte ']') (arr ++ [r.out]) (.array (arr ++ [r.out])) r := rfl

theorem objectNext_eq (key : Bytes) (obj : List (Bytes × Value)) (r : Parsed) :
    objectNext key obj r = nextOf (byte '}') (insertEntry key r.out obj)
      (.object (insertEntry key r.out obj)) r := rfl

section Items

variable {α : Type} {g : α → Reading}

/-- What a round of a loop over items says: it ends the loop, or it goes round on a shorter text, and
what is read there completes the reading. -/
def RoundAccepts (opt : ParseOptions) (g : α → Reading) (d : ℕ) (a : α) (s : ParserState) :
    (α × ParserState) ⊕ Parsed → Prop
  | .inl (b, s') => s'.rest.length < s.rest.length ∧
      ∀ r, Accepts opt (g b) d s' r → Accepts opt (g a) d s r
  | .inr r => Accepts opt (g a) d s r

/-- Behind an item that has been read, a separator decides how the loop goes on. -/
theorem nextOf_accepts {closing : UInt8} {more a : α} {done : Value} {s : ParserState} {r : Parsed}
    (hcomma : ∀ ws text, AllWs ws → r.error = .none → r.state.rest = ws ++ byte ',' :: text →
      RoundAccepts opt g d a s (.inl (more, { r.state with rest := text })))
    (hclose : ∀ ws text, AllWs ws → r.error = .none → r.state.rest = ws ++ closing :: text →
      Accepts opt (g a) d s ⟨.none, done, { r.state with rest := text }⟩) :
    RoundAccepts opt g d a s (nextOf closing more done r) := by
  unfold nextOf
  by_cases herror : r.error = .none
  swap
  · rw [if_pos herror]
    exact .of_error herror
  rw [if_neg (not_not.mpr herror)]
  -- the element was read, so what is left is the separator behind it
  rcases separator_sound closing r.state with ⟨ws, text, hws, hrest, hsep⟩ |
    ⟨ws, text, hws, hrest, hsep⟩ | ⟨e, s', hsep, he⟩
  · rw [hsep]
    exact hcomma ws text hws herror hrest
  · rw [hsep]
    exact hclose ws text hws herror hrest
  · rw [hsep]
    exact .of_error he

/-- A loop over items ends, since every round takes something off the text. -/
theorem itemsLoop_spec {step : α × ParserState → Run ((α × ParserState) ⊕ Parsed)}
    (hround : ∀ a s, ∃ x, step (a, s) = .ok x ∧ RoundAccepts opt g d a s x) (a : α)
    (s : ParserState) :
    ∃ r, loop step (s.rest.length + 1) (a, s) = .ok r ∧ Accepts opt (g a) d s r := by
  -- the variant is the length of the text, and the rounds so far are completed by the rest
  let Inv : ℕ → α × ParserState → Prop := fun i st => st.2.rest.length = i ∧
    ∀ r, Accepts opt (g st.1) d st.2 r → Accepts opt (g a) d s r
  have hstep : ∀ i st, Inv i st →
      (∃ st' j, step st = .ok (.inl st') ∧ Inv j st' ∧ j < i) ∨
        ∃ r, step st = .ok (.inr r) ∧ Accepts opt (g a) d s r := by
    rintro i ⟨b, s'⟩ ⟨rfl, hcomplete⟩
    obtain ⟨x, hx, haccepts⟩ := hround b s'
    cases x with
    | inl st' => exact Or.inl ⟨st', _, hx, ⟨rfl, fun r h => hcomplete r (haccepts.2 r h)⟩, haccepts.1⟩
    | inr r => exact Or.inr ⟨r, hx, hcomplete r haccepts⟩
  obtain ⟨r, haccepts, hr⟩ := loop_bounded Inv hstep _ (a, s) ⟨rfl, fun _ h => h⟩
  exact ⟨r, hr, haccepts⟩

end Items

section Rounds

variable {child : ParserState → Run Parsed}

/-- One round of the loop of `parse_array`. -/
theorem arrayStep_accepts (hchild : ChildSpec opt d child) (arr : List Value) (s : ParserState) :
    ∃ x, arrayStep child (arr, s) = .ok x ∧ RoundAccepts opt .elements d arr s x := by
  by_cases hend : s.skipWs.rest = []
  · refine ⟨.inr ⟨.unexpectedEnd, .null, s.skipWs⟩, ?_, .of_error (by decide)⟩
    simp only [arrayStep, if_pos hend]
  obtain ⟨r, hr, haccepts⟩ := hchild s.skipWs
  refine ⟨_, arrayStep_eq hend hr arr, ?_⟩
  rw [arrayNext_eq]
  apply nextOf_accepts
  · -- a comma: the loop goes round
    intro ws text hws herror hrest
    obtain ⟨n, met, hreads, hnodes, hmax⟩ := haccepts herror
    rw [hrest] at hreads
    have hvalue := hreads.of_skipWs
    refine ⟨?_, fun r' haccepts' herror' => ?_⟩
    · have hshort := hvalue.length_lt
      simp only [List.length_append, List.length_cons] at hshort
      change text.length < s.rest.length
      omega
    · obtain ⟨m, met', hmore, hnodes', hmax'⟩ := haccepts' herror'
      refine ⟨n + m, met ++ met', .moreElements hws hvalue hmore, ?_, fun h => hmax' (hmax h)⟩
      rw [hnodes', hnodes, Nat.add_assoc]
      rfl
  · -- the closing bracket
    intro ws text hws herror hrest _
    obtain ⟨n, met, hreads, hnodes, hmax⟩ := haccepts herror
    rw [hrest] at hreads
    exact ⟨n, met, .lastElement hws hreads.of_skipWs, hnodes, hmax⟩

/-- One round of the loop of `parse_object`. -/
theorem objectStep_accepts (hchild : ChildSpec opt d child) (obj : List (Bytes × Value))
    (s : ParserState) :
    ∃ x, objectStep opt child (obj, s) = .ok x ∧ RoundAccepts opt .members d obj s x := by
  obtain ⟨ws, hws, htext⟩ := exists_ws s.rest
  by_cases hquote : s.skipWs.rest.head? = some (byte '"')
  swap
  · exact ⟨_, objectStep_noQuote hquote obj, .of_error (by decide)⟩
  obtain ⟨text, hskip⟩ : ∃ text, skipWs s.rest = byte '"' :: text :=
    List.head?_eq_some_iff.mp hquote
  rw [hskip] at htext
  rcases parseString_sound opt text with ⟨raw, key, rest, hbody, hlen, rfl, hparse⟩ |
    ⟨rest, hparse, hbroken⟩
  swap
  · -- a broken key sets no error, so the object ends as null
    obtain ⟨raw, dec, hat⟩ := hbroken.exists_at
    refine ⟨_, objectStep_brokenKey hskip hparse obj, fun _ => ⟨0, [(raw, dec)], ?_, rfl, id⟩⟩
    rw [htext]
    exact .brokenKey hws hat
  obtain ⟨ws', hws', hrest⟩ := exists_ws rest
  by_cases hcolon : (skipWs rest).head? = some (byte ':')
  swap
  · exact ⟨_, objectStep_noColon hskip hparse hcolon obj, .of_error (by decide)⟩
  obtain ⟨text', hcolon⟩ : ∃ text', skipWs rest = byte ':' :: text' :=
    List.head?_eq_some_iff.mp hcolon
  rw [hcolon] at hrest
  rw [hrest] at htext
  obtain ⟨r, hr, haccepts⟩ := hchild ⟨skipWs text', s.nodes⟩
  refine ⟨_, objectStep_eq hskip hparse hcolon hr obj, ?_⟩
  rw [objectNext_eq]
  apply nextOf_accepts
  · -- a comma: the loop goes round
    intro ws'' text'' hws'' herror hafter
    obtain ⟨n, met, hreads, hnodes, hmax⟩ := haccepts herror
    rw [hafter] at hreads
    have hvalue := hreads.of_skipWs
    refine ⟨?_, fun r' haccepts' herror' => ?_⟩
    · have hshort := hvalue.length_lt
      have hlong := congrArg List.length htext
      simp only [List.length_append, List.length_cons] at hshort hlong
      change text''.length < s.rest.length
      omega
    · obtain ⟨m, met', hmore, hnodes', hmax'⟩ := haccepts' herror'
      rw [htext]
      refine ⟨n + m, (raw, key) :: (met ++ met'),
        .moreMembers hws hws' hws'' hbody hlen hvalue hmore, ?_, fun h => hmax' (hmax h)⟩
      rw [hnodes', hnodes, Nat.add_assoc]
  · -- the closing brace
    intro ws'' text'' hws'' herror hafter _
    obtain ⟨n, met, hreads, hnodes, hmax⟩ := haccepts herror
    rw [hafter] at hreads
    rw [htext]
    exact ⟨n, (raw, key) :: met, .lastMember hws hws' hws'' hbody hlen hreads.of_skipWs, hnodes,
      hmax⟩

/-- The loop of `parse_array`. -/
theorem arrayLoop_spec (hchild : ChildSpec opt d child) (arr : List Value) (s : ParserState) :
    ∃ r, loop (arrayStep child) (s.rest.length + 1) (arr, s) = .ok r ∧
      Accepts opt (.elements arr) d s r :=
  itemsLoop_spec (arrayStep_accepts hchild) arr s

/-- The loop of `parse_object`. -/
theorem objectLoop_spec (hchild : ChildSpec opt d child) (obj : List (Bytes × Value))
    (s : ParserState) :
    ∃ r, loop (objectStep opt child) (s.rest.length + 1) (obj, s) = .ok r ∧
      Accepts opt (.members obj) d s r :=
  itemsLoop_spec (objectStep_accepts hchild) obj s

end Rounds

/-! ### Arrays and objects -/

/-- `parse_array` on a bracket: an empty array, or the loop. -/
theorem parseArray_eq (child : ParserState → Run Parsed) (text : Bytes) (nodes : ℕ) :
    parseArray child ⟨byte '[' :: text, nodes⟩ =
      if (skipWs text).head? = some (byte ']') then
        .ok ⟨.none, .array [], ⟨(skipWs text).tail, nodes⟩⟩
      else loop (arrayStep child) ((skipWs text).length + 1) ([], ⟨skipWs text, nodes⟩) := by
  unfold parseArray
  simp only [List.tail_cons]
  cases skipWs text with
  | nil => rfl
  | cons c rest => by_cases hc : c = byte ']' <;> simp [hc]

/-- `parse_object` on a brace: an empty object, or the loop. -/
theorem parseObject_eq (child : ParserState → Run Parsed) (text : Bytes) (nodes : ℕ) :
    parseObject opt child ⟨byte '{' :: text, nodes⟩ =
      if (skipWs text).head? = some (byte '}') then
        .ok ⟨.none, .object [], ⟨(skipWs text).tail, nodes⟩⟩
      else loop (objectStep opt child) ((skipWs text).length + 1) ([], ⟨skipWs text, nodes⟩) := by
  unfold parseObject
  simp only [List.tail_cons]
  cases skipWs text with
  | nil => rfl
  | cons c rest => by_cases hc : c = byte '}' <;> simp [hc]

/-- An array or object: its brackets are closed at once, or its loop reads what is in them. -/
theorem bracket_spec {α : Type} {g : α → Reading} {opening closing : UInt8} {empty : Value}
    {start : α} {step : α × ParserState → Run ((α × ParserState) ⊕ Parsed)}
    (hempty : ∀ ws rest, AllWs ws →
      Reads opt .value d 1 (opening :: (ws ++ closing :: rest)) rest empty [])
    (hopen : ∀ {n text rest v met}, Reads opt (g start) (d + 1) n text rest v met →
      Reads opt .value d (n + 1) (opening :: text) rest v met)
    (hloop : ∀ s, ∃ r, loop step (s.rest.length + 1) (start, s) = .ok r ∧
      Accepts opt (g start) (d + 1) s r) (text : Bytes) (nodes : ℕ) :
    ∃ r, (if (skipWs text).head? = some closing then
        .ok ⟨.none, empty, ⟨(skipWs text).tail, nodes⟩⟩
      else loop step ((skipWs text).length + 1) (start, ⟨skipWs text, nodes⟩)) = .ok r ∧
      (r.error = .none → ∃ n met,
        Reads opt .value d (n + 1) (opening :: text) r.state.rest r.out met ∧
        r.state.nodes = nodes + n ∧ (nodes ≤ opt.maxNodes → r.state.nodes ≤ opt.maxNodes)) := by
  split
  · -- closed at once
    rename_i hclose
    obtain ⟨rest, hrest⟩ := List.head?_eq_some_iff.mp hclose
    obtain ⟨ws, hws, htext⟩ := exists_ws text
    refine ⟨_, rfl, fun _ => ⟨0, [], ?_, rfl, id⟩⟩
    rw [hrest] at htext
    simp only [hrest, List.tail_cons]
    rw [htext]
    exact hempty ws rest hws
  · obtain ⟨r, hr, haccepts⟩ := hloop ⟨skipWs text, nodes⟩
    refine ⟨r, hr, fun herror => ?_⟩
    obtain ⟨n, met, hreads, hnodes⟩ := haccepts herror
    exact ⟨n, met, hopen hreads.of_skipWs, hnodes⟩

theorem parseArray_spec {child : ParserState → Run Parsed} (hchild : ChildSpec opt (d + 1) child)
    (hd : d ≤ opt.maxDepth) (text : Bytes) (nodes : ℕ) :
    ∃ r, parseArray child ⟨byte '[' :: text, nodes⟩ = .ok r ∧
      (r.error = .none → ∃ n met,
        Reads opt .value d (n + 1) (byte '[' :: text) r.state.rest r.out met ∧
        r.state.nodes = nodes + n ∧ (nodes ≤ opt.maxNodes → r.state.nodes ≤ opt.maxNodes)) := by
  rw [parseArray_eq]
  exact bracket_spec (g := .elements) (fun _ _ hws => .emptyArray hd hws) (fun h => .array hd h)
    (arrayLoop_spec hchild []) text nodes

theorem parseObject_spec {child : ParserState → Run Parsed} (hchild : ChildSpec opt (d + 1) child)
    (hd : d ≤ opt.maxDepth) (text : Bytes) (nodes : ℕ) :
    ∃ r, parseObject opt child ⟨byte '{' :: text, nodes⟩ = .ok r ∧
      (r.error = .none → ∃ n met,
        Reads opt .value d (n + 1) (byte '{' :: text) r.state.rest r.out met ∧
        r.state.nodes = nodes + n ∧ (nodes ≤ opt.maxNodes → r.state.nodes ≤ opt.maxNodes)) := by
  rw [parseObject_eq]
  exact bracket_spec (g := .members) (fun _ _ hws => .emptyObject hd hws) (fun h => .object hd h)
    (objectLoop_spec hchild []) text nodes

/-! ### Scalars -/

theorem matchWord_eq_some {word : Bytes} :
    matchWord word text = some rest ↔ text = word ++ rest := by
  unfold matchWord
  split_ifs with h
  · obtain ⟨t, rfl⟩ := List.isPrefixOf_iff_prefix.mp h
    simp
  · simp only [false_iff]
    rintro rfl
    exact h (List.isPrefixOf_iff_prefix.mpr (List.prefix_append _ _))

/-- After `+`, `I` or `N` there is one of the words for NaN and infinity, if the option allows it. -/
private theorem parseNumber_word {c : UInt8} (hc : c = byte '+' ∨ c = byte 'I' ∨ c = byte 'N')
    {s : ParserState} (h : (parseNumber opt c s).error = .none) :
    opt.allowNanInf = true ∧ ∃ word ∈ [str "NaN", str "nan", str "Inf", str "inf"], ∃ x rest,
      s.rest = word ++ rest ∧ parseNumber opt c s = ⟨.none, .double x, ⟨rest, s.nodes⟩⟩ := by
  -- either spelling is one of the words
  have hor : ∀ {w w' rest : Bytes}, (matchWord w s.rest).or (matchWord w' s.rest) = some rest →
      s.rest = w ++ rest ∨ s.rest = w' ++ rest := by
    intro w w' rest hmatch
    rcases Option.or_eq_some_iff.mp hmatch with h | ⟨-, h⟩
    · exact Or.inl (matchWord_eq_some.mp h)
    · exact Or.inr (matchWord_eq_some.mp h)
  unfold parseNumber at h ⊢
  rw [if_pos hc] at h ⊢
  split at h
  · -- NaN
    rename_i rest hmatch
    by_cases hallow : opt.allowNanInf = true
    · refine ⟨hallow, ?_⟩
      rw [if_pos hallow]
      rcases hor hmatch with htext | htext
      · exact ⟨_, by simp, .nan, rest, htext, rfl⟩
      · exact ⟨_, by simp, .nan, rest, htext, rfl⟩
    · simp [hallow] at h
  · split at h
    · rename_i rest hmatch
      by_cases hallow : opt.allowNanInf = true
      · refine ⟨hallow, ?_⟩
        rw [if_pos hallow]
        rcases hor hmatch with htext | htext
        · exact ⟨_, by simp, .inf false, rest, htext, rfl⟩
        · exact ⟨_, by simp, .inf false, rest, htext, rfl⟩
      · simp [hallow] at h
    · exact absurd h ParseError.noConfusion

/-- The cases without recursion. -/
theorem parseScalar_sound (hd : d ≤ opt.maxDepth) {c : UInt8} {text : Bytes} {nodes : ℕ}
    (h : (parseScalar opt c ⟨c :: text, nodes⟩).error = .none) :
    ∃ met, Reads opt .value d 1 (c :: text) (parseScalar opt c ⟨c :: text, nodes⟩).state.rest
        (parseScalar opt c ⟨c :: text, nodes⟩).out met ∧
      (parseScalar opt c ⟨c :: text, nodes⟩).state.nodes = nodes := by
  have hword : ∀ {word : Bytes} {v : Value},
      (word = str "null" ∧ v = .null ∨ word = str "true" ∧ v = .bool true ∨
        word = str "false" ∧ v = .bool false) →
      (parseWord word v ⟨c :: text, nodes⟩).error = .none →
      ∃ met, Reads opt .value d 1 (c :: text) (parseWord word v ⟨c :: text, nodes⟩).state.rest
          (parseWord word v ⟨c :: text, nodes⟩).out met ∧
        (parseWord word v ⟨c :: text, nodes⟩).state.nodes = nodes := by
    intro word v hv h
    unfold parseWord at h ⊢
    cases hmatch : matchWord word (c :: text) with
    | none =>
      simp only [hmatch] at h
      exact absurd h ParseError.noConfusion
    | some rest =>
      simp only
      rw [matchWord_eq_some.mp hmatch]
      exact ⟨[], .word hd hv, trivial⟩
  unfold parseScalar at h ⊢
  split_ifs at h ⊢ with hquote htrue hfalse hnull hnumber
  · subst hquote
    rcases parseString_sound opt text with ⟨raw, dec, rest, hbody, hlen, rfl, hparse⟩ |
      ⟨rest, hparse, hbroken⟩
    · simp only [hparse]
      exact ⟨_, .string hd hbody hlen, trivial⟩
    · -- a broken string sets no error, so it is read as null
      obtain ⟨raw, dec, hat⟩ := hbroken.exists_at
      simp only [hparse]
      exact ⟨_, .brokenString hd hat, trivial⟩
  · exact hword (Or.inr (Or.inl ⟨rfl, rfl⟩)) h
  · exact hword (Or.inr (Or.inr ⟨rfl, rfl⟩)) h
  · exact hword (Or.inl ⟨rfl, rfl⟩) h
  · by_cases hc : c = byte '+' ∨ c = byte 'I' ∨ c = byte 'N'
    · obtain ⟨hallow, word, hmem, x, rest, htext, heq⟩ := parseNumber_word hc h
      rw [heq]
      rw [show c :: text = word ++ rest from htext]
      exact ⟨[], .nanInf hd hallow hmem, rfl⟩
    · have hc : c = byte '-' ∨ isDigit c = true :=
        hnumber.imp_right fun hnumber => hnumber.resolve_right hc
      obtain ⟨hnodes, hv, tok, htok, htext⟩ := parseNumber_sound hc h
      refine ⟨[], ?_, hnodes⟩
      generalize (parseNumber opt c _).state.rest = rest at htext ⊢
      generalize (parseNumber opt c _).out = v at hv ⊢
      rw [htext]
      exact .number hd htok hv

/-! ### Values -/

/-- Within the limits, `parse_value` looks at the first character behind the whitespace. -/
theorem parseValue_eq {fuel depth : ℕ} {s : ParserState} (hd : depth ≤ opt.maxDepth)
    (hnodes : s.nodes + 1 ≤ opt.maxNodes) {c : UInt8} {text : Bytes}
    (htext : skipWs s.rest = c :: text) :
    parseValue opt (fuel + 1) depth s =
      if c = byte '{' then
        parseObject opt (parseValue opt fuel (depth + 1)) ⟨c :: text, s.nodes + 1⟩
      else if c = byte '[' then
        parseArray (parseValue opt fuel (depth + 1)) ⟨c :: text, s.nodes + 1⟩
      else .ok (parseScalar opt c ⟨c :: text, s.nodes + 1⟩) := by
  rw [parseValue]
  simp only [if_neg (not_lt.mpr hd), if_neg (not_lt.mpr hnodes), ParserState.skipWs, htext]

/-- One value too many is refused. -/
theorem parseValue_tooMany {fuel depth : ℕ} {s : ParserState} (hd : depth ≤ opt.maxDepth)
    (hnodes : ¬ s.nodes + 1 ≤ opt.maxNodes) :
    parseValue opt (fuel + 1) depth s = .ok ⟨.sizeExceeded, .null, ⟨s.rest, s.nodes + 1⟩⟩ := by
  rw [parseValue, if_neg (not_lt.mpr hd)]
  simp only [if_pos (not_le.mp hnodes)]

/-- At the end of the text there is no value. -/
theorem parseValue_end {fuel depth : ℕ} {s : ParserState} (hd : depth ≤ opt.maxDepth)
    (hnodes : s.nodes + 1 ≤ opt.maxNodes) (htext : skipWs s.rest = []) :
    parseValue opt (fuel + 1) depth s = .ok ⟨.unexpectedEnd, .null, ⟨[], s.nodes + 1⟩⟩ := by
  rw [parseValue]
  simp only [if_neg (not_lt.mpr hd), if_neg (not_lt.mpr hnodes), ParserState.skipWs, htext]

/-- The parser always returns, and what it accepts is read. -/
theorem parseValue_spec :
    ∀ fuel d, opt.maxDepth + 2 ≤ fuel + d → d ≤ opt.maxDepth + 1 →
      ChildSpec opt d (parseValue opt fuel d) := by
  intro fuel
  induction fuel with
  | zero =>
    intro d hfuel hd s
    omega
  | succ fuel ih =>
    intro d hfuel hd s
    by_cases hdepth : opt.maxDepth < d
    · refine ⟨⟨.depthExceeded, .null, s⟩, ?_, .of_error (by decide)⟩
      rw [parseValue, if_pos hdepth]
    by_cases hsize : opt.maxNodes < s.nodes + 1
    · exact ⟨_, parseValue_tooMany (not_lt.mp hdepth) (not_le.mpr hsize), .of_error (by decide)⟩
    cases htext : skipWs s.rest with
    | nil =>
      exact ⟨_, parseValue_end (not_lt.mp hdepth) (not_lt.mp hsize) htext, .of_error (by decide)⟩
    | cons c text =>
      have hle : d ≤ opt.maxDepth := not_lt.mp hdepth
      have hmax : s.nodes + 1 ≤ opt.maxNodes := not_lt.mp hsize
      have hchild := ih (d + 1) (by omega) (by omega)
      rw [parseValue_eq hle hmax htext]
      -- whatever is read behind the whitespace is read with it
      have hlift : ∀ {n : ℕ} {rest : Bytes} {v : Value} {met : List (Bytes × Bytes)},
          Reads opt .value d n (c :: text) rest v met → Reads opt .value d n s.rest rest v met :=
        fun h => Reads.of_skipWs (htext ▸ h)
      by_cases hbrace : c = byte '{'
      · subst hbrace
        rw [if_pos rfl]
        obtain ⟨r, hr, hspec⟩ := parseObject_spec hchild hle text (s.nodes + 1)
        refine ⟨r, hr, fun herror => ?_⟩
        obtain ⟨n, met, hreads, hnodes, hle'⟩ := hspec herror
        exact ⟨n + 1, met, hlift hreads, by rw [hnodes]; omega, fun _ => hle' hmax⟩
      rw [if_neg hbrace]
      by_cases hbracket : c = byte '['
      · subst hbracket
        rw [if_pos rfl]
        obtain ⟨r, hr, hspec⟩ := parseArray_spec hchild hle text (s.nodes + 1)
        refine ⟨r, hr, fun herror => ?_⟩
        obtain ⟨n, met, hreads, hnodes, hle'⟩ := hspec herror
        exact ⟨n + 1, met, hlift hreads, by rw [hnodes]; omega, fun _ => hle' hmax⟩
      rw [if_neg hbracket]
      refine ⟨_, rfl, fun herror => ?_⟩
      obtain ⟨met, hreads, hnodes⟩ := parseScalar_sound hle herror
      exact ⟨1, met, hlift hreads, hnodes, fun _ => hnodes.trans_le hmax⟩

/-! ## Whole texts -/

/-- The parser always returns. -/
theorem parse_returns (opt : ParseOptions) (text : Bytes) : ∃ r, parse opt text = .ok r := by
  obtain ⟨r, hr, -⟩ := @parseValue_spec opt (opt.maxDepth + 2) 0 (by omega) (by omega) ⟨text, 0⟩
  unfold parse
  rw [hr]
  simp only [Outcome.ok_bind]
  split_ifs <;> exact ⟨_, rfl⟩

/-- A text that is accepted is a value and whitespace. -/
theorem parse_ok {text : Bytes} {r : ParseResult} (h : parse opt text = .ok r)
    (hok : r.ok = true) : ∃ p, parseValue opt (opt.maxDepth + 2) 0 ⟨text, 0⟩ = .ok p ∧
      p.error = .none ∧ skipWs p.state.rest = [] ∧ p.out = r.value := by
  unfold parse at h
  obtain ⟨p, hp, h⟩ := Outcome.bind_eq_ok.mp h
  by_cases herror : p.error = .none
  swap
  · rw [if_pos herror] at h
    obtain rfl := Outcome.ok.inj h
    exact absurd (by simpa [ParseResult.ok] using hok) herror
  rw [if_neg (not_not.mpr herror)] at h
  -- nothing but whitespace may follow the value
  by_cases hskip : p.state.skipWs.rest = []
  swap
  · simp only [if_pos (show p.state.skipWs.rest ≠ [] from hskip)] at h
    obtain rfl := Outcome.ok.inj h
    exact absurd hok (by simp [ParseResult.ok])
  simp only [if_neg (not_not.mpr hskip)] at h
  obtain rfl := Outcome.ok.inj h
  exact ⟨p, hp, herror, hskip, rfl⟩

/-- A text that is accepted is read up to whitespace. -/
theorem parse_reads {text : Bytes} {r : ParseResult} (h : parse opt text = .ok r)
    (hok : r.ok = true) : ∃ n rest met, Reads opt .value 0 n text rest r.value met ∧
      n ≤ opt.maxNodes ∧ AllWs rest := by
  obtain ⟨p, hp, herror, hskip, hvalue⟩ := parse_ok h hok
  obtain ⟨p', hp', haccepts⟩ :=
    @parseValue_spec opt (opt.maxDepth + 2) 0 (by omega) (by omega) ⟨text, 0⟩
  obtain rfl := Outcome.ok.inj (hp.symm.trans hp')
  obtain ⟨n, met, hreads, hnodes, hmax⟩ := haccepts herror
  refine ⟨n, p.state.rest, met, hvalue ▸ hreads, ?_, skipWs_eq_nil_iff.mp hskip⟩
  have := hmax (Nat.zero_le _)
  rwa [hnodes, Nat.zero_add] at this

end TopologyFabric.Json

import TopologyFabric.Json.RoundTrip

/-!
# Truncated Texts

The parser on a text that a written value has been cut to. A string that is cut is passed over as
null, but what is left of the text then cannot stand behind a value, so every array or object around
it fails. Only an object whose own key is cut is left with success, and it is left as null.

## Main results

- `parseValue_cut`: `parse_value` fails on a value that is cut, or gives something else than an object
- `parse_cut`: a text that is cut from a written object is not parsed as an object
-/

namespace TopologyFabric.Json

open Library

variable {opt : ParseOptions} {mode : WriteMode} {d wd fuel : ℕ}

/-! ## Cutting a text -/

/-- A cut through two parts goes through the first one or leaves it whole. -/
theorem prefix_append_cases {t a b : Bytes} (h : t <+: a ++ b) :
    t <+: a ∧ t ≠ a ∨ ∃ t', t = a ++ t' ∧ t' <+: b := by
  by_cases hle : a <+: t
  · obtain ⟨t', rfl⟩ := hle
    exact Or.inr ⟨t', rfl, (List.prefix_append_right_inj a).mp h⟩
  · refine Or.inl ⟨?_, fun heq => hle (heq ▸ List.prefix_rfl)⟩
    exact (List.prefix_or_prefix_of_prefix h (List.prefix_append a b)).resolve_right hle

/-- A cut before the closing bracket leaves whitespace. -/
theorem allWs_of_cut {ws t : Bytes} {closing : UInt8} (hws : AllWs ws)
    (hpre : t <+: ws ++ [closing]) (hne : t ≠ ws ++ [closing]) : AllWs t := by
  rcases List.prefix_concat_iff.mp hpre with heq | hpre
  · exact absurd heq hne
  · exact fun c hc => hws c (hpre.subset hc)

/-- A cut behind an item leaves whitespace, or it goes through a later item. -/
theorem next_cut {items first ws t : Bytes} {closing : UInt8} (hws : AllWs ws)
    (hitems : items = [] ∨ items = byte ',' :: first) (hpre : t <+: items ++ (ws ++ [closing]))
    (hne : t ≠ items ++ (ws ++ [closing])) :
    AllWs t ∨ ∃ t', t = byte ',' :: t' ∧ t' <+: first ++ (ws ++ [closing]) ∧
      t' ≠ first ++ (ws ++ [closing]) := by
  rcases hitems with rfl | rfl
  · exact Or.inl (allWs_of_cut hws hpre hne)
  · rcases List.prefix_cons_iff.mp hpre with rfl | ⟨t', rfl, hpre'⟩
    · exact Or.inl fun c hc => by simp at hc
    · exact Or.inr ⟨t', rfl, hpre', fun heq => hne (by rw [heq]; rfl)⟩

/-- Whitespace in front of a text that is cut may be skipped. -/
theorem skipWs_cut {ws text t : Bytes} (hws : AllWs ws) (htext : text ≠ [])
    (hpre : t <+: ws ++ text) (hne : t ≠ ws ++ text) :
    ∃ t', t' <+: text ∧ t' ≠ text ∧ skipWs t = skipWs t' := by
  rcases prefix_append_cases hpre with ⟨hcut, -⟩ | ⟨t', rfl, hpre'⟩
  · have hall : AllWs t := fun c hc => hws c (hcut.subset hc)
    exact ⟨[], List.nil_prefix, htext.symm, skipWs_eq_nil_iff.mpr hall⟩
  · exact ⟨t', hpre', fun heq => hne (by rw [heq]), skipWs_append hws t'⟩

theorem isAscii_skipWs {t : Bytes} (h : IsAscii t) : IsAscii (skipWs t) :=
  fun c hc => h c ((List.dropWhile_suffix _).subset hc)

/-- What cannot stand behind a value in a text. -/
def DeadEnd (rest : Bytes) : Prop :=
  ∀ c, (skipWs rest).head? = some c → c ≠ byte ',' ∧ c ≠ byte ']' ∧ c ≠ byte '}'

theorem deadEnd_of_ws {rest : Bytes} (h : AllWs rest) : DeadEnd rest := by
  intro c hc
  rw [skipWs_eq_nil_iff.mpr h] at hc
  cases hc

theorem deadEnd_cons {c : UInt8} (hws : isWs c = false)
    (hc : c ≠ byte ',' ∧ c ≠ byte ']' ∧ c ≠ byte '}') (t : Bytes) : DeadEnd (c :: t) := by
  intro a ha
  rw [skipWs_eq_self hws] at ha
  exact Option.some.inj ha ▸ hc

/-- Behind a dead end no loop goes on. -/
theorem separator_deadEnd {closing : UInt8} (hclosing : closing = byte ']' ∨ closing = byte '}')
    {s : ParserState} (h : DeadEnd s.rest) :
    ∃ e s', separator closing s = .bad e s' ∧ e ≠ .none := by
  unfold separator ParserState.skipWs
  cases hskip : skipWs s.rest with
  | nil => exact ⟨_, _, rfl, ParseError.noConfusion⟩
  | cons c rest =>
    obtain ⟨hcomma, hbracket, hbrace⟩ := h c (by rw [hskip]; rfl)
    have hne : c ≠ closing := by
      rcases hclosing with rfl | rfl
      · exact hbracket
      · exact hbrace
    refine ⟨.unexpectedChar, ⟨c :: rest, s.nodes⟩, ?_, ParseError.noConfusion⟩
    simp only [if_neg hcomma, if_neg hne]

/-- A loop fails behind an item that fails or leads to a dead end. -/
theorem nextOf_deadEnd {α : Type} {closing : UInt8}
    (hclosing : closing = byte ']' ∨ closing = byte '}') {p : Parsed}
    (hp : p.error = .none → DeadEnd p.state.rest) (more : α) (done : Value) :
    ∃ r, nextOf closing more done p = .inr r ∧ r.error ≠ .none := by
  unfold nextOf
  by_cases herror : p.error = .none
  · obtain ⟨e, s', hsep, he⟩ := separator_deadEnd hclosing (hp herror)
    rw [if_neg (not_not.mpr herror)]
    simp only [hsep]
    exact ⟨_, rfl, he⟩
  · rw [if_pos herror]
    exact ⟨_, rfl, herror⟩

theorem arrayNext_deadEnd {p : Parsed} (hp : p.error = .none → DeadEnd p.state.rest)
    (arr : List Value) : ∃ r, arrayNext arr p = .inr r ∧ r.error ≠ .none := by
  rw [arrayNext_eq]
  exact nextOf_deadEnd (Or.inl rfl) hp _ _

theorem objectNext_deadEnd {p : Parsed} (hp : p.error = .none → DeadEnd p.state.rest)
    (key : Bytes) (obj : List (Bytes × Value)) :
    ∃ r, objectNext key obj p = .inr r ∧ r.error ≠ .none := by
  rw [objectNext_eq]
  exact nextOf_deadEnd (Or.inr rfl) hp _ _

/-- A loop that returns with success has no round that fails. -/
theorem round_not_failed {σ : Type*} {next : σ ⊕ Parsed} {Goes : σ → Prop} {r : Parsed}
    (hnext : (∃ st, next = .inl st ∧ Goes st) ∨ next = .inr r) (herror : r.error = .none) :
    ¬ ∃ r', next = .inr r' ∧ r'.error ≠ .none := by
  rintro ⟨r', hr', hfail⟩
  rcases hnext with ⟨st, hst, -⟩ | hr
  · cases hst.symm.trans hr'
  · obtain rfl := Sum.inr.inj (hr.symm.trans hr')
    exact hfail herror

/-- A loop goes on from the state that a round leaves. -/
theorem round_goes {σ : Type*} {next : σ ⊕ Parsed} {Goes : σ → Prop} {r : Parsed} {st : σ}
    (hnext : (∃ st, next = .inl st ∧ Goes st) ∨ next = .inr r) (hst : next = .inl st) :
    Goes st := by
  rcases hnext with ⟨st', hst', hgoes⟩ | hr
  · obtain rfl := Sum.inl.inj (hst.symm.trans hst')
    exact hgoes
  · cases hst.symm.trans hr

/-- A loop that returns has run the child of its first round. -/
theorem loop_child {σ : Type} {step : σ → Run (σ ⊕ Parsed)} {child : Run Parsed}
    {next : Parsed → σ ⊕ Parsed} {budget : ℕ} {st : σ} {r : Parsed}
    (hstep : step st = child >>= fun p => .ok (next p)) (h : loop step budget st = .ok r) :
    ∃ p m, child = .ok p ∧
      ((∃ st', next p = .inl st' ∧ loop step m st' = .ok r) ∨ next p = .inr r) := by
  obtain ⟨m, -, hround⟩ := loop_eq_ok h
  rw [hstep] at hround
  rcases hround with ⟨st', hst, hloop⟩ | hr
  · obtain ⟨p, hp, hnext⟩ := Outcome.bind_eq_ok.mp hst
    exact ⟨p, m, hp, Or.inl ⟨st', Outcome.ok.inj hnext, hloop⟩⟩
  · obtain ⟨p, hp, hnext⟩ := Outcome.bind_eq_ok.mp hr
    exact ⟨p, m, hp, Or.inr (Outcome.ok.inj hnext)⟩

/-- A loop of `parse_array` that returns has parsed an element, or fails for lack of text. -/
theorem arrayLoop_ok {child : ParserState → Run Parsed} {budget : ℕ} {arr : List Value}
    {s : ParserState} {r : Parsed} (h : loop (arrayStep child) budget (arr, s) = .ok r)
    (herror : r.error = .none) :
    ∃ p m, skipWs s.rest ≠ [] ∧ child s.skipWs = .ok p ∧
      ((∃ st, arrayNext arr p = .inl st ∧ loop (arrayStep child) m st = .ok r) ∨
        arrayNext arr p = .inr r) := by
  -- at the end of the text the loop reports an error
  by_cases hend : s.skipWs.rest = []
  · have hfail : arrayStep child (arr, s) = .ok (.inr ⟨.unexpectedEnd, .null, s.skipWs⟩) := by
      simp only [arrayStep, if_pos hend]
    obtain ⟨m, -, hround⟩ := loop_eq_ok h
    rw [hfail] at hround
    rcases hround with ⟨st, hst, -⟩ | hr
    · cases Outcome.ok.inj hst
    · obtain rfl := Sum.inr.inj (Outcome.ok.inj hr)
      cases herror
  · have hstep : arrayStep child (arr, s) =
        child s.skipWs >>= fun p => .ok (arrayNext arr p) := by
      simp only [arrayStep, if_neg hend]
    obtain ⟨p, m, hp, hnext⟩ := loop_child hstep h
    exact ⟨p, m, hend, hp, hnext⟩

/-- A loop of `parse_object` whose round stops. -/
theorem objectLoop_stop {child : ParserState → Run Parsed} {budget : ℕ}
    {st : List (Bytes × Value) × ParserState} {r r' : Parsed}
    (hstep : objectStep opt child st = .ok (.inr r'))
    (h : loop (objectStep opt child) budget st = .ok r) : r' = r := by
  obtain ⟨m, -, ⟨st', hst, -⟩ | hst⟩ := loop_eq_ok h
  · cases hstep.symm.trans hst
  · exact Sum.inr.inj (Outcome.ok.inj (hstep.symm.trans hst))

/-- A loop of `parse_object` that returns behind a key has parsed a member. -/
theorem objectLoop_ok {child : ParserState → Run Parsed} {budget : ℕ}
    {obj : List (Bytes × Value)} {s : ParserState} {key t rest text : Bytes} {r : Parsed}
    (hquote : skipWs s.rest = byte '"' :: t)
    (hkey : parseString opt (byte '"' :: t) = (some key, rest))
    (hcolon : skipWs rest = byte ':' :: text)
    (h : loop (objectStep opt child) budget (obj, s) = .ok r) :
    ∃ p m, child ⟨skipWs text, s.nodes⟩ = .ok p ∧
      ((∃ st, objectNext key obj p = .inl st ∧ loop (objectStep opt child) m st = .ok r) ∨
        objectNext key obj p = .inr r) :=
  loop_child (objectStep_key hquote hkey hcolon obj) h

/-! ## Strings and numbers that are cut -/

/-- An escape by number needs four digits. -/
private theorem stringLoop_shortEscape (buf : Bytes) {t : Bytes} (ht : t.length < 4) :
    stringLoop opt buf (byte '\\' :: byte 'u' :: t) = (none, byte 'u' :: t) := by
  match t with
  | [] => rfl
  | [_] => rfl
  | [_, _] => rfl
  | [_, _, _] => rfl
  | _ :: _ :: _ :: _ :: t =>
    simp only [List.length_cons] at ht
    omega

/-- A character that is cut leaves an incomplete escape. -/
private theorem stringLoop_cutChar {c : UInt8} {t : Bytes} (hpre : t <+: writeChar c)
    (hne : t ≠ writeChar c) (buf : Bytes) :
    ∃ rest, stringLoop opt buf t = (none, rest) ∧ DeadEnd rest := by
  have hescape : ∀ {e : UInt8}, t <+: [byte '\\', e] → t ≠ [byte '\\', e] →
      ∃ rest, stringLoop opt buf t = (none, rest) ∧ DeadEnd rest := by
    intro e hpre hne
    rcases List.prefix_cons_iff.mp hpre with rfl | ⟨t', rfl, hpre'⟩
    · exact ⟨[], rfl, deadEnd_of_ws (by decide)⟩
    · rcases List.prefix_cons_iff.mp hpre' with rfl | ⟨t'', rfl, hpre''⟩
      · exact ⟨[], rfl, deadEnd_of_ws (by decide)⟩
      · rw [List.prefix_nil.mp hpre''] at hne
        exact absurd rfl hne
  unfold writeChar at hpre hne
  split_ifs at hpre hne
  · exact hescape hpre hne
  · exact hescape hpre hne
  · exact hescape hpre hne
  · exact hescape hpre hne
  · exact hescape hpre hne
  · exact hescape hpre hne
  · exact hescape hpre hne
  · -- an escape by number with fewer than four digits
    rcases List.prefix_cons_iff.mp hpre with rfl | ⟨t', rfl, hpre'⟩
    · exact ⟨[], rfl, deadEnd_of_ws (by decide)⟩
    · rcases List.prefix_cons_iff.mp hpre' with rfl | ⟨t'', rfl, hpre''⟩
      · exact ⟨[], rfl, deadEnd_of_ws (by decide)⟩
      · refine ⟨byte 'u' :: t'', ?_, deadEnd_cons (by decide) (by decide) t''⟩
        refine stringLoop_shortEscape buf (lt_of_le_of_ne hpre''.length_le fun heq => hne ?_)
        rw [hpre''.eq_of_length heq]
        rfl
  · rcases List.prefix_cons_iff.mp hpre with rfl | ⟨t', rfl, hpre'⟩
    · exact ⟨[], rfl, deadEnd_of_ws (by decide)⟩
    · rw [List.prefix_nil.mp hpre'] at hne
      exact absurd rfl hne

/-- A string that is cut is broken. -/
theorem parseString_cut {s t : Bytes} (hlen : s.length ≤ opt.maxStringBytes) (hascii : IsAscii t)
    (hpre : t <+: writeString s) (hne : t ≠ writeString s) (hnil : t ≠ []) :
    ∃ rest, parseString opt t = (none, rest) ∧ DeadEnd rest := by
  have hloop : ∀ (s buf t : Bytes), (buf ++ s).length ≤ opt.maxStringBytes → IsAscii t →
      t <+: s.flatMap writeChar ++ [byte '"'] → t ≠ s.flatMap writeChar ++ [byte '"'] →
      ∃ rest, stringLoop opt buf t = (none, rest) ∧ DeadEnd rest := by
    intro s
    induction s with
    | nil =>
      intro buf t _ _ hpre hne
      rcases List.prefix_cons_iff.mp hpre with rfl | ⟨t', rfl, hpre'⟩
      · exact ⟨[], rfl, deadEnd_of_ws (by decide)⟩
      · rw [List.prefix_nil.mp hpre'] at hne
        exact absurd rfl hne
    | cons c s ih =>
      intro buf t hlen hascii hpre hne
      rw [List.flatMap_cons, List.append_assoc] at hpre hne
      rcases prefix_append_cases hpre with ⟨hpre, hne⟩ | ⟨t', rfl, hpre'⟩
      · exact stringLoop_cutChar hpre hne buf
      · -- a whole character, which is ASCII as the text is
        obtain ⟨hchar, hascii'⟩ := isAscii_append.mp hascii
        have hc : c < 0x80 := isAscii_of_writeChar hchar
        have hfit : ¬ opt.maxStringBytes < (buf ++ [c]).length := by
          simp only [List.length_append, List.length_cons, List.length_nil] at hlen ⊢
          omega
        rw [stringLoop_unit (stringUnit_writeChar hc), if_neg hfit]
        refine ih (buf ++ [c]) t' (by rw [← List.append_cons]; exact hlen) hascii' hpre' ?_
        exact fun heq => hne (by rw [heq])
  rcases List.prefix_cons_iff.mp hpre with rfl | ⟨t', rfl, hpre'⟩
  · exact absurd rfl hnil
  · rw [parseString_quote]
    exact hloop s [] t' hlen (isAscii_cons.mp hascii).2 hpre' fun heq => hne (by rw [heq]; rfl)

/-- What is left of a number token is a dead end. -/
theorem NumberToken.deadEnd {tok rest : Bytes} (htok : NumberToken tok)
    (hsub : ∀ c ∈ rest, c ∈ tok) : DeadEnd rest := by
  have hchar : ∀ c ∈ tok, isWs c = false ∧ c ≠ byte ',' ∧ c ≠ byte ']' ∧ c ≠ byte '}' := by
    refine htok.forall_mem (fun c hc => ?_) (by decide)
    refine ⟨(startsValue_of_number (Or.inr hc)).1, ?_, ?_, ?_⟩ <;> rintro rfl <;>
      exact absurd hc (by decide)
  cases rest with
  | nil => exact deadEnd_of_ws (by decide)
  | cons c rest =>
    obtain ⟨hws, hc⟩ := hchar c (hsub c (List.mem_cons_self ..))
    exact deadEnd_cons hws hc rest

/-! ## Values that are cut -/

/-- A value that is parsed is within the limits and has a first character. -/
theorem parseValue_ok {s : ParserState} {r : Parsed} (h : parseValue opt fuel d s = .ok r)
    (herror : r.error = .none) :
    ∃ k c text, fuel = k + 1 ∧ skipWs s.rest = c :: text ∧
      (if c = byte '{' then parseObject opt (parseValue opt k (d + 1)) ⟨c :: text, s.nodes + 1⟩
        else if c = byte '[' then parseArray (parseValue opt k (d + 1)) ⟨c :: text, s.nodes + 1⟩
        else .ok (parseScalar opt c ⟨c :: text, s.nodes + 1⟩)) = .ok r := by
  -- each of the earlier exits of `parse_value` reports an error
  cases fuel with
  | zero => cases h
  | succ k =>
    by_cases hd : opt.maxDepth < d
    · rw [parseValue, if_pos hd] at h
      obtain rfl := Outcome.ok.inj h
      cases herror
    by_cases hnodes : opt.maxNodes < s.nodes + 1
    · rw [parseValue_tooMany (not_lt.mp hd) (not_le.mpr hnodes)] at h
      obtain rfl := Outcome.ok.inj h
      cases herror
    cases htext : skipWs s.rest with
    | nil =>
      rw [parseValue_end (not_lt.mp hd) (not_lt.mp hnodes) htext] at h
      obtain rfl := Outcome.ok.inj h
      cases herror
    | cons c text =>
      rw [parseValue_eq (not_lt.mp hd) (not_lt.mp hnodes) htext] at h
      exact ⟨k, c, text, rfl, rfl, h⟩

/-- What is left of a value that is cut: no object, and a dead end. -/
def CutOff (r : Parsed) : Prop := r.out.isObject = false ∧ DeadEnd r.state.rest

/-- A word that is cut is not a value. -/
private theorem parseValue_cutWord {s : ParserState} {r : Parsed} {word t : Bytes} {v : Value}
    (hword : (word = str "null" ∧ v = .null) ∨ (word = str "true" ∧ v = .bool true) ∨
      (word = str "false" ∧ v = .bool false)) (hpre : t <+: word) (hne : t ≠ word)
    (htext : skipWs s.rest = t) (h : parseValue opt fuel d s = .ok r) : r.error ≠ .none := by
  intro herror
  obtain ⟨k, c, text, rfl, hskip, h⟩ := parseValue_ok h herror
  rw [htext] at hskip
  subst hskip
  -- what is left is shorter than the word, so `match` fails
  have hmatch : matchWord word (c :: text) = none := by
    rw [matchWord, if_neg]
    rw [List.isPrefixOf_iff_prefix]
    exact fun hword => hne (hpre.eq_of_length (le_antisymm hpre.length_le hword.length_le))
  have hhead : ∀ {a : UInt8} {l : Bytes}, word = a :: l → c = a := by
    rintro a l rfl
    exact (List.cons_prefix_cons.mp hpre).1
  have hparse : parseScalar opt c ⟨c :: text, s.nodes + 1⟩ =
      ⟨.unexpectedChar, .null, ⟨c :: text, s.nodes + 1⟩⟩ := by
    have hfail : parseWord word v ⟨c :: text, s.nodes + 1⟩ =
        ⟨.unexpectedChar, .null, ⟨c :: text, s.nodes + 1⟩⟩ := by
      simp only [parseWord, hmatch]
    rcases hword with ⟨rfl, rfl⟩ | ⟨rfl, rfl⟩ | ⟨rfl, rfl⟩
    · obtain rfl := @hhead (byte 'n') _ rfl
      exact hfail
    · obtain rfl := @hhead (byte 't') _ rfl
      exact hfail
    · obtain rfl := @hhead (byte 'f') _ rfl
      exact hfail
  have hscalar : c ≠ byte '{' ∧ c ≠ byte '[' := by
    rcases hword with ⟨rfl, -⟩ | ⟨rfl, -⟩ | ⟨rfl, -⟩
    · obtain rfl := @hhead (byte 'n') _ rfl
      decide
    · obtain rfl := @hhead (byte 't') _ rfl
      decide
    · obtain rfl := @hhead (byte 'f') _ rfl
      decide
  rw [if_neg hscalar.1, if_neg hscalar.2, hparse] at h
  obtain rfl := Outcome.ok.inj h
  cases herror

/-- A number that is cut is a number or fails. -/
private theorem parseValue_cutNumber {s : ParserState} {r : Parsed} {tok t : Bytes}
    (htok : NumberToken tok) (hpre : t <+: tok) (htext : skipWs s.rest = t)
    (h : parseValue opt fuel d s = .ok r) (herror : r.error = .none) : CutOff r := by
  obtain ⟨k, c, text, rfl, hskip, h⟩ := parseValue_ok h herror
  rw [htext] at hskip
  subst hskip
  obtain ⟨a, l, rfl, hc⟩ := htok.head
  obtain ⟨rfl, -⟩ := List.cons_prefix_cons.mp hpre
  obtain ⟨hbrace, hbracket, hscalar⟩ := @parseScalar_number opt c hc ⟨c :: text, s.nodes + 1⟩
  rw [if_neg hbrace, if_neg hbracket, hscalar] at h
  obtain rfl := Outcome.ok.inj h
  obtain ⟨-, hnumber, tok', -, htok'⟩ := parseNumber_sound hc herror
  refine ⟨?_, htok.deadEnd fun a ha => hpre.subset (htok' ▸ List.mem_append_right tok' ha)⟩
  rcases hnumber with ⟨i, hi⟩ | ⟨u, hu⟩ | ⟨x, hx⟩
  · rw [hi]; rfl
  · rw [hu]; rfl
  · rw [hx]; rfl

/-- The first character of a value that is cut is not whitespace. -/
private theorem skipWs_cutValue {v : Value} {after t : Bytes}
    (hpre : t <+: writeValue mode wd v ++ after) : skipWs t = t := by
  obtain ⟨c, text, htext, hws, -⟩ := @writeValue_head mode wd v
  rw [htext] at hpre
  rcases List.prefix_cons_iff.mp hpre with rfl | ⟨t', rfl, -⟩
  · rfl
  · exact skipWs_eq_self hws t'

/-- What is left behind a value ends a number. -/
private theorem NumberEnd.cut {t rest : Bytes} (h : NumberEnd rest) (hpre : t <+: rest) :
    NumberEnd t := by
  cases t with
  | nil => exact fun c hc => by simp at hc
  | cons a t =>
    obtain ⟨rest', rfl⟩ := hpre
    exact fun c hc => h c hc

/-- A value in front of the cut is read back, or it is one value too many. -/
private theorem parseValue_whole {v : Value} {s : ParserState} {t : Bytes} {p : Parsed}
    (hfit : v.Fits opt.maxDepth (fun s => s.length ≤ opt.maxStringBytes) d)
    (hfuel : opt.maxDepth + 2 ≤ fuel + d) (hascii : IsAscii (writeValue mode wd v))
    (hend : NumberEnd t) (htext : skipWs s.rest = writeValue mode wd v ++ t)
    (h : parseValue opt fuel d s = .ok p) (herror : p.error = .none) :
    p = ⟨.none, v.reread, ⟨t, s.nodes + v.count⟩⟩ := by
  obtain ⟨p', hp', hback⟩ :=
    parseValue_written v d wd fuel t s (hfit.of_isAscii v d wd hascii) hfuel hend htext
  obtain rfl := Outcome.ok.inj (h.symm.trans hp')
  unfold ReadsBack at hback
  split_ifs at hback
  · exact hback
  · exact absurd herror hback

/-- Elements that are cut, behind the whitespace in front of them. -/
private theorem elements_cut {v : Value} {a : List Value} {after t : Bytes}
    (hpre : t <+: writeElements mode wd true (v :: a) ++ after)
    (hne : t ≠ writeElements mode wd true (v :: a) ++ after) :
    skipWs t <+: writeValue mode (wd + 1) v ++ (writeElements mode wd false a ++ after) ∧
      skipWs t ≠ writeValue mode (wd + 1) v ++ (writeElements mode wd false a ++ after) := by
  rw [writeElements, comma, if_pos rfl, List.nil_append, List.append_assoc,
    List.append_assoc] at hpre hne
  obtain ⟨c, text, htext, -⟩ := @writeValue_head mode (wd + 1) v
  obtain ⟨t', hpre', hne', hskip⟩ := skipWs_cut (allWs_indent mode _)
    (by rw [htext]; exact List.cons_ne_nil _ _) hpre hne
  rw [hskip, skipWs_cutValue hpre']
  exact ⟨hpre', hne'⟩

/-- The same for members. -/
private theorem members_cut {k : Bytes} {v : Value} {o : List (Bytes × Value)} {after t : Bytes}
    (hpre : t <+: writeMembers mode wd true ((k, v) :: o) ++ after)
    (hne : t ≠ writeMembers mode wd true ((k, v) :: o) ++ after) :
    (skipWs t <+: writeString k ∧ skipWs t ≠ writeString k) ∨ skipWs t = writeString k ∨
      ∃ text, skipWs t = writeString k ++ byte ':' :: text ∧
        skipWs text <+: writeValue mode (wd + 1) v ++ (writeMembers mode wd false o ++ after) ∧
        skipWs text ≠ writeValue mode (wd + 1) v ++ (writeMembers mode wd false o ++ after) := by
  rw [writeMembers, comma, if_pos rfl, List.nil_append] at hpre hne
  simp only [List.append_assoc, List.cons_append] at hpre hne
  obtain ⟨t', hpre', hne', hskip⟩ := skipWs_cut (allWs_indent mode _) (by simp [writeString]) hpre hne
  have hself : skipWs t' = t' := by
    rcases List.prefix_cons_iff.mp hpre' with rfl | ⟨t'', rfl, -⟩
    · rfl
    · exact skipWs_eq_self (by decide) t''
  rw [hskip, hself]
  rcases prefix_append_cases hpre' with hcut | ⟨t'', rfl, hpre''⟩
  · exact Or.inl hcut
  rcases List.prefix_cons_iff.mp hpre'' with rfl | ⟨text, rfl, hpre₃⟩
  · exact Or.inr (Or.inl (List.append_nil _))
  · -- the cut goes behind the colon
    obtain ⟨c, text', htext', -⟩ := @writeValue_head mode (wd + 1) v
    obtain ⟨t₄, hpre₄, hne₄, hskip₄⟩ := skipWs_cut (allWs_blank mode)
      (by rw [htext']; exact List.cons_ne_nil _ _) hpre₃ fun heq => hne' (by rw [heq])
    refine Or.inr (Or.inr ⟨text, rfl, ?_⟩)
    rw [hskip₄, skipWs_cutValue hpre₄]
    exact ⟨hpre₄, hne₄⟩

/-- A cut cannot bring a closing bracket to the front. -/
private theorem elements_head_cut {a : List Value} {ws t : Bytes} (hws : AllWs ws)
    (hpre : t <+: writeElements mode wd true a ++ (ws ++ [byte ']']))
    (hne : t ≠ writeElements mode wd true a ++ (ws ++ [byte ']'])) :
    ¬ (skipWs t).head? = some (byte ']') := by
  intro hhead
  cases a with
  | nil =>
    rw [skipWs_eq_nil_iff.mpr (allWs_of_cut hws hpre hne)] at hhead
    cases hhead
  | cons v a =>
    obtain ⟨c, text, htext, -, hc, -⟩ := @writeValue_head mode (wd + 1) v
    obtain ⟨t', ht'⟩ := List.head?_eq_some_iff.mp hhead
    have hpre' := (elements_cut hpre hne).1
    rw [ht', htext] at hpre'
    exact hc (List.cons_prefix_cons.mp hpre').1.symm

private theorem members_head_cut {o : List (Bytes × Value)} {ws t : Bytes} (hws : AllWs ws)
    (hpre : t <+: writeMembers mode wd true o ++ (ws ++ [byte '}']))
    (hne : t ≠ writeMembers mode wd true o ++ (ws ++ [byte '}'])) :
    ¬ (skipWs t).head? = some (byte '}') := by
  intro hhead
  obtain ⟨t', ht'⟩ := List.head?_eq_some_iff.mp hhead
  cases o with
  | nil =>
    rw [skipWs_eq_nil_iff.mpr (allWs_of_cut hws hpre hne)] at ht'
    cases ht'
  | cons e o =>
    obtain ⟨k, v⟩ := e
    have hquote : ∀ {text : Bytes}, byte '}' :: t' ≠ writeString k ++ text := by
      intro text heq
      exact absurd (List.cons.inj heq).1 (by decide)
    -- the cut text starts with spaces or with the quote of the first key, never with a brace
    rcases members_cut hpre hne with ⟨hcut, -⟩ | hkey | ⟨text, hkey, -⟩
    · rw [ht'] at hcut
      exact absurd (List.cons_prefix_cons.mp hcut).1 (by decide)
    · exact hquote (ht'.symm.trans (hkey.trans (List.append_nil _).symm))
    · exact hquote (ht'.symm.trans hkey)

/-- Behind an element stands nothing, or a comma and the later elements. -/
private theorem writeElements_cases (a : List Value) :
    writeElements mode wd false a = [] ∨
      writeElements mode wd false a = byte ',' :: writeElements mode wd true a := by
  cases a with
  | nil => exact Or.inl rfl
  | cons v a => exact Or.inr rfl

private theorem writeMembers_cases (o : List (Bytes × Value)) :
    writeMembers mode wd false o = [] ∨
      writeMembers mode wd false o = byte ',' :: writeMembers mode wd true o := by
  cases o with
  | nil => exact Or.inl rfl
  | cons e o => exact Or.inr rfl

/-- A value, the items behind it and the closing bracket are cut. If the value is parsed, it leads to
a dead end, or it is read back and the cut goes through a later item. -/
private theorem child_cut {v : Value} {items first ws t : Bytes} {closing : UInt8}
    {s : ParserState} {p : Parsed}
    (hfit : v.Fits opt.maxDepth (fun s => s.length ≤ opt.maxStringBytes) d)
    (hfuel : opt.maxDepth + 2 ≤ fuel + d) (hascii : IsAscii t) (hws : AllWs ws)
    (hitems : items = [] ∨ items = byte ',' :: first)
    (hend : NumberEnd (items ++ (ws ++ [closing])))
    (hpre : t <+: writeValue mode wd v ++ (items ++ (ws ++ [closing])))
    (hne : t ≠ writeValue mode wd v ++ (items ++ (ws ++ [closing])))
    (htext : skipWs s.rest = t) (hp : parseValue opt fuel d s = .ok p) (herror : p.error = .none)
    (hchild : t <+: writeValue mode wd v → t ≠ writeValue mode wd v → CutOff p) :
    DeadEnd p.state.rest ∨ ∃ t',
      p = ⟨.none, v.reread, ⟨byte ',' :: t', s.nodes + v.count⟩⟩ ∧ IsAscii t' ∧
      t' <+: first ++ (ws ++ [closing]) ∧ t' ≠ first ++ (ws ++ [closing]) := by
  -- the text is cut within the value, or behind the whole of it
  rcases prefix_append_cases hpre with ⟨hcut, hproper⟩ | ⟨after, rfl, hpre'⟩
  · exact Or.inl (hchild hcut hproper).2
  · obtain ⟨hwhole, hafter⟩ := isAscii_append.mp hascii
    obtain rfl := parseValue_whole hfit hfuel hwhole (hend.cut hpre') htext hp herror
    rcases next_cut hws hitems hpre' fun heq => hne (by rw [heq]) with hall | ⟨t', rfl, hcut⟩
    · exact Or.inl (deadEnd_of_ws hall)
    · exact Or.inr ⟨t', rfl, (isAscii_cons.mp hafter).2, hcut⟩

mutual

/-- What `parse_value` makes of a value that is cut. -/
theorem parseValue_cut (v : Value) (d wd fuel : ℕ) (t : Bytes) (s : ParserState) (r : Parsed)
    (hfit : v.Fits opt.maxDepth (fun s => s.length ≤ opt.maxStringBytes) d)
    (hfuel : opt.maxDepth + 2 ≤ fuel + d) (hascii : IsAscii t)
    (hpre : t <+: writeValue mode wd v) (hne : t ≠ writeValue mode wd v)
    (htext : skipWs s.rest = t) (h : parseValue opt fuel d s = .ok r) (herror : r.error = .none) :
    CutOff r := by
  match v with
  | .null => exact absurd herror (parseValue_cutWord (Or.inl ⟨rfl, rfl⟩) hpre hne htext h)
  | .bool true =>
    exact absurd herror (parseValue_cutWord (Or.inr (Or.inl ⟨rfl, rfl⟩)) hpre hne htext h)
  | .bool false =>
    exact absurd herror (parseValue_cutWord (Or.inr (Or.inr ⟨rfl, rfl⟩)) hpre hne htext h)
  | .int i => exact parseValue_cutNumber (numberToken_intToString _) hpre htext h herror
  | .uint u => exact parseValue_cutNumber (numberToken_natToString _) hpre htext h herror
  | .double x =>
    by_cases hx : x = .nan
    · subst hx
      exact absurd herror (parseValue_cutWord (Or.inl ⟨rfl, rfl⟩) hpre hne htext h)
    · exact parseValue_cutNumber (numberToken_writeDouble hx) hpre htext h herror
  | .string str =>
    obtain ⟨k, c, text, rfl, hskip, h⟩ := parseValue_ok h herror
    obtain rfl := htext.symm.trans hskip
    -- the string never ends: `parse_string` fails and leaves the error unset
    obtain ⟨rest, hbroken, hdead⟩ := parseString_cut hfit.2 hascii hpre hne (List.cons_ne_nil _ _)
    obtain ⟨rfl, -⟩ := List.cons_prefix_cons.mp hpre
    have hscalar : parseScalar opt (byte '"') ⟨byte '"' :: text, s.nodes + 1⟩ =
        ⟨.none, .null, ⟨rest, s.nodes + 1⟩⟩ := by
      simp only [parseScalar, if_pos, hbroken, err_]
    rw [if_neg (by decide), if_neg (by decide), hscalar] at h
    obtain rfl := Outcome.ok.inj h
    exact ⟨rfl, hdead⟩
  | .array a =>
    obtain ⟨k, c, text, rfl, hskip, h⟩ := parseValue_ok h herror
    obtain rfl := htext.symm.trans hskip
    obtain ⟨rfl, hpre'⟩ := List.cons_prefix_cons.mp hpre
    have hne' : text ≠ _ := fun heq => hne (congrArg (byte '[' :: ·) heq)
    have hws : AllWs (if a = [] then [] else indent mode wd) := by
      split_ifs
      · exact fun c hc => by simp at hc
      · exact allWs_indent mode wd
    rw [if_neg (by decide), if_pos rfl, parseArray_eq, if_neg (elements_head_cut hws hpre' hne')] at h
    exact absurd herror (arrayLoop_cut a (d + 1) wd k _ _ text _ [] r hfit.2 (by omega)
      (isAscii_cons.mp hascii).2 hws hpre' hne' (skipWs_idem _) h)
  | .object o =>
    obtain ⟨k, c, text, rfl, hskip, h⟩ := parseValue_ok h herror
    obtain rfl := htext.symm.trans hskip
    obtain ⟨rfl, hpre'⟩ := List.cons_prefix_cons.mp hpre
    have hne' : text ≠ _ := fun heq => hne (congrArg (byte '{' :: ·) heq)
    have hws : AllWs (if o = [] then [] else indent mode wd) := by
      split_ifs
      · exact fun c hc => by simp at hc
      · exact allWs_indent mode wd
    rw [if_pos rfl, parseObject_eq, if_neg (members_head_cut hws hpre' hne')] at h
    exact objectLoop_cut o (d + 1) wd k _ _ text _ [] r hfit.2.2 (by omega)
      (isAscii_cons.mp hascii).2 hws hpre' hne' (skipWs_idem _) h herror

/-- What the loop of `parse_array` makes of elements that are cut. -/
theorem arrayLoop_cut (a : List Value) (d wd fuel budget : ℕ) (ws t : Bytes) (s : ParserState)
    (arr : List Value) (r : Parsed)
    (hfit : Value.FitElements opt.maxDepth (fun s => s.length ≤ opt.maxStringBytes) d a)
    (hfuel : opt.maxDepth + 2 ≤ fuel + d) (hascii : IsAscii t) (hws : AllWs ws)
    (hpre : t <+: writeElements mode wd true a ++ (ws ++ [byte ']']))
    (hne : t ≠ writeElements mode wd true a ++ (ws ++ [byte ']']))
    (htext : skipWs s.rest = skipWs t)
    (h : loop (arrayStep (parseValue opt fuel d)) budget (arr, s) = .ok r) : r.error ≠ .none := by
  intro herror
  obtain ⟨p, m, hrest, hp, hnext⟩ := arrayLoop_ok h herror
  match a with
  | [] =>
    rw [htext, skipWs_eq_nil_iff.mpr (allWs_of_cut hws hpre hne)] at hrest
    exact hrest rfl
  | v :: a =>
    obtain ⟨hpre', hne'⟩ := elements_cut hpre hne
    have hascii' : IsAscii (skipWs t) := isAscii_skipWs hascii
    have htext' : skipWs s.skipWs.rest = skipWs t := (skipWs_idem _).trans htext
    generalize skipWs t = t' at hpre' hne' hascii' htext'
    refine round_not_failed hnext herror (arrayNext_deadEnd (fun hvalue => ?_) arr)
    rcases child_cut hfit.1 hfuel hascii' hws (writeElements_cases a) (numberEnd_elements a hws [])
        hpre' hne' htext' hp hvalue fun hcut hproper =>
          parseValue_cut v d (wd + 1) fuel t' _ p hfit.1 hfuel hascii' hcut hproper htext' hp hvalue
      with hdead | ⟨t₃, rfl, hascii₃, hpre₃, hne₃⟩
    · exact hdead
    · -- the cut goes through a later element
      have hcomma := @arrayNext_comma [] (fun c hc => by simp at hc) arr v.reread t₃
        (s.nodes + v.count)
      have hloop := round_goes hnext hcomma
      exact absurd herror (arrayLoop_cut a d wd fuel m ws t₃ _ _ r hfit.2 hfuel hascii₃ hws hpre₃
        hne₃ rfl hloop)

/-- What the loop of `parse_object` makes of members that are cut. -/
theorem objectLoop_cut (o : List (Bytes × Value)) (d wd fuel budget : ℕ) (ws t : Bytes)
    (s : ParserState) (obj : List (Bytes × Value)) (r : Parsed)
    (hfit : Value.FitMembers opt.maxDepth (fun s => s.length ≤ opt.maxStringBytes) d o)
    (hfuel : opt.maxDepth + 2 ≤ fuel + d) (hascii : IsAscii t) (hws : AllWs ws)
    (hpre : t <+: writeMembers mode wd true o ++ (ws ++ [byte '}']))
    (hne : t ≠ writeMembers mode wd true o ++ (ws ++ [byte '}']))
    (htext : skipWs s.rest = skipWs t)
    (h : loop (objectStep opt (parseValue opt fuel d)) budget (obj, s) = .ok r)
    (herror : r.error = .none) : CutOff r := by
  match o with
  | [] =>
    have hnil : skipWs s.rest = [] :=
      htext.trans (skipWs_eq_nil_iff.mpr (allWs_of_cut hws hpre hne))
    obtain rfl := objectLoop_stop (objectStep_noQuote (by simp [hnil]) obj) h
    cases herror
  | (k, v) :: o =>
    have hascii' : IsAscii (skipWs t) := isAscii_skipWs hascii
    rcases members_cut hpre hne with ⟨hcut, hproper⟩ | hkey | ⟨text, hkey, hpre', hne'⟩
    · rcases List.prefix_cons_iff.mp hcut with hnil | ⟨t', hquote, -⟩
      · -- the cut goes through the whitespace in front of the key
        obtain rfl := objectLoop_stop (objectStep_noQuote (by simp [htext, hnil]) obj) h
        cases herror
      · -- the cut goes through the key
        obtain ⟨rest, hbroken, hdead⟩ :=
          parseString_cut hfit.1 hascii' hcut hproper (by rw [hquote]; exact List.cons_ne_nil _ _)
        rw [hquote] at hbroken
        obtain rfl := objectLoop_stop (objectStep_brokenKey (htext.trans hquote) hbroken obj) h
        exact ⟨rfl, hdead⟩
    · -- the cut goes behind the key
      have hparse := parseString_written (isAscii_of_writeString (hkey ▸ hascii')) hfit.1 []
      rw [List.append_nil] at hparse
      obtain rfl :=
        objectLoop_stop (objectStep_noColon (htext.trans hkey) hparse (by simp [skipWs]) obj) h
      cases herror
    · -- the cut goes behind the colon
      rw [hkey] at hascii' htext
      obtain ⟨hascii₁, hascii₂⟩ := isAscii_append.mp hascii'
      have hparse := parseString_written (isAscii_of_writeString hascii₁) hfit.1 (byte ':' :: text)
      have htextAscii : IsAscii (skipWs text) := isAscii_skipWs (isAscii_cons.mp hascii₂).2
      obtain ⟨p, m, hp, hnext⟩ :=
        objectLoop_ok htext hparse (skipWs_eq_self (by decide) text) h
      have hfailed := round_not_failed hnext herror
      generalize hskip : skipWs text = t' at hpre' hne' hp htextAscii
      have htext' : skipWs (ParserState.mk t' s.nodes).rest = t' := by
        rw [← hskip]
        exact skipWs_idem _
      by_cases hvalue : p.error = .none
      swap
      · exact absurd (objectNext_deadEnd (fun herror' => absurd herror' hvalue) k obj) hfailed
      rcases child_cut hfit.2.1 hfuel htextAscii hws (writeMembers_cases o)
          (numberEnd_members o hws []) hpre' hne' htext' hp hvalue fun hcut hproper =>
            parseValue_cut v d (wd + 1) fuel t' _ p hfit.2.1 hfuel htextAscii hcut hproper htext' hp
              hvalue
        with hdead | ⟨t₃, rfl, hascii₃, hpre₃, hne₃⟩
      · exact absurd (objectNext_deadEnd (fun _ => hdead) k obj) hfailed
      · -- the cut goes through a later member
        have hcomma := @objectNext_comma [] (fun c hc => by simp at hc) k obj v.reread t₃
          (s.nodes + v.count)
        have hloop := round_goes hnext hcomma
        exact objectLoop_cut o d wd fuel m ws t₃ _ _ r hfit.2.2 hfuel hascii₃ hws hpre₃ hne₃ rfl
          hloop herror

end

/-! ## Whole texts -/

/-- A text that is cut from a written object is not parsed as an object. -/
theorem parse_cut {o : List (Bytes × Value)} {t : Bytes} {r : ParseResult}
    (hfit : (Value.object o).Fits opt.maxDepth (fun s => s.length ≤ opt.maxStringBytes) 0)
    (hpre : t <+: dump mode (.object o)) (hne : t ≠ dump mode (.object o))
    (h : parse opt t = .ok r) (hok : r.ok = true) : r.value.isObject = false := by
  have hascii := isAscii_of_accepted h hok
  have hpre' : t <+: writeValue mode 0 (.object o) ++ [] := by rwa [List.append_nil]
  have htext : skipWs t = t := skipWs_cutValue hpre'
  obtain ⟨p, hp, herror, -, hvalue⟩ := parse_ok h hok
  rw [← hvalue]
  exact (parseValue_cut (.object o) 0 0 _ t ⟨t, 0⟩ p hfit le_rfl hascii hpre hne htext hp herror).1

end TopologyFabric.Json

import TopologyFabric.Json.Grammar
import Mathlib.Data.List.TakeWhile

/-!
# Strings and Numbers of the Parser

What the string loop and the number scanner of the parser accept, in terms of the grammar.

## Main results

- `parseString_literal`, `parseString_broken`: a literal is decoded, a broken string stops where the
  grammar says
- `parseString_sound`: there are no other cases
- `parseNumber_token`, `parseNumber_sound`: the number tokens are those of the grammar
-/

namespace TopologyFabric.Json

variable {opt : ParseOptions} {text rest : Bytes}

/-! ## The string loop -/

/-- One character of a string literal is decoded into the buffer. -/
theorem stringLoop_unit {raw dec : Bytes} (h : StringUnit raw dec) (buf rest : Bytes) :
    stringLoop opt buf (raw ++ rest) =
      if opt.maxStringBytes < (buf ++ dec).length then (none, rest)
      else stringLoop opt (buf ++ dec) rest := by
  -- one round of the loop reads one unit
  cases h with
  | plain hquote hslash hascii =>
    rw [List.singleton_append, stringLoop.eq_def]
    simp only [if_neg hquote, if_neg hslash, if_neg (not_le.mpr hascii)]
  | @escape e b h =>
    rw [List.cons_append, List.singleton_append, stringLoop.eq_def]
    simp only [if_neg (show byte '\\' ≠ byte '"' by decide), if_true, h]
  | @unicode h₁ h₂ h₃ h₄ cp h =>
    simp only [List.cons_append, List.nil_append]
    rw [stringLoop.eq_def]
    simp only [if_neg (show byte '\\' ≠ byte '"' by decide), if_true,
      show simpleEscape (byte 'u') = none by decide, h]

/-- The characters of a string literal are decoded into the buffer. -/
theorem stringLoop_body {raw dec : Bytes} (h : StringBody raw dec) (buf rest : Bytes)
    (hlen : (buf ++ dec).length ≤ opt.maxStringBytes) :
    stringLoop opt buf (raw ++ rest) = stringLoop opt (buf ++ dec) rest := by
  induction h generalizing buf with
  | nil => simp
  | @cons raw dec raws decs hunit _ ih =>
    rw [← List.append_assoc] at hlen
    have hfit : ¬ opt.maxStringBytes < (buf ++ dec).length := by
      rw [List.length_append] at hlen
      omega
    rw [List.append_assoc, stringLoop_unit hunit, if_neg hfit, ih _ hlen, List.append_assoc]

theorem stringLoop_stop {n : ℕ} {buf : Bytes} (hn : buf.length = n) (h : Stop opt n text rest) :
    stringLoop opt buf text = (none, rest) := by
  cases h with
  | endOfText => rfl
  | @nonAscii c rest hc =>
    have hquote : c ≠ byte '"' := by
      rintro rfl
      exact absurd hc (by decide)
    have hslash : c ≠ byte '\\' := by
      rintro rfl
      exact absurd hc (by decide)
    rw [stringLoop.eq_def]
    simp only [if_neg hquote, if_neg hslash, if_pos hc]
  | badEscape h =>
    rw [stringLoop.eq_def]
    simp only [if_neg (show byte '\\' ≠ byte '"' by decide), if_true]
    cases rest with
    | nil => rfl
    | cons e rest' =>
      simp only
      cases hesc : simpleEscape e with
      | some b => exact absurd rfl (h _ _ rest' (.escape hesc))
      | none =>
        by_cases hu : e = byte 'u'
        · subst hu
          simp only [if_true]
          -- four hex digits would make an escape
          split
          · rename_i h₁ h₂ h₃ h₄ rest''
            split
            · rename_i cp hcp
              exact absurd rfl (h _ _ rest'' (.unicode hcp))
            · rfl
          · rfl
        · simp only [if_neg hu]
  | tooLong hunit hlong =>
    rw [stringLoop_unit hunit, if_pos (by rw [List.length_append]; omega)]

/-- How a text can go on inside a string. -/
private theorem string_cases (opt : ParseOptions) (text : Bytes) :
    (∃ rest, text = byte '"' :: rest) ∨
      (∃ raw dec rest, StringUnit raw dec ∧ text = raw ++ rest) ∨
        ∀ n, ∃ rest, Stop opt n text rest := by
  cases text with
  | nil => exact Or.inr (Or.inr fun n => ⟨[], .endOfText⟩)
  | cons c rest =>
    by_cases hquote : c = byte '"'
    · exact Or.inl ⟨rest, by rw [hquote]⟩
    -- behind a backslash is an escape, or the string stops
    by_cases hslash : c = byte '\\'
    · subst hslash
      by_cases hunit : ∃ raw dec rest', StringUnit raw dec ∧ byte '\\' :: rest = raw ++ rest'
      · exact Or.inr (Or.inl hunit)
      · refine Or.inr (Or.inr fun n => ⟨rest, .badEscape fun raw dec rest' hu heq => ?_⟩)
        exact hunit ⟨raw, dec, rest', hu, heq⟩
    by_cases hascii : c < 0x80
    · exact Or.inr (Or.inl ⟨[c], [c], rest, .plain hquote hslash hascii, rfl⟩)
    · exact Or.inr (Or.inr fun n => ⟨c :: rest, .nonAscii (not_lt.mp hascii)⟩)

/-- The string loop reads the characters of a literal and then finds the closing quote or stops. -/
private theorem stringLoop_sound (buf text : Bytes) (hbuf : buf.length ≤ opt.maxStringBytes) :
    ∃ raw dec text', StringBody raw dec ∧ text = raw ++ text' ∧
      (buf ++ dec).length ≤ opt.maxStringBytes ∧
      ((∃ rest, text' = byte '"' :: rest ∧ stringLoop opt buf text = (some (buf ++ dec), rest)) ∨
        ∃ rest, Stop opt (buf ++ dec).length text' rest ∧
          stringLoop opt buf text = (none, rest)) := by
  induction hlen : text.length using Nat.strongRecOn generalizing buf text with
  | _ len ih =>
    rcases string_cases opt text with ⟨rest, rfl⟩ | ⟨raw, dec, rest, hunit, rfl⟩ | hstop
    · refine ⟨[], [], byte '"' :: rest, .nil, rfl, by simpa using hbuf, Or.inl ⟨rest, rfl, ?_⟩⟩
      rw [stringLoop.eq_def]
      simp
    · -- one more unit: it makes the string too long, or the loop goes on behind it
      by_cases hlong : opt.maxStringBytes < (buf ++ dec).length
      · refine ⟨[], [], raw ++ rest, .nil, rfl, by simpa using hbuf, Or.inr ⟨rest, ?_, ?_⟩⟩
        · refine .tooLong hunit ?_
          rw [List.append_nil, ← List.length_append]
          exact hlong
        · rw [stringLoop_unit hunit, if_pos hlong]
      · have hshort : rest.length < len := by
          have := List.length_pos_iff.mpr hunit.raw_ne_nil
          rw [← hlen, List.length_append]
          omega
        obtain ⟨raws, decs, text', hbody, rfl, hfit, hres⟩ :=
          ih _ hshort (buf ++ dec) rest (not_lt.mp hlong) rfl
        refine ⟨raw ++ raws, dec ++ decs, text', .cons hunit hbody, by rw [List.append_assoc],
          by rwa [← List.append_assoc], ?_⟩
        rw [stringLoop_unit hunit, if_neg hlong, ← List.append_assoc]
        exact hres
    · -- neither a quote nor a unit
      obtain ⟨rest, hstop⟩ := hstop buf.length
      exact ⟨[], [], text, .nil, rfl, by simpa using hbuf,
        Or.inr ⟨rest, by simpa using hstop, stringLoop_stop rfl hstop⟩⟩

/-! ## Strings -/

theorem parseString_quote (text : Bytes) :
    parseString opt (byte '"' :: text) = stringLoop opt [] text := by
  rw [parseString, if_neg (by simp)]

theorem parseString_literal {raw dec : Bytes} (h : StringBody raw dec)
    (hlen : dec.length ≤ opt.maxStringBytes) (rest : Bytes) :
    parseString opt (byte '"' :: (raw ++ byte '"' :: rest)) = (some dec, rest) := by
  rw [parseString_quote, stringLoop_body h _ _ (by simpa using hlen), stringLoop.eq_def]
  simp

theorem StringLiteral.parseString (h : StringLiteral opt text rest) :
    ∃ s, parseString opt text = (some s, rest) := by
  obtain ⟨raw, dec, hbody, hlen, rfl⟩ := h
  exact ⟨dec, parseString_literal hbody hlen rest⟩

theorem BrokenString.parseString (h : BrokenString opt text rest) :
    parseString opt text = (none, rest) := by
  obtain ⟨raw, dec, text', hbody, hlen, rfl, hstop⟩ := h
  rw [parseString_quote, stringLoop_body hbody _ _ (by simpa using hlen), List.nil_append]
  exact stringLoop_stop rfl hstop

/-- After an opening quote there is a literal or a broken string. -/
theorem parseString_sound (opt : ParseOptions) (text : Bytes) :
    (∃ raw dec rest, StringBody raw dec ∧ dec.length ≤ opt.maxStringBytes ∧
      text = raw ++ byte '"' :: rest ∧ parseString opt (byte '"' :: text) = (some dec, rest)) ∨
    ∃ rest, parseString opt (byte '"' :: text) = (none, rest) ∧
      BrokenString opt (byte '"' :: text) rest := by
  obtain ⟨raw, dec, text', hbody, rfl, hlen, hres⟩ :=
    stringLoop_sound [] text (Nat.zero_le opt.maxStringBytes)
  rw [List.nil_append] at hlen hres
  rcases hres with ⟨rest, rfl, hloop⟩ | ⟨rest, hstop, hloop⟩
  · exact Or.inl ⟨raw, dec, rest, hbody, hlen, rfl, (parseString_quote _).trans hloop⟩
  · exact Or.inr ⟨rest, (parseString_quote _).trans hloop, raw, dec, text', hbody, hlen, rfl, hstop⟩

/-! ## Scanning a number -/

/-- The text does not go on with a character that could continue a number. -/
def NumberEnd (rest : Bytes) : Prop :=
  ∀ c, rest.head? = some c → isDigit c = false ∧ c ≠ byte '.' ∧ c ≠ byte 'e' ∧ c ≠ byte 'E'

private theorem isDigits_takeWhile (text : Bytes) : IsDigits (text.takeWhile isDigit) :=
  fun _ hc => List.mem_takeWhile_imp hc

/-- The digits at the head of the text are taken off, up to something else. -/
theorem span_digits {ds rest : Bytes} (hds : IsDigits ds)
    (hrest : ∀ c, rest.head? = some c → isDigit c = false) :
    (ds ++ rest).takeWhile isDigit = ds ∧ (ds ++ rest).dropWhile isDigit = rest := by
  rw [List.takeWhile_append_of_pos hds, List.dropWhile_append_of_pos hds]
  cases rest with
  | nil => simp
  | cons c rest =>
    have hc : isDigit c = false := hrest c rfl
    simp [hc]

private theorem scanFrac_token {frac fracDigits : Bytes} (h : Fraction frac fracDigits) :
    ∃ o, o.getD [] = fracDigits ∧ ∀ rest : Bytes,
      (∀ c, rest.head? = some c → isDigit c = false ∧ c ≠ byte '.') →
      scanFrac (frac ++ rest) = (o, rest) := by
  cases h with
  | absent =>
    refine ⟨none, rfl, fun rest hrest => ?_⟩
    cases rest with
    | nil => rfl
    | cons c rest => rw [List.nil_append, scanFrac, if_neg (hrest c rfl).2]
  | present hds =>
    refine ⟨some fracDigits, rfl, fun rest hrest => ?_⟩
    obtain ⟨htake, hdrop⟩ := span_digits hds fun c hc => (hrest c hc).1
    rw [List.cons_append, scanFrac, if_pos rfl, htake, hdrop]

private theorem scanSign_token {sign text : Bytes}
    (h : sign = [] ∨ sign = str "+" ∨ sign = str "-")
    (htext : ∀ c, text.head? = some c → c ≠ byte '+' ∧ c ≠ byte '-') :
    scanSign (sign ++ text) = (sign, text) := by
  rcases h with rfl | rfl | rfl
  · cases text with
    | nil => rfl
    | cons c text =>
      obtain ⟨hplus, hminus⟩ := htext c rfl
      rw [List.nil_append, scanSign, if_neg (by simp [hplus, hminus])]
  · rfl
  · rfl

private theorem scanExp_token {exp : Bytes} (h : Exponent exp) :
    ∃ o, (∀ sign ds, o = some (sign, ds) → ds ≠ []) ∧ ∀ rest, NumberEnd rest →
      scanExp (exp ++ rest) = (o, rest) := by
  cases h with
  | absent =>
    refine ⟨none, fun _ _ h => by simp at h, fun rest hrest => ?_⟩
    cases rest with
    | nil => rfl
    | cons c rest =>
      obtain ⟨-, -, he, hE⟩ := hrest c rfl
      rw [List.nil_append, scanExp, if_neg (by simp [he, hE])]
  | @present e sign ds he hsign hds hne =>
    refine ⟨some (sign, ds), fun _ _ h => ?_, fun rest hrest => ?_⟩
    · obtain ⟨-, rfl⟩ := Prod.mk.inj (Option.some.inj h)
      exact hne
    obtain ⟨htake, hdrop⟩ := span_digits hds fun c hc => (hrest c hc).1
    -- a digit comes first, so the sign is read as it stands
    have hhead : ∀ c, (ds ++ rest).head? = some c → c ≠ byte '+' ∧ c ≠ byte '-' := by
      intro c hc
      cases ds with
      | nil => exact absurd rfl hne
      | cons d ds =>
        obtain rfl : d = c := by simpa using hc
        have hd : isDigit d = true := hds d (List.mem_cons_self ..)
        constructor <;> rintro rfl <;> exact absurd hd (by decide)
    rw [List.cons_append, List.append_assoc, scanExp, if_pos he, scanSign_token hsign hhead]
    simp only [htake, hdrop]

/-- The sign and the digits before the point, in front of what is no digit. -/
private theorem scanNumber_parts {sign ints text : Bytes} (hsign : sign = [] ∨ sign = str "-")
    (hints : IsDigits ints) (hne : ints ≠ [] ∨ sign ≠ [])
    (htext : ∀ c, text.head? = some c → isDigit c = false) :
    scanNumber (sign ++ ints ++ text) =
      { neg := decide (sign ≠ [])
        ints := ints
        frac := (scanFrac text).1
        exp := (scanExp (scanFrac text).2).1
        rest := (scanExp (scanFrac text).2).2 } := by
  obtain ⟨htake, hdrop⟩ := span_digits hints htext
  rcases hsign with rfl | rfl
  · cases ints with
    | nil => simp at hne
    | cons d ints =>
      -- without a sign the first digit is no minus
      have hminus : d ≠ byte '-' := by
        rintro rfl
        exact absurd (hints (byte '-') (List.mem_cons_self ..)) (by decide)
      rw [List.nil_append, List.cons_append]
      rw [List.cons_append] at htake hdrop
      unfold scanNumber
      simp only [if_neg hminus, htake, hdrop]
      rfl
  · change scanNumber (byte '-' :: (ints ++ text)) = _
    unfold scanNumber
    simp only [if_true, htake, hdrop]
    rfl

/-- An integer that is the whole text. -/
theorem scanNumber_integer {sign ints : Bytes} (hsign : sign = [] ∨ sign = str "-")
    (hints : IsDigits ints) (hne : ints ≠ []) :
    scanNumber (sign ++ ints) =
      { neg := decide (sign ≠ []), ints := ints, frac := none, exp := none, rest := [] } := by
  have h := @scanNumber_parts sign ints [] hsign hints (Or.inl hne) fun c hc => by simp at hc
  rwa [List.append_nil] at h

/-- A token is read to its end: there is a digit, before the point if there is neither fraction nor
exponent, and an exponent has a digit. -/
structure NumberScan.Complete (t : NumberScan) : Prop where
  digit : t.ints ≠ [] ∨ t.frac.getD [] ≠ []
  integer : t.frac = none → t.ints ≠ []
  exponent : ∀ sign ds, t.exp = some (sign, ds) → ds ≠ []

/-- A number token is scanned to its end, whatever follows it. -/
theorem scanNumber_token {tok : Bytes} (h : NumberToken tok) :
    ∃ t : NumberScan, t.Complete ∧ ∀ rest, NumberEnd rest →
      scanNumber (tok ++ rest) = { t with rest := rest } := by
  obtain ⟨sign, ints, frac, fracDigits, exp, hsign, hints, hfrac, hexp, rfl, hdigit⟩ := h
  obtain ⟨f, hfd, hf⟩ := scanFrac_token hfrac
  obtain ⟨x, hxd, hx⟩ := scanExp_token hexp
  refine ⟨⟨decide (sign ≠ []), ints, f, x, []⟩, ⟨?_, ?_, hxd⟩, fun rest hrest => ?_⟩
  · rcases hdigit with h | ⟨-, h⟩
    · exact Or.inl h
    · exact Or.inr (by rwa [hfd])
  · rintro rfl
    rcases hdigit with h | ⟨-, h⟩
    · exact h
    · exact absurd hfd.symm h
  -- what follows each part cannot be taken for a continuation of it
  have hexpHead : ∀ c, (exp ++ rest).head? = some c → isDigit c = false ∧ c ≠ byte '.' := by
    intro c hc
    cases hexp with
    | absent => exact ⟨(hrest c hc).1, (hrest c hc).2.1⟩
    | present he _ _ _ =>
      obtain rfl := Option.some.inj hc
      rcases he with rfl | rfl <;> decide
  have hfracHead : ∀ c, (frac ++ (exp ++ rest)).head? = some c → isDigit c = false := by
    intro c hc
    cases hfrac with
    | absent => exact (hexpHead c hc).1
    | present _ =>
      obtain rfl := Option.some.inj hc
      decide
  rw [List.append_assoc, List.append_assoc,
    scanNumber_parts hsign hints (hdigit.imp_right And.left) hfracHead, hf _ hexpHead, hx _ hrest]

private theorem scanFrac_sound (text : Bytes) :
    ∃ frac, Fraction frac ((scanFrac text).1.getD []) ∧ text = frac ++ (scanFrac text).2 := by
  cases text with
  | nil => exact ⟨[], .absent, rfl⟩
  | cons c rest =>
    by_cases hc : c = byte '.'
    · subst hc
      refine ⟨byte '.' :: rest.takeWhile isDigit, .present (isDigits_takeWhile rest), ?_⟩
      simp [scanFrac, List.takeWhile_append_dropWhile]
    · refine ⟨[], ?_, by rw [scanFrac, if_neg hc]; rfl⟩
      rw [scanFrac, if_neg hc]
      exact .absent

private theorem scanSign_sound (text : Bytes) :
    ((scanSign text).1 = [] ∨ (scanSign text).1 = str "+" ∨ (scanSign text).1 = str "-") ∧
      text = (scanSign text).1 ++ (scanSign text).2 := by
  cases text with
  | nil => exact ⟨Or.inl rfl, rfl⟩
  | cons c rest =>
    by_cases hc : c = byte '+' ∨ c = byte '-'
    · rw [scanSign, if_pos hc]
      refine ⟨Or.inr ?_, rfl⟩
      exact hc.imp (fun h => by rw [h]; rfl) fun h => by rw [h]; rfl
    · rw [scanSign, if_neg hc]
      exact ⟨Or.inl rfl, rfl⟩

private theorem scanExp_sound (text : Bytes)
    (h : ∀ sign ds, (scanExp text).1 = some (sign, ds) → ds ≠ []) :
    ∃ exp, Exponent exp ∧ text = exp ++ (scanExp text).2 := by
  cases text with
  | nil => exact ⟨[], .absent, rfl⟩
  | cons c rest =>
    by_cases hc : c = byte 'e' ∨ c = byte 'E'
    · rw [scanExp, if_pos hc] at h ⊢
      obtain ⟨hsign, hrest⟩ := scanSign_sound rest
      have hne := h _ _ rfl
      refine ⟨c :: ((scanSign rest).1 ++ (scanSign rest).2.takeWhile isDigit),
        .present hc hsign (isDigits_takeWhile _) hne, ?_⟩
      rw [List.cons_append, List.append_assoc, List.takeWhile_append_dropWhile, ← hrest]
    · rw [scanExp, if_neg hc]
      exact ⟨[], .absent, rfl⟩

/-- A completely read token after `-` or at a digit is a number token. -/
theorem scanNumber_sound {c : UInt8} {text : Bytes} (hc : c = byte '-' ∨ isDigit c = true)
    (hdigit : (scanNumber (c :: text)).ints ≠ [] ∨ (scanNumber (c :: text)).frac.getD [] ≠ [])
    (hexponent : ∀ sign ds, (scanNumber (c :: text)).exp = some (sign, ds) → ds ≠ []) :
    ∃ tok, NumberToken tok ∧ c :: text = tok ++ (scanNumber (c :: text)).rest := by
  -- with or without its sign, the token starts with the digits in front of the point
  have hparts : ∃ sign body, (sign = [] ∨ sign = str "-") ∧ c :: text = sign ++ body ∧
      (body.takeWhile isDigit = [] → sign ≠ []) ∧
      scanNumber (c :: text) =
        { neg := (scanNumber (c :: text)).neg
          ints := body.takeWhile isDigit
          frac := (scanFrac (body.dropWhile isDigit)).1
          exp := (scanExp (scanFrac (body.dropWhile isDigit)).2).1
          rest := (scanExp (scanFrac (body.dropWhile isDigit)).2).2 } := by
    by_cases hminus : c = byte '-'
    · refine ⟨str "-", text, Or.inr rfl, by rw [hminus]; rfl, fun _ => by decide, ?_⟩
      simp only [scanNumber, if_pos hminus]
    · have hd : isDigit c = true := hc.resolve_left hminus
      refine ⟨[], c :: text, Or.inl rfl, rfl, fun h => by simp [hd] at h, ?_⟩
      simp only [scanNumber, if_neg hminus]
  obtain ⟨sign, body, hsign, htext, hints, hscan⟩ := hparts
  rw [hscan] at hdigit hexponent
  obtain ⟨frac, hfrac, hfracText⟩ := scanFrac_sound (body.dropWhile isDigit)
  obtain ⟨exp, hexp, hexpText⟩ := scanExp_sound _ hexponent
  refine ⟨sign ++ body.takeWhile isDigit ++ frac ++ exp,
    ⟨sign, body.takeWhile isDigit, frac, _, exp, hsign, isDigits_takeWhile _, hfrac, hexp, rfl, ?_⟩,
    ?_⟩
  · by_cases hnil : body.takeWhile isDigit = []
    · exact Or.inr ⟨hints hnil, hdigit.resolve_left (not_not.mpr hnil)⟩
    · exact Or.inl hnil
  · rw [hscan, htext]
    simp only [List.append_assoc]
    rw [← hexpText, ← hfracText, List.takeWhile_append_dropWhile]

/-! ## Numbers -/

theorem strtod_isSome_iff (t : NumberScan) : (strtod t).isSome = true ↔
    (t.ints ≠ [] ∨ t.frac.getD [] ≠ []) ∧ ∀ sign ds, t.exp = some (sign, ds) → ds ≠ [] := by
  unfold strtod
  constructor
  · intro h
    by_cases hdigit : t.ints = [] ∧ t.frac.getD [] = []
    · rw [if_pos hdigit] at h
      simp at h
    · refine ⟨not_and_or.mp hdigit, fun sign ds hexp => ?_⟩
      rw [if_neg hdigit, hexp] at h
      rintro rfl
      simp at h
  · -- a digit somewhere, and digits in the exponent
    rintro ⟨hdigit, hexp⟩
    rw [if_neg (not_and_or.mpr hdigit)]
    cases h : t.exp with
    | none => rfl
    | some x =>
      obtain ⟨sign, ds⟩ := x
      simp only [if_neg (hexp sign ds h)]
      split_ifs <;> rfl

theorem strtoll_isSome_iff (t : NumberScan) : (strtoll t).isSome = true ↔ t.ints ≠ [] := by
  unfold strtoll
  split_ifs with h <;> simp [h]

/-- A token that is read to its end has a value. -/
theorem NumberScan.Complete.value {t : NumberScan} (h : t.Complete) :
    ∃ v, t.value = some v := by
  obtain ⟨hdigit, hinteger, hexponent⟩ := h
  apply Option.isSome_iff_exists.mp
  unfold NumberScan.value
  split
  · rw [Option.isSome_map]
    exact (strtod_isSome_iff t).mpr ⟨hdigit, hexponent⟩
  · rename_i hint
    have hfrac : t.frac = none := by
      cases hf : t.frac with
      | none => rfl
      | some ds => simp [hf] at hint
    rw [Option.isSome_map]
    exact (strtoll_isSome_iff t).mpr (hinteger hfrac)

theorem NumberScan.of_value {t : NumberScan} {v : Value} (h : t.value = some v) :
    (t.ints ≠ [] ∨ t.frac.getD [] ≠ []) ∧ ∀ sign ds, t.exp = some (sign, ds) → ds ≠ [] := by
  have hsome : t.value.isSome = true := by rw [h]; rfl
  unfold NumberScan.value at hsome
  split at hsome
  · rw [Option.isSome_map] at hsome
    exact (strtod_isSome_iff t).mp hsome
  · rename_i hint
    rw [Option.isSome_map] at hsome
    refine ⟨Or.inl ((strtoll_isSome_iff t).mp hsome), fun sign ds hexp => ?_⟩
    simp [hexp] at hint

/-- The kinds of a value that count as a number. -/
def IsNumber (v : Value) : Prop :=
  (∃ i, v = .int i) ∨ (∃ u, v = .uint u) ∨ ∃ d, v = .double d

theorem NumberScan.isNumber_value {t : NumberScan} {v : Value} (h : t.value = some v) :
    IsNumber v := by
  unfold NumberScan.value at h
  split at h
  · obtain ⟨d, -, rfl⟩ := Option.map_eq_some_iff.mp h
    exact Or.inr (Or.inr ⟨d, rfl⟩)
  · obtain ⟨ll, -, rfl⟩ := Option.map_eq_some_iff.mp h
    split
    · exact Or.inl ⟨_, rfl⟩
    · exact Or.inr (Or.inl ⟨_, rfl⟩)

theorem parseNumber_eq {c : UInt8} (hword : ¬ (c = byte '+' ∨ c = byte 'I' ∨ c = byte 'N'))
    (s : ParserState) : parseNumber opt c s =
      match (scanNumber s.rest).value with
      | some v => ⟨.none, v, { s with rest := (scanNumber s.rest).rest }⟩
      | none => ⟨.invalidNumber, .null, { s with rest := (scanNumber s.rest).rest }⟩ := by
  rw [parseNumber]
  exact if_neg hword

/-- A character that starts a number starts none of the words. -/
private theorem not_word_of_number {c : UInt8} (hc : c = byte '-' ∨ isDigit c = true) :
    ¬ (c = byte '+' ∨ c = byte 'I' ∨ c = byte 'N') := by
  rintro (rfl | rfl | rfl) <;> revert hc <;> decide

/-- The value of a number token. -/
def tokenValue (tok : Bytes) : Value := ((scanNumber tok).value).getD .null

theorem parseNumber_token {tok rest : Bytes} (h : NumberToken tok) (hrest : NumberEnd rest)
    {c : UInt8} (hc : c = byte '-' ∨ isDigit c = true) (nodes : ℕ) :
    parseNumber opt c ⟨tok ++ rest, nodes⟩ = ⟨.none, tokenValue tok, ⟨rest, nodes⟩⟩ := by
  obtain ⟨t, hcomplete, hscan⟩ := scanNumber_token h
  have hvalue : ∀ rest, NumberScan.value { t with rest := rest } = t.value := fun _ => rfl
  obtain ⟨v, hv⟩ := hcomplete.value
  have htok : tokenValue tok = v := by
    have hself := hscan [] fun c hc => by simp at hc
    rw [List.append_nil] at hself
    rw [tokenValue, hself, hvalue, hv, Option.getD_some]
  simp only [parseNumber_eq (not_word_of_number hc), hscan rest hrest, hvalue, hv, htok]

theorem parseNumber_sound {c : UInt8} (hc : c = byte '-' ∨ isDigit c = true) {text : Bytes}
    {nodes : ℕ} (h : (parseNumber opt c ⟨c :: text, nodes⟩).error = .none) :
    (parseNumber opt c ⟨c :: text, nodes⟩).state.nodes = nodes ∧
      IsNumber (parseNumber opt c ⟨c :: text, nodes⟩).out ∧ ∃ tok, NumberToken tok ∧
        c :: text = tok ++ (parseNumber opt c ⟨c :: text, nodes⟩).state.rest := by
  rw [parseNumber_eq (not_word_of_number hc)] at h ⊢
  cases hv : (scanNumber (c :: text)).value with
  | none =>
    rw [hv] at h
    cases h
  | some v =>
    obtain ⟨hdigit, hexponent⟩ := NumberScan.of_value hv
    exact ⟨rfl, NumberScan.isNumber_value hv, scanNumber_sound hc hdigit hexponent⟩

end TopologyFabric.Json

import TopologyFabric.Json.Parser

/-!
# The Grammar of JSON Texts

The grammar that the parser is meant to follow, within its limits, as a relation between a text and
what is left of it. The grammar has a tolerant variant in which a broken string is passed over: the
text goes on where the string stopped making sense, a broken value counts as a value, and a broken
key ends its object.

## Main results

- `Derives.mono`: the tolerant grammar extends the strict one
- `Derives.length_lt`: whatever is derived takes something off the text
-/

namespace TopologyFabric.Json

/-! ## Strings -/

/-- One character of a string literal, as written and as decoded. -/
inductive StringUnit : Bytes → Bytes → Prop
  | plain {c : UInt8} (hquote : c ≠ byte '"') (hslash : c ≠ byte '\\') (hascii : c < 0x80) :
      StringUnit [c] [c]
  | escape {e b : UInt8} (h : simpleEscape e = some b) : StringUnit [byte '\\', e] [b]
  | unicode {h₁ h₂ h₃ h₄ : UInt8} {cp : ℕ} (h : hexCodePoint h₁ h₂ h₃ h₄ = some cp) :
      StringUnit [byte '\\', byte 'u', h₁, h₂, h₃, h₄] (utf8 cp)

/-- The characters of a string literal, as written and as decoded. -/
inductive StringBody : Bytes → Bytes → Prop
  | nil : StringBody [] []
  | cons {raw dec raws decs : Bytes} (hunit : StringUnit raw dec) (hbody : StringBody raws decs) :
      StringBody (raw ++ raws) (dec ++ decs)

/-- A string literal with its closing quote. -/
def StringLiteral (opt : ParseOptions) (text rest : Bytes) : Prop :=
  ∃ raw dec, StringBody raw dec ∧ dec.length ≤ opt.maxStringBytes ∧
    text = byte '"' :: (raw ++ byte '"' :: rest)

/-- Where a string of `n` decoded bytes stops without a closing quote. -/
inductive Stop (opt : ParseOptions) (n : ℕ) : Bytes → Bytes → Prop
  | endOfText : Stop opt n [] []
  | nonAscii {c : UInt8} {rest : Bytes} (hc : 0x80 ≤ c) : Stop opt n (c :: rest) (c :: rest)
  | badEscape {rest : Bytes}
      (h : ∀ raw dec rest', StringUnit raw dec → byte '\\' :: rest ≠ raw ++ rest') :
      Stop opt n (byte '\\' :: rest) rest
  | tooLong {raw dec rest : Bytes} (hunit : StringUnit raw dec)
      (hlong : opt.maxStringBytes < n + dec.length) : Stop opt n (raw ++ rest) rest

/-- A string literal that is not terminated, not ASCII, too long, or has an illegal escape. -/
def BrokenString (opt : ParseOptions) (text rest : Bytes) : Prop :=
  ∃ raw dec text', StringBody raw dec ∧ dec.length ≤ opt.maxStringBytes ∧
    text = byte '"' :: (raw ++ text') ∧ Stop opt dec.length text' rest

/-! ## Numbers -/

def IsDigits (ds : Bytes) : Prop := ∀ c ∈ ds, isDigit c = true

instance (ds : Bytes) : Decidable (IsDigits ds) := List.decidableBAll _ ds

/-- An optional fraction, as written and its digits. -/
inductive Fraction : Bytes → Bytes → Prop
  | absent : Fraction [] []
  | present {ds : Bytes} (hds : IsDigits ds) : Fraction (byte '.' :: ds) ds

/-- An optional exponent. -/
inductive Exponent : Bytes → Prop
  | absent : Exponent []
  | present {e : UInt8} {sign ds : Bytes} (he : e = byte 'e' ∨ e = byte 'E')
      (hsign : sign = [] ∨ sign = str "+" ∨ sign = str "-") (hds : IsDigits ds) (hne : ds ≠ []) :
      Exponent (e :: (sign ++ ds))

/-- A number that `strtoll` or `strtod` reads to its end. -/
def NumberToken (tok : Bytes) : Prop :=
  ∃ sign ints frac fracDigits exp, (sign = [] ∨ sign = str "-") ∧ IsDigits ints ∧
    Fraction frac fracDigits ∧ Exponent exp ∧ tok = sign ++ ints ++ frac ++ exp ∧
    (ints ≠ [] ∨ (sign ≠ [] ∧ fracDigits ≠ []))

/-! ## Values -/

def AllWs (ws : Bytes) : Prop := ∀ c ∈ ws, isWs c = true

instance (ws : Bytes) : Decidable (AllWs ws) := List.decidableBAll _ ws

/-- The nonterminals: a value, and what follows the opening bracket of a nonempty array or
object. -/
inductive Symbol where
  | value | elements | members
  deriving DecidableEq

/-- `Derives lenient opt sym d n text rest`: the text starts with a `sym` that has `n` values, at
nesting depth `d`, and goes on with `rest`. -/
inductive Derives (lenient : Bool) (opt : ParseOptions) :
    Symbol → ℕ → ℕ → Bytes → Bytes → Prop
  | ws {d n : ℕ} {c : UInt8} {text rest : Bytes} (hc : isWs c = true)
      (h : Derives lenient opt .value d n text rest) :
      Derives lenient opt .value d n (c :: text) rest
  | word {d : ℕ} {word rest : Bytes} (hd : d ≤ opt.maxDepth)
      (hword : word = str "null" ∨ word = str "true" ∨ word = str "false") :
      Derives lenient opt .value d 1 (word ++ rest) rest
  | number {d : ℕ} {tok rest : Bytes} (hd : d ≤ opt.maxDepth) (htok : NumberToken tok) :
      Derives lenient opt .value d 1 (tok ++ rest) rest
  | string {d : ℕ} {text rest : Bytes} (hd : d ≤ opt.maxDepth)
      (h : StringLiteral opt text rest) : Derives lenient opt .value d 1 text rest
  | brokenString {d : ℕ} {text rest : Bytes} (hlenient : lenient = true)
      (hd : d ≤ opt.maxDepth) (h : BrokenString opt text rest) :
      Derives lenient opt .value d 1 text rest
  | emptyArray {d : ℕ} {ws rest : Bytes} (hd : d ≤ opt.maxDepth) (hws : AllWs ws) :
      Derives lenient opt .value d 1 (byte '[' :: (ws ++ byte ']' :: rest)) rest
  | array {d n : ℕ} {text rest : Bytes} (hd : d ≤ opt.maxDepth)
      (h : Derives lenient opt .elements (d + 1) n text rest) :
      Derives lenient opt .value d (n + 1) (byte '[' :: text) rest
  | emptyObject {d : ℕ} {ws rest : Bytes} (hd : d ≤ opt.maxDepth) (hws : AllWs ws) :
      Derives lenient opt .value d 1 (byte '{' :: (ws ++ byte '}' :: rest)) rest
  | object {d n : ℕ} {text rest : Bytes} (hd : d ≤ opt.maxDepth)
      (h : Derives lenient opt .members (d + 1) n text rest) :
      Derives lenient opt .value d (n + 1) (byte '{' :: text) rest
  | lastElement {d n : ℕ} {text ws rest : Bytes} (hws : AllWs ws)
      (h : Derives lenient opt .value d n text (ws ++ byte ']' :: rest)) :
      Derives lenient opt .elements d n text rest
  | moreElements {d m n : ℕ} {text ws text' rest : Bytes} (hws : AllWs ws)
      (h : Derives lenient opt .value d m text (ws ++ byte ',' :: text'))
      (hmore : Derives lenient opt .elements d n text' rest) :
      Derives lenient opt .elements d (m + n) text rest
  | lastMember {d n : ℕ} {ws key ws' text ws'' rest : Bytes} (hws : AllWs ws) (hws' : AllWs ws')
      (hws'' : AllWs ws'') (hkey : StringLiteral opt key (ws' ++ byte ':' :: text))
      (h : Derives lenient opt .value d n text (ws'' ++ byte '}' :: rest)) :
      Derives lenient opt .members d n (ws ++ key) rest
  | moreMembers {d m n : ℕ} {ws key ws' text ws'' text' rest : Bytes} (hws : AllWs ws)
      (hws' : AllWs ws') (hws'' : AllWs ws'')
      (hkey : StringLiteral opt key (ws' ++ byte ':' :: text))
      (h : Derives lenient opt .value d m text (ws'' ++ byte ',' :: text'))
      (hmore : Derives lenient opt .members d n text' rest) :
      Derives lenient opt .members d (m + n) (ws ++ key) rest
  | brokenKey {d : ℕ} {ws key rest : Bytes} (hlenient : lenient = true) (hws : AllWs ws)
      (h : BrokenString opt key rest) : Derives lenient opt .members d 0 (ws ++ key) rest

/-- The whole text, apart from surrounding whitespace, is one value within the limits. -/
def Document (lenient : Bool) (opt : ParseOptions) (text : Bytes) : Prop :=
  ∃ n rest, Derives lenient opt .value 0 n text rest ∧ n ≤ opt.maxNodes ∧ AllWs rest

/-! ## Properties of derivations -/

variable {lenient : Bool} {opt : ParseOptions} {sym : Symbol} {d n : ℕ} {text rest : Bytes}

/-- The tolerant grammar extends the strict one. -/
theorem Derives.mono (h : Derives false opt sym d n text rest) :
    Derives true opt sym d n text rest := by
  induction h with
  | ws hc _ ih => exact .ws hc ih
  | word hd hword => exact .word hd hword
  | number hd htok => exact .number hd htok
  | string hd h => exact .string hd h
  | brokenString hlenient hd h =>
    -- a broken string is derived in the lenient grammar only
    exact absurd hlenient Bool.false_ne_true
  | emptyArray hd hws => exact .emptyArray hd hws
  | array hd _ ih => exact .array hd ih
  | emptyObject hd hws => exact .emptyObject hd hws
  | object hd _ ih => exact .object hd ih
  | lastElement hws _ ih => exact .lastElement hws ih
  | moreElements hws _ _ ih ihmore => exact .moreElements hws ih ihmore
  | lastMember hws hws' hws'' hkey _ ih => exact .lastMember hws hws' hws'' hkey ih
  | moreMembers hws hws' hws'' hkey _ _ ih ihmore =>
    exact .moreMembers hws hws' hws'' hkey ih ihmore
  | brokenKey hlenient hws h => exact absurd hlenient Bool.false_ne_true

theorem Document.mono (h : Document false opt text) : Document true opt text := by
  obtain ⟨n, rest, hderives, hn, hrest⟩ := h
  exact ⟨n, rest, hderives.mono, hn, hrest⟩

/-- The characters of a number token. -/
theorem NumberToken.forall_mem {P : UInt8 → Prop} [DecidablePred P] {tok : Bytes}
    (h : NumberToken tok) (hdigit : ∀ c, isDigit c = true → P c)
    (hall : ((str "+-.eE").all fun c => decide (P c)) = true) : ∀ c ∈ tok, P c := by
  have hother : ∀ c ∈ str "+-.eE", P c := fun c hc =>
    of_decide_eq_true (List.all_eq_true.mp hall c hc)
  obtain ⟨sign, ints, frac, fracDigits, exp, hsign, hints, hfrac, hexp, rfl, -⟩ := h
  have hdigits : ∀ {ds : Bytes}, IsDigits ds → ∀ c ∈ ds, P c := fun hds c hc => hdigit c (hds c hc)
  -- the parts of the token
  have hsigns : ∀ {s : Bytes}, s = [] ∨ s = str "+" ∨ s = str "-" → ∀ c ∈ s, P c := by
    rintro s hs c hc
    apply hother
    rcases hs with rfl | rfl | rfl
    · cases hc
    · rw [List.mem_singleton.mp hc]
      decide
    · rw [List.mem_singleton.mp hc]
      decide
  have hfrac : ∀ c ∈ frac, P c := by
    cases hfrac with
    | absent => exact fun c hc => by cases hc
    | present hds => exact List.forall_mem_cons.mpr ⟨hother _ (by decide), hdigits hds⟩
  have hexp : ∀ c ∈ exp, P c := by
    cases hexp with
    | absent => exact fun c hc => by cases hc
    | present he hsign hds _ =>
      refine List.forall_mem_cons.mpr ⟨hother _ ?_, List.forall_mem_append.mpr
        ⟨hsigns hsign, hdigits hds⟩⟩
      rcases he with rfl | rfl <;> decide
  exact List.forall_mem_append.mpr ⟨List.forall_mem_append.mpr ⟨List.forall_mem_append.mpr
    ⟨hsigns (hsign.imp_right Or.inr), hdigits hints⟩, hfrac⟩, hexp⟩

theorem StringUnit.raw_ne_nil {raw dec : Bytes} (h : StringUnit raw dec) : raw ≠ [] := by
  cases h <;> exact List.cons_ne_nil _ _

theorem StringLiteral.length_lt (h : StringLiteral opt text rest) :
    rest.length < text.length := by
  obtain ⟨raw, dec, -, -, rfl⟩ := h
  simp only [List.length_cons, List.length_append]
  omega

theorem BrokenString.length_lt (h : BrokenString opt text rest) : rest.length < text.length := by
  obtain ⟨raw, dec, text', -, -, rfl, hstop⟩ := h
  have hle : rest.length ≤ text'.length := by
    cases hstop <;> simp
  simp only [List.length_cons, List.length_append]
  omega

theorem NumberToken.ne_nil {tok : Bytes} (h : NumberToken tok) : tok ≠ [] := by
  obtain ⟨sign, ints, frac, fracDigits, exp, -, -, -, -, rfl, h⟩ := h
  rcases h with h | ⟨h, -⟩ <;> simp [h]

/-- Whatever is derived takes something off the text. -/
theorem Derives.length_lt (h : Derives lenient opt sym d n text rest) :
    rest.length < text.length := by
  -- no symbol derives the empty text, and a step within brackets has more than its parts
  induction h with
  | ws hc _ ih => exact ih.trans (Nat.lt_succ_self _)
  | @word _ word rest _ hword =>
    have : word ≠ [] := by rcases hword with rfl | rfl | rfl <;> decide
    have := List.length_pos_iff.mpr this
    rw [List.length_append]
    omega
  | number _ htok =>
    have := List.length_pos_iff.mpr htok.ne_nil
    rw [List.length_append]
    omega
  | string _ h => exact h.length_lt
  | brokenString _ _ h => exact h.length_lt
  | emptyArray _ _ =>
    simp only [List.length_cons, List.length_append]
    omega
  | array _ _ ih => exact ih.trans (Nat.lt_succ_self _)
  | emptyObject _ _ =>
    simp only [List.length_cons, List.length_append]
    omega
  | object _ _ ih => exact ih.trans (Nat.lt_succ_self _)
  | lastElement _ _ ih =>
    simp only [List.length_cons, List.length_append] at ih
    omega
  | moreElements _ _ _ ih ihmore =>
    simp only [List.length_cons, List.length_append] at ih
    omega
  | lastMember _ _ _ hkey _ ih =>
    have := hkey.length_lt
    simp only [List.length_cons, List.length_append] at ih this ⊢
    omega
  | moreMembers _ _ _ hkey _ _ ih ihmore =>
    have := hkey.length_lt
    simp only [List.length_cons, List.length_append] at ih this ⊢
    omega
  | brokenKey _ _ h =>
    have := h.length_lt
    rw [List.length_append]
    omega

end TopologyFabric.Json

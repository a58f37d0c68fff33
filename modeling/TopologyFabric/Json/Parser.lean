import TopologyFabric.Json.Value
import TopologyFabric.Library.Outcome

/-!
# The JSON Parser

The recursive-descent parser. Its position in the text is kept as the rest of the text; the number
of values seen so far is the other part of its state. A function that fails returns an error code
and the state in which it stopped.

The error of a failed string is read from the member `err_`. That member is written by `fail` alone,
which nothing calls, so the code that is returned is `ParseError::None` and the caller goes on where
the string stopped.
-/

namespace TopologyFabric.Json

open Library

/-! ## Data -/

inductive ParseError where
  | none | unexpectedChar | unexpectedEnd | trailGarbage | depthExceeded | sizeExceeded
  | invalidNumber | invalidEscape | invalidUtf8
  deriving DecidableEq, Repr

structure ParseResult where
  value : Value := .null
  error : ParseError := .none
  consumed : ℕ := 0
  message : Bytes := []

/-- `ParseResult::ok`. -/
def ParseResult.ok (r : ParseResult) : Bool := r.error = .none

structure ParseOptions where
  maxDepth : ℕ := 128
  maxNodes : ℕ := 4 * 2 ^ 20
  maxStringBytes : ℕ := 2 ^ 24
  allowNanInf : Bool := false
  deriving DecidableEq

/-- The rest of the text and the number of values so far. -/
structure ParserState where
  rest : Bytes
  nodes : ℕ
  deriving DecidableEq

/-- What a parsing function hands back: the error code it returns, its output argument, and the
state. -/
structure Parsed where
  error : ParseError
  out : Value
  state : ParserState

/-- The initial value of `err_`, which is never overwritten. -/
def err_ : ParseError := .none

/-- The initial value of `msg_`, which is never overwritten. -/
def msg_ : Bytes := []

/-! ## Whitespace and words -/

def isWs (c : UInt8) : Bool := c = byte ' ' || c = 9 || c = 10 || c = 13

/-- `skip_ws`. -/
def skipWs (text : Bytes) : Bytes := text.dropWhile isWs

def ParserState.skipWs (s : ParserState) : ParserState := { s with rest := Json.skipWs s.rest }

/-- `match`: the rest after a word that the text starts with. -/
def matchWord (word text : Bytes) : Option Bytes :=
  if word.isPrefixOf text then some (text.drop word.length) else none

/-! ## Strings -/

/-- `append_utf8`. -/
def utf8 (cp : ℕ) : Bytes :=
  if cp ≤ 0x7F then [UInt8.ofNat cp]
  else if cp ≤ 0x7FF then [UInt8.ofNat (0xC0 ||| cp >>> 6), UInt8.ofNat (0x80 ||| (cp &&& 0x3F))]
  else if cp ≤ 0xFFFF then
    [UInt8.ofNat (0xE0 ||| cp >>> 12), UInt8.ofNat (0x80 ||| ((cp >>> 6) &&& 0x3F)),
      UInt8.ofNat (0x80 ||| (cp &&& 0x3F))]
  else
    [UInt8.ofNat (0xF0 ||| cp >>> 18), UInt8.ofNat (0x80 ||| ((cp >>> 12) &&& 0x3F)),
      UInt8.ofNat (0x80 ||| ((cp >>> 6) &&& 0x3F)), UInt8.ofNat (0x80 ||| (cp &&& 0x3F))]

/-- The escapes with a single character. -/
def simpleEscape (e : UInt8) : Option UInt8 :=
  if e = byte '"' then some (byte '"')
  else if e = byte '\\' then some (byte '\\')
  else if e = byte '/' then some (byte '/')
  else if e = byte 'b' then some 8
  else if e = byte 'f' then some 12
  else if e = byte 'n' then some 10
  else if e = byte 'r' then some 13
  else if e = byte 't' then some 9
  else none

/-- The code point that four hex digits stand for. -/
def hexCodePoint (h₁ h₂ h₃ h₄ : UInt8) : Option ℕ := do
  let d₁ ← hexValue? h₁
  let d₂ ← hexValue? h₂
  let d₃ ← hexValue? h₃
  let d₄ ← hexValue? h₄
  return ((d₁ * 16 + d₂) * 16 + d₃) * 16 + d₄

/-- The loop of `parse_string`: the string, if it ends properly, and the rest of the text after its
closing quote, or where the loop gave up. -/
def stringLoop (opt : ParseOptions) (buf : Bytes) : Bytes → Option Bytes × Bytes
  | [] => (none, [])
  | c :: rest =>
    if c = byte '"' then (some buf, rest)
    else if c = byte '\\' then
      match rest with
      | [] => (none, [])
      | e :: rest' =>
        match simpleEscape e with
        | some b =>
          if opt.maxStringBytes < (buf ++ [b]).length then (none, rest')
          else stringLoop opt (buf ++ [b]) rest'
        | none =>
          if e = byte 'u' then
            match rest' with
            | h₁ :: h₂ :: h₃ :: h₄ :: rest'' =>
              match hexCodePoint h₁ h₂ h₃ h₄ with
              | some cp =>
                if opt.maxStringBytes < (buf ++ utf8 cp).length then (none, rest'')
                else stringLoop opt (buf ++ utf8 cp) rest''
              | none => (none, e :: rest')
            | _ => (none, e :: rest')
          else (none, e :: rest')
    else if 0x80 ≤ c then (none, c :: rest)
    else if opt.maxStringBytes < (buf ++ [c]).length then (none, rest)
    else stringLoop opt (buf ++ [c]) rest

/-- `parse_string`. -/
def parseString (opt : ParseOptions) (text : Bytes) : Option Bytes × Bytes :=
  match text with
  | [] => (none, [])
  | c :: rest => if c ≠ byte '"' then (none, c :: rest) else stringLoop opt [] rest

/-! ## Numbers -/

/-- The characters of a number token, in its parts. -/
structure NumberScan where
  neg : Bool
  ints : Bytes
  frac : Option Bytes
  exp : Option (Bytes × Bytes)
  rest : Bytes

/-- An optional fraction. -/
def scanFrac (text : Bytes) : Option Bytes × Bytes :=
  match text with
  | c :: rest =>
    if c = byte '.' then (some (rest.takeWhile isDigit), rest.dropWhile isDigit)
    else (none, c :: rest)
  | [] => (none, [])

/-- An optional sign of an exponent. -/
def scanSign (text : Bytes) : Bytes × Bytes :=
  match text with
  | c :: rest => if c = byte '+' ∨ c = byte '-' then ([c], rest) else ([], c :: rest)
  | [] => ([], [])

/-- An optional exponent: its sign and its digits. -/
def scanExp (text : Bytes) : Option (Bytes × Bytes) × Bytes :=
  match text with
  | c :: rest =>
    if c = byte 'e' ∨ c = byte 'E' then
      let (sign, rest) := scanSign rest
      (some (sign, rest.takeWhile isDigit), rest.dropWhile isDigit)
    else (none, c :: rest)
  | [] => (none, [])

/-- The token at the head of the text. -/
def scanNumber (text : Bytes) : NumberScan :=
  let (neg, r) := match text with
    | c :: rest => if c = byte '-' then (true, rest) else (false, c :: rest)
    | [] => (false, [])
  let ints := r.takeWhile isDigit
  let (frac, r) := scanFrac (r.dropWhile isDigit)
  let (exp, r) := scanExp r
  { neg := neg, ints := ints, frac := frac, exp := exp, rest := r }

/-- The negative of a double. -/
def negate : Double → Double
  | .nan => .nan
  | .inf neg => .inf (!neg)
  | .negZero => .fin 0
  | .fin q => if q = 0 then .negZero else .fin (-q)

/-- The double nearest to the digits of the token, scaled by a power of ten. -/
def NumberScan.toDouble (t : NumberScan) (exp : ℤ) : Double :=
  let frac := t.frac.getD []
  let d := binary64 ((decimalValue (t.ints ++ frac) : ℚ) * 10 ^ (exp - frac.length))
  if t.neg then negate d else d

/-- `strtod`, when it reads the whole token: there is a digit, and an exponent has digits. -/
def strtod (t : NumberScan) : Option Double :=
  if t.ints = [] ∧ t.frac.getD [] = [] then none
  else
    match t.exp with
    | none => some (t.toDouble 0)
    | some (sign, digits) =>
      if digits = [] then none
      else if sign = str "-" then some (t.toDouble (-(decimalValue digits : ℤ)))
      else some (t.toDouble (decimalValue digits))

/-- `strtoll`, when it reads the whole token: there is a digit. A value out of range saturates. -/
def strtoll (t : NumberScan) : Option ℤ :=
  if t.ints = [] then none
  else
    let v : ℤ := if t.neg then -(decimalValue t.ints : ℤ) else decimalValue t.ints
    some (max (-2 ^ 63) (min v (2 ^ 63 - 1)))

/-- The value of a token that is read to its end. -/
def NumberScan.value (t : NumberScan) : Option Value :=
  if t.frac.isSome || t.exp.isSome then (strtod t).map .double
  else
    (strtoll t).map fun ll =>
      if t.neg then .int (Int64.ofInt ll) else .uint (UInt64.ofInt ll)

/-- `parse_number`. After `+`, `I` or `N` only the words for NaN and infinity are tried, and the
sign of such a word is never read. -/
def parseNumber (opt : ParseOptions) (c : UInt8) (s : ParserState) : Parsed :=
  if c = byte '+' ∨ c = byte 'I' ∨ c = byte 'N' then
    match (matchWord (str "NaN") s.rest).or (matchWord (str "nan") s.rest) with
    | some rest =>
      if opt.allowNanInf then ⟨.none, .double .nan, { s with rest := rest }⟩
      else ⟨.invalidNumber, .null, { s with rest := rest }⟩
    | none =>
      match (matchWord (str "Inf") s.rest).or (matchWord (str "inf") s.rest) with
      | some rest =>
        if opt.allowNanInf then ⟨.none, .double (.inf false), { s with rest := rest }⟩
        else ⟨.invalidNumber, .null, { s with rest := rest }⟩
      | none => ⟨.invalidNumber, .null, s⟩
  else
    let t := scanNumber s.rest
    match t.value with
    | some v => ⟨.none, v, { s with rest := t.rest }⟩
    | none => ⟨.invalidNumber, .null, { s with rest := t.rest }⟩

/-! ## Values -/

/-- A value that is one of the words. -/
def parseWord (word : Bytes) (v : Value) (s : ParserState) : Parsed :=
  match matchWord word s.rest with
  | some rest => ⟨.none, v, { s with rest := rest }⟩
  | none => ⟨.unexpectedChar, .null, s⟩

/-- The cases of `parse_value` without recursion. -/
def parseScalar (opt : ParseOptions) (c : UInt8) (s : ParserState) : Parsed :=
  if c = byte '"' then
    match parseString opt s.rest with
    | (some str, rest) => ⟨.none, .string str, { s with rest := rest }⟩
    | (none, rest) => ⟨err_, .null, { s with rest := rest }⟩
  else if c = byte 't' then parseWord (str "true") (.bool true) s
  else if c = byte 'f' then parseWord (str "false") (.bool false) s
  else if c = byte 'n' then parseWord (str "null") .null s
  else if c = byte '-' ∨ isDigit c = true ∨ c = byte '+' ∨ c = byte 'I' ∨ c = byte 'N' then
    parseNumber opt c s
  else ⟨.unexpectedChar, .null, s⟩

/-- What follows an item of an array or object. -/
inductive Separator where
  | comma (s : ParserState)
  | close (s : ParserState)
  | bad (e : ParseError) (s : ParserState)

def separator (closing : UInt8) (s : ParserState) : Separator :=
  let s := s.skipWs
  match s.rest with
  | [] => .bad .unexpectedEnd s
  | c :: rest =>
    if c = byte ',' then .comma { s with rest := rest }
    else if c = closing then .close { s with rest := rest }
    else .bad .unexpectedChar s

/-- The loop of `parse_array` behind an element: it goes round after a comma. -/
def arrayNext (arr : List Value) (r : Parsed) : (List Value × ParserState) ⊕ Parsed :=
  if r.error ≠ .none then .inr ⟨r.error, .null, r.state⟩
  else
    let arr := arr ++ [r.out]
    match separator (byte ']') r.state with
    | .comma s => .inl (arr, s)
    | .close s => .inr ⟨.none, .array arr, s⟩
    | .bad e s => .inr ⟨e, .null, s⟩

/-- One round of the loop of `parse_array`. -/
def arrayStep (child : ParserState → Run Parsed) (st : List Value × ParserState) :
    Run ((List Value × ParserState) ⊕ Parsed) :=
  let (arr, s) := st
  let s := s.skipWs
  if s.rest = [] then .ok (.inr ⟨.unexpectedEnd, .null, s⟩)
  else do
    let r ← child s
    .ok (arrayNext arr r)

/-- `parse_array`. Every round of its loop takes something off the text, so the length of the text
is a sufficient budget (`parseValue_spec`). -/
def parseArray (child : ParserState → Run Parsed) (s : ParserState) : Run Parsed :=
  let s := { s with rest := skipWs s.rest.tail }
  match s.rest with
  | c :: rest =>
    if c = byte ']' then .ok ⟨.none, .array [], { s with rest := rest }⟩
    else loop (arrayStep child) (s.rest.length + 1) ([], s)
  | [] => loop (arrayStep child) (s.rest.length + 1) ([], s)

/-- The loop of `parse_object` behind a member: it goes round after a comma. -/
def objectNext (key : Bytes) (obj : List (Bytes × Value)) (r : Parsed) :
    (List (Bytes × Value) × ParserState) ⊕ Parsed :=
  if r.error ≠ .none then .inr ⟨r.error, .null, r.state⟩
  else
    let obj := insertEntry key r.out obj
    match separator (byte '}') r.state with
    | .comma s => .inl (obj, s)
    | .close s => .inr ⟨.none, .object obj, s⟩
    | .bad e s => .inr ⟨e, .null, s⟩

/-- One round of the loop of `parse_object`. -/
def objectStep (opt : ParseOptions) (child : ParserState → Run Parsed)
    (st : List (Bytes × Value) × ParserState) :
    Run ((List (Bytes × Value) × ParserState) ⊕ Parsed) :=
  let (obj, s) := st
  let s := s.skipWs
  if s.rest.head? ≠ some (byte '"') then .ok (.inr ⟨.unexpectedChar, .null, s⟩)
  else
    match parseString opt s.rest with
    | (none, rest) => .ok (.inr ⟨err_, .null, { s with rest := rest }⟩)
    | (some key, rest) =>
      let s := { s with rest := skipWs rest }
      match s.rest with
      | [] => .ok (.inr ⟨.unexpectedChar, .null, s⟩)
      | c :: rest =>
        if c ≠ byte ':' then .ok (.inr ⟨.unexpectedChar, .null, s⟩)
        else do
          let r ← child { s with rest := skipWs rest }
          .ok (objectNext key obj r)

/-- `parse_object`. -/
def parseObject (opt : ParseOptions) (child : ParserState → Run Parsed) (s : ParserState) :
    Run Parsed :=
  let s := { s with rest := skipWs s.rest.tail }
  match s.rest with
  | c :: rest =>
    if c = byte '}' then .ok ⟨.none, .object [], { s with rest := rest }⟩
    else loop (objectStep opt child) (s.rest.length + 1) ([], s)
  | [] => loop (objectStep opt child) (s.rest.length + 1) ([], s)

/-- `parse_value`. The nesting is bounded by `max_depth`, so `max_depth + 2` is a sufficient budget
at the root (`parseValue_spec`). -/
def parseValue (opt : ParseOptions) : ℕ → ℕ → ParserState → Run Parsed
  | 0, _, _ => .stuck
  | fuel + 1, depth, s =>
    if opt.maxDepth < depth then .ok ⟨.depthExceeded, .null, s⟩
    else
      let s := { s with nodes := s.nodes + 1 }
      if opt.maxNodes < s.nodes then .ok ⟨.sizeExceeded, .null, s⟩
      else
        let s := s.skipWs
        match s.rest with
        | [] => .ok ⟨.unexpectedEnd, .null, s⟩
        | c :: _ =>
          if c = byte '{' then parseObject opt (parseValue opt fuel (depth + 1)) s
          else if c = byte '[' then parseArray (parseValue opt fuel (depth + 1)) s
          else .ok (parseScalar opt c s)

/-- `json::parse`. -/
def parse (opt : ParseOptions) (text : Bytes) : Run ParseResult := do
  let r ← parseValue opt (opt.maxDepth + 2) 0 ⟨text, 0⟩
  let consumed (s : ParserState) : ℕ := text.length - s.rest.length
  if r.error ≠ .none then .ok ⟨.null, r.error, consumed r.state, msg_⟩
  else
    let s := r.state.skipWs
    if s.rest ≠ [] then
      .ok ⟨.null, .trailGarbage, consumed s, str "trailing garbage after JSON value"⟩
    else .ok ⟨r.out, .none, consumed s, []⟩

end TopologyFabric.Json

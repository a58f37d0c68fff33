import TopologyFabric.Json.Parser

/-!
# The JSON Parser on Positions

The parser with its position `pos_` in the text, where every read `p_[i]` is checked: a read at or
behind the end of the text is a fault. The loops and the recursion take their rounds from one
budget. The parser also notes the greatest depth with which `parse_value` has been entered.
-/

namespace TopologyFabric.Json

open Library

/-! ## Checked reads -/

/-- What a read of the text can do wrong. -/
inductive ReadFault where
  | pastEnd (i : ℕ)
  deriving DecidableEq, Repr

/-- The outcome of code that reads the text. -/
abbrev Checked (α : Type) := Outcome ReadFault α

/-- `p_[i]`. -/
def charAt (text : Bytes) (i : ℕ) : Checked UInt8 :=
  match text[i]? with
  | some c => .ok c
  | none => .throws (.pastEnd i)

/-- `std::string(p_ + start, stop - start)`. -/
def sliceAt (text : Bytes) (start stop : ℕ) : Checked Bytes :=
  if stop ≤ text.length then .ok ((text.drop start).take (stop - start))
  else .throws (.pastEnd text.length)

/-- `i < len_ && p(p_[i])`. -/
def testAt (p : UInt8 → Bool) (text : Bytes) (i : ℕ) : Checked Bool :=
  if i < text.length then do
    let c ← charAt text i
    return p c
  else .ok false

/-- `i < len_ && p_[i] == c`. -/
def isAt (c : UInt8) : Bytes → ℕ → Checked Bool := testAt fun d => d = c

/-! ## Whitespace and words -/

/-- One round of a loop `while (i < len_ && p(p_[i])) ++i`. -/
def skipStep (p : UInt8 → Bool) (text : Bytes) (i : ℕ) : Checked (ℕ ⊕ ℕ) := do
  let more ← testAt p text i
  return if more then .inl (i + 1) else .inr i

def skipAt (p : UInt8 → Bool) (fuel : ℕ) (text : Bytes) (i : ℕ) : Checked ℕ :=
  loop (skipStep p text) fuel i

/-- `skip_ws`. -/
def skipWsAt : ℕ → Bytes → ℕ → Checked ℕ := skipAt isWs

/-- The loop of `match` over the letters of the word. -/
def lettersAt (text : Bytes) : Bytes → ℕ → Checked Bool
  | [], _ => .ok true
  | w :: word, i => do
    let c ← charAt text i
    if c ≠ w then return false else lettersAt text word (i + 1)

/-- `match`: the position behind the word, if the word is there. -/
def matchAt (text word : Bytes) (pos : ℕ) : Checked (Option ℕ) :=
  if text.length < pos + word.length then .ok none
  else do
    let found ← lettersAt text word pos
    return if found then some (pos + word.length) else none

/-! ## Strings -/

/-- The loop over the hex digits of a `\u` escape. -/
def hexAt (text : Bytes) : ℕ → ℕ → ℕ → Checked (Option ℕ)
  | 0, _, cp => .ok (some cp)
  | k + 1, i, cp => do
    let h ← charAt text i
    match hexValue? h with
    | some d => hexAt text k (i + 1) (cp * 16 + d)
    | none => return none

/-- The size check behind everything that is added to the buffer. -/
def checkSize (opt : ParseOptions) (buf : Bytes) (pos : ℕ) : (Bytes × ℕ) ⊕ (Option Bytes × ℕ) :=
  if opt.maxStringBytes < buf.length then .inr (none, pos) else .inl (buf, pos)

/-- An escape, behind its backslash. -/
def escapeAt (opt : ParseOptions) (text buf : Bytes) (pos : ℕ) :
    Checked ((Bytes × ℕ) ⊕ (Option Bytes × ℕ)) :=
  if text.length ≤ pos then .ok (.inr (none, pos))
  else do
    let e ← charAt text pos
    match simpleEscape e with
    | some b => return checkSize opt (buf ++ [b]) (pos + 1)
    | none =>
      if e = byte 'u' then
        if text.length < pos + 5 then return .inr (none, pos)
        else do
          match ← hexAt text 4 (pos + 1) 0 with
          | some cp => return checkSize opt (buf ++ utf8 cp) (pos + 5)
          | none => return .inr (none, pos)
      else return .inr (none, pos)

/-- One round of the loop of `parse_string`. -/
def stringStepAt (opt : ParseOptions) (text : Bytes) (st : Bytes × ℕ) :
    Checked ((Bytes × ℕ) ⊕ (Option Bytes × ℕ)) :=
  let (buf, pos) := st
  if pos < text.length then do
    let c ← charAt text pos
    if c = byte '"' then return .inr (some buf, pos + 1)
    else if c = byte '\\' then escapeAt opt text buf (pos + 1)
    else if 0x80 ≤ c then return .inr (none, pos)
    else return checkSize opt (buf ++ [c]) (pos + 1)
  else .ok (.inr (none, pos))

/-- `parse_string`. -/
def stringAt (fuel : ℕ) (opt : ParseOptions) (text : Bytes) (pos : ℕ) :
    Checked (Option Bytes × ℕ) := do
  let c ← charAt text pos
  if c ≠ byte '"' then return (none, pos)
  else loop (stringStepAt opt text) fuel ([], pos + 1)

/-! ## Numbers -/

/-- The members of `Parser` that change, and the greatest depth with which `parse_value` has been
entered. -/
structure Cursor where
  pos : ℕ
  nodes : ℕ
  deepest : ℕ
  deriving DecidableEq

/-- The error code that a parsing function returns, its output argument, and the state. -/
structure ParsedAt where
  error : ParseError
  out : Value
  state : Cursor

def digitsAt : ℕ → Bytes → ℕ → Checked ℕ := skipAt isDigit

/-- An optional fraction: whether it is there, and the position behind it. -/
def fractionAt (fuel : ℕ) (text : Bytes) (pos : ℕ) : Checked (Bool × ℕ) := do
  let found ← isAt (byte '.') text pos
  if found then do
    let pos ← digitsAt fuel text (pos + 1)
    return (true, pos)
  else return (false, pos)

/-- An optional exponent. -/
def exponentAt (fuel : ℕ) (text : Bytes) (pos : ℕ) : Checked (Bool × ℕ) := do
  let found ← testAt (fun c => c = byte 'e' || c = byte 'E') text pos
  if found then do
    let signed ← testAt (fun c => c = byte '+' || c = byte '-') text (pos + 1)
    let pos ← digitsAt fuel text (if signed then pos + 2 else pos + 1)
    return (true, pos)
  else return (false, pos)

/-- The token from `start` on: `isDouble`, and the position behind the token. -/
def tokenAt (fuel : ℕ) (text : Bytes) (start : ℕ) : Checked (Bool × ℕ) := do
  let c ← charAt text start
  let pos ← digitsAt fuel text (if c = byte '-' then start + 1 else start)
  let (isFraction, pos) ← fractionAt fuel text pos
  let (isExponent, pos) ← exponentAt fuel text pos
  return (isFraction || isExponent, pos)

/-- The value of a token, if `strtod` or `strtoll` reads all of it. -/
def tokenResult (isDouble : Bool) (tok : Bytes) : Option Value :=
  if isDouble then (strtod (scanNumber tok)).map .double
  else
    (strtoll (scanNumber tok)).map fun ll =>
      if tok.head? = some (byte '-') then .int (Int64.ofInt ll) else .uint (UInt64.ofInt ll)

/-- `pos_ + 3 <= len_ && (match(upper) || match(lower))`. -/
def eitherAt (text upper lower : Bytes) (pos : ℕ) : Checked (Option ℕ) :=
  if pos + 3 ≤ text.length then do
    match ← matchAt text upper pos with
    | some pos => return some pos
    | none => matchAt text lower pos
  else .ok none

/-- The words for NaN and infinity in `parse_number`. -/
def nanInfAt (opt : ParseOptions) (text : Bytes) (s : Cursor) : Checked ParsedAt := do
  match ← eitherAt text (str "NaN") (str "nan") s.pos with
  | some pos =>
    if opt.allowNanInf then return ⟨.none, .double .nan, { s with pos := pos }⟩
    else return ⟨.invalidNumber, .null, { s with pos := pos }⟩
  | none =>
    match ← eitherAt text (str "Inf") (str "inf") s.pos with
    | some pos =>
      if opt.allowNanInf then return ⟨.none, .double (.inf false), { s with pos := pos }⟩
      else return ⟨.invalidNumber, .null, { s with pos := pos }⟩
    | none => return ⟨.invalidNumber, .null, s⟩

/-- `parse_number`. -/
def numberAt (fuel : ℕ) (opt : ParseOptions) (text : Bytes) (s : Cursor) : Checked ParsedAt := do
  let c ← charAt text s.pos
  if c = byte '+' ∨ c = byte 'I' ∨ c = byte 'N' then nanInfAt opt text s
  else do
    let (isDouble, pos) ← tokenAt fuel text s.pos
    if pos = s.pos then return ⟨.invalidNumber, .null, { s with pos := pos }⟩
    else do
      let tok ← sliceAt text s.pos pos
      match tokenResult isDouble tok with
      | some v => return ⟨.none, v, { s with pos := pos }⟩
      | none => return ⟨.invalidNumber, .null, { s with pos := pos }⟩

/-! ## Values -/

/-- A value that is one of the words. -/
def wordAt (text word : Bytes) (v : Value) (s : Cursor) : Checked ParsedAt := do
  match ← matchAt text word s.pos with
  | some pos => return ⟨.none, v, { s with pos := pos }⟩
  | none => return ⟨.unexpectedChar, .null, s⟩

/-- The cases of `parse_value` without recursion. -/
def scalarAt (fuel : ℕ) (opt : ParseOptions) (text : Bytes) (c : UInt8) (s : Cursor) :
    Checked ParsedAt :=
  if c = byte '"' then do
    let (str?, pos) ← stringAt fuel opt text s.pos
    match str? with
    | some str => return ⟨.none, .string str, { s with pos := pos }⟩
    | none => return ⟨err_, .null, { s with pos := pos }⟩
  else if c = byte 't' then wordAt text (str "true") (.bool true) s
  else if c = byte 'f' then wordAt text (str "false") (.bool false) s
  else if c = byte 'n' then wordAt text (str "null") .null s
  else if c = byte '-' ∨ isDigit c = true ∨ c = byte '+' ∨ c = byte 'I' ∨ c = byte 'N' then
    numberAt fuel opt text s
  else .ok ⟨.unexpectedChar, .null, s⟩

/-- What follows an item of an array or object. -/
inductive SeparatorAt where
  | comma (s : Cursor)
  | close (s : Cursor)
  | bad (e : ParseError) (s : Cursor)

def separatorAt (fuel : ℕ) (text : Bytes) (closing : UInt8) (s : Cursor) : Checked SeparatorAt := do
  let pos ← skipWsAt fuel text s.pos
  if text.length ≤ pos then return .bad .unexpectedEnd { s with pos := pos }
  else do
    let c ← charAt text pos
    if c = byte ',' then return .comma { s with pos := pos + 1 }
    else if c = closing then return .close { s with pos := pos + 1 }
    else return .bad .unexpectedChar { s with pos := pos }

/-- A loop over items behind an item: it goes round with `more` after a comma, and `done` is the
value after the closing bracket. -/
def nextAt {α : Type} (fuel : ℕ) (text : Bytes) (closing : UInt8) (more : α) (done : Value)
    (r : ParsedAt) : Checked ((α × Cursor) ⊕ ParsedAt) :=
  if r.error ≠ .none then .ok (.inr ⟨r.error, .null, r.state⟩)
  else do
    match ← separatorAt fuel text closing r.state with
    | .comma s => return .inl (more, s)
    | .close s => return .inr ⟨.none, done, s⟩
    | .bad e s => return .inr ⟨e, .null, s⟩

/-- The loop of `parse_array` behind an element. -/
def arrayNextAt (fuel : ℕ) (text : Bytes) (arr : List Value) (r : ParsedAt) :
    Checked ((List Value × Cursor) ⊕ ParsedAt) :=
  nextAt fuel text (byte ']') (arr ++ [r.out]) (.array (arr ++ [r.out])) r

/-- One round of the loop of `parse_array`. -/
def arrayStepAt (fuel : ℕ) (text : Bytes) (child : Cursor → Checked ParsedAt)
    (st : List Value × Cursor) : Checked ((List Value × Cursor) ⊕ ParsedAt) := do
  let (arr, s) := st
  let pos ← skipWsAt fuel text s.pos
  if text.length ≤ pos then return .inr ⟨.unexpectedEnd, .null, { s with pos := pos }⟩
  else do
    let r ← child { s with pos := pos }
    arrayNextAt fuel text arr r

/-- `parse_array`. -/
def arrayAt (fuel : ℕ) (text : Bytes) (child : Cursor → Checked ParsedAt) (s : Cursor) :
    Checked ParsedAt := do
  let pos ← skipWsAt fuel text (s.pos + 1)
  let closed ← isAt (byte ']') text pos
  if closed then return ⟨.none, .array [], { s with pos := pos + 1 }⟩
  else loop (arrayStepAt fuel text child) fuel ([], { s with pos := pos })

/-- The loop of `parse_object` behind a member. -/
def objectNextAt (fuel : ℕ) (text key : Bytes) (obj : List (Bytes × Value)) (r : ParsedAt) :
    Checked ((List (Bytes × Value) × Cursor) ⊕ ParsedAt) :=
  nextAt fuel text (byte '}') (insertEntry key r.out obj) (.object (insertEntry key r.out obj)) r

/-- One round of the loop of `parse_object`, behind its key. -/
def memberAt (fuel : ℕ) (text : Bytes) (child : Cursor → Checked ParsedAt) (key : Bytes)
    (obj : List (Bytes × Value)) (s : Cursor) :
    Checked ((List (Bytes × Value) × Cursor) ⊕ ParsedAt) := do
  let pos ← skipWsAt fuel text s.pos
  let colon ← isAt (byte ':') text pos
  if !colon then return .inr ⟨.unexpectedChar, .null, { s with pos := pos }⟩
  else do
    let pos ← skipWsAt fuel text (pos + 1)
    let r ← child { s with pos := pos }
    objectNextAt fuel text key obj r

/-- One round of the loop of `parse_object`. -/
def objectStepAt (fuel : ℕ) (opt : ParseOptions) (text : Bytes) (child : Cursor → Checked ParsedAt)
    (st : List (Bytes × Value) × Cursor) :
    Checked ((List (Bytes × Value) × Cursor) ⊕ ParsedAt) := do
  let (obj, s) := st
  let pos ← skipWsAt fuel text s.pos
  let quoted ← isAt (byte '"') text pos
  if !quoted then return .inr ⟨.unexpectedChar, .null, { s with pos := pos }⟩
  else do
    let (key?, pos) ← stringAt fuel opt text pos
    match key? with
    | none => return .inr ⟨err_, .null, { s with pos := pos }⟩
    | some key => memberAt fuel text child key obj { s with pos := pos }

/-- `parse_object`. -/
def objectAt (fuel : ℕ) (opt : ParseOptions) (text : Bytes) (child : Cursor → Checked ParsedAt)
    (s : Cursor) : Checked ParsedAt := do
  let pos ← skipWsAt fuel text (s.pos + 1)
  let closed ← isAt (byte '}') text pos
  if closed then return ⟨.none, .object [], { s with pos := pos + 1 }⟩
  else loop (objectStepAt fuel opt text child) fuel ([], { s with pos := pos })

/-- `parse_value`. -/
def parseValueAt (opt : ParseOptions) (text : Bytes) : ℕ → ℕ → Cursor → Checked ParsedAt
  | 0, _, _ => .stuck
  | fuel + 1, depth, s =>
    let s := { s with deepest := max s.deepest depth }
    if opt.maxDepth < depth then .ok ⟨.depthExceeded, .null, s⟩
    else
      let s := { s with nodes := s.nodes + 1 }
      if opt.maxNodes < s.nodes then .ok ⟨.sizeExceeded, .null, s⟩
      else do
        let pos ← skipWsAt fuel text s.pos
        let s := { s with pos := pos }
        if text.length ≤ pos then return ⟨.unexpectedEnd, .null, s⟩
        else do
          let c ← charAt text pos
          if c = byte '{' then objectAt fuel opt text (parseValueAt opt text fuel (depth + 1)) s
          else if c = byte '[' then arrayAt fuel text (parseValueAt opt text fuel (depth + 1)) s
          else scalarAt fuel opt text c s

/-- What a call of `json::parse` returns, and the greatest depth with which it entered
`parse_value`. -/
structure ParseRun where
  result : ParseResult
  deepest : ℕ

/-- `json::parse`. -/
def parseAt (fuel : ℕ) (opt : ParseOptions) (text : Bytes) : Checked ParseRun := do
  let r ← parseValueAt opt text fuel 0 ⟨0, 0, 0⟩
  if r.error ≠ .none then return ⟨⟨.null, r.error, r.state.pos, msg_⟩, r.state.deepest⟩
  else do
    let pos ← skipWsAt fuel text r.state.pos
    if pos ≠ text.length then
      return ⟨⟨.null, .trailGarbage, pos, str "trailing garbage after JSON value"⟩, r.state.deepest⟩
    else return ⟨⟨r.out, .none, pos, []⟩, r.state.deepest⟩

end TopologyFabric.Json

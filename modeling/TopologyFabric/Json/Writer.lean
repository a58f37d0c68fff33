import TopologyFabric.Json.Value

/-!
# The JSON Writer

`json::dump`, in its compact and its pretty mode.
-/

namespace TopologyFabric.Json

inductive WriteMode where
  | compact | pretty
  deriving DecidableEq, Repr

/-- The lambda `indent`. -/
def indent (mode : WriteMode) (d : ℕ) : Bytes :=
  match mode with
  | .compact => []
  | .pretty => 10 :: List.replicate (2 * d) (byte ' ')

/-- One character of a string. Only control characters are escaped by number; a byte from `0x80` on
is written as it is. -/
def writeChar (c : UInt8) : Bytes :=
  if c = byte '"' then str "\\\""
  else if c = byte '\\' then str "\\\\"
  else if c = 10 then str "\\n"
  else if c = 13 then str "\\r"
  else if c = 9 then str "\\t"
  else if c = 8 then str "\\b"
  else if c = 12 then str "\\f"
  else if c < 0x20 then str "\\u00" ++ [hexDigit (c.toNat / 16), hexDigit (c.toNat % 16)]
  else [c]

def writeString (s : Bytes) : Bytes := byte '"' :: (s.flatMap writeChar ++ [byte '"'])

/-- Trailing zeros behind a point are stripped, and the point if nothing is left behind it. -/
def stripZeros (s : Bytes) : Bytes :=
  if byte '.' ∈ s then
    match s.reverse.dropWhile fun c => decide (c = byte '0') with
    | c :: rest => if c = byte '.' then rest.reverse else (c :: rest).reverse
    | [] => []
  else s

def writeDouble (d : Double) : Bytes :=
  match d with
  | .nan => str "null"
  | .inf neg => if neg then str "-1e9999" else str "1e9999"
  | d => stripZeros d.toString

/-- The comma before every item but the first. -/
def comma (first : Bool) : Bytes := if first then [] else [byte ',']

mutual

/-- `write_value`. -/
def writeValue (mode : WriteMode) (depth : ℕ) : Value → Bytes
  | .null => str "null"
  | .bool b => if b then str "true" else str "false"
  | .int v => intToString v.toInt
  | .uint v => natToString v.toNat
  | .double d => writeDouble d
  | .string s => writeString s
  | .array a =>
    byte '[' :: (writeElements mode depth true a ++
      ((if a = [] then [] else indent mode depth) ++ [byte ']']))
  | .object o =>
    byte '{' :: (writeMembers mode depth true o ++
      ((if o = [] then [] else indent mode depth) ++ [byte '}']))

/-- The elements of an array. -/
def writeElements (mode : WriteMode) (depth : ℕ) (first : Bool) : List Value → Bytes
  | [] => []
  | v :: a =>
    comma first ++ (indent mode (depth + 1) ++ (writeValue mode (depth + 1) v ++
      writeElements mode depth false a))

/-- The members of an object. -/
def writeMembers (mode : WriteMode) (depth : ℕ) (first : Bool) : List (Bytes × Value) → Bytes
  | [] => []
  | (k, v) :: o =>
    comma first ++ (indent mode (depth + 1) ++ (writeString k ++ (byte ':' ::
      ((if mode = .pretty then [byte ' '] else []) ++ (writeValue mode (depth + 1) v ++
        writeMembers mode depth false o)))))

end

/-- `json::dump`. -/
def dump (mode : WriteMode) (v : Value) : Bytes := writeValue mode 0 v

end TopologyFabric.Json

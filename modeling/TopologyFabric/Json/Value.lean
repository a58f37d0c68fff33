import TopologyFabric.Core.Double
import TopologyFabric.Core.Result
import TopologyFabric.Library.OrderedMap

/-!
# JSON Values

The values that the parser makes and the writer prints. The entries of an object are kept sorted by
key, as the entries of a `std::map` are.
-/

namespace TopologyFabric.Json

open Library

/-- `json::Value`. -/
inductive Value where
  | null
  | bool (b : Bool)
  | int (v : Int64)
  | uint (v : UInt64)
  | double (d : Double)
  | string (s : Bytes)
  | array (a : List Value)
  | object (o : List (Bytes × Value))

instance : Inhabited Value := ⟨.null⟩

namespace Value

/-- `find`: nothing is found in a value that is not an object. -/
def find (v : Value) (k : Bytes) : Option Value :=
  match v with
  | .object o => findEntry k o
  | _ => none

def isObject : Value → Bool
  | .object _ => true
  | _ => false

def isString : Value → Bool
  | .string _ => true
  | _ => false

/-- `as_string`, which throws `std::bad_variant_access` for another kind. -/
def asString : Value → Run Bytes
  | .string s => .ok s
  | _ => .throws .badVariantAccess

/-- A double cast to `int64_t`. The result of a cast that does not fit is the least value, which is
what the conversion instruction of the platform gives. -/
def doubleToInt64 (d : Double) : Int64 :=
  match d with
  | .fin q =>
    let i : ℤ := if 0 ≤ q then ⌊q⌋ else ⌈q⌉
    if -2 ^ 63 ≤ i ∧ i < 2 ^ 63 then Int64.ofInt i else Int64.minValue
  | .negZero => 0
  | _ => Int64.minValue

/-- `integer`: any number as an `int64_t`, zero for another kind. -/
def integer : Value → Int64
  | .int v => v
  | .uint v => v.toInt64
  | .double d => doubleToInt64 d
  | _ => 0

/-- `number`: any number as a double, zero for another kind. -/
def number : Value → Double
  | .int v => binary64 v.toInt
  | .uint v => binary64 v.toNat
  | .double d => d
  | _ => .fin 0

end Value

end TopologyFabric.Json

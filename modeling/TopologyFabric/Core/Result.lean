import TopologyFabric.Core.Bytes
import TopologyFabric.Library.Outcome

/-!
# Errors and Exceptions

The error codes of the library, and what a call can throw.
-/

namespace TopologyFabric

open Library (Outcome)

inductive ErrorCode where
  | ok | invalidArgument | notFound | staleHandle | invalidGraph | malformedData | oversized
  | unsupported | providerFailed | internal | validationFailed
  deriving DecidableEq, Repr

/-- The exceptions that the modelled code can throw. -/
inductive Exception where
  | topologyError (code : ErrorCode) (message : Bytes)
  | badVariantAccess
  deriving DecidableEq, Repr

/-- The outcome of a call that may throw. -/
abbrev Run (α : Type) := Outcome Exception α

/-- `throw TopologyError(code, message)`. -/
def throwTopologyError {α : Type} (code : ErrorCode) (message : Bytes) : Run α :=
  .throws (.topologyError code message)

end TopologyFabric

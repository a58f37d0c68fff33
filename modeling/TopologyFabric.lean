import TopologyFabric.Cli.Commands
import TopologyFabric.Cli.Listing
import TopologyFabric.Core.Builder
import TopologyFabric.Core.HexText
import TopologyFabric.Core.StableHash
import TopologyFabric.Core.Validation
import TopologyFabric.Diff.Answers
import TopologyFabric.Diff.CanonicalOrder
import TopologyFabric.Diff.Mirror
import TopologyFabric.Json.Bounds
import TopologyFabric.Json.Codec
import TopologyFabric.Json.RoundTrip
import TopologyFabric.Json.Unicode
import TopologyFabric.Merge.Absent
import TopologyFabric.Merge.Conflicts
import TopologyFabric.Merge.Deduplication
import TopologyFabric.Merge.Endpoints
import TopologyFabric.Merge.Growth
import TopologyFabric.Merge.Identity
import TopologyFabric.Merge.Order
import TopologyFabric.Merge.ProviderOrder
import TopologyFabric.Merge.Refs
import TopologyFabric.Merge.Tokens
import TopologyFabric.Providers.Cuda
import TopologyFabric.Providers.Network
import TopologyFabric.Providers.PciLocality
import TopologyFabric.Providers.ProcessorLocality
import TopologyFabric.Providers.Unplaced
import TopologyFabric.Query.Ancestors
import TopologyFabric.Query.Breakdown
import TopologyFabric.Query.Descendants
import TopologyFabric.Query.Explanation
import TopologyFabric.Query.Lookups
import TopologyFabric.Query.LowestCostPath
import TopologyFabric.Query.Metric
import TopologyFabric.Query.NegativeCosts
import TopologyFabric.Query.Policy
import TopologyFabric.Query.Reasons
import TopologyFabric.Query.Sharding
import TopologyFabric.Query.ShortestPath
import TopologyFabric.Query.Symmetry
import TopologyFabric.Runtime.Attach
import TopologyFabric.Runtime.Import
import TopologyFabric.Runtime.Interleaving
import TopologyFabric.Runtime.Isolation
import TopologyFabric.Runtime.Published
import TopologyFabric.Runtime.Registry
import TopologyFabric.Runtime.Stability
import TopologyFabric.Runtime.Telemetry
import TopologyFabric.Runtime.Watching
import TopologyFabric.Serialization.Canonical
import TopologyFabric.Serialization.Comparison
import TopologyFabric.Serialization.Limits
import TopologyFabric.Serialization.Numbers
import TopologyFabric.Serialization.Properties
import TopologyFabric.Serialization.Queries
import TopologyFabric.Serialization.RoundTrip
import TopologyFabric.Serialization.Truncation
import TopologyFabric.Serialization.WriteModes

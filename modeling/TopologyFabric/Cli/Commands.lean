import TopologyFabric.Cli.Resolve
import TopologyFabric.Runtime.Calls
import TopologyFabric.Runtime.Published

/-!
# The Command Line

The commands that ask the discovered topology, with their exit status and the JSON text that they
print. The text that is printed without `--json` is left out.

## Main result

- `main_status`: the exit status of every command
-/

namespace TopologyFabric

open Library Json Filter

/-! ## Options -/

def hasOpt (a : List Bytes) (o : Bytes) : Bool := a.contains o

/-- What stands behind an option. -/
def optVal (a : List Bytes) (o default : Bytes) : Bytes :=
  match a with
  | x :: y :: rest => if x = o then y else optVal (y :: rest) o default
  | _ => default

/-- A character that `strtoull` skips at the front. -/
def isSpace (c : UInt8) : Bool := c = byte ' ' || (9 ≤ c && c ≤ 13)

/-- The digits at the front. -/
def leadingNumber (s : Bytes) : ℕ :=
  (s.takeWhile isDigit).foldl (fun n c => 10 * n + (c - byte '0').toNat) 0

/-- A number within 64 bits, and else the greatest one. -/
def saturated (n : ℕ) : UInt64 := UInt64.ofNat (if n < 2 ^ 64 then n else 2 ^ 64 - 1)

/-- `strtoull` to base 10: a minus sign negates what fits in 64 bits. -/
def strtoull (s : Bytes) : UInt64 :=
  match s.dropWhile isSpace with
  | c :: rest =>
    if c = byte '-' then
      if leadingNumber rest < 2 ^ 64 then -saturated (leadingNumber rest)
      else saturated (leadingNumber rest)
    else if c = byte '+' then saturated (leadingNumber rest)
    else saturated (leadingNumber (c :: rest))
  | [] => 0

/-! ## What is printed -/

def segmentToJson (s : PathSegment) : Value :=
  objectOf
    [(str "from", .string s.source.toHex), (str "to", .string s.target.toHex),
      (str "type", .string s.edgeType.toString), (str "cost", .double s.edgeCost)]

def pathToJson (p : TopologyPath) : Value :=
  objectOf
    [(str "found", .bool p.found),
      (str "source", .string p.source.toHex),
      (str "destination", .string p.destination.toHex),
      (str "hop_count", .int (Int64.ofInt p.hopCount)),
      (str "path_class", .string p.pathClass.toString),
      (str "locality", .string p.locality.toString),
      (str "total_cost", .double p.totalCost),
      (str "estimated_bandwidth_bps", .double p.estimatedBandwidthBps),
      (str "estimated_latency_ns", .double p.estimatedLatencyNs),
      (str "segments", .array (p.segments.map segmentToJson))]

def rankEntryToJson (snap : TopologySnapshot) (e : RankEntry) : Value :=
  objectOf
    [(str "id", .string e.id.toHex),
      (str "name", .string (((snap.findNode e.id).map TopologyNode.name).getD [])),
      (str "cost", .double e.cost),
      (str "path_class", .string e.pathClass.toString),
      (str "locality", .string e.locality.toString),
      (str "reasons", .array (e.reasons.map .string))]

def rankToJson (rr : RankResult) (snap : TopologySnapshot) : Value :=
  objectOf
    [(str "source", .string rr.source.toHex),
      (str "ranked", .array (rr.ranked.map (rankEntryToJson snap)))]

/-- One edge of the command `edges`. -/
def listedEdgeToJson (e : TopologyEdge) : Value :=
  objectOf
    [(str "source", .string e.source.toHex), (str "target", .string e.target.toHex),
      (str "type", .string e.type.toString), (str "direction", .string e.direction.toString)]

def diffToJson (d : TopologyDiff) : Value :=
  objectOf
    [(str "generation_before", .uint (UInt64.ofNat d.generationBefore)),
      (str "generation_after", .uint (UInt64.ofNat d.generationAfter)),
      (str "material", .bool d.materialChange),
      (str "events", .array (d.events.map fun e => objectOf
        [(str "kind", .string e.kind.toString), (str "node", .string e.node.toHex),
          (str "key", .string e.key)]))]

/-! ## Commands -/

/-- The commands that ask the topology. -/
inductive Command where
  | info | discover | nodes | devices | cpus | numa | pci | accelerators | storage | network
  | edges | path | distance | rank | explain | snapshot | diff | validate | benchmark
  deriving DecidableEq, Repr

/-- A node with an address on the bus, or of a type that is a device. -/
def isDevice (n : TopologyNode) : Bool :=
  n.native.hasPci || n.type = .accelerator || n.type = .storageDevice || n.type = .networkInterface

/-- The nodes that a command lists. For `nodes` the filter stays at the unknown type. -/
def lists (cmd : Command) (n : TopologyNode) : Bool :=
  match cmd with
  | .devices => isDevice n
  | .pci => n.type = .pciRoot || n.type = .pciBridge || n.type = .pciDevice
  | .nodes => n.type = .unknown
  | .cpus => n.type = .cpuThread
  | .numa => n.type = .numaNode
  | .accelerators => n.type = .accelerator
  | .storage => n.type = .storageDevice
  | .network => n.type = .networkInterface
  | _ => false

/-- One node of a list. The command `devices` shows an address also where none is known. -/
def listedNodeToJson (cmd : Command) (e : TopologyNodeId × TopologyNode) : Value :=
  objectOf
    ([(str "id", .string e.1.toHex), (str "type", .string e.2.type.toString),
      (str "name", .string e.2.name)] ++
    if cmd = .devices ∨ e.2.native.hasPci = true then
      [(str "bdf", .string e.2.native.pciBdfString)]
    else [])

/-- The nodes that a command lists, in the order in which the map is iterated. -/
def listing (order : IterationOrder) (snap : TopologySnapshot) (cmd : Command) : List Value :=
  ((snap.nodes.reorder order).entries.filter fun e => lists cmd e.2).map (listedNodeToJson cmd)

/-- The exit status, and the text on the standard output when it is JSON. -/
structure Reply where
  status : ℕ := 0
  json : Option Bytes := none
  complaint : Bytes := []
  deriving DecidableEq

/-- A reply that prints a value if JSON is asked for. -/
def Reply.printing (args : List Bytes) (v : Value) : Reply :=
  { json := if hasOpt args (str "--json") then some (dump .pretty v ++ [10]) else none }

/-- A reply that prints the whole snapshot if JSON is asked for. -/
def Reply.serialized (args : List Bytes) (snap : TopologySnapshot) : Reply :=
  { json := if hasOpt args (str "--json") then some (serializeSnapshotJson snap true ++ [10])
    else none }

def Reply.failing (status : ℕ) (complaint : Bytes) : Reply := { status, complaint }

/-- What the benchmark does with the nodes: 2000 paths between neighbours in the list of ids. -/
def benchmarkQueries (fuel : ℕ) (snap : TopologySnapshot) (ids : List TopologyNodeId) : Run Unit :=
  if 2 ≤ ids.length then
    (List.range 2000).forM fun i => do
      let a := i % ids.length
      let b := (a + 1) % ids.length
      let _ ← lowestCostPath binary64 fuel snap (ids.getD a kNullNodeId) (ids.getD b kNullNodeId) {}
  else .ok ()

section Main

variable (bounds : Bounds) (order : IterationOrder) (fuel : ℕ)

/-- The block that `main` tries. The second discovery is the one of the command `diff`. -/
def runCommand (snap : TopologySnapshot) (again : CallInputs) (cmd : Command)
    (args : List Bytes) : Run Reply :=
  let token (o : String) := resolveId order snap (optVal args (str o) [])
  match cmd with
  | .info | .discover | .snapshot => .ok (.serialized args snap)
  | .nodes | .devices | .cpus | .numa | .pci | .accelerators | .storage | .network =>
    .ok (.printing args (.array (listing order snap cmd)))
  | .edges => .ok (.printing args (.array (snap.edges.map listedEdgeToJson)))
  | .path =>
    let f := token "--from"
    let t := token "--to"
    if f = kNullNodeId ∨ t = kNullNodeId then
      .ok (.failing 2 (str "path requires resolvable --from and --to"))
    else do
      let p ← lowestCostPath binary64 fuel snap f t {}
      return .printing args (pathToJson p)
  | .distance => do
    let _ ← distanceBetween binary64 fuel snap (token "--from") (token "--to") {}
    return {}
  | .rank =>
    let src := token "--source"
    if src = kNullNodeId then .ok (.failing 2 (str "rank requires resolvable --source"))
    else do
      let type := NodeType.fromString (optVal args (str "--type") (str "accelerator"))
      let m := optVal args (str "--max") []
      let max := if m = [] then 0 else (strtoull m).toNat
      let rr ← rankCandidatesByType binary64 order fuel snap src type max {}
      return .printing args (rankToJson rr snap)
  | .explain => do
    let _ ← TopologyFabric.explain binary64 fuel snap (token "--from") (token "--to") {}
    return {}
  | .diff => do
    let second ← TopologyFabric.discover bounds (some snap) 1 again
    return .printing args (diffToJson (compareSnapshots snap second))
  | .validate =>
    let reply := Reply.printing args (validationToJson snap.validation)
    .ok { reply with status := if snap.validation.ok then 0 else 3 }
  | .benchmark => do
    benchmarkQueries fuel snap ((snap.nodes.reorder order).entries.map Prod.fst)
    return {}

/-- `main` after the command line is read: discovery comes before the block that catches. -/
def main (first again : CallInputs) (cmd : Command) (args : List Bytes) : Run Reply := do
  let snap ← TopologyFabric.discover bounds none 0 first
  match runCommand bounds order fuel snap again cmd args with
  | .ok reply => .ok reply
  | .throws _ => return { status := 1 }
  | .stuck => .stuck

end Main

/-! ## Exit status -/

/-- No node is found for what stands behind an option. -/
def Unresolved (order : IterationOrder) (snap : TopologySnapshot) (args : List Bytes) (o : String) :
    Prop :=
  resolveId order snap (optVal args (str o) []) = kNullNodeId

instance (order : IterationOrder) (snap : TopologySnapshot) (args : List Bytes) (o : String) :
    Decidable (Unresolved order snap args o) :=
  inferInstanceAs (Decidable (_ = _))

/-- The status that a command should end with. -/
def exitStatus (order : IterationOrder) (snap : TopologySnapshot) (cmd : Command)
    (args : List Bytes) : ℕ :=
  match cmd with
  | .path => if Unresolved order snap args "--from" ∨ Unresolved order snap args "--to" then 2 else 0
  | .rank => if Unresolved order snap args "--source" then 2 else 0
  | .validate => if snap.validation.ok then 0 else 3
  | _ => 0

section Status

variable {bounds : Bounds} {order : IterationOrder} {snap : TopologySnapshot}

/-- A loop over steps that return. -/
theorem forM_returns {α : Type} {f : ℕ → α → Run PUnit} (l : List α)
    (h : ∀ a ∈ l, Returns (fun fuel => f fuel a) ⟨⟩) : Returns (fun fuel => l.forM (f fuel)) ⟨⟩ := by
  induction l with
  | nil => exact Returns.pure _
  | cons a l ih =>
    have hrest := ih fun b hb => h b (List.mem_cons_of_mem _ hb)
    exact (h a (List.mem_cons_self ..)).bind hrest

/-- The benchmark returns when all paths do. -/
theorem benchmarkQueries_returns (h : Serves snap) (ids : List TopologyNodeId) :
    Returns (fun fuel => benchmarkQueries fuel snap ids) () := by
  unfold benchmarkQueries
  split_ifs
  · apply forM_returns
    intro i _
    obtain ⟨p, hp⟩ := (h.queries {} default_nonneg (ids.getD (i % ids.length) kNullNodeId)
      (ids.getD ((i % ids.length + 1) % ids.length) kNullNodeId)).lowest
    exact hp.bind (Returns.pure _)
  · exact Returns.pure _

/-- **Every command returns** on a snapshot that serves its readers, with the status that its
options and the validation ask for. -/
theorem runCommand_status (h : Serves snap) (again : CallInputs) (cmd : Command)
    (args : List Bytes) :
    ∃ reply, Returns (fun fuel => runCommand bounds order fuel snap again cmd args) reply ∧
      reply.status = exitStatus order snap cmd args := by
  have hqueries := fun a b => h.queries {} default_nonneg a b
  -- the queries return for all ids, also for those that no node has
  cases cmd with
  | path =>
    by_cases hnull : Unresolved order snap args "--from" ∨ Unresolved order snap args "--to"
    · refine ⟨.failing 2 (str "path requires resolvable --from and --to"), ?_,
        (if_pos hnull).symm⟩
      unfold Unresolved at hnull
      simp only [runCommand, if_pos hnull]
      exact Returns.pure _
    · obtain ⟨p, hp⟩ := (hqueries (resolveId order snap (optVal args (str "--from") []))
        (resolveId order snap (optVal args (str "--to") []))).lowest
      refine ⟨.printing args (pathToJson p), ?_, (if_neg hnull).symm⟩
      unfold Unresolved at hnull
      simp only [runCommand, if_neg hnull]
      exact hp.bind (Returns.pure _)
  | distance =>
    obtain ⟨d, hd⟩ := (hqueries (resolveId order snap (optVal args (str "--from") []))
      (resolveId order snap (optVal args (str "--to") []))).distance
    exact ⟨_, hd.bind (Returns.pure _), rfl⟩
  | rank =>
    by_cases hnull : Unresolved order snap args "--source"
    · refine ⟨.failing 2 (str "rank requires resolvable --source"), ?_, (if_pos hnull).symm⟩
      unfold Unresolved at hnull
      simp only [runCommand, if_pos hnull]
      exact Returns.pure _
    · obtain ⟨rr, hrr⟩ := (hqueries (resolveId order snap (optVal args (str "--source") []))
        kNullNodeId).rankByType order
        (NodeType.fromString (optVal args (str "--type") (str "accelerator")))
        (if optVal args (str "--max") [] = [] then 0
          else (strtoull (optVal args (str "--max") [])).toNat)
      refine ⟨.printing args (rankToJson rr snap), ?_, (if_neg hnull).symm⟩
      unfold Unresolved at hnull
      simp only [runCommand, if_neg hnull]
      exact hrr.bind (Returns.pure _)
  | explain =>
    obtain ⟨ex, hex⟩ := (hqueries (resolveId order snap (optVal args (str "--from") []))
      (resolveId order snap (optVal args (str "--to") []))).explanation
    exact ⟨_, hex.bind (Returns.pure _), rfl⟩
  | diff =>
    obtain ⟨second, hsecond⟩ := discover_returns bounds (some snap) 1 again
    refine ⟨.printing args (diffToJson (compareSnapshots snap second)), ?_, rfl⟩
    simp only [runCommand, hsecond, Outcome.ok_bind]
    exact Returns.pure _
  | benchmark => exact ⟨_, (benchmarkQueries_returns h _).bind (Returns.pure _), rfl⟩
  | _ => exact ⟨_, Returns.pure _, rfl⟩

end Status

/-- **Exit status.** When the providers report no more distinct resources than nodes are allowed and
no latency below zero, the program returns for every command and all its arguments: with 2 if an
option that `path` or `rank` needs leads to no node, with 3 from `validate` if the snapshot is not
valid, else with 0, and never with 1 for an exception. -/
theorem main_status {bounds : Bounds} {first : CallInputs} (h : Tractable bounds first.results)
    (order : IterationOrder) (again : CallInputs) (cmd : Command) (args : List Bytes) :
    ∃ snap reply, TopologyFabric.discover bounds none 0 first = .ok snap ∧
      Returns (fun fuel => main bounds order fuel first again cmd args) reply ∧
      reply.status = exitStatus order snap cmd args := by
  obtain ⟨snap, hsnap⟩ := discover_returns bounds none 0 first
  have hone : MadeOfOne bounds snap := ⟨_, gather_safe h, discover_hasGraph hsnap⟩
  obtain ⟨reply, hreply, hstatus⟩ : ∃ reply,
      Returns (fun fuel => runCommand bounds order fuel snap again cmd args) reply ∧
        reply.status = exitStatus order snap cmd args :=
    runCommand_status hone.serves again cmd args
  refine ⟨snap, reply, hsnap, ?_, hstatus⟩
  filter_upwards [hreply] with fuel hfuel
  simp only [main, hsnap, Outcome.ok_bind, hfuel]

/-- A call that finds the device of two providers. -/
def sharedCall : CallInputs where
  order := .insertion
  results := sharedDevice.map .returned
  provisional := ⟨kNullNodeId, 0, .insertion⟩
  final := ⟨kNullNodeId, 0, .insertion⟩

/-- A command without its options. -/
theorem main_status_shared :
    ∃ snap reply, TopologyFabric.discover {} none 0 sharedCall = .ok snap ∧
      Returns (fun fuel => main {} .insertion fuel sharedCall sharedCall .path []) reply ∧
      reply.status = exitStatus .insertion snap .path [] :=
  main_status tractable_shared .insertion _ .path []

end TopologyFabric

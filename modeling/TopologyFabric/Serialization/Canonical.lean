import TopologyFabric.Core.Builder
import TopologyFabric.Json.Nesting
import TopologyFabric.Serialization.Snapshot

/-!
# Canonical Texts

The text of a snapshot does not depend on the order of its nodes, because their ids sort them. The
edges are sorted by their endpoints and their type alone, so edges that agree in these keep the
order in which they were added, and the text depends on that order unless they are written alike.
(`std::sort` leaves the order of such edges open; `sortedEdges_texts` is about every order of them.)

## Main results

- `objectOf_text`: the text of an object around the text of one of its fields
- `sortedEdges_texts`: edges that tie can be in any order if they are written alike
- `serialize_canonical_iff`: which snapshots have one text for all orders of their edges
-/

namespace TopologyFabric

open Library Json

/-! ## Objects and arrays around a value -/

section Around

variable {mode : WriteMode} {d : ℕ}

/-- Changing the values of the fields, key by key, changes the entries of the object in the same
way. -/
private theorem foldl_insertEntry_map (g : Bytes → Value → Value) (fields o : List (Bytes × Value)) :
    (fields.map fun e => (e.1, g e.1 e.2)).foldl (fun o f => insertEntry f.1 f.2 o)
        (o.map fun e => (e.1, g e.1 e.2)) =
      (fields.foldl (fun o f => insertEntry f.1 f.2 o) o).map fun e => (e.1, g e.1 e.2) := by
  -- where an entry goes depends on its key only
  have hinsert : ∀ (k : Bytes) (v : Value) (o : List (Bytes × Value)),
      insertEntry k (g k v) (o.map fun e => (e.1, g e.1 e.2)) =
        (insertEntry k v o).map fun e => (e.1, g e.1 e.2) := by
    intro k v o
    induction o with
    | nil => rfl
    | cons e o ih =>
      simp only [List.map_cons, insertEntry]
      split_ifs with hlt heq
      · rfl
      · rfl
      · rw [List.map_cons, ih]
  induction fields generalizing o with
  | nil => rfl
  | cons f fields ih =>
    rw [List.map_cons, List.foldl_cons, List.foldl_cons, hinsert, ih]

/-- Members around one member. -/
private theorem writeMembers_around (k : Bytes) (pre post : List (Bytes × Value)) (first : Bool) :
    ∃ a b, ∀ v, writeMembers mode d first (pre ++ (k, v) :: post) =
      a ++ (writeValue mode (d + 1) v ++ b) := by
  induction pre generalizing first with
  | nil =>
    refine ⟨comma first ++ (indent mode (d + 1) ++ (writeString k ++ (byte ':' ::
      (if mode = .pretty then [byte ' '] else [])))), writeMembers mode d false post, fun v => ?_⟩
    rw [List.nil_append, writeMembers]
    simp only [List.append_assoc, List.cons_append]
  | cons e pre ih =>
    obtain ⟨a, b, hab⟩ := ih false
    refine ⟨comma first ++ (indent mode (d + 1) ++ (writeString e.1 ++ (byte ':' ::
      ((if mode = .pretty then [byte ' '] else []) ++ (writeValue mode (d + 1) e.2 ++ a))))), b,
      fun v => ?_⟩
    rw [List.cons_append, writeMembers, hab v]
    simp only [List.append_assoc, List.cons_append]

/-- Setting the value under a key leaves other members alone. -/
private theorem map_set_other {k : Bytes} {o : List (Bytes × Value)} (h : k ∉ o.map Prod.fst)
    (v : Value) : (o.map fun e => (e.1, if e.1 = k then v else e.2)) = o := by
  refine .trans (List.map_congr_left fun e he => ?_) (List.map_id o)
  have hne : e.1 ≠ k := fun heq => h (heq ▸ List.mem_map_of_mem he)
  rw [if_neg hne]
  rfl

/-- The text of an object around the text of one of its fields. -/
theorem objectOf_text {k : Bytes} {pre post : List (Bytes × Value)}
    (hkeys : ((pre ++ (k, Value.null) :: post).map Prod.fst).Nodup) :
    ∃ a b, ∀ v, writeValue mode d (objectOf (pre ++ (k, v) :: post)) =
      a ++ (writeValue mode (d + 1) v ++ b) := by
  have hperm := foldl_insertEntry_perm (l := []) hkeys
  rw [List.nil_append] at hperm
  have hset := fun v => foldl_insertEntry_map (fun key w => if key = k then v else w)
    (pre ++ (k, Value.null) :: post) []
  -- the entries with null under the key split at the key
  obtain ⟨p, s, hsplit⟩ := List.append_of_mem
    (hperm.mem_iff.mpr (List.mem_append_right pre (List.mem_cons_self ..)))
  have hnodup := (hperm.map Prod.fst).nodup_iff.mpr hkeys
  rw [hsplit, List.map_append, List.map_cons, List.nodup_middle, List.nodup_cons,
    List.mem_append, not_or] at hnodup
  rw [List.map_append, List.map_cons, List.nodup_middle, List.nodup_cons, List.mem_append,
    not_or] at hkeys
  have hentries : ∀ v, objectOf (pre ++ (k, v) :: post) = .object (p ++ (k, v) :: s) := by
    intro v
    have hv := hset v
    rw [hsplit] at hv
    simp only [List.map_append, List.map_cons, List.map_nil, map_set_other hkeys.1.1,
      map_set_other hkeys.1.2, map_set_other hnodup.1.1, map_set_other hnodup.1.2, if_true] at hv
    rw [objectOf, hv]
  obtain ⟨a, b, hab⟩ := @writeMembers_around mode d k p s true
  refine ⟨byte '\x7b' :: a, b ++ (indent mode d ++ [byte '\x7d']), fun v => ?_⟩
  have hne : p ++ (k, v) :: s ≠ [] := List.append_ne_nil_of_right_ne_nil _ (List.cons_ne_nil _ _)
  rw [hentries, writeValue, hab, if_neg hne]
  simp only [List.append_assoc, List.cons_append]

/-- Elements around two elements. -/
private theorem writeElements_around (pre post : List Value) (first : Bool) :
    ∃ a b c, ∀ v w, writeElements mode d first (pre ++ v :: w :: post) =
      a ++ (writeValue mode (d + 1) v ++ (b ++ (writeValue mode (d + 1) w ++ c))) := by
  induction pre generalizing first with
  | nil =>
    refine ⟨comma first ++ indent mode (d + 1), comma false ++ indent mode (d + 1),
      writeElements mode d false post, fun v w => ?_⟩
    rw [List.nil_append, writeElements, writeElements]
    simp only [List.append_assoc]
  | cons u pre ih =>
    obtain ⟨a, b, c, habc⟩ := ih false
    refine ⟨comma first ++ (indent mode (d + 1) ++ (writeValue mode (d + 1) u ++ a)), b, c,
      fun v w => ?_⟩
    rw [List.cons_append, writeElements, habc v w]
    simp only [List.append_assoc]

/-- The text of an array only depends on the texts of its elements. -/
theorem writeArray_congr {a a' : List Value}
    (h : a.map (writeValue mode (d + 1)) = a'.map (writeValue mode (d + 1))) :
    writeValue mode d (.array a) = writeValue mode d (.array a') := by
  -- the elements are written one after the other, each as it is written alone
  have helements : ∀ {a a' : List Value} (first : Bool),
      a.map (writeValue mode (d + 1)) = a'.map (writeValue mode (d + 1)) →
        writeElements mode d first a = writeElements mode d first a' := by
    intro a
    induction a with
    | nil =>
      intro a' first h
      obtain rfl := List.map_eq_nil_iff.mp h.symm
      rfl
    | cons v a ih =>
      intro a' first h
      cases a' with
      | nil => cases h
      | cons v' a' =>
        obtain ⟨hv, hrest⟩ := List.cons.inj h
        rw [writeElements, writeElements, hv, ih false hrest]
  -- an empty array is written without its spaces
  have hnil : a = [] ↔ a' = [] := by
    rw [← List.map_eq_nil_iff (f := writeValue mode (d + 1)), h, List.map_eq_nil_iff]
  rw [writeValue, writeValue, helements true h]
  simp only [hnil]

end Around

/-! ## The order of the edges -/

/-- What the edges are sorted by. -/
def edgeRank (e : TopologyEdge) : TopologyNodeId ×ₗ (TopologyNodeId ×ₗ ℕ) :=
  toLex (e.source, toLex (e.target, e.type.toNat))

theorem edgeBefore_iff (a b : TopologyEdge) :
    edgeBefore b a = false ↔ edgeRank a ≤ edgeRank b := by
  rw [← not_lt, ← Bool.not_eq_true, not_iff_not, edgeBefore, edgeRank, edgeRank,
    Prod.Lex.toLex_lt_toLex, Prod.Lex.toLex_lt_toLex]
  split_ifs with hsource htarget
  · simp [hsource]
  · simp [not_not.mp hsource, htarget]
  · simp [not_not.mp hsource, not_not.mp htarget]

theorem edgeRank_eq_iff (a b : TopologyEdge) :
    edgeRank a = edgeRank b ↔ a.source = b.source ∧ a.target = b.target ∧ a.type = b.type := by
  simp [edgeRank, EdgeType.toNat_injective.eq_iff]

/-- Lists of equal ranks have equal texts if equal ranks do. -/
private theorem map_eq_of_ranks {α β γ : Type} {rank : α → β} {text : α → γ} {l l' : List α}
    (hranks : l.map rank = l'.map rank)
    (hties : ∀ a ∈ l, ∀ b ∈ l', rank a = rank b → text a = text b) :
    l.map text = l'.map text := by
  induction l generalizing l' with
  | nil =>
    obtain rfl := List.map_eq_nil_iff.mp hranks.symm
    rfl
  | cons a l ih =>
    cases l' with
    | nil => cases hranks
    | cons b l' =>
      obtain ⟨hrank, hrest⟩ := List.cons.inj hranks
      rw [List.map_cons, List.map_cons,
        hties a (List.mem_cons_self ..) b (List.mem_cons_self ..) hrank,
        ih hrest fun a ha b hb => hties a (List.mem_cons_of_mem _ ha) b (List.mem_cons_of_mem _ hb)]

/-- Edges that are sorted, in whatever order those that tie are left, have the same texts if those
that tie have. -/
theorem sortedEdges_texts {γ : Type} {text : TopologyEdge → γ} {es es' : List TopologyEdge}
    (hperm : es'.Perm es) (hsorted : es.Pairwise fun a b => edgeRank a ≤ edgeRank b)
    (hsorted' : es'.Pairwise fun a b => edgeRank a ≤ edgeRank b)
    (hties : ∀ a ∈ es, ∀ b ∈ es, edgeRank a = edgeRank b → text a = text b) :
    es'.map text = es.map text := by
  refine map_eq_of_ranks ?_ fun a ha b hb => hties a (hperm.mem_iff.mp ha) b hb
  exact (hperm.map edgeRank).eq_of_pairwise' (List.pairwise_map.mpr hsorted')
    (List.pairwise_map.mpr hsorted)

theorem sortedEdges_sorted (snap : TopologySnapshot) :
    (sortedEdges snap).Pairwise fun a b => edgeRank a ≤ edgeRank b := by
  have htotal : Std.Total fun a b : TopologyEdge => edgeBefore b a = false :=
    ⟨fun a b => by simpa only [edgeBefore_iff] using le_total _ _⟩
  have htrans : IsTrans TopologyEdge fun a b => edgeBefore b a = false :=
    ⟨fun a b c => by simpa only [edgeBefore_iff] using le_trans⟩
  have hsorted : (sortedEdges snap).Pairwise fun a b => edgeBefore b a = false :=
    List.pairwise_insertionSort _ _
  exact hsorted.imp fun {a b} h => (edgeBefore_iff a b).mp h

/-- Two edges that tie are sorted side by side, the first one in front. -/
theorem orderedInsert_ties {e e' : TopologyEdge} (htie : edgeRank e = edgeRank e')
    (es : List TopologyEdge) : ∃ pre post,
      (es.orderedInsert (fun a b => edgeBefore b a = false) e').orderedInsert
        (fun a b => edgeBefore b a = false) e = pre ++ e :: e' :: post ∧
      (es.orderedInsert (fun a b => edgeBefore b a = false) e).orderedInsert
        (fun a b => edgeBefore b a = false) e' = pre ++ e' :: e :: post := by
  have hle : edgeBefore e' e = false := (edgeBefore_iff e e').mpr htie.le
  have hle' : edgeBefore e e' = false := (edgeBefore_iff e' e).mpr htie.ge
  induction es with
  | nil => exact ⟨[], [], by simp [hle], by simp [hle']⟩
  | cons b es ih =>
    by_cases hb : edgeBefore b e = false
    · -- two edges of one rank go in front of the same edges
      have hb' : edgeBefore b e' = false := by
        rw [edgeBefore_iff, ← htie, ← edgeBefore_iff]
        exact hb
      exact ⟨[], b :: es, by simp [hb', hle], by simp [hb, hle']⟩
    · have hb' : ¬ edgeBefore b e' = false := by
        rw [edgeBefore_iff, ← htie, ← edgeBefore_iff]
        exact hb
      obtain ⟨pre, post, hfirst, hsecond⟩ := ih
      refine ⟨b :: pre, post, ?_, ?_⟩
      · rw [List.orderedInsert_cons, if_neg hb', List.orderedInsert_cons, if_neg hb, hfirst]
        rfl
      · rw [List.orderedInsert_cons, if_neg hb, List.orderedInsert_cons, if_neg hb', hsecond]
        rfl

/-! ## Snapshots -/

/-- The mode that a snapshot is written in. -/
def snapshotMode (pretty : Bool) : WriteMode := if pretty then .pretty else .compact

/-- The document of a snapshot with the given edges. -/
def documentWith (snap : TopologySnapshot) (edges : Value) : Value :=
  objectOf
    ([(str "schema", .string kSnapshotSchemaVersion),
      (str "snapshot_id", .string snap.metadata.snapshotId),
      (str "generation", .uint (UInt64.ofNat snap.metadata.generation)),
      (str "created_ms", .int snap.metadata.createdMs),
      (str "machine_identity", .string snap.metadata.machineIdentity),
      (str "provider_versions", .string snap.metadata.providerVersions),
      (str "format", .string (str "topology_fabric_snapshot")),
      (str "nodes", .array ((sortedNodes snap).map fun e => nodeToJson e.1 e.2))] ++
    (str "edges", edges) ::
    [(str "warnings", .array (snap.metadata.warnings.map .string)),
      (str "partial_discovery", .bool snap.metadata.partialDiscovery),
      (str "synthetic", .bool snap.metadata.synthetic),
      (str "validation", validationToJson snap.validation)])

/-- The snapshots are equal but for the order in which their nodes and edges were added. -/
structure SameContent (snap snap' : TopologySnapshot) : Prop where
  nodes : ∀ id, snap'.findNode id = snap.findNode id
  edges : snap'.edges.Perm snap.edges
  metadata : snap'.metadata = snap.metadata
  validation : snap'.validation = snap.validation

/-- The text of the snapshot is that of every snapshot with the same content. -/
def Canonical (snap : TopologySnapshot) (pretty : Bool) : Prop :=
  ∀ snap', SameContent snap snap' →
    serializeSnapshotJson snap' pretty = serializeSnapshotJson snap pretty

/-- The text of an edge in the document. -/
def edgeText (pretty : Bool) (e : TopologyEdge) : Bytes :=
  writeValue (snapshotMode pretty) 2 (edgeToJson e)

/-- Edges that have the same endpoints and the same type are written alike. -/
def TiesAgree (snap : TopologySnapshot) (pretty : Bool) : Prop :=
  ∀ e ∈ snap.edges, ∀ e' ∈ snap.edges,
    e.source = e'.source → e.target = e'.target → e.type = e'.type →
      edgeText pretty e = edgeText pretty e'

instance (snap : TopologySnapshot) (pretty : Bool) : Decidable (TiesAgree snap pretty) :=
  inferInstanceAs (Decidable (∀ e ∈ snap.edges, ∀ e' ∈ snap.edges, _))

/-- The nodes are written in the same order. -/
theorem sortedNodes_eq {snap snap' : TopologySnapshot}
    (h : ∀ id, snap'.findNode id = snap.findNode id) : sortedNodes snap' = sortedNodes snap := by
  -- the identifiers are distinct, so the order of the nodes is strict
  have hstrict : ∀ s : TopologySnapshot, (sortedNodes s).Pairwise fun a b => a.1 < b.1 := by
    intro s
    have htotal : Std.Total fun a b : TopologyNodeId × TopologyNode => a.1 ≤ b.1 :=
      ⟨fun a b => le_total a.1 b.1⟩
    have htrans : IsTrans (TopologyNodeId × TopologyNode) fun a b => a.1 ≤ b.1 :=
      ⟨fun a b c => le_trans⟩
    have hsorted : (sortedNodes s).Pairwise fun a b => a.1 ≤ b.1 :=
      List.pairwise_insertionSort _ _
    have hperm : (sortedNodes s).Perm s.nodes.entries := List.perm_insertionSort _ _
    have hnodup := (hperm.map Prod.fst).nodup_iff.mpr s.nodes.nodup
    refine (hsorted.and (List.pairwise_map.mp hnodup)).imp fun {a b} hab => ?_
    exact lt_of_le_of_ne hab.1 hab.2
  have hanti : Std.Antisymm fun a b : TopologyNodeId × TopologyNode => a.1 < b.1 :=
    ⟨fun a b hab hba => absurd hba (lt_asymm hab)⟩
  have hirrefl : Std.Irrefl fun a b : TopologyNodeId × TopologyNode => a.1 < b.1 :=
    ⟨fun a => lt_irrefl a.1⟩
  -- two lists in strict order with the same elements are the same
  refine (hstrict snap').eq_of_mem_iff (hstrict snap) fun e => ?_
  have hmem : ∀ s : TopologySnapshot, e ∈ sortedNodes s ↔ s.findNode e.1 = some e.2 := by
    intro s
    rw [sortedNodes, List.mem_insertionSort, TopologySnapshot.findNode, HashMap.find?_eq_some]
  rw [hmem, hmem, h]

theorem documentWith_congr {snap snap' : TopologySnapshot} (h : SameContent snap snap') :
    documentWith snap' = documentWith snap := by
  funext edges
  rw [documentWith, documentWith, h.metadata, h.validation, sortedNodes_eq h.nodes]

/-- The text of a snapshot around the text of its edges. -/
theorem serialize_around (snap : TopologySnapshot) (pretty : Bool) :
    ∃ a b, ∀ edges, dump (snapshotMode pretty) (documentWith snap edges) =
      a ++ (writeValue (snapshotMode pretty) 1 edges ++ b) :=
  objectOf_text (by
    simp only [List.map_append, List.map_cons, List.map_nil]
    decide +kernel)

theorem serializeSnapshotJson_eq (snap : TopologySnapshot) (pretty : Bool) :
    serializeSnapshotJson snap pretty = dump (snapshotMode pretty)
      (documentWith snap (.array ((sortedEdges snap).map edgeToJson))) := rfl

/-- The snapshot with its edges in another order. -/
def TopologySnapshot.withEdges (snap : TopologySnapshot) (edges : List TopologyEdge) :
    TopologySnapshot :=
  { snap with edges := edges, adjacencyMap := buildAdjacency edges, adjacencyBuilt := rfl }

/-- When edges that tie are written alike, the text does not depend on their order. -/
theorem TiesAgree.canonical {snap : TopologySnapshot} {pretty : Bool}
    (h : TiesAgree snap pretty) : Canonical snap pretty := by
  intro snap' hsame
  obtain ⟨a, b, hab⟩ := serialize_around snap pretty
  have hsorted : ∀ s : TopologySnapshot, (sortedEdges s).Perm s.edges :=
    fun s => List.perm_insertionSort _ _
  -- edges of one rank have one text, so their order does not show
  have htexts : (sortedEdges snap').map (edgeText pretty) =
      (sortedEdges snap).map (edgeText pretty) := by
    refine sortedEdges_texts ((hsorted snap').trans (hsame.edges.trans (hsorted snap).symm))
      (sortedEdges_sorted snap) (sortedEdges_sorted snap') fun e he e' he' hrank => ?_
    obtain ⟨hsource, htarget, htype⟩ := (edgeRank_eq_iff e e').mp hrank
    exact h e ((hsorted snap).mem_iff.mp he) e' ((hsorted snap).mem_iff.mp he') hsource htarget
      htype
  have harray : writeValue (snapshotMode pretty) 1 (.array ((sortedEdges snap').map edgeToJson)) =
      writeValue (snapshotMode pretty) 1 (.array ((sortedEdges snap).map edgeToJson)) := by
    apply writeArray_congr
    rw [List.map_map, List.map_map]
    exact htexts
  rw [serializeSnapshotJson_eq, serializeSnapshotJson_eq, documentWith_congr hsame, hab, hab,
    harray]

/-- When the text does not depend on the order of the edges, edges that tie are written alike:
otherwise two orders that only swap them have different texts. -/
theorem Canonical.tiesAgree {snap : TopologySnapshot} {pretty : Bool}
    (h : Canonical snap pretty) : TiesAgree snap pretty := by
  intro e he e' he' hsource htarget htype
  by_cases heq : e = e'
  · rw [heq]
  have hrank : edgeRank e = edgeRank e' := (edgeRank_eq_iff e e').mpr ⟨hsource, htarget, htype⟩
  -- the two edges in front of the others, in both orders
  let rest := (snap.edges.erase e).erase e'
  have hperm : (e :: e' :: rest).Perm snap.edges := by
    have hmem : e' ∈ snap.edges.erase e := (List.mem_erase_of_ne (Ne.symm heq)).mpr he'
    exact (((List.perm_cons_erase hmem).symm.cons e)).trans (List.perm_cons_erase he).symm
  have hsame : ∀ es, es.Perm snap.edges → SameContent snap (snap.withEdges es) :=
    fun es hes => ⟨fun _ => rfl, hes, rfl, rfl⟩
  have htext : serializeSnapshotJson (snap.withEdges (e :: e' :: rest)) pretty =
      serializeSnapshotJson (snap.withEdges (e' :: e :: rest)) pretty :=
    (h _ (hsame _ hperm)).trans (h _ (hsame _ ((List.Perm.swap e e' rest).trans hperm))).symm
  obtain ⟨pre, post, hfirst, hsecond⟩ := orderedInsert_ties hrank
    (rest.insertionSort fun a b => edgeBefore b a = false)
  have hsorted : sortedEdges (snap.withEdges (e :: e' :: rest)) = pre ++ e :: e' :: post := hfirst
  have hsorted' : sortedEdges (snap.withEdges (e' :: e :: rest)) = pre ++ e' :: e :: post :=
    hsecond
  obtain ⟨a, b, hab⟩ := serialize_around snap pretty
  obtain ⟨p, s, q, hpsq⟩ := @writeElements_around (snapshotMode pretty) 1 (pre.map edgeToJson)
    (post.map edgeToJson) true
  rw [serializeSnapshotJson_eq, serializeSnapshotJson_eq,
    documentWith_congr (hsame _ hperm),
    documentWith_congr (hsame _ ((List.Perm.swap e e' rest).trans hperm)), hsorted, hsorted',
    List.map_append, List.map_append, List.map_cons, List.map_cons, List.map_cons, List.map_cons,
    hab, hab, List.append_cancel_left_eq, writeValue, writeValue, hpsq, hpsq] at htext
  simp only [List.cons_append, List.append_assoc, List.cons.injEq, true_and,
    List.append_cancel_left_eq] at htext
  -- both texts go on with one of the edges
  exact writeValue_object_cancel htext

/-- **Which snapshots are serialized canonically.** The text of a snapshot is the same for all orders
in which its nodes and edges can be added iff those of its edges that have the same endpoints and
the same type are written alike. -/
theorem serialize_canonical_iff (snap : TopologySnapshot) (pretty : Bool) :
    Canonical snap pretty ↔ TiesAgree snap pretty :=
  ⟨Canonical.tiesAgree, TiesAgree.canonical⟩

/-- Two nodes with two links between them, one directed and one not, added in either order. -/
def twoLinks (directedFirst : Bool) : List BuilderCall :=
  let a : TopologyNodeId := ⟨0, 1⟩
  let b : TopologyNodeId := ⟨0, 2⟩
  let directed : TopologyEdge := { source := a, target := b }
  let undirected : TopologyEdge := { directed with direction := .undirected }
  [.addNode { id := a, type := .accelerator }, .addNode { id := b, type := .accelerator }] ++
    if directedFirst then [.addEdge directed, .addEdge undirected]
    else [.addEdge undirected, .addEdge directed]

/-- The text tells which of the links was added first. -/
theorem serialize_canonical_fails : ∃ snap snap',
    (SnapshotBuilder.run {} (twoLinks true)).take .insertion = .ok snap ∧
      (SnapshotBuilder.run {} (twoLinks false)).take .insertion = .ok snap' ∧
      SameContent snap snap' ∧
      ∀ pretty, serializeSnapshotJson snap' pretty ≠ serializeSnapshotJson snap pretty := by
  obtain ⟨snap, hsnap⟩ := SnapshotBuilder.take_returns
    (@run_filling {} (twoLinks true)).isOpen .insertion
  obtain ⟨snap', hsnap'⟩ := SnapshotBuilder.take_returns
    (@run_filling {} (twoLinks false)).isOpen .insertion
  obtain ⟨hnodes, hedges, hmetadata, hvalidation⟩ := SnapshotBuilder.take_eq_ok hsnap
  obtain ⟨hnodes', hedges', hmetadata', hvalidation'⟩ := SnapshotBuilder.take_eq_ok hsnap'
  -- the same two links, added in two orders
  have hsame : SameContent snap snap' := by
    refine ⟨fun id => ?_, ?_, hmetadata'.trans hmetadata.symm, ?_⟩
    · rw [TopologySnapshot.findNode, TopologySnapshot.findNode, hnodes, hnodes']
      rfl
    · rw [hedges, hedges']
      exact List.Perm.swap _ _ []
    · rw [hvalidation, hvalidation']
      decide +kernel
  refine ⟨snap, snap', hsnap, hsnap', hsame, ?_⟩
  have htexts : (do
      let s ← (SnapshotBuilder.run {} (twoLinks true)).take .insertion
      let s' ← (SnapshotBuilder.run {} (twoLinks false)).take .insertion
      return decide (∀ pretty, serializeSnapshotJson s' pretty ≠ serializeSnapshotJson s pretty)) =
      (.ok true : Run Bool) := by
    decide +kernel
  rw [hsnap, hsnap', Outcome.ok_bind, Outcome.ok_bind] at htexts
  exact of_decide_eq_true (Outcome.ok.inj htexts)

end TopologyFabric

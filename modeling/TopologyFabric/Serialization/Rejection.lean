import TopologyFabric.Json.Acceptance
import TopologyFabric.Serialization.Snapshot

/-!
# Rejecting Documents

Reading a document ends in a snapshot, in a rejection, or in the one exception that is not caught:
an array property whose first element is a string and which has another element that is none.

## Main results

- `readEntries_cases`: how the loop over the entries of a document ends
- `deserializeSnapshotJson_rejects_iff`: when reading ends in a snapshot or a rejection
-/

namespace TopologyFabric

open Library Json

/-! ## Properties -/

/-- An array that starts with a string and has another element that is no string. -/
def MixedArray (v : Value) : Prop :=
  ∃ s a, v = .array (.string s :: a) ∧ ∃ e ∈ a, e.isString = false

/-- The entry has an object of properties with a mixed array in it. -/
def HasMixedProperty (entry : Value) : Prop :=
  ∃ es, entry.find (str "properties") = some (.object es) ∧ ∃ e ∈ es, MixedArray e.2

private theorem mapM_asString (a : List Value) :
    (∃ sv, a.mapM Value.asString = .ok sv) ∧ (∀ e ∈ a, e.isString = true) ∨
      a.mapM Value.asString = .throws .badVariantAccess ∧ ∃ e ∈ a, e.isString = false := by
  induction a with
  | nil => exact Or.inl ⟨⟨[], rfl⟩, fun _ h => by simp at h⟩
  | cons v a ih =>
    rw [List.mapM_cons]
    -- the first element that is no string throws
    cases v with
    | string s =>
      rcases ih with ⟨⟨sv, hsv⟩, hall⟩ | ⟨hthrows, e, he, hnot⟩
      · refine Or.inl ⟨⟨s :: sv, by simp [Value.asString, hsv]⟩, ?_⟩
        intro e he
        rcases List.mem_cons.mp he with rfl | he
        · rfl
        · exact hall e he
      · exact Or.inr ⟨by simp [Value.asString, hthrows], e, List.mem_cons_of_mem _ he, hnot⟩
    | _ => exact Or.inr ⟨rfl, _, List.mem_cons_self .., rfl⟩

/-- A property is read unless it is a mixed array. -/
theorem propertyFromJson_cases (v : Value) :
    (∃ p, propertyFromJson v = .ok p) ∧ ¬ MixedArray v ∨
      propertyFromJson v = .throws .badVariantAccess ∧ MixedArray v := by
  have hok : ∀ {p}, propertyFromJson v = .ok p → (∀ a, v ≠ .array a) →
      (∃ p, propertyFromJson v = .ok p) ∧ ¬ MixedArray v := by
    intro p hp hne
    exact ⟨⟨p, hp⟩, fun ⟨s, a, hv, _⟩ => hne _ hv⟩
  cases v with
  | array a =>
    cases a with
    | nil => exact Or.inl ⟨⟨_, rfl⟩, fun ⟨s, a, hv, _⟩ => by simp at hv⟩
    | cons v a =>
      cases v with
      | string s =>
        have heq : propertyFromJson (.array (.string s :: a)) =
            (Value.string s :: a).mapM Value.asString >>= fun sv => .ok (.stringArray sv) := rfl
        rcases mapM_asString (.string s :: a) with ⟨⟨sv, hsv⟩, hall⟩ | ⟨hthrows, e, he, hnot⟩
        · refine Or.inl ⟨⟨.stringArray sv, by rw [heq, hsv]; rfl⟩, ?_⟩
          rintro ⟨s', a', hv, e, he, hnot⟩
          obtain ⟨-, rfl⟩ := List.cons.inj (Value.array.inj hv)
          rw [hall e (List.mem_cons_of_mem _ he)] at hnot
          cases hnot
        · -- an element that is not a string, behind a string
          refine Or.inr ⟨by rw [heq, hthrows]; rfl, s, a, rfl, e, ?_, hnot⟩
          rcases List.mem_cons.mp he with rfl | he
          · cases hnot
          · exact he
      | _ => exact Or.inl ⟨⟨_, rfl⟩, fun ⟨s, a, hv, _⟩ => by simp at hv⟩
  | _ => exact Or.inl (hok rfl fun a h => by cases h)

/-- The loop over the properties ends early at a mixed array. -/
private theorem readProperties_loop (es : List (Bytes × Value)) (m : PropertyMap) :
    (∃ m', es.foldlM (fun m e => do
        let p ← propertyFromJson e.2
        Outcome.ok (m.emplace e.1 p)) m = (.ok m' : Run PropertyMap)) ∧
      (∀ e ∈ es, ¬ MixedArray e.2) ∨
    es.foldlM (fun m e => do
        let p ← propertyFromJson e.2
        Outcome.ok (m.emplace e.1 p)) m = (.throws .badVariantAccess : Run PropertyMap) ∧
      ∃ e ∈ es, MixedArray e.2 := by
  induction es generalizing m with
  | nil => exact Or.inl ⟨⟨m, rfl⟩, fun _ h => by simp at h⟩
  | cons e es ih =>
    rw [List.foldlM_cons]
    -- the first array of mixed types is what throws
    rcases propertyFromJson_cases e.2 with ⟨⟨p, hp⟩, hnot⟩ | ⟨hthrows, hmixed⟩
    · simp only [hp, Outcome.ok_bind]
      rcases ih (m.emplace e.1 p) with ⟨hok, hall⟩ | ⟨hthrows, e', he', hmixed⟩
      · refine Or.inl ⟨hok, fun e' he' => ?_⟩
        rcases List.mem_cons.mp he' with rfl | he'
        · exact hnot
        · exact hall e' he'
      · exact Or.inr ⟨hthrows, e', List.mem_cons_of_mem _ he', hmixed⟩
    · exact Or.inr ⟨by rw [hthrows]; rfl, e, List.mem_cons_self .., hmixed⟩

/-- The properties of an entry are read unless one of them is a mixed array. -/
theorem readProperties_cases (o : Value) :
    (∃ m, readProperties o = .ok m) ∧ ¬ HasMixedProperty o ∨
      readProperties o = .throws .badVariantAccess ∧ HasMixedProperty o := by
  unfold readProperties HasMixedProperty
  split
  · rename_i es hfind
    rcases readProperties_loop es OrderedMap.empty with ⟨hok, hall⟩ | ⟨hthrows, hmixed⟩
    · refine Or.inl ⟨hok, ?_⟩
      rintro ⟨es', hes', e, he, hmixed⟩
      obtain rfl := Value.object.inj (Option.some.inj (hfind.symm.trans hes'))
      exact hall e he hmixed
    · exact Or.inr ⟨hthrows, es, hfind, hmixed⟩
  · rename_i hfind
    exact Or.inl ⟨⟨_, rfl⟩, fun ⟨es, hes, _⟩ => hfind es hes⟩

/-! ## Entries -/

/-- The call is rejected with `MALFORMED_DATA` or `OVERSIZED`. -/
def Rejects {α : Type} (x : Run α) : Prop :=
  ∃ msg, x = throwTopologyError .malformedData msg ∨ x = throwTopologyError .oversized msg

/-- An element of the array of nodes with a valid id. -/
def IsNodeEntry (nv : Value) : Prop :=
  nv.isObject = true ∧ (readId nv (str "id")).isSome = true

/-- An element of the array of edges with valid endpoints. -/
def IsEdgeEntry (ev : Value) : Prop :=
  ev.isObject = true ∧ (readId ev (str "source")).isSome = true ∧
    (readId ev (str "target")).isSome = true

/-- How reading an entry ends: it is read, it is rejected because it is no entry, or a mixed
property lets an exception escape. -/
def EntryCases {α : Type} (isEntry : Value → Prop) (read : Value → Run α) : Prop :=
  ∀ v, (∃ a, read v = .ok a) ∧ isEntry v ∧ ¬ HasMixedProperty v ∨
    Rejects (read v) ∧ ¬ isEntry v ∨
    read v = .throws .badVariantAccess ∧ isEntry v ∧ HasMixedProperty v

theorem nodeFromJson_cases : EntryCases IsNodeEntry nodeFromJson := by
  intro nv
  by_cases hobject : nv.isObject = true
  swap
  · refine Or.inr (Or.inl ⟨⟨str "node entry must be object", Or.inl ?_⟩, fun h => hobject h.1⟩)
    rw [nodeFromJson, if_pos (by simpa using hobject)]
  unfold nodeFromJson
  rw [if_neg (by simp [hobject])]
  cases hid : readId nv (str "id") with
  | none => exact Or.inr (Or.inl ⟨⟨_, Or.inl rfl⟩, fun ⟨_, h⟩ => by simp [hid] at h⟩)
  | some id =>
    have hentry : IsNodeEntry nv := ⟨hobject, by simp [hid]⟩
    rcases readProperties_cases nv with ⟨⟨m, hm⟩, hnot⟩ | ⟨hthrows, hmixed⟩
    · exact Or.inl ⟨⟨_, by simp only [hm, Outcome.ok_bind]; rfl⟩, hentry, hnot⟩
    · exact Or.inr (Or.inr ⟨by simp only [hthrows, Outcome.throws_bind], hentry, hmixed⟩)

theorem edgeFromJson_cases : EntryCases IsEdgeEntry edgeFromJson := by
  intro ev
  by_cases hobject : ev.isObject = true
  swap
  · refine Or.inr (Or.inl ⟨⟨str "edge entry must be object", Or.inl ?_⟩, fun h => hobject h.1⟩)
    rw [edgeFromJson, if_pos (by simpa using hobject)]
  unfold edgeFromJson
  rw [if_neg (by simp [hobject])]
  cases hsource : readId ev (str "source") with
  | none => exact Or.inr (Or.inl ⟨⟨_, Or.inl rfl⟩, fun ⟨_, h, _⟩ => by simp [hsource] at h⟩)
  | some source =>
    cases htarget : readId ev (str "target") with
    | none => exact Or.inr (Or.inl ⟨⟨_, Or.inl rfl⟩, fun ⟨_, _, h⟩ => by simp [htarget] at h⟩)
    | some target =>
      have hentry : IsEdgeEntry ev := ⟨hobject, by simp [hsource], by simp [htarget]⟩
      rcases readProperties_cases ev with ⟨⟨m, hm⟩, hnot⟩ | ⟨hthrows, hmixed⟩
      · exact Or.inl ⟨⟨_, by simp only [hm, Outcome.ok_bind]; rfl⟩, hentry, hnot⟩
      · exact Or.inr (Or.inr ⟨by simp only [hthrows, Outcome.throws_bind], hentry, hmixed⟩)

/-- All entries are well formed, have no mixed property, and are not too many. -/
def EntriesReadable (isEntry : Value → Prop) (bound : ℕ) (entries : List Value) : Prop :=
  entries.length ≤ bound ∧ ∀ v ∈ entries, isEntry v ∧ ¬ HasMixedProperty v

/-- Within the bound, the first entry that cannot be read is well formed but has a mixed
property. -/
def EntriesEscape (isEntry : Value → Prop) (bound : ℕ) (entries : List Value) : Prop :=
  ∃ pre v post, entries = pre ++ v :: post ∧ EntriesReadable isEntry bound pre ∧
    pre.length < bound ∧ isEntry v ∧ HasMixedProperty v

section Entries

variable {α β : Type} {isEntry : Value → Prop} {read : Value → Run α} {add : β → α → β}
  {bound : ℕ} {tooMany : Bytes}

/-- After an entry that is read, the rest decides within what is left of the bound. -/
theorem entriesReadable_cons {v : Value} {entries : List Value} {count : ℕ} (hentry : isEntry v)
    (hnot : ¬ HasMixedProperty v) (hcount : count < bound) :
    EntriesReadable isEntry (bound - count) (v :: entries) ↔
      EntriesReadable isEntry (bound - (count + 1)) entries := by
  unfold EntriesReadable
  rw [List.length_cons, List.forall_mem_cons]
  constructor
  · rintro ⟨hlen, -, hall⟩
    exact ⟨by omega, hall⟩
  · rintro ⟨hlen, hall⟩
    exact ⟨by omega, ⟨hentry, hnot⟩, hall⟩

theorem entriesEscape_cons {v : Value} {entries : List Value} {count : ℕ} (hentry : isEntry v)
    (hnot : ¬ HasMixedProperty v) (hcount : count < bound) :
    EntriesEscape isEntry (bound - count) (v :: entries) ↔
      EntriesEscape isEntry (bound - (count + 1)) entries := by
  constructor
  · rintro ⟨pre, w, post, heq, hpre, hlt, hw, hmixed⟩
    cases pre with
    | nil =>
      obtain ⟨rfl, -⟩ := List.cons.inj heq
      exact absurd hmixed hnot
    | cons p pre =>
      obtain ⟨rfl, rfl⟩ := List.cons.inj heq
      rw [List.length_cons] at hlt
      exact ⟨pre, w, post, rfl, (entriesReadable_cons hentry hnot hcount).mp hpre, by omega, hw,
        hmixed⟩
  · rintro ⟨pre, w, post, rfl, hpre, hlt, hw, hmixed⟩
    exact ⟨v :: pre, w, post, rfl, (entriesReadable_cons hentry hnot hcount).mpr hpre,
      by rw [List.length_cons]; omega, hw, hmixed⟩

/-- How the loop over the entries ends. -/
theorem readEntries_cases (hread : EntryCases isEntry read) (tooMany : Bytes) (add : β → α → β)
    (entries : List Value) :
    ∀ (count : ℕ) (b : β), count ≤ bound →
      (∃ b', readEntries bound tooMany read add count entries b = .ok b') ∧
        EntriesReadable isEntry (bound - count) entries ∨
      Rejects (readEntries bound tooMany read add count entries b) ∧
        ¬ EntriesEscape isEntry (bound - count) entries ∧
        ¬ EntriesReadable isEntry (bound - count) entries ∨
      readEntries bound tooMany read add count entries b = .throws .badVariantAccess ∧
        EntriesEscape isEntry (bound - count) entries := by
  induction entries with
  | nil => exact fun count b _ => Or.inl ⟨⟨b, rfl⟩, Nat.zero_le _, fun _ h => by simp at h⟩
  | cons v entries ih =>
    intro count b hcount
    by_cases hbound : bound < count + 1
    · refine Or.inr (Or.inl ⟨⟨tooMany, Or.inr ?_⟩, ?_, ?_⟩)
      · rw [readEntries, if_pos hbound]
      · rintro ⟨pre, w, post, -, -, hlt, -⟩
        omega
      · rintro ⟨hlen, -⟩
        rw [List.length_cons] at hlen
        omega
    rw [readEntries, if_neg hbound]
    rcases hread v with ⟨⟨a, ha⟩, hentry, hnot⟩ | ⟨⟨msg, hrejects⟩, hentry⟩ |
      ⟨hthrows, hentry, hmixed⟩
    · -- the entry is read: the rest decides
      rw [ha, Outcome.ok_bind]
      have hlt : count < bound := by omega
      rw [entriesEscape_cons hentry hnot hlt, entriesReadable_cons hentry hnot hlt]
      exact ih (count + 1) (add b a) (by omega)
    · -- it is no entry, so it is neither read nor skipped over
      refine Or.inr (Or.inl ⟨⟨msg, ?_⟩, ?_, ?_⟩)
      · exact hrejects.imp (fun h => by rw [h]; rfl) fun h => by rw [h]; rfl
      swap
      · rintro ⟨-, hall⟩
        exact hentry (hall v (List.mem_cons_self ..)).1
      · rintro ⟨pre, w, post, heq, ⟨-, hpre⟩, -, hw, -⟩
        cases pre with
        | nil =>
          obtain ⟨rfl, -⟩ := List.cons.inj heq
          exact hentry hw
        | cons p pre =>
          obtain ⟨rfl, -⟩ := List.cons.inj heq
          exact hentry (hpre v (List.mem_cons_self ..)).1
    · -- nothing stands before the entry that escapes
      refine Or.inr (Or.inr ⟨by rw [hthrows]; rfl, [], v, entries, rfl, ⟨Nat.zero_le _, ?_⟩, ?_,
        hentry, hmixed⟩)
      · exact fun _ h => by simp at h
      · simp only [List.length_nil]
        omega

/-- When all entries are read, they are added one after the other. -/
theorem readEntries_eq_ok {entries : List Value} {count : ℕ} {b b' : β}
    (h : readEntries bound tooMany read add count entries b = .ok b') :
    ∃ as, List.Forall₂ (fun v a => read v = .ok a) entries as ∧ b' = as.foldl add b := by
  induction entries generalizing count b with
  | nil => exact ⟨[], .nil, (Outcome.ok.inj h).symm⟩
  | cons v entries ih =>
    rw [readEntries] at h
    split at h
    · simp [throwTopologyError] at h
    · obtain ⟨a, ha, hrest⟩ := Outcome.bind_eq_ok.mp h
      obtain ⟨as, hall, rfl⟩ := ih hrest
      exact ⟨a :: as, .cons ha hall, rfl⟩

theorem EntriesReadable.not_escape {entries : List Value}
    (h : EntriesReadable isEntry bound entries) : ¬ EntriesEscape isEntry bound entries := by
  rintro ⟨pre, v, post, rfl, -, -, -, hmixed⟩
  exact (h.2 v (by simp)).2 hmixed

end Entries

/-! ## Documents -/

/-- The first entry of the document that cannot be read, nodes before edges, is well formed but has
a mixed property. -/
def DocumentEscapes (bounds : Bounds) (root : Value) : Prop :=
  root.isObject = true ∧ readString root (str "format") [] = str "topology_fabric_snapshot" ∧
    ∃ nodes, findArray root (str "nodes") = some nodes ∧
      (EntriesEscape IsNodeEntry bounds.maxNodes nodes ∨
        EntriesReadable IsNodeEntry bounds.maxNodes nodes ∧
          ∃ edges, findArray root (str "edges") = some edges ∧
            EntriesEscape IsEdgeEntry bounds.maxEdges edges)

/-- The call returns a snapshot or is rejected. -/
def ReturnsOrRejects (x : Run TopologySnapshot) : Prop := (∃ snap, x = .ok snap) ∨ Rejects x

private theorem Rejects.bind {α β : Type} {x : Run α} (h : Rejects x) (f : α → Run β) :
    Rejects (x >>= f) := by
  obtain ⟨msg, h⟩ := h
  exact ⟨msg, h.imp (fun h => by rw [h]; rfl) fun h => by rw [h]; rfl⟩

/-- The edges of a document are read when the nodes have been. -/
private theorem readEdges_cases (order : IterationOrder) (root : Value) (bounds : Bounds)
    {b : SnapshotBuilder} (hb : b.taken = false) (edges : List Value) :
    let x : Run TopologySnapshot := do
      let b ← readEntries bounds.maxEdges (str "edge count exceeds bound") edgeFromJson
        (fun b e => (b.addEdge e).2) 0 edges b
      (b.setMetadata (metadataFromJson root)).take order
    ReturnsOrRejects x ∧ ¬ EntriesEscape IsEdgeEntry bounds.maxEdges edges ∨
      x = .throws .badVariantAccess ∧ EntriesEscape IsEdgeEntry bounds.maxEdges edges := by
  intro x
  -- all entries are read, or there are too many, or one of them throws
  rcases readEntries_cases edgeFromJson_cases (str "edge count exceeds bound")
      (fun b e => (SnapshotBuilder.addEdge b e).2) edges 0 b (Nat.zero_le bounds.maxEdges) with
    ⟨⟨b', hb'⟩, hreadable⟩ | ⟨hrejects, hnot, -⟩ | ⟨hthrows, hescape⟩
  · have htaken : (b'.setMetadata (metadataFromJson root)).taken = false := by
      obtain ⟨es, -, rfl⟩ := readEntries_eq_ok hb'
      exact (SnapshotBuilder.foldl_addEdge_taken es b).trans hb
    obtain ⟨snap, hsnap⟩ := SnapshotBuilder.take_returns htaken order
    exact Or.inl ⟨Or.inl ⟨snap, by simp only [x, hb', Outcome.ok_bind, hsnap]⟩,
      hreadable.not_escape⟩
  · exact Or.inl ⟨Or.inr (hrejects.bind _), hnot⟩
  · exact Or.inr ⟨by simp only [x, hthrows, Outcome.throws_bind], hescape⟩

/-- How reading a parsed document ends. -/
theorem snapshotFromJson_cases (order : IterationOrder) (root : Value) (bounds : Bounds) :
    ReturnsOrRejects (snapshotFromJson order root bounds) ∧ ¬ DocumentEscapes bounds root ∨
      snapshotFromJson order root bounds = .throws .badVariantAccess ∧
        DocumentEscapes bounds root := by
  unfold snapshotFromJson
  by_cases hobject : root.isObject = true
  swap
  · rw [if_pos (by simpa using hobject)]
    exact Or.inl ⟨Or.inr ⟨_, Or.inl rfl⟩, fun h => hobject h.1⟩
  rw [if_neg (by simp [hobject])]
  by_cases hformat : readString root (str "format") [] = str "topology_fabric_snapshot"
  swap
  · rw [if_pos hformat]
    exact Or.inl ⟨Or.inr ⟨_, Or.inl rfl⟩, fun h => hformat h.2.1⟩
  rw [if_neg (not_not.mpr hformat)]
  cases hnodes : findArray root (str "nodes") with
  | none =>
    refine Or.inl ⟨Or.inr ⟨_, Or.inl rfl⟩, ?_⟩
    rintro ⟨-, -, nodes, hsome, -⟩
    simp [hnodes] at hsome
  | some nodes =>
    have hescapes : DocumentEscapes bounds root ↔
        EntriesEscape IsNodeEntry bounds.maxNodes nodes ∨
          EntriesReadable IsNodeEntry bounds.maxNodes nodes ∧
            ∃ edges, findArray root (str "edges") = some edges ∧
              EntriesEscape IsEdgeEntry bounds.maxEdges edges := by
      simp only [DocumentEscapes, hobject, hformat, hnodes, true_and, Option.some.injEq,
        exists_eq_left']
    rw [hescapes]
    simp only
    -- the nodes are read first, and only when all of them are read the edges are looked at
    rcases readEntries_cases nodeFromJson_cases (str "node count exceeds bound")
      (fun b n => (SnapshotBuilder.addNode b n).2) nodes 0 (SnapshotBuilder.new bounds)
      (Nat.zero_le bounds.maxNodes) with
      ⟨⟨b, hb⟩, hreadable⟩ | ⟨hrejects, hnot, hunreadable⟩ | ⟨hthrows, hescape⟩
    · rw [hb, Outcome.ok_bind]
      cases hedges : findArray root (str "edges") with
      | none =>
        refine Or.inl ⟨Or.inr ⟨_, Or.inl rfl⟩, ?_⟩
        rintro (h | ⟨-, edges, hsome, -⟩)
        · exact hreadable.not_escape h
        · cases hsome
      | some edges =>
        have htaken : b.taken = false := by
          obtain ⟨ns, -, rfl⟩ := readEntries_eq_ok hb
          exact SnapshotBuilder.foldl_addNode_taken id ns _
        rcases readEdges_cases order root bounds htaken edges with ⟨hend, hnot⟩ | ⟨hthrows, hescape⟩
        · refine Or.inl ⟨hend, ?_⟩
          rintro (h | ⟨-, edges', hsome, h⟩)
          · exact hreadable.not_escape h
          · exact hnot (Option.some.inj hsome ▸ h)
        · exact Or.inr ⟨hthrows, Or.inr ⟨hreadable, edges, rfl, hescape⟩⟩
    · exact Or.inl ⟨Or.inr (hrejects.bind _),
        fun h => h.elim hnot fun h => hunreadable h.1⟩
    · exact Or.inr ⟨by rw [hthrows]; rfl, Or.inl hescape⟩

/-! ## Texts -/

/-- Reading a text returns a snapshot or is rejected, exactly when it is not the case that the text
is parsed and fits and its document lets an exception escape. -/
theorem deserializeSnapshotJson_rejects_iff (order : IterationOrder) (jsonText : Bytes)
    (bounds : Bounds) :
    ReturnsOrRejects (deserializeSnapshotJson order jsonText bounds) ↔
      ¬ ∃ r, parse {} jsonText = .ok r ∧ r.ok = true ∧ jsonText.length ≤ bounds.maxSnapshotBytes ∧
        DocumentEscapes bounds r.value := by
  obtain ⟨r, hr⟩ := parse_returns {} jsonText
  unfold deserializeSnapshotJson
  simp only [hr, Outcome.ok_bind, Outcome.ok.injEq, exists_eq_left']
  by_cases hok : r.ok = true
  swap
  · rw [if_pos (by simpa using hok)]
    exact iff_of_true (Or.inr ⟨_, Or.inl rfl⟩) fun h => hok h.1
  rw [if_neg (by simp [hok])]
  by_cases hsize : bounds.maxSnapshotBytes < jsonText.length
  · rw [if_pos hsize]
    exact iff_of_true (Or.inr ⟨_, Or.inr rfl⟩) fun h => absurd h.2.1 (not_le.mpr hsize)
  rw [if_neg hsize]
  -- only an exception of another kind gets out
  rcases snapshotFromJson_cases order r.value bounds with ⟨hend, hnot⟩ | ⟨hthrows, hescapes⟩
  · exact iff_of_true hend fun h => hnot h.2.2
  · refine iff_of_false ?_ (not_not.mpr ⟨hok, not_lt.mp hsize, hescapes⟩)
    rintro (⟨snap, hsnap⟩ | ⟨msg, h | h⟩)
    · rw [hthrows] at hsnap
      cases hsnap
    · rw [hthrows] at h
      cases h
    · rw [hthrows] at h
      cases h

/-- A document with one node that has a mixed property. -/
def mixedDocument : Bytes :=
  str "\x7b\"format\":\"topology_fabric_snapshot\",\"nodes\":[\x7b\"id\":" ++
    str "\"00000000000000000000000000000001\",\"properties\":\x7b\"p\":[\"a\",1]\x7d\x7d]," ++
    str "\"edges\":[]\x7d"

/-- Reading it ends in `std::bad_variant_access`. -/
theorem deserializeSnapshotJson_escapes :
    ¬ ReturnsOrRejects (deserializeSnapshotJson .insertion mixedDocument {}) := by
  have hescapes : (match deserializeSnapshotJson .insertion mixedDocument {} with
      | .throws .badVariantAccess => true
      | _ => false) = true := by decide +kernel
  rintro (⟨snap, h⟩ | ⟨msg, h | h⟩) <;>
    · rw [h] at hescapes
      cases hescapes

end TopologyFabric

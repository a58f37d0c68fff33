import TopologyFabric.Json.Truncation
import TopologyFabric.Serialization.Rejection
import TopologyFabric.Serialization.RoundTrip

/-!
# Truncated Documents

A document that was cut short is rejected wherever the cut is: what the parser still accepts of it is
not an object, and the root of a document has to be one.

## Main results

- `deserialize_truncated`: every proper prefix of a serialized snapshot is rejected
-/

namespace TopologyFabric

open Library Json

/-- A text that is not parsed as an object is rejected. -/
theorem deserialize_rejects_of_not_object {order : IterationOrder} {bounds : Bounds} {text : Bytes}
    (h : ∀ r, parse {} text = .ok r → r.ok = true → r.value.isObject = false) :
    Rejects (deserializeSnapshotJson order text bounds) := by
  obtain ⟨r, hr⟩ := parse_returns {} text
  unfold deserializeSnapshotJson
  rw [hr, Outcome.ok_bind]
  by_cases hok : r.ok = false
  · rw [if_pos hok]
    exact ⟨_, Or.inl rfl⟩
  rw [if_neg hok]
  by_cases hlong : bounds.maxSnapshotBytes < text.length
  · rw [if_pos hlong]
    exact ⟨_, Or.inr rfl⟩
  rw [if_neg hlong, snapshotFromJson, if_pos (h r hr (Bool.eq_true_of_not_eq_false hok))]
  exact ⟨_, Or.inl rfl⟩

/-- **Truncation is always detected.** Every proper prefix of the text of a snapshot is rejected with
a `TopologyError`, under all bounds. -/
theorem deserialize_truncated {snap : TopologySnapshot} (hstrings : StringsFit snap) (pretty : Bool)
    (bounds : Bounds) (order : IterationOrder) {text : Bytes}
    (hpre : text <+: serializeSnapshotJson snap pretty)
    (hne : text ≠ serializeSnapshotJson snap pretty) :
    Rejects (deserializeSnapshotJson order text bounds) :=
  deserialize_rejects_of_not_object fun _ hr hok =>
    parse_cut (snapshotToJson_fits_of_stringsFit hstrings) hpre hne hr hok

/-- The text of a snapshot has a last character. -/
theorem dropLast_serializeSnapshotJson_ne (snap : TopologySnapshot) (pretty : Bool) :
    (serializeSnapshotJson snap pretty).dropLast ≠ serializeSnapshotJson snap pretty := by
  intro heq
  have hlen := congrArg List.length heq
  have hpos : 0 < (serializeSnapshotJson snap pretty).length := Nat.succ_pos _
  rw [List.length_dropLast] at hlen
  omega

/-- The text of a snapshot of one accelerator without its last character. -/
theorem deserialize_truncated_named :
    Rejects (deserializeSnapshotJson .insertion
      (serializeSnapshotJson (acceleratorSnapshot (str "gpu")) true).dropLast {}) :=
  deserialize_truncated readable_named.1 true {} .insertion (List.dropLast_prefix _)
    (dropLast_serializeSnapshotJson_ne _ _)

end TopologyFabric

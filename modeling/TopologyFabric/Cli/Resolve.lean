import TopologyFabric.Core.Snapshot
import TopologyFabric.Library.FirstMatch
import TopologyFabric.Library.Search

/-!
# Names on the Command Line

A node is named on the command line by its id in hex, by its name, or by a part of its name. The
node map is searched in an order that the source leaves open, so a name that several nodes share, or
a part of several names, can stand for each of them.

## Main results

- `resolveId_iff`: what a token can stand for
-/

namespace TopologyFabric

open Library

/-! ## The code -/

/-- `s.find(key) != std::string::npos`. -/
def containsText (key s : Bytes) : Bool := (findText key s).isSome

/-- The token is the name or the display name. -/
def isNamed (token : Bytes) (e : TopologyNodeId × TopologyNode) : Bool :=
  decide (e.2.name = token ∨ e.2.displayName = token)

/-- The loop of `resolve_id`: an exact match ends it, the first part of a name is kept. -/
def resolveName (token : Bytes) : List (TopologyNodeId × TopologyNode) → TopologyNodeId →
    TopologyNodeId
  | [], first => first
  | e :: rest, first =>
    if isNamed token e then e.1
    else if containsText token e.2.name then
      resolveName token rest (if first = kNullNodeId then e.1 else first)
    else resolveName token rest first

/-- Find a node by its hex id or by its name. -/
def resolveId (order : IterationOrder) (snap : TopologySnapshot) (token : Bytes) :
    TopologyNodeId :=
  match TopologyNodeId.tryFromHex token with
  | some id => id
  | none => resolveName token (snap.nodes.reorder order).entries kNullNodeId

/-! ## What is found -/

/-- A part of the name of a node with an id. -/
def isPartOfName (token : Bytes) (e : TopologyNodeId × TopologyNode) : Bool :=
  containsText token e.2.name && decide (e.1 ≠ kNullNodeId)

/-- The loop searches for an exact match first, and then for a part of a name. -/
theorem resolveName_eq (token : Bytes) (l : List (TopologyNodeId × TopologyNode))
    (first : TopologyNodeId) :
    resolveName token l first = ((l.find? (isNamed token)).map Prod.fst).getD
      (if first = kNullNodeId then ((l.find? (isPartOfName token)).map Prod.fst).getD kNullNodeId
      else first) := by
  induction l generalizing first with
  | nil => simp [resolveName]
  | cons e l ih =>
    rw [resolveName]
    cases hnamed : isNamed token e with
    | true => simp [hnamed]
    | false =>
      rw [List.find?_cons_of_neg (by simp [hnamed]), if_neg Bool.false_ne_true]
      cases hcontains : containsText token e.2.name with
      | false =>
        rw [if_neg Bool.false_ne_true, ih, List.find?_cons_of_neg (by simp [isPartOfName, hcontains])]
      | true =>
        -- a part of the name of the node with the null id is found and forgotten again
        rw [if_pos rfl, ih]
        by_cases hnull : e.1 = kNullNodeId
        · rw [List.find?_cons_of_neg (by simp [isPartOfName, hnull])]
          split_ifs <;> simp_all
        · rw [List.find?_cons_of_pos (by simp [isPartOfName, hcontains, hnull])]
          split_ifs <;> simp_all

/-- What a token can stand for: the id that it spells, whether a node has it or not; else a node of
that name; if there is none, a node whose name has the token in it; if there is none either, no
node. -/
inductive StandsFor (snap : TopologySnapshot) (token : Bytes) : TopologyNodeId → Prop
  | hex {id : TopologyNodeId} (h : TopologyNodeId.tryFromHex token = some id) :
      StandsFor snap token id
  | name {id : TopologyNodeId} {n : TopologyNode} (hhex : TopologyNodeId.tryFromHex token = none)
      (hn : snap.findNode id = some n) (h : n.name = token ∨ n.displayName = token) :
      StandsFor snap token id
  | part {id : TopologyNodeId} {n : TopologyNode} (hhex : TopologyNodeId.tryFromHex token = none)
      (hnone : ∀ id n, snap.findNode id = some n → ¬ (n.name = token ∨ n.displayName = token))
      (hn : snap.findNode id = some n) (h : token <:+: n.name) (hid : id ≠ kNullNodeId) :
      StandsFor snap token id
  | nothing (hhex : TopologyNodeId.tryFromHex token = none)
      (hnone : ∀ id n, snap.findNode id = some n → ¬ (n.name = token ∨ n.displayName = token))
      (hpart : ∀ id n, snap.findNode id = some n → token <:+: n.name → id = kNullNodeId) :
      StandsFor snap token kNullNodeId

section Orders

variable {snap : TopologySnapshot} {token : Bytes} {id : TopologyNodeId}

theorem isNamed_iff {e : TopologyNodeId × TopologyNode} :
    isNamed token e = true ↔ e.2.name = token ∨ e.2.displayName = token := by
  simp [isNamed]

theorem isPartOfName_iff {e : TopologyNodeId × TopologyNode} :
    isPartOfName token e = true ↔ token <:+: e.2.name ∧ e.1 ≠ kNullNodeId := by
  simp [isPartOfName, containsText, findText_isSome]

/-- No node has a property that no entry has. -/
theorem forall_entries_iff {p : TopologyNodeId × TopologyNode → Bool} :
    (∀ e ∈ snap.nodes.entries, p e = false) ↔
      ∀ id n, snap.findNode id = some n → ¬ p (id, n) = true := by
  simp [TopologySnapshot.findNode, HashMap.find?_eq_some]

theorem not_isNamed (hnone : ∀ id n, snap.findNode id = some n →
    ¬ (n.name = token ∨ n.displayName = token)) :
    ∀ e ∈ snap.nodes.entries, isNamed token e = false :=
  forall_entries_iff.mpr fun id n hn => by simpa [isNamed] using hnone id n hn

/-- For a token that is no id: an exact match, else a part of a name, else nothing. -/
theorem resolveId_eq (hhex : TopologyNodeId.tryFromHex token = none) (order : IterationOrder) :
    resolveId order snap token =
      (((snap.nodes.reorder order).entries.find? (isNamed token)).map Prod.fst).getD
        ((((snap.nodes.reorder order).entries.find? (isPartOfName token)).map Prod.fst).getD
          kNullNodeId) := by
  simp only [resolveId, hhex, resolveName_eq, if_true]

/-- Whatever the order is, the result is one of those. -/
theorem resolveId_standsFor (order : IterationOrder) :
    StandsFor snap token (resolveId order snap token) := by
  cases hhex : TopologyNodeId.tryFromHex token with
  | some id =>
    rw [resolveId, hhex]
    exact .hex hhex
  | none =>
    rw [resolveId_eq hhex]
    cases hnamed : (snap.nodes.reorder order).entries.find? (isNamed token) with
    | some e =>
      have hfound := HashMap.exists_find?_reorder.mp ⟨order, hnamed⟩
      exact .name hhex (HashMap.find?_eq_some.mpr hfound.1) (isNamed_iff.mp hfound.2)
    | none =>
      have hnone := forall_entries_iff.mp ((HashMap.find?_reorder_eq_none order).mp hnamed)
      simp only [isNamed_iff] at hnone
      cases hpart : (snap.nodes.reorder order).entries.find? (isPartOfName token) with
      | some e =>
        obtain ⟨he, hfound⟩ := HashMap.exists_find?_reorder.mp ⟨order, hpart⟩
        obtain ⟨hwithin, hid⟩ := isPartOfName_iff.mp hfound
        exact .part hhex hnone (HashMap.find?_eq_some.mpr he) hwithin hid
      | none =>
        have hnothing := forall_entries_iff.mp ((HashMap.find?_reorder_eq_none order).mp hpart)
        simp only [isPartOfName_iff, not_and, not_not] at hnothing
        exact .nothing hhex hnone hnothing

/-- **What a token can stand for**, in some iteration order of the nodes. -/
theorem resolveId_iff (snap : TopologySnapshot) (token : Bytes) (id : TopologyNodeId) :
    (∃ order, resolveId order snap token = id) ↔ StandsFor snap token id := by
  constructor
  · rintro ⟨order, rfl⟩
    exact resolveId_standsFor order
  · intro h
    cases h with
    | hex h => exact ⟨.insertion, by rw [resolveId, h]⟩
    | @name id n hhex hn h =>
      -- the node comes first in some order
      obtain ⟨order, hfirst⟩ := HashMap.exists_find?_reorder (p := isNamed token) (e := (id, n)).mpr
        ⟨HashMap.find?_eq_some.mp hn, isNamed_iff.mpr h⟩
      exact ⟨order, by rw [resolveId_eq hhex, hfirst]; rfl⟩
    | @part id n hhex hnone hn h hid =>
      obtain ⟨order, hfirst⟩ := HashMap.exists_find?_reorder (p := isPartOfName token)
        (e := (id, n)).mpr ⟨HashMap.find?_eq_some.mp hn, isPartOfName_iff.mpr ⟨h, hid⟩⟩
      have hnamed := (HashMap.find?_reorder_eq_none order).mpr (not_isNamed hnone)
      exact ⟨order, by rw [resolveId_eq hhex, hfirst, hnamed]; rfl⟩
    | nothing hhex hnone hpart =>
      have hnamed := (HashMap.find?_reorder_eq_none .insertion).mpr (not_isNamed hnone)
      have hnothing : ∀ id n, snap.findNode id = some n → ¬ isPartOfName token (id, n) = true := by
        simpa only [isPartOfName_iff, not_and, not_not] using hpart
      have hnothing := (HashMap.find?_reorder_eq_none .insertion).mpr
        (forall_entries_iff.mpr hnothing)
      exact ⟨.insertion, by rw [resolveId_eq hhex, hnamed, hnothing]; rfl⟩

end Orders

end TopologyFabric

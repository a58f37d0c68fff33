import Mathlib.Logic.Relation

/-!
# Attaching Nodes to One Node

A relation to which edges from one node to all nodes with a property are added. A path in the larger
relation that uses a new edge passes the node at its first use, and goes on from an attached node
after its last.

## Main results

- `acyclic_attach_iff`: when attaching makes no cycle
- `exists_link_attach_iff`: what is linked with a node of interest after attaching
-/

namespace TopologyFabric.Library

open Relation

universe u

variable {V : Type u} {r : V → V → Prop} {m : V} {p : V → Prop} {a b : V}

/-- The relation with edges from `m` to the nodes with the property. -/
def Attach (r : V → V → Prop) (m : V) (p : V → Prop) (a b : V) : Prop :=
  r a b ∨ a = m ∧ p b

/-- A path that is not an old one reaches `m`, and later leaves an attached node for good. -/
theorem Attach.transGen (h : TransGen (Attach r m p) a b) :
    TransGen r a b ∨ ReflTransGen r a m ∧ ∃ u, p u ∧ ReflTransGen r u b := by
  induction h with
  | single hstep =>
    rcases hstep with hold | ⟨rfl, hp⟩
    · exact Or.inl (.single hold)
    · exact Or.inr ⟨.refl, _, hp, .refl⟩
  | tail _ hstep ih =>
    rcases hstep with hold | ⟨rfl, hp⟩
    · rcases ih with hpath | ⟨hm, u, hu, hpath⟩
      · exact Or.inl (hpath.tail hold)
      · exact Or.inr ⟨hm, u, hu, hpath.tail hold⟩
    · -- the new edge is the last one so far
      refine Or.inr ⟨?_, _, hp, .refl⟩
      rcases ih with hpath | ⟨hm, -⟩
      · exact hpath.to_reflTransGen
      · exact hm

/-- Attaching nodes to `m` makes a cycle iff one of them leads to `m`. -/
theorem acyclic_attach_iff (hacyclic : ∀ a, ¬ TransGen r a a) :
    (∀ a, ¬ TransGen (Attach r m p) a a) ↔ ∀ u, p u → ¬ ReflTransGen r u m := by
  constructor
  · intro h u hu hpath
    have hback : ReflTransGen (Attach r m p) u m :=
      ReflTransGen.mono (fun _ _ => Or.inl) _ _ hpath
    exact h m (TransGen.head' (Or.inr ⟨rfl, hu⟩) hback)
  · intro h a hcycle
    rcases Attach.transGen hcycle with hold | ⟨hm, u, hu, hpath⟩
    · exact hacyclic a hold
    · exact h u hu (hpath.trans hm)

section Link

variable {s : V → V → Prop} {q : V → Prop}

/-- A path over edges that can be used both ways stays among the old ones until it comes to `m` or
to an attached node. -/
private theorem link_attach (hs : ∀ a b, s a b ↔ r a b ∨ a = m ∧ p b ∨ p a ∧ b = m)
    (h : ReflTransGen s a b) :
    ReflTransGen r a b ∨ ∃ c, ReflTransGen r a c ∧ (c = m ∨ p c) := by
  induction h with
  | refl => exact Or.inl .refl
  | tail _ hstep ih =>
    rcases ih with hpath | hstop
    · rcases (hs _ _).mp hstep with hold | ⟨rfl, -⟩ | ⟨hp, -⟩
      · exact Or.inl (hpath.tail hold)
      · exact Or.inr ⟨_, hpath, Or.inl rfl⟩
      · exact Or.inr ⟨_, hpath, Or.inr hp⟩
    · exact Or.inr hstop

/-- If the new edges can be used both ways, a node is linked with one of the nodes of interest, with
`m` among them, iff it was linked with one of these or with an attached node before. -/
theorem exists_link_attach_iff (hs : ∀ a b, s a b ↔ r a b ∨ a = m ∧ p b ∨ p a ∧ b = m)
    (hm : q m) :
    (∃ b, ReflTransGen s a b ∧ q b) ↔ ∃ b, ReflTransGen r a b ∧ (q b ∨ p b) := by
  constructor
  · rintro ⟨b, hpath, hb⟩
    rcases link_attach hs hpath with hold | ⟨c, hc, rfl | hpc⟩
    · exact ⟨b, hold, Or.inl hb⟩
    · exact ⟨c, hc, Or.inl hm⟩
    · exact ⟨c, hc, Or.inr hpc⟩
  · rintro ⟨b, hpath, hb⟩
    have hpath' : ReflTransGen s a b :=
      ReflTransGen.mono (fun x y hxy => (hs x y).mpr (Or.inl hxy)) _ _ hpath
    rcases hb with hb | hb
    · exact ⟨b, hpath', hb⟩
    · exact ⟨m, hpath'.tail ((hs b m).mpr (Or.inr (Or.inr ⟨hb, rfl⟩))), hm⟩

end Link

end TopologyFabric.Library

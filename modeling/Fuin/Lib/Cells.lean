import Mathlib.Data.Nat.Notation
import Mathlib.Tactic.SplitIfs

/-! # Loops over arrays

An array on the stack of a C function has cells without a value until they are written, and indices
outside of it must not be used. `read` and `write` have no result there, so a computation that has one
never leaves its arrays and reads only what it has written. `loop` counts upwards; an invariant that its
body keeps holds after it (`loop_ok`). -/

namespace Fuin.Lib.Cells

variable {size : ℕ} {α σ : Type} {t t' : Vector (Option α) size} {i j k n : ℕ} {x : α}

/-- An array with nothing written yet. -/
def blank (size : ℕ) (α : Type) : Vector (Option α) size := Vector.replicate size none

def read (t : Vector (Option α) size) (j : ℕ) : Option α := t[j]?.join

def write (t : Vector (Option α) size) (j : ℕ) (x : α) : Option (Vector (Option α) size) :=
  if h : j < size then some (t.set j (some x) h) else none

theorem write_some (h : j < size) (t : Vector (Option α) size) (x : α) :
    ∃ t', write t j x = some t' := ⟨_, dif_pos h⟩

theorem read_write (h : write t j x = some t') (k : ℕ) :
    read t' k = if k = j then some x else read t k := by
  unfold write at h
  split_ifs at h with hj
  cases h
  unfold read
  by_cases hk : k = j
  · rw [if_pos hk, hk, Vector.getElem?_set_self]
    rfl
  · rw [if_neg hk, Vector.getElem?_set_ne _ (Ne.symm hk)]

/-- `for (i = first; i < first + n; i++)`. -/
def loop (body : ℕ → σ → Option σ) : ℕ → ℕ → σ → Option σ
  | _, 0, s => some s
  | first, n + 1, s => (body first s).bind (loop body (first + 1) n)

/-- **What the body keeps holds after the loop.** -/
theorem loop_ok {body : ℕ → σ → Option σ} {I : ℕ → σ → Prop} {first : ℕ} {s : σ}
    (hbody : ∀ i s, first ≤ i → i < first + n → I i s → ∃ s', body i s = some s' ∧ I (i + 1) s')
    (hs : I first s) : ∃ s', loop body first n s = some s' ∧ I (first + n) s' := by
  induction n generalizing first s with
  | zero => exact ⟨s, rfl, hs⟩
  | succ n ih =>
    obtain ⟨s₁, hfirst, hs₁⟩ := hbody first s (Nat.le_refl first) (by omega) hs
    obtain ⟨s₂, hrest, hs₂⟩ := ih
      (fun i s hi hn hI => hbody i s (by omega) (by omega) hI) hs₁
    refine ⟨s₂, ?_, ?_⟩
    · unfold loop
      rw [hfirst]
      exact hrest
    · rwa [show first + (n + 1) = first + 1 + n by omega]

end Fuin.Lib.Cells

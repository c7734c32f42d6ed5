import Mathlib.Data.List.Basic
import Mathlib.Logic.Function.Basic

/-! # Versioned maps

A ledger keeps for every key all values that were stored under it, the first one first, and whether
the last one is in force (`Entry`). Storing a value adds it and puts it in force (`Ledger.append`);
withdrawing a key keeps its values (`Ledger.withdraw`); nothing is ever taken away or changed. Values
are read by their number, counted from 1 (`Entry.version`), or as the one in force
(`Entry.current`). -/

namespace Fuin.Lib.Ledgers

/-- The values of a key; one that is in force has values. -/
@[ext] structure Entry (β : Type) where
  values : List β
  live : Bool
  ne_nil : live = true → values ≠ []

namespace Entry

variable {β : Type}

/-- A key under which nothing was stored. -/
def none : Entry β := ⟨[], false, fun h => absurd h Bool.false_ne_true⟩

/-- One more value, in force. -/
def append (e : Entry β) (x : β) : Entry β := ⟨e.values ++ [x], true, fun _ => by simp⟩

/-- No value is in force. -/
def withdraw (e : Entry β) : Entry β := ⟨e.values, false, fun h => absurd h Bool.false_ne_true⟩

/-- The value in force. -/
def current (e : Entry β) : Option β := if e.live then e.values.getLast? else .none

/-- The value with a number. -/
def version (e : Entry β) : ℕ → Option β
  | 0 => .none
  | v + 1 => e.values[v]?

variable {e : Entry β} {x : β}

@[simp] theorem append_values : (e.append x).values = e.values ++ [x] := rfl
@[simp] theorem append_live : (e.append x).live = true := rfl
@[simp] theorem withdraw_values : e.withdraw.values = e.values := rfl
@[simp] theorem withdraw_live : e.withdraw.live = false := rfl

theorem current_eq_none : e.current = .none ↔ e.live = false := by
  unfold current
  cases hl : e.live with
  | false => exact iff_of_true rfl rfl
  | true => exact iff_of_false (fun h => e.ne_nil hl (List.getLast?_eq_none_iff.mp h)) (nomatch ·)

theorem current_eq_some : e.current = some x ↔ e.live = true ∧ e.version e.values.length = some x := by
  unfold current
  cases hl : e.live with
  | false => exact iff_of_false (nomatch ·) (nomatch ·.1)
  | true =>
    obtain ⟨v, hv⟩ := Nat.exists_eq_add_of_lt (List.length_pos_of_ne_nil (e.ne_nil hl))
    rw [Nat.zero_add] at hv
    rw [hv, version, if_pos rfl, List.getLast?_eq_getElem?, hv, Nat.add_sub_cancel]
    exact (and_iff_right rfl).symm

end Entry

/-- A ledger. -/
abbrev Ledger (α β : Type) := α → Entry β

namespace Ledger

variable {α β : Type} [DecidableEq α]

/-- Nothing is stored. -/
def empty : Ledger α β := fun _ => .none

/-- A value is stored under a key. -/
def append (b : Ledger α β) (a : α) (x : β) : Ledger α β := Function.update b a ((b a).append x)

/-- A key is withdrawn. -/
def withdraw (b : Ledger α β) (a : α) : Ledger α β := Function.update b a (b a).withdraw

/-- The value in force is stored again. -/
def renew (b : Ledger α β) (a : α) : Ledger α β := ((b a).current.map (b.append a)).getD b

variable {b : Ledger α β} {a c : α} {x : β}

theorem append_self : b.append a x a = (b a).append x := Function.update_self ..
theorem append_of_ne (h : c ≠ a) : b.append a x c = b c := Function.update_of_ne h ..
theorem withdraw_self : b.withdraw a a = (b a).withdraw := Function.update_self ..
theorem withdraw_of_ne (h : c ≠ a) : b.withdraw a c = b c := Function.update_of_ne h ..

theorem renew_eq (h : (b a).current = some x) : b.renew a = b.append a x := by
  unfold renew
  rw [h]
  rfl

/-- The keys of a list are renewed, one after the other; each is in force. -/
def Renewed (b : Ledger α β) (l : List α) (b' : Ledger α β) : Prop :=
  (∀ a ∈ l, (b a).live = true) ∧ b' = l.foldl renew b

theorem renewed_nil : b.Renewed [] b := ⟨fun _ h => (nomatch h), rfl⟩

/-- Storing a value under a key that is in force puts no other key in force. -/
theorem live_of_append (ha : (b a).live = true) (h : (b.append a x c).live = true) :
    (b c).live = true := by
  by_cases hc : c = a
  · rw [hc]
    exact ha
  · rwa [append_of_ne hc] at h

theorem Renewed.cons {b' : Ledger α β} {l : List α} (hx : (b a).current = some x)
    (h : (b.append a x).Renewed l b') : b.Renewed (a :: l) b' := by
  have ha : (b a).live = true := (Entry.current_eq_some.mp hx).1
  obtain ⟨hlive, rfl⟩ := h
  refine ⟨fun c hc => ?_, ?_⟩
  · rcases List.mem_cons.mp hc with rfl | hc
    · exact ha
    · exact live_of_append ha (hlive c hc)
  · rw [List.foldl_cons, renew_eq hx]

/-! ### What stays -/

variable {b' : Ledger α β} {l : List α} {y : β} {k : ℕ}

theorem version_append (h : (b c).version k = some y) : (b.append a x c).version k = some y := by
  by_cases hc : c = a
  · subst hc
    rw [append_self]
    cases k with
    | zero => exact h
    | succ k =>
      have hget : (b c).values[k]? = some y := h
      obtain ⟨hk, -⟩ := List.getElem?_eq_some_iff.mp hget
      exact (List.getElem?_append_left hk).trans hget
  · rwa [append_of_ne hc]

theorem version_withdraw (h : (b c).version k = some y) : (b.withdraw a c).version k = some y := by
  by_cases hc : c = a
  · subst hc
    rw [withdraw_self]
    cases k <;> exact h
  · rwa [withdraw_of_ne hc]

/-- **Renewing** takes no version away, and keeps the values in force. -/
theorem Renewed.version (h : b.Renewed l b') (hy : (b c).version k = some y) :
    (b' c).version k = some y := by
  obtain ⟨-, rfl⟩ := h
  induction l generalizing b with
  | nil => exact hy
  | cons a l ih =>
    refine ih ?_
    unfold renew
    cases (b a).current with
    | none => exact hy
    | some x => exact version_append hy

theorem current_append_self : (b.append a x a).current = some x := by
  rw [append_self]
  unfold Entry.current
  simp

theorem current_renew : (b.renew a c).current = (b c).current := by
  unfold renew
  cases ha : (b a).current with
  | none => rfl
  | some x =>
    by_cases hc : c = a
    · rw [hc, ha]
      exact current_append_self
    · exact congrArg Entry.current (append_of_ne hc)

theorem Renewed.current (h : b.Renewed l b') : (b' c).current = (b c).current := by
  obtain ⟨-, rfl⟩ := h
  induction l generalizing b with
  | nil => rfl
  | cons a l ih => exact ih.trans current_renew

end Ledger

end Fuin.Lib.Ledgers

import Mathlib.Tactic.SplitIfs
import Fuin.Lib.Frames

/-! # Reading a buffer

A parser in C walks over a buffer with offsets and lengths that come from the buffer itself. Here the
reads and the subtractions of unsigned numbers are checked: a computation ends with a value, with an
error of its own (`fail`), or with something that must never happen: a read that leaves the buffer or
a difference below zero. `Safe Q x` says that it does not happen in `x` and that a value it ends with
is in `Q`; the rules follow the statements of the parser. -/

namespace Fuin.Lib.Buffer

open Fuin.Lib.Frames

/-- How a computation over a buffer can stop. -/
inductive Stop (ε : Type) where
  | fail (e : ε)
  | outOfBounds
  | underflow
  deriving DecidableEq

/-- A computation over a buffer. -/
abbrev Checked (ε α : Type) := Except (Stop ε) α

variable {ε α β : Type}

/-- A check with its error. -/
def check (p : Prop) [Decidable p] (e : ε) : Checked ε Unit :=
  if p then .ok () else .error (.fail e)

/-- A difference of unsigned numbers. -/
def sub (a b : ℕ) : Checked ε ℕ := if b ≤ a then .ok (a - b) else .error .underflow

/-- The `n` bytes at an offset. -/
def slice (b : List UInt8) (offset n : ℕ) : Checked ε (List UInt8) :=
  if offset + n ≤ b.length then .ok ((b.drop offset).take n) else .error .outOfBounds

/-- The `n` bytes at an offset, copied into an array of this length. -/
def block (n : ℕ) (b : List UInt8) (offset : ℕ) : Checked ε {s : List UInt8 // s.length = n} :=
  if h : offset + n ≤ b.length then
    .ok ⟨(b.drop offset).take n, by rw [List.length_take, List.length_drop]; omega⟩
  else .error .outOfBounds

/-- The number in the `k` bytes at an offset, least significant first. -/
def readLe (k : ℕ) (b : List UInt8) (offset : ℕ) : Checked ε ℕ :=
  (slice b offset k).map ofLeBytes

/-- A computation that only ends with a value or an error of its own. -/
def checked : Except ε α → Checked ε α
  | .ok a => .ok a
  | .error e => .error (.fail e)

/-- Nothing undefined happens, and a value is in `Q`. -/
def Safe (Q : α → Prop) : Checked ε α → Prop
  | .ok a => Q a
  | .error (.fail _) => True
  | .error .outOfBounds => False
  | .error .underflow => False

/-! ### Rules -/

variable {Q : α → Prop} {b s r : List UInt8} {offset n k : ℕ}

theorem Safe.mono {Q' : α → Prop} {x : Checked ε α} (h : Safe Q x) (hQ : ∀ a, Q a → Q' a) :
    Safe Q' x := by
  match x with
  | .ok a => exact hQ a h
  | .error (.fail _) => trivial

theorem safe_bind {Q : β → Prop} {x : Checked ε α} {f : α → Checked ε β}
    (h : Safe (fun a => Safe Q (f a)) x) : Safe Q (x >>= f) := by
  match x with
  | .ok a => exact h
  | .error (.fail _) => trivial

theorem safe_check_bind {p : Prop} [Decidable p] {e : ε} {f : Unit → Checked ε α}
    (h : p → Safe Q (f ())) : Safe Q (check p e >>= f) := by
  refine safe_bind ?_
  unfold check
  split_ifs with hp
  · exact h hp
  · trivial

theorem safe_sub_bind {a b : ℕ} {f : ℕ → Checked ε α} (hle : b ≤ a) (h : Safe Q (f (a - b))) :
    Safe Q (sub a b >>= f) := by
  unfold sub
  rw [if_pos hle]
  exact h

/-- A slice is cut out of the buffer. -/
theorem safe_slice_bind {f : List UInt8 → Checked ε α} (hle : offset + n ≤ b.length)
    (h : ∀ s, s.length = n → b.drop offset = s ++ b.drop (offset + n) → Safe Q (f s)) :
    Safe Q (slice b offset n >>= f) := by
  unfold slice
  rw [if_pos hle]
  refine h _ ?_ ?_
  · rw [List.length_take, List.length_drop]
    omega
  · rw [← List.drop_drop, List.take_append_drop]

theorem safe_block_bind {f : {s : List UInt8 // s.length = n} → Checked ε α}
    (hle : offset + n ≤ b.length)
    (h : ∀ s, b.drop offset = s.1 ++ b.drop (offset + n) → Safe Q (f s)) :
    Safe Q (block n b offset >>= f) := by
  unfold block
  rw [dif_pos hle]
  refine h _ ?_
  rw [← List.drop_drop, List.take_append_drop]

theorem safe_checked_bind {x : Except ε β} {f : β → Checked ε α}
    (h : ∀ a, x = .ok a → Safe Q (f a)) : Safe Q (checked x >>= f) := by
  match x with
  | .ok a => exact h a rfl
  | .error e => trivial

/-- A number is read where its bytes are. -/
theorem safe_readLe_bind {f : ℕ → Checked ε α} (hle : offset + k ≤ b.length)
    (h : ∀ v, v < 256 ^ k → b.drop offset = leBytes k v ++ b.drop (offset + k) → Safe Q (f v)) :
    Safe Q (readLe k b offset >>= f) := by
  have hlen : ((b.drop offset).take k).length = k := by
    rw [List.length_take, List.length_drop]
    omega
  have hlt := ofLeBytes_lt ((b.drop offset).take k)
  have hle' := leBytes_ofLeBytes ((b.drop offset).take k)
  rw [hlen] at hlt hle'
  unfold readLe slice
  rw [if_pos hle]
  refine h _ hlt ?_
  rw [hle', ← List.drop_drop, List.take_append_drop]

/-! ### What is read of known bytes -/

theorem check_pos {p : Prop} [Decidable p] {e : ε} (h : p) : check p e = .ok () := if_pos h

theorem sub_pos {a b : ℕ} (h : b ≤ a) : (sub a b : Checked ε ℕ) = .ok (a - b) := if_pos h

theorem drop_add (h : b.drop offset = s ++ r) (hn : s.length = n) : b.drop (offset + n) = r := by
  rw [← List.drop_drop, h, List.drop_left' hn]

theorem le_length_of_drop (h : b.drop offset = s ++ r) (hn : s.length = n) (hpos : 0 < n) :
    offset + n ≤ b.length := by
  have hlen := congrArg List.length h
  rw [List.length_drop, List.length_append] at hlen
  omega

/-- A slice of the buffer, and what comes after it. -/
theorem slice_next (h : b.drop offset = s ++ r) (hn : s.length = n) (hpos : 0 < n) :
    (slice b offset n : Checked ε _) = .ok s ∧ b.drop (offset + n) = r := by
  refine ⟨?_, drop_add h hn⟩
  unfold slice
  rw [if_pos (le_length_of_drop h hn hpos), h, List.take_left' hn]

theorem block_next {s : {s : List UInt8 // s.length = n}} (h : b.drop offset = s.1 ++ r)
    (hpos : 0 < n) :
    (block n b offset : Checked ε _) = .ok s ∧ b.drop (offset + n) = r := by
  refine ⟨?_, drop_add h s.2⟩
  unfold block
  rw [dif_pos (le_length_of_drop h s.2 hpos)]
  refine congrArg Except.ok (Subtype.ext ?_)
  show (b.drop offset).take n = s.1
  rw [h, List.take_left' s.2]

theorem readLe_next {v : ℕ} (h : b.drop offset = leBytes k v ++ r) (hpos : 0 < k)
    (hv : v < 256 ^ k) :
    (readLe k b offset : Checked ε ℕ) = .ok v ∧ b.drop (offset + k) = r := by
  obtain ⟨hs, hnext⟩ := slice_next h (length_leBytes k v) hpos
  refine ⟨?_, hnext⟩
  unfold readLe
  rw [hs]
  show Except.ok (ofLeBytes (leBytes k v)) = _
  rw [ofLeBytes_leBytes, Nat.mod_eq_of_lt hv]

end Fuin.Lib.Buffer

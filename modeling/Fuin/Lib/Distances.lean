import Mathlib.Data.List.Basic
import Mathlib.Order.Lattice.Nat

/-! # The distance of two texts

An edit puts a letter in, takes one out or replaces one, anywhere in a text; `distance` is the least
number of edits from one text to another. An alignment reads both texts once, from left to right, and
says of each letter whether it is kept, dropped, added or replaced. Edits compose to an alignment that
is no dearer (`Edits.aligned`), and an alignment is carried out by edits (`Aligned.edits`), so the
distance is the least cost of an alignment as well, and that is computed from the distances of the
texts without their last letters (`distance_concat`). -/

namespace Fuin.Lib.Distances

variable {α : Type*} {a b c p s : List α} {x y : α} {m n : ℕ}

/-! ### Edits -/

/-- One edit. -/
inductive Edit : List α → List α → Prop
  | insert (p s : List α) (x : α) : Edit (p ++ s) (p ++ x :: s)
  | delete (p s : List α) (x : α) : Edit (p ++ x :: s) (p ++ s)
  | replace (p s : List α) (x y : α) : Edit (p ++ x :: s) (p ++ y :: s)

/-- So many edits lead from one text to the other. -/
inductive Edits : ℕ → List α → List α → Prop
  | refl (a : List α) : Edits 0 a a
  | tail {n : ℕ} {a b c : List α} : Edits n a b → Edit b c → Edits (n + 1) a c

/-- **The least number of edits.** -/
noncomputable def distance (a b : List α) : ℕ := sInf {n | Edits n a b}

theorem Edits.trans (h : Edits m a b) (h' : Edits n b c) : Edits (m + n) a c := by
  induction h' with
  | refl => exact h
  | tail _ hedit ih => exact (ih h).tail hedit

theorem Edit.cons (h : Edit a b) (x : α) : Edit (x :: a) (x :: b) := by
  cases h with
  | insert p s y => exact .insert (x :: p) s y
  | delete p s y => exact .delete (x :: p) s y
  | replace p s y z => exact .replace (x :: p) s y z

theorem Edits.cons (h : Edits n a b) (x : α) : Edits n (x :: a) (x :: b) := by
  induction h with
  | refl => exact .refl _
  | tail _ hedit ih => exact ih.tail (hedit.cons x)

/-! ### Alignments -/

/-- Both texts are read from left to right at this cost. -/
inductive Aligned : ℕ → List α → List α → Prop
  | nil : Aligned 0 [] []
  | keep {n : ℕ} {a b : List α} (x : α) : Aligned n a b → Aligned n (x :: a) (x :: b)
  | drop {n : ℕ} {a b : List α} (x : α) : Aligned n a b → Aligned (n + 1) (x :: a) b
  | add {n : ℕ} {a b : List α} (y : α) : Aligned n a b → Aligned (n + 1) a (y :: b)
  | swap {n : ℕ} {a b : List α} (x y : α) : Aligned n a b → Aligned (n + 1) (x :: a) (y :: b)

theorem aligned_refl : ∀ a : List α, Aligned 0 a a
  | [] => .nil
  | x :: a => (aligned_refl a).keep x

/-- An alignment is carried out from its right end. -/
theorem Aligned.edits (h : Aligned n a b) : Edits n a b := by
  induction h with
  | nil => exact .refl []
  | keep x _ ih => exact ih.cons x
  | @drop n a b x _ ih =>
    have hfirst : Edits 1 (x :: a) a := (Edits.refl (x :: a)).tail (.delete [] a x)
    rw [Nat.add_comm]
    exact hfirst.trans ih
  | add y _ ih => exact ih.tail (.insert [] _ y)
  | swap x y _ ih => exact (ih.cons x).tail (.replace [] _ x y)

theorem Aligned.append (h : Aligned m a b) (h' : Aligned n p s) : Aligned (m + n) (a ++ p) (b ++ s) := by
  induction h with
  | nil => simpa using h'
  | keep x _ ih => exact ih.keep x
  | drop x _ ih =>
    rw [Nat.add_right_comm]
    exact ih.drop x
  | add y _ ih =>
    rw [Nat.add_right_comm]
    exact ih.add y
  | swap x y _ ih =>
    rw [Nat.add_right_comm]
    exact ih.swap x y

/-- An alignment is cut where its right text is. -/
theorem Aligned.split (h : Aligned n a b) (hb : b = p ++ s) :
    ∃ a₁ a₂ n₁ n₂, a = a₁ ++ a₂ ∧ n = n₁ + n₂ ∧ Aligned n₁ a₁ p ∧ Aligned n₂ a₂ s := by
  induction h generalizing p with
  | nil =>
    obtain ⟨rfl, rfl⟩ := List.append_eq_nil_iff.mp hb.symm
    exact ⟨[], [], 0, 0, rfl, rfl, .nil, .nil⟩
  | keep x h ih =>
    cases p with
    | nil =>
      cases hb
      exact ⟨[], _, 0, _, rfl, (Nat.zero_add _).symm, .nil, h.keep x⟩
    | cons y p =>
      rw [List.cons_append, List.cons.injEq] at hb
      obtain ⟨rfl, hb⟩ := hb
      obtain ⟨a₁, a₂, n₁, n₂, rfl, rfl, h₁, h₂⟩ := ih hb
      exact ⟨x :: a₁, a₂, n₁, n₂, rfl, rfl, h₁.keep x, h₂⟩
  | drop x _ ih =>
    obtain ⟨a₁, a₂, n₁, n₂, rfl, rfl, h₁, h₂⟩ := ih hb
    exact ⟨x :: a₁, a₂, n₁ + 1, n₂, rfl, Nat.add_right_comm .., h₁.drop x, h₂⟩
  | add y h ih =>
    cases p with
    | nil =>
      cases hb
      exact ⟨[], _, 0, _, rfl, (Nat.zero_add _).symm, .nil, h.add y⟩
    | cons z p =>
      rw [List.cons_append, List.cons.injEq] at hb
      obtain ⟨rfl, hb⟩ := hb
      obtain ⟨a₁, a₂, n₁, n₂, rfl, rfl, h₁, h₂⟩ := ih hb
      exact ⟨a₁, a₂, n₁ + 1, n₂, rfl, Nat.add_right_comm .., h₁.add y, h₂⟩
  | swap x y h ih =>
    cases p with
    | nil =>
      cases hb
      exact ⟨[], _, 0, _, rfl, (Nat.zero_add _).symm, .nil, h.swap x y⟩
    | cons z p =>
      rw [List.cons_append, List.cons.injEq] at hb
      obtain ⟨rfl, hb⟩ := hb
      obtain ⟨a₁, a₂, n₁, n₂, rfl, rfl, h₁, h₂⟩ := ih hb
      exact ⟨x :: a₁, a₂, n₁ + 1, n₂, rfl, Nat.add_right_comm .., h₁.swap x y, h₂⟩

/-- The letter that a deletion takes out need not be written. -/
theorem Aligned.delete (h : Aligned n a b) (hb : b = x :: s) : ∃ m ≤ n + 1, Aligned m a s := by
  induction h with
  | nil => cases hb
  | keep _ h _ =>
    cases hb
    exact ⟨_, le_rfl, h.drop x⟩
  | drop z _ ih =>
    obtain ⟨m, hm, h⟩ := ih hb
    exact ⟨m + 1, by omega, h.drop z⟩
  | add y h _ =>
    cases hb
    exact ⟨_, by omega, h⟩
  | swap z y h _ =>
    cases hb
    exact ⟨_, by omega, h.drop z⟩

/-- The letter that a replacement writes may be written at once. -/
theorem Aligned.replace (h : Aligned n a b) (hb : b = x :: s) (y : α) :
    ∃ m ≤ n + 1, Aligned m a (y :: s) := by
  induction h with
  | nil => cases hb
  | keep _ h _ =>
    cases hb
    exact ⟨_, le_rfl, h.swap x y⟩
  | drop z _ ih =>
    obtain ⟨m, hm, h⟩ := ih hb
    exact ⟨m + 1, by omega, h.drop z⟩
  | add z h _ =>
    cases hb
    exact ⟨_, by omega, h.add y⟩
  | swap z w h _ =>
    cases hb
    exact ⟨_, by omega, h.swap z y⟩

theorem Aligned.edit (h : Aligned n a b) (hedit : Edit b c) : ∃ m ≤ n + 1, Aligned m a c := by
  cases hedit with
  | insert p s x =>
    obtain ⟨a₁, a₂, n₁, n₂, rfl, rfl, h₁, h₂⟩ := h.split rfl
    exact ⟨_, le_rfl, h₁.append (h₂.add x)⟩
  | delete p s x =>
    obtain ⟨a₁, a₂, n₁, n₂, rfl, rfl, h₁, h₂⟩ := h.split rfl
    obtain ⟨m, hm, h₂⟩ := h₂.delete rfl
    exact ⟨n₁ + m, by omega, h₁.append h₂⟩
  | replace p s x y =>
    obtain ⟨a₁, a₂, n₁, n₂, rfl, rfl, h₁, h₂⟩ := h.split rfl
    obtain ⟨m, hm, h₂⟩ := h₂.replace rfl y
    exact ⟨n₁ + m, by omega, h₁.append h₂⟩

/-- **Edits compose to an alignment that is no dearer.** -/
theorem Edits.aligned (h : Edits n a b) : ∃ m ≤ n, Aligned m a b := by
  induction h with
  | refl => exact ⟨0, le_rfl, aligned_refl _⟩
  | tail _ hedit ih =>
    obtain ⟨m, hm, h⟩ := ih
    obtain ⟨k, hk, h⟩ := h.edit hedit
    exact ⟨k, by omega, h⟩

/-! ### The distance -/

theorem aligned_all : ∀ a b : List α, ∃ n, Aligned n a b
  | [], [] => ⟨0, .nil⟩
  | [], y :: b => by
    obtain ⟨n, h⟩ := aligned_all [] b
    exact ⟨n + 1, h.add y⟩
  | x :: a, b => by
    obtain ⟨n, h⟩ := aligned_all a b
    exact ⟨n + 1, h.drop x⟩

theorem distance_le (h : Aligned n a b) : distance a b ≤ n := Nat.sInf_le h.edits

theorem edits_distance (a b : List α) : Edits (distance a b) a b := by
  obtain ⟨n, h⟩ := aligned_all a b
  have hsome : {n | Edits n a b}.Nonempty := ⟨n, h.edits⟩
  exact Nat.sInf_mem hsome

theorem aligned_distance (a b : List α) : Aligned (distance a b) a b := by
  obtain ⟨m, hm, h⟩ := (edits_distance a b).aligned
  have hle : distance a b ≤ m := distance_le h
  rwa [show distance a b = m by omega]

theorem Aligned.length (h : Aligned n a b) : a.length ≤ b.length + n ∧ b.length ≤ a.length + n := by
  induction h with
  | nil => simp
  | keep x _ ih => simp only [List.length_cons]; omega
  | drop x _ ih => simp only [List.length_cons]; omega
  | add y _ ih => simp only [List.length_cons]; omega
  | swap x y _ ih => simp only [List.length_cons]; omega

/-- Texts of different lengths are apart. -/
theorem length_le_distance (a b : List α) : a.length ≤ b.length + distance a b :=
  (aligned_distance a b).length.1

theorem aligned_nil_left : ∀ b : List α, Aligned b.length [] b
  | [] => .nil
  | y :: b => (aligned_nil_left b).add y

theorem aligned_nil_right : ∀ a : List α, Aligned a.length a []
  | [] => .nil
  | x :: a => (aligned_nil_right a).drop x

theorem distance_nil_left (b : List α) : distance [] b = b.length := by
  have hle : distance [] b ≤ b.length := distance_le (aligned_nil_left b)
  have hge := (aligned_distance [] b).length.2
  simp only [List.length_nil] at hge
  omega

theorem distance_nil_right (a : List α) : distance a [] = a.length := by
  have hle : distance a [] ≤ a.length := distance_le (aligned_nil_right a)
  have hge := (aligned_distance a []).length.1
  simp only [List.length_nil] at hge
  omega

section Letters

variable [DecidableEq α]

/-- What it costs to write one letter for another. -/
def cost (x y : α) : ℕ := if x = y then 0 else 1

theorem aligned_cost (h : Aligned n a b) (x y : α) : Aligned (n + cost x y) (x :: a) (y :: b) := by
  unfold cost
  split_ifs with hxy
  · rw [← hxy]
    exact h.keep x
  · exact h.swap x y

/-- An alignment begins with one of three moves. -/
theorem Aligned.head (h : Aligned n (x :: a) (y :: b)) :
    distance a (y :: b) + 1 ≤ n ∨ distance (x :: a) b + 1 ≤ n ∨ distance a b + cost x y ≤ n := by
  cases h with
  | keep _ h =>
    have hle := distance_le h
    have hcost : cost x x = 0 := if_pos rfl
    omega
  | drop _ h =>
    have hle := distance_le h
    omega
  | add _ h =>
    have hle := distance_le h
    omega
  | swap _ _ h =>
    have hle := distance_le h
    have hcost : cost x y ≤ 1 := by
      unfold cost
      split_ifs
      · exact Nat.zero_le 1
      · exact le_rfl
    omega

theorem distance_cons (x y : α) (a b : List α) :
    distance (x :: a) (y :: b) =
      min (min (distance a (y :: b) + 1) (distance (x :: a) b + 1)) (distance a b + cost x y) := by
  have hdrop := distance_le ((aligned_distance a (y :: b)).drop x)
  have hadd := distance_le ((aligned_distance (x :: a) b).add y)
  have hboth := distance_le (aligned_cost (aligned_distance a b) x y)
  have hhead := (aligned_distance (x :: a) (y :: b)).head
  omega

end Letters

/-! ### From the other end -/

theorem Aligned.reverse (h : Aligned n a b) : Aligned n a.reverse b.reverse := by
  induction h with
  | nil => exact .nil
  | keep x _ ih =>
    rw [List.reverse_cons, List.reverse_cons]
    exact ih.append (Aligned.nil.keep x)
  | drop x _ ih =>
    have h := ih.append (Aligned.nil.drop x)
    rwa [List.append_nil, ← List.reverse_cons] at h
  | add y _ ih =>
    have h := ih.append (Aligned.nil.add y)
    rwa [List.append_nil, ← List.reverse_cons] at h
  | swap x y _ ih =>
    rw [List.reverse_cons, List.reverse_cons]
    exact ih.append (Aligned.nil.swap x y)

theorem distance_reverse (a b : List α) : distance a.reverse b.reverse = distance a b := by
  have hle := distance_le (aligned_distance a b).reverse
  have hge := distance_le (aligned_distance a.reverse b.reverse).reverse
  rw [List.reverse_reverse, List.reverse_reverse] at hge
  omega

/-- **The distance of two texts from the distances of the texts without their last letters.** -/
theorem distance_concat [DecidableEq α] (a b : List α) (x y : α) :
    distance (a ++ [x]) (b ++ [y]) =
      min (min (distance a (b ++ [y]) + 1) (distance (a ++ [x]) b + 1)) (distance a b + cost x y) := by
  have h := distance_cons x y a.reverse b.reverse
  simpa only [← List.reverse_concat, distance_reverse] using h

end Fuin.Lib.Distances

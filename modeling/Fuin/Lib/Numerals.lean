import Mathlib.Data.Nat.Notation
import Mathlib.Tactic.Ring
import Mathlib.Data.List.Induction
import Mathlib.Data.List.TakeWhile

/-! # Numerals

`places β k n` are the last `k` digits of `n` in the base `β`, the most significant first, and
`value β ds` is the number they stand for. `strtoull` reads the number at the front of a decimal text
(`numeral`), if it fits in 64 bits. -/

namespace Fuin.Lib.Numerals

/-- The last `k` digits of a number, the most significant first. -/
def places (β : ℕ) : ℕ → ℕ → List ℕ
  | 0, _ => []
  | k + 1, n => places β k (n / β) ++ [n % β]

/-- The number that continues `v` with the digits. -/
def extend (β v : ℕ) (ds : List ℕ) : ℕ := ds.foldl (fun w d => w * β + d) v

/-- The number of the digits. -/
def value (β : ℕ) (ds : List ℕ) : ℕ := extend β 0 ds

variable {β v k n : ℕ} {ds : List ℕ}

@[simp] theorem length_places : ∀ k n, (places β k n).length = k
  | 0, _ => rfl
  | k + 1, n => by rw [places, List.length_append, length_places k, List.length_singleton]

theorem mem_places_lt (hβ : 0 < β) : ∀ {k n d : ℕ}, d ∈ places β k n → d < β
  | 0, _, _, h => nomatch h
  | k + 1, n, d, h => by
    rcases List.mem_append.mp h with h | h
    · exact mem_places_lt hβ h
    · rw [List.mem_singleton.mp h]
      exact Nat.mod_lt n hβ

theorem extend_concat (d : ℕ) : extend β v (ds ++ [d]) = extend β v ds * β + d := by
  rw [extend, extend, List.foldl_append]
  rfl

/-- The digits of a number stand for it, modulo the power of the base. -/
theorem extend_places : ∀ v k n : ℕ, extend β v (places β k n) = v * β ^ k + n % β ^ k
  | v, 0, n => by simp [places, extend, Nat.mod_one]
  | v, k + 1, n => by
    rw [places, extend_concat, extend_places v k, Nat.pow_succ', Nat.mod_mul]
    ring

theorem value_places (k n : ℕ) : value β (places β k n) = n % β ^ k := by
  rw [value, extend_places, Nat.zero_mul, Nat.zero_add]

/-- The number of some digits has these digits. -/
theorem places_value : ∀ ds : List ℕ, (∀ d ∈ ds, d < β) → places β ds.length (value β ds) = ds := by
  intro ds
  induction ds using List.reverseRecOn with
  | nil => exact fun _ => rfl
  | append_singleton ds d ih =>
    intro h
    have hd := h d (by simp)
    have hdiv : (value β ds * β + d) / β = value β ds := by
      rw [Nat.add_comm, Nat.add_mul_div_right _ _ (by omega), Nat.div_eq_of_lt hd, Nat.zero_add]
    have hmod : (value β ds * β + d) % β = d := by
      rw [Nat.add_comm, Nat.add_mul_mod_self_right, Nat.mod_eq_of_lt hd]
    rw [List.length_append, List.length_singleton, places, value, extend_concat]
    change places β ds.length ((value β ds * β + d) / β) ++ [(value β ds * β + d) % β] = _
    rw [hdiv, hmod, ih fun x hx => h x (List.mem_append_left _ hx)]

theorem value_lt (ds : List ℕ) (h : ∀ d ∈ ds, d < β) : value β ds < β ^ ds.length := by
  induction ds using List.reverseRecOn with
  | nil => simp [value, extend]
  | append_singleton ds d ih =>
    have hd := h d (by simp)
    have hds := ih fun x hx => h x (List.mem_append_left _ hx)
    have hmul : (value β ds + 1) * β ≤ β ^ ds.length * β := Nat.mul_le_mul_right _ hds
    rw [value, extend_concat, List.length_append, List.length_singleton, Nat.pow_succ]
    change value β ds * β + d < _
    rw [Nat.add_mul, Nat.one_mul] at hmul
    omega

/-! ### Decimal texts -/

/-- A decimal digit. -/
def isDigit (c : UInt8) : Bool := decide (48 ≤ c ∧ c ≤ 57)

/-- The number of a text of digits. -/
def numeral (s : List UInt8) : ℕ := value 10 (s.map fun c => c.toNat - 48)

/-- `strtoull` with the base 10, of a text that starts with a digit: the number, none if it is out of
range, and where it ends. -/
def strtoull (s : List UInt8) : Option ℕ × List UInt8 :=
  let n := numeral (s.takeWhile isDigit)
  (if n < 2 ^ 64 then some n else none, s.dropWhile isDigit)

variable {s r : List UInt8}

/-- It reads the digits up to what is not one. -/
theorem strtoull_append (hs : ∀ c ∈ s, isDigit c = true) (hr : ∀ c ∈ r.head?, isDigit c = false) :
    strtoull (s ++ r) = (if numeral s < 2 ^ 64 then some (numeral s) else none, r) := by
  have htake : (s ++ r).takeWhile isDigit = s ∧ (s ++ r).dropWhile isDigit = r := by
    rw [List.takeWhile_append_of_pos hs, List.dropWhile_append_of_pos hs]
    cases r with
    | nil => simp
    | cons c r =>
      have hc := hr c rfl
      simp [hc]
  rw [strtoull, htake.1, htake.2]

end Fuin.Lib.Numerals

import Fuin.Lib.Numerals

/-! # Base 32

The base 32 text of RFC 4648 is a numeral: the bytes are one number in base 256; zero bits are added
on the right to a multiple of five, and the number is written in base 32, with `=` up to a multiple of
eight characters (`encode`). A person who types such a text may write other cases, put blanks anywhere
and leave out padding (`Spelling`). -/

namespace Fuin.Lib.Base32

open Fuin.Lib.Numerals

/-! ### Base 32 -/

/-- The character of a digit: `A` to `Z`, then `2` to `7`. -/
def character (v : ℕ) : UInt8 := if v < 26 then UInt8.ofNat (65 + v) else UInt8.ofNat (24 + v)

/-- The number of digits of `n` bytes. -/
def digitCount (n : ℕ) : ℕ := (8 * n + 4) / 5

/-- The number of a byte string. -/
def number (b : List UInt8) : ℕ := value 256 (b.map UInt8.toNat)

/-- The digits of the bytes; zero bits are added up to a multiple of five. -/
def digits (b : List UInt8) : List ℕ :=
  places 32 (digitCount b.length) (number b * 2 ^ (5 * digitCount b.length - 8 * b.length))

/-- The padding of a text of `k` digits. -/
def padding (k : ℕ) : ℕ := (8 - k % 8) % 8

/-- The base 32 text of the bytes. -/
def encode (b : List UInt8) : List UInt8 :=
  (digits b).map character ++ List.replicate (padding (digitCount b.length)) 61

/-- The bytes of a number. -/
def bytes (n v : ℕ) : List UInt8 := (places 256 n v).map UInt8.ofNat

@[simp] theorem length_bytes (n v : ℕ) : (bytes n v).length = n := by simp [bytes]

theorem bytes_succ (n v : ℕ) : bytes (n + 1) v = bytes n (v / 256) ++ [UInt8.ofNat v] := by
  rw [bytes, places, List.map_append, List.map_singleton]
  congr 2
  exact UInt8.toNat_inj.mp (by simp)

theorem bytes_number (b : List UInt8) : bytes b.length (number b) = b := by
  have h := places_value (β := 256) (b.map UInt8.toNat) fun d hd => by
    obtain ⟨x, -, rfl⟩ := List.mem_map.mp hd
    exact x.toNat_lt
  rw [List.length_map] at h
  rw [bytes, number, h, List.map_map]
  exact (List.map_congr_left fun x _ => UInt8.toNat_inj.mp (by simp)).trans (List.map_id b)

theorem number_lt (b : List UInt8) : number b < 256 ^ b.length := by
  have h := value_lt (β := 256) (b.map UInt8.toNat) fun d hd => by
    obtain ⟨x, -, rfl⟩ := List.mem_map.mp hd
    exact x.toNat_lt
  rwa [List.length_map] at h

/-- What the digits of the bytes stand for. -/
theorem value_digits (b : List UInt8) :
    value 32 (digits b) = number b * 2 ^ (5 * digitCount b.length - 8 * b.length) := by
  rw [digits, value_places, Nat.mod_eq_of_lt]
  have hle : 8 * b.length ≤ 5 * digitCount b.length := by
    unfold digitCount
    omega
  have hpow : 256 ^ b.length * 2 ^ (5 * digitCount b.length - 8 * b.length) =
      32 ^ digitCount b.length := by
    rw [show (256 : ℕ) = 2 ^ 8 from rfl, show (32 : ℕ) = 2 ^ 5 from rfl, ← Nat.pow_mul, ← Nat.pow_mul,
      ← Nat.pow_add, Nat.add_sub_cancel' hle]
  rw [← hpow]
  exact Nat.mul_lt_mul_of_pos_right (number_lt b) (Nat.two_pow_pos _)

theorem length_digits (b : List UInt8) : (digits b).length = digitCount b.length := length_places _ _

theorem mem_digits_lt {b : List UInt8} {d : ℕ} (h : d ∈ digits b) : d < 32 :=
  mem_places_lt (by decide) h

/-- The bytes of `f` are the text `MY======`. -/
example : encode [102] = [77, 89, 61, 61, 61, 61, 61, 61] := by decide

/-! ### Spellings -/

/-- A blank: space, tab, LF or CR. -/
def Blank (c : UInt8) : Prop := c = 32 ∨ c = 9 ∨ c = 10 ∨ c = 13

/-- The same character, or the same letter in the other case. -/
def SameLetter (c d : UInt8) : Prop := d = c ∨ 65 ≤ c ∧ c ≤ 90 ∧ d = c + 32

/-- The texts that are read as an encoding: letters in any case, blanks anywhere, and any of the
padding left out. -/
inductive Spelling : List UInt8 → List UInt8 → Prop
  | nil : Spelling [] []
  | blank {c : UInt8} {e t : List UInt8} : Blank c → Spelling e t → Spelling e (c :: t)
  | keep {c d : UInt8} {e t : List UInt8} : SameLetter c d → Spelling e t → Spelling (c :: e) (d :: t)
  | drop {e t : List UInt8} : Spelling e t → Spelling (61 :: e) t

end Fuin.Lib.Base32

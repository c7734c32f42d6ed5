import Fuin.Lib.Frames
import Mathlib.Data.List.TakeWhile
import Mathlib.Data.Nat.Digits.Defs

/-! # Strings, numbers and timestamps

The data the program passes around: byte strings, C strings (`CString`, no NUL byte inside), blocks
of a fixed length (`Block`), `int`s read from a column (`columnInt`), and the texts `utils.c`
prints: hexadecimal strings, UUIDs and timestamps. `SM_OK` is the success of an `Except Status`. -/

namespace Fuin.Utils

open Fuin.Lib.Frames

/-- A byte string. -/
abbrev Bytes := List UInt8

instance lawfulBEq_bytes : LawfulBEq Bytes := inferInstance

/-- The status codes other than `SM_OK`. `fuel` is none of them: a loop of the model stops with it
when its bound is used up. -/
inductive Status where
  | invalidArgument
  | notImplemented
  | crypto
  | storage
  | auth
  | notFound
  | inputTooLarge
  | fuel
  deriving DecidableEq, Repr

/-! ### Checks -/

/-- A check that returns the status `e` when it fails. -/
def require (p : Prop) [Decidable p] (e : Status) : Except Status Unit :=
  if p then .ok () else .error e

@[simp] theorem require_eq_ok {p : Prop} [Decidable p] {e : Status} {u : Unit} :
    require p e = .ok u ↔ p := by
  unfold require
  split_ifs with h
  · exact ⟨fun _ => h, fun _ => rfl⟩
  · exact ⟨fun h' => (nomatch h'), fun h' => absurd h' h⟩

@[simp] theorem bind_eq_ok {ε α β : Type} {x : Except ε α} {f : α → Except ε β} {b : β} :
    (x >>= f) = .ok b ↔ ∃ a, x = .ok a ∧ f a = .ok b := by
  cases x with
  | error e => exact ⟨fun h => (nomatch h), fun ⟨_, h, _⟩ => (nomatch h)⟩
  | ok a => exact ⟨fun h => ⟨a, rfl, h⟩, fun ⟨_, h, h'⟩ => by cases h; exact h'⟩

@[simp] theorem pure_eq_ok {ε α : Type} {a b : α} : (pure a : Except ε α) = .ok b ↔ a = b :=
  Except.ok.injEq a b ▸ Iff.rfl

theorem elim_eq_ok {α : Type} {o : Option α} {e : Status} {a : α} :
    o.elim (.error e) Except.ok = .ok a ↔ o = some a := by
  cases o with
  | none => exact ⟨fun h => (nomatch h), fun h => (nomatch h)⟩
  | some b => exact ⟨fun h => congrArg some (Except.ok.inj h), fun h => by cases h; rfl⟩

/-- A byte string of length `n`. -/
abbrev Block (n : ℕ) := {b : Bytes // b.length = n}

/-- `sodium_memzero`: the block of zeros. -/
def Block.zero (n : ℕ) : Block n := ⟨List.replicate n 0, List.length_replicate⟩

/-- The block that repeats a byte. -/
def Block.fill (n : ℕ) (b : UInt8) : Block n := ⟨List.replicate n b, List.length_replicate⟩

/-! ### C strings -/

/-- A C string, without the NUL that ends it. -/
structure CString where
  bytes : Bytes
  noNul : (0 : UInt8) ∉ bytes
  deriving DecidableEq

@[ext] theorem CString.ext {s t : CString} (h : s.bytes = t.bytes) : s = t := by
  cases s; cases t; cases h; rfl

/-- The bytes of a literal. -/
def ascii (s : String) : Bytes := s.toList.map fun c => UInt8.ofNat c.toNat

/-- `sqlite3_column_text` read as a C string: it ends at the first NUL. -/
def columnText (b : Bytes) : CString :=
  ⟨b.takeWhile (· ≠ 0), fun h => by simpa using List.mem_takeWhile_imp h⟩

theorem columnText_of_noNul {b : Bytes} (h : (0 : UInt8) ∉ b) : columnText b = ⟨b, h⟩ := by
  apply CString.ext
  refine List.takeWhile_eq_self_iff.mpr fun x hx => ?_
  simp only [decide_eq_true_eq]
  rintro rfl
  exact h hx

@[simp] theorem columnText_bytes (s : CString) : columnText s.bytes = s :=
  columnText_of_noNul s.noNul

/-- `vault_copy_text_column`: the text, if it fits into a buffer of `n` bytes with its NUL. -/
def copyText (n : ℕ) (b : Bytes) : Except Status CString :=
  if (columnText b).bytes.length < n then .ok (columnText b) else .error .storage

theorem copyText_eq_ok {n : ℕ} {b : Bytes} {s : CString} :
    copyText n b = .ok s ↔ s = columnText b ∧ s.bytes.length < n := by
  unfold copyText
  split_ifs with h
  · simp only [Except.ok.injEq]
    exact ⟨fun e => ⟨e.symm, e ▸ h⟩, fun ⟨e, _⟩ => e.symm⟩
  · simp only [false_iff, not_and]
    rintro rfl
    exact h

/-! ### Integers -/

/-- `sqlite3_column_int`: the value of a column as a 32-bit `int`. -/
def columnInt (z : ℤ) : ℤ := Int.bmod z 4294967296

theorem columnInt_lt (z : ℤ) : -2147483648 ≤ columnInt z ∧ columnInt z < 2147483648 := by
  rw [columnInt, Int.bmod_def]
  split <;> omega

theorem columnInt_of_lt {z : ℤ} (h0 : -2147483648 ≤ z) (h1 : z < 2147483648) :
    columnInt z = z := by
  rw [columnInt, Int.bmod_def]
  split <;> omega

def intMax : ℤ := 2147483647

def int64Max : ℤ := 9223372036854775807

/-- The values an INTEGER column holds. -/
def IsInt64 (z : ℤ) : Prop := -9223372036854775808 ≤ z ∧ z ≤ 9223372036854775807

instance (z : ℤ) : Decidable (IsInt64 z) := inferInstanceAs (Decidable (_ ∧ _))

/-- `utils_write_u64_le`. -/
def u64le (z : ℤ) : Bytes := leBytes 8 (z % 18446744073709551616).toNat

@[simp] theorem length_u64le (z : ℤ) : (u64le z).length = 8 := length_leBytes _ _

theorem u64le_inj {z w : ℤ} (hz : 0 ≤ z) (hz' : z ≤ int64Max) (hw : 0 ≤ w) (hw' : w ≤ int64Max)
    (h : u64le z = u64le w) : z = w := by
  unfold int64Max at hz' hw'
  have h' := leBytes_inj (by norm_num; omega) (by norm_num; omega) h
  omega

/-! ### Printed texts -/

/-- A digit of `sodium_bin2hex`. -/
def hexDigit (n : ℕ) : UInt8 := if n < 10 then UInt8.ofNat (48 + n) else UInt8.ofNat (87 + n)

/-- The two digits of a byte. -/
def hexByte (b : UInt8) : Bytes := [hexDigit (b.toNat / 16), hexDigit (b.toNat % 16)]

theorem hexDigit_ne_zero : ∀ n < 16, hexDigit n ≠ 0 := by decide

theorem hexByte_ne_zero (b : UInt8) : (0 : UInt8) ∉ hexByte b := by
  have hb : b.toNat < 256 := b.toNat_lt
  simp only [hexByte, List.mem_cons, List.not_mem_nil, or_false, not_or]
  exact ⟨(hexDigit_ne_zero _ (by omega)).symm, (hexDigit_ne_zero _ (by omega)).symm⟩

theorem hexDigit_inj : ∀ n < 16, ∀ m < 16, hexDigit n = hexDigit m → n = m := by decide

theorem hexByte_inj {a b : UInt8} (h : hexByte a = hexByte b) : a = b := by
  have ha : a.toNat < 256 := a.toNat_lt
  have hb : b.toNat < 256 := b.toNat_lt
  simp only [hexByte, List.cons.injEq, and_true] at h
  have h1 := hexDigit_inj _ (by omega) _ (by omega) h.1
  have h2 := hexDigit_inj _ (by omega) _ (by omega) h.2
  exact UInt8.toNat_inj.mp (by omega)

/-- `sodium_bin2hex`. -/
def bin2hex (b : Bytes) : CString :=
  ⟨b.flatMap hexByte, fun h => by
    obtain ⟨x, -, hx⟩ := List.mem_flatMap.mp h
    exact hexByte_ne_zero x hx⟩

theorem length_flatMap_hexByte : ∀ b : Bytes, (b.flatMap hexByte).length = 2 * b.length
  | [] => rfl
  | x :: b => by
    rw [List.flatMap_cons, List.length_append, length_flatMap_hexByte b, List.length_cons]
    simp only [hexByte, List.length_cons, List.length_nil]
    omega

theorem length_bin2hex (b : Bytes) : (bin2hex b).bytes.length = 2 * b.length :=
  length_flatMap_hexByte b

theorem bin2hex_inj : ∀ {a b : Bytes}, bin2hex a = bin2hex b → a = b
  | [], [], _ => rfl
  | [], _ :: _, h => by simp [bin2hex, hexByte] at h
  | _ :: _, [], h => by simp [bin2hex, hexByte] at h
  | x :: a, y :: b, h => by
    simp only [bin2hex, CString.mk.injEq, List.flatMap_cons] at h
    obtain ⟨h1, h2⟩ := List.append_inj h rfl
    rw [hexByte_inj h1, bin2hex_inj (CString.ext h2)]

/-- `%u`. -/
def decimal (n : ℕ) : Bytes := (Nat.toDigits 10 n).map fun c => UInt8.ofNat c.toNat

/-- `%0wu`. -/
def padded (w n : ℕ) : Bytes := List.replicate (w - (decimal n).length) 48 ++ decimal n

/-- The UUID printed from its 16 bytes. -/
def uuidText (r : Block 16) : CString :=
  let u := (r.1.set 6 (r.1.getD 6 0 &&& 0x0F ||| 0x40)).set 8 (r.1.getD 8 0 &&& 0x3F ||| 0x80)
  ⟨(u.take 4).flatMap hexByte ++ [45] ++ ((u.drop 4).take 2).flatMap hexByte ++ [45] ++
      ((u.drop 6).take 2).flatMap hexByte ++ [45] ++ ((u.drop 8).take 2).flatMap hexByte ++ [45] ++
      (u.drop 10).flatMap hexByte, by
    have hx (l : Bytes) : (0 : UInt8) ∉ l.flatMap hexByte := fun h => by
      obtain ⟨x, -, hx⟩ := List.mem_flatMap.mp h
      exact hexByte_ne_zero x hx
    simp only [List.mem_append, List.mem_singleton, not_or]
    exact ⟨⟨⟨⟨⟨⟨⟨⟨hx _, by decide⟩, hx _⟩, by decide⟩, hx _⟩, by decide⟩, hx _⟩, by decide⟩, hx _⟩⟩

theorem length_uuidText (r : Block 16) : (uuidText r).bytes.length = 36 := by
  obtain ⟨r, hr⟩ := r
  simp [uuidText, length_flatMap_hexByte, hr, -List.length_flatMap]

end Fuin.Utils

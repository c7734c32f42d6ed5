import Mathlib.Data.List.Infix
import Mathlib.Data.Nat.Notation

/-! # Texts in UTF-8

The bytes of a text are those of its characters, one after the other (`encode`). The first byte of a
character tells how many it has (`Leads`), and the others are of a kind of their own (`Trails`).
`fitting n` is the longest part at the front of a text whose characters fit in `n` bytes. -/

namespace Fuin.Lib.Utf8

/-- The bytes of a text. -/
def encode (cs : List Char) : List UInt8 := cs.flatMap String.utf8EncodeChar

@[simp] theorem encode_nil : encode [] = [] := rfl

theorem encode_cons (c : Char) (cs : List Char) :
    encode (c :: cs) = String.utf8EncodeChar c ++ encode cs := List.flatMap_cons

theorem encode_append (cs ds : List Char) : encode (cs ++ ds) = encode cs ++ encode ds :=
  List.flatMap_append

theorem encode_front {p cs : List Char} (h : p <+: cs) : encode p <+: encode cs := by
  obtain ⟨r, rfl⟩ := h
  exact ⟨encode r, (encode_append p r).symm⟩

/-! ### Characters -/

/-- The first byte of a character of `n` bytes. -/
def Leads (b : UInt8) : ℕ → Prop
  | 1 => b < 0x80
  | 2 => 0xC0 ≤ b ∧ b < 0xE0
  | 3 => 0xE0 ≤ b ∧ b < 0xF0
  | 4 => 0xF0 ≤ b ∧ b < 0xF8
  | _ => False

/-- One of the other bytes of a character. -/
def Trails (b : UInt8) : Prop := 0x80 ≤ b ∧ b < 0xC0

theorem ofNat_between {a n b : ℕ} (ha : a ≤ n) (hb : n < b) (h : b < 256) :
    UInt8.ofNat a ≤ UInt8.ofNat n ∧ UInt8.ofNat n < UInt8.ofNat b := by
  rw [UInt8.le_iff_toNat_le, UInt8.lt_iff_toNat_lt]
  simp only [UInt8.toNat_ofNat']
  omega

theorem trails_ofNat (v : ℕ) : Trails (UInt8.ofNat (v % 64 + 0x80)) :=
  ofNat_between (a := 0x80) (b := 0xC0) (by omega) (by omega) (by decide)

/-- A character of one byte. -/
theorem encodeChar_ascii {c : Char} (h : c.toNat < 0x80) :
    String.utf8EncodeChar c = [UInt8.ofNat c.toNat] := by
  unfold String.utf8EncodeChar
  exact if_pos (show c.toNat ≤ 0x7f by omega)

/-- A character of two to four bytes. -/
theorem encodeChar_long {c : Char} (h : 0x80 ≤ c.toNat) :
    ∃ b tail, String.utf8EncodeChar c = b :: tail ∧ tail ≠ [] ∧ Leads b (tail.length + 1) ∧
      ∀ x ∈ tail, Trails x := by
  have h7 : ¬ c.val.toNat ≤ 0x7f := fun h' => absurd (show c.toNat ≤ 0x7f from h') (by omega)
  unfold String.utf8EncodeChar
  dsimp only
  rw [if_neg h7]
  split_ifs
  · refine ⟨_, _, rfl, List.cons_ne_nil _ _, ?_, ?_⟩
    · exact ofNat_between (a := 0xC0) (b := 0xE0) (by omega) (by omega) (by decide)
    · simp only [List.forall_mem_cons, trails_ofNat, List.not_mem_nil, false_implies, implies_true,
        and_self]
  · refine ⟨_, _, rfl, List.cons_ne_nil _ _, ?_, ?_⟩
    · exact ofNat_between (a := 0xE0) (b := 0xF0) (by omega) (by omega) (by decide)
    · simp only [List.forall_mem_cons, trails_ofNat, List.not_mem_nil, false_implies, implies_true,
        and_self]
  · refine ⟨_, _, rfl, List.cons_ne_nil _ _, ?_, ?_⟩
    · exact ofNat_between (a := 0xF0) (b := 0xF8) (by omega) (by omega) (by decide)
    · simp only [List.forall_mem_cons, trails_ofNat, List.not_mem_nil, false_implies, implies_true,
        and_self]

/-- The bytes of a character. -/
theorem encodeChar_parts (c : Char) :
    ∃ b tail, String.utf8EncodeChar c = b :: tail ∧ Leads b (tail.length + 1) ∧
      ∀ x ∈ tail, Trails x := by
  by_cases h : c.toNat < 0x80
  · refine ⟨_, [], encodeChar_ascii h, ?_, nofun⟩
    exact (ofNat_between (b := 0x80) le_rfl h (by decide)).2
  · obtain ⟨b, tail, hparts, -, hlead, htrails⟩ := encodeChar_long (Nat.le_of_not_lt h)
    exact ⟨b, tail, hparts, hlead, htrails⟩

/-! ### The longest part that fits -/

/-- The characters at the front that fit in `n` bytes. -/
def fitting : ℕ → List Char → List Char
  | _, [] => []
  | n, c :: cs =>
    if (String.utf8EncodeChar c).length ≤ n then
      c :: fitting (n - (String.utf8EncodeChar c).length) cs
    else []

/-- There is room for four bytes, so one character fits. -/
theorem fitting_ne_nil {n : ℕ} {cs : List Char} (hn : 4 ≤ n) (hcs : cs ≠ []) :
    encode (fitting n cs) ≠ [] := by
  obtain ⟨c, cs, rfl⟩ := List.exists_cons_of_ne_nil hcs
  have hsize : (String.utf8EncodeChar c).length ≤ 4 := by
    rw [String.length_utf8EncodeChar]
    exact c.utf8Size_le_four
  rw [fitting, if_pos (by omega), encode_cons]
  exact List.append_ne_nil_of_left_ne_nil String.utf8EncodeChar_ne_nil _

theorem fitting_isPrefix : ∀ (n : ℕ) (cs : List Char), fitting n cs <+: cs
  | _, [] => List.nil_prefix
  | n, c :: cs => by
    rw [fitting]
    split_ifs
    · exact (List.prefix_cons_inj c).mpr (fitting_isPrefix _ cs)
    · exact List.nil_prefix

theorem length_fitting_le : ∀ (n : ℕ) (cs : List Char), (encode (fitting n cs)).length ≤ n
  | n, [] => Nat.zero_le n
  | n, c :: cs => by
    rw [fitting]
    split_ifs with h
    · have hrest := length_fitting_le (n - (String.utf8EncodeChar c).length) cs
      rw [encode_cons, List.length_append]
      omega
    · exact Nat.zero_le n

/-- Nothing longer fits. -/
theorem prefix_fitting : ∀ {n : ℕ} {cs p : List Char}, p <+: cs → (encode p).length ≤ n →
    p <+: fitting n cs
  | _, _, [], _, _ => List.nil_prefix
  | _, [], c :: p, h, _ => absurd (List.prefix_nil.mp h) (List.cons_ne_nil c p)
  | n, d :: cs, c :: p, h, hn => by
    obtain ⟨rfl, hp⟩ := List.cons_prefix_cons.mp h
    rw [encode_cons, List.length_append] at hn
    rw [fitting, if_pos (by omega)]
    exact (List.prefix_cons_inj c).mpr (prefix_fitting hp (by omega))

end Fuin.Lib.Utf8

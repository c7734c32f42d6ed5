import Fuin.Cli.Totp
import Fuin.Lib.Base32

/-! # Reading a seed

The loop of `utils_base32_decode` keeps the last 32 bits of the number it has read in its accumulator,
and the bytes it has written are that number without the `bits` last ones (`Loop`). There are never
more than seven such bits after a character, so what the accumulator has lost was written before
(`decode_exact`), and every spelling of an encoding is read back as the bytes (`base32_inverse`). -/

namespace Fuin.Cli.Seeds

open Fuin.Utils Fuin.Lib.Numerals Fuin.Lib.Base32 Fuin.Cli.Totp

/-! ### Characters -/

theorem base32Value_upper : ∀ v < 26, base32Value (character v) = some v ∧
    base32Value (character v + 32) = some v := by
  decide

theorem base32Value_digit : ∀ v < 32, 26 ≤ v → base32Value (character v) = some v ∧
    ¬ (65 ≤ character v ∧ character v ≤ 90) := by
  decide

/-- A digit is read in either case. -/
theorem base32Value_spelled {v : ℕ} {c : UInt8} (hv : v < 32) (h : SameLetter (character v) c) :
    base32Value c = some v := by
  by_cases hletter : v < 26
  · obtain ⟨hupper, hlower⟩ := base32Value_upper v hletter
    rcases h with rfl | ⟨-, -, rfl⟩
    · exact hupper
    · exact hlower
  · obtain ⟨hdigit, hnot⟩ := base32Value_digit v hv (by omega)
    rcases h with rfl | ⟨h1, h2, -⟩
    · exact hdigit
    · exact absurd ⟨h1, h2⟩ hnot

/-- What has a value is neither a blank nor padding. -/
theorem base32Value_ne {c : UInt8} {v : ℕ} (h : base32Value c = some v) :
    ¬ (c = 32 ∨ c = 10 ∨ c = 13 ∨ c = 9) ∧ c ≠ 61 := by
  constructor
  · rintro (rfl | rfl | rfl | rfl) <;> cases h
  · rintro rfl
    cases h

theorem character_ne : ∀ {v : ℕ}, v < 32 → character v ≠ 61 := by decide

/-- Padding has one spelling. -/
theorem spelled_padding {c : UInt8} (h : SameLetter 61 c) : c = 61 := by
  rcases h with h | ⟨h, -, -⟩
  · exact h
  · exact absurd h (by decide)

/-! ### The accumulator -/

/-- What a step does with the value of a digit. -/
def feed (outputLen : ℕ) (s : Base32State) (v : ℕ) : Except Status Base32State := do
  let accumulator := (s.accumulator * 32 + v) % 4294967296
  let bits := s.bits + 5
  if 8 ≤ bits then
    require (s.output.length < outputLen) .invalidArgument
    return { s with
      accumulator := accumulator
      bits := bits - 8
      output := s.output ++ [UInt8.ofNat (accumulator / 2 ^ (bits - 8))] }
  else return { s with accumulator := accumulator, bits := bits }

theorem base32Step_digit {outputLen v : ℕ} {s : Base32State} {c : UInt8}
    (hs : s.paddingSeen = false) (h : base32Value c = some v) :
    base32Step outputLen s c = feed outputLen s v := by
  obtain ⟨h1, h2⟩ := base32Value_ne h
  have hcheck : require (s.paddingSeen = false) .invalidArgument = .ok () := require_eq_ok.mpr hs
  unfold base32Step
  rw [if_neg h1, if_neg h2, h, hcheck]
  rfl

/-- **The invariant of the loop**: `k` digits of the number `v` have been read. -/
structure Loop (v k : ℕ) (s : Base32State) : Prop where
  bits : s.bits = 5 * k % 8
  output : s.output = bytes (5 * k / 8) (v / 2 ^ (5 * k % 8))
  accumulator : s.accumulator = v % 4294967296

theorem loop_start {p : Bool} : Loop 0 0 ⟨0, 0, [], p⟩ := ⟨rfl, rfl, rfl⟩

/-- The high part of a number does not see a digit that is added. -/
theorem digit_div {d : ℕ} (hd : d < 32) (v j : ℕ) : (v * 32 + d) / 2 ^ (j + 5) = v / 2 ^ j := by
  rw [Nat.pow_add, Nat.mul_comm (2 ^ j), ← Nat.div_div_eq_div_mul]
  congr 1
  omega

/-- The low 32 bits hold the byte above the last `j`. -/
theorem low_byte {j : ℕ} (hj : j ≤ 24) (x : ℕ) :
    UInt8.ofNat (x % 4294967296 / 2 ^ j) = UInt8.ofNat (x / 2 ^ j) := by
  have hword : (4294967296 : ℕ) = 2 ^ j * (256 * 2 ^ (24 - j)) := by
    rw [show (256 : ℕ) = 2 ^ 8 from rfl, ← Nat.pow_add, ← Nat.pow_add,
      show j + (8 + (24 - j)) = 32 by omega]
  have hmod : x % 4294967296 / 2 ^ j % 256 = x / 2 ^ j % 256 := by
    rw [hword, Nat.mod_mul_right_div_self, Nat.mod_mul_right_mod]
  apply UInt8.toNat_inj.mp
  simpa using hmod

/-- **One digit**: the bits that are written are still in the accumulator. -/
theorem Loop.feed {v k d : ℕ} {s : Base32State} (outputLen : ℕ) (h : Loop v k s) (hd : d < 32)
    (hroom : 5 * (k + 1) / 8 ≤ outputLen) :
    ∃ s', feed outputLen s d = .ok s' ∧ Loop (v * 32 + d) (k + 1) s' ∧
      s'.paddingSeen = s.paddingSeen := by
  obtain ⟨hbits, houtput, hacc⟩ := h
  have hlow : (s.accumulator * 32 + d) % 4294967296 = (v * 32 + d) % 4294967296 := by
    rw [hacc]
    omega
  unfold Seeds.feed
  dsimp only
  by_cases h8 : 8 ≤ s.bits + 5
  · have hlen : s.output.length < outputLen := by
      rw [houtput, length_bytes]
      omega
    have hcheck : require (s.output.length < outputLen) .invalidArgument = .ok () :=
      require_eq_ok.mpr hlen
    rw [if_pos h8, hcheck]
    refine ⟨_, rfl, ⟨?_, ?_, hlow⟩, rfl⟩
    · dsimp only
      omega
    · have hk : 5 * (k + 1) / 8 = 5 * k / 8 + 1 := by omega
      have hb : s.bits + 5 - 8 = 5 * (k + 1) % 8 := by omega
      have hhigh : (v * 32 + d) / 2 ^ (5 * (k + 1) % 8) / 256 = v / 2 ^ (5 * k % 8) := by
        rw [Nat.div_div_eq_div_mul, show (256 : ℕ) = 2 ^ 8 from rfl, ← Nat.pow_add,
          show 5 * (k + 1) % 8 + 8 = 5 * k % 8 + 5 by omega, digit_div hd]
      dsimp only
      rw [hlow, hb, hk, bytes_succ, hhigh, houtput, low_byte (by omega)]
  · rw [if_neg h8]
    refine ⟨_, rfl, ⟨?_, ?_, hlow⟩, rfl⟩
    · dsimp only
      omega
    · have hk : 5 * (k + 1) / 8 = 5 * k / 8 := by omega
      have hb : 5 * (k + 1) % 8 = 5 * k % 8 + 5 := by omega
      dsimp only
      rw [houtput, hk, hb, digit_div hd]

/-! ### Texts -/

/-- The digits that are left are read one after the other, with blanks between them, and then the
padding. -/
theorem read_spelling (outputLen : ℕ) {e t : List UInt8} (h : Spelling e t) :
    ∀ {ds : List ℕ} {m v k : ℕ} {s : Base32State},
      e = ds.map character ++ List.replicate m 61 → (∀ d ∈ ds, d < 32) → Loop v k s →
      (s.paddingSeen = true → ds = []) → 5 * (k + ds.length) / 8 ≤ outputLen →
      ∃ s', t.foldlM (base32Step outputLen) s = .ok s' ∧
        Loop (extend 32 v ds) (k + ds.length) s' := by
  induction h with
  | nil =>
    intro ds m v k s he _ hloop _ _
    obtain rfl : ds = [] := List.map_eq_nil_iff.mp (List.append_eq_nil_iff.mp he.symm).1
    exact ⟨s, rfl, hloop⟩
  | @blank c e t hc _ ih =>
    intro ds m v k s he hds hloop hpad hroom
    have hstep : base32Step outputLen s c = .ok s := by
      unfold base32Step
      rw [if_pos]
      rcases hc with rfl | rfl | rfl | rfl <;> decide
    obtain ⟨s', hrest, hend⟩ := ih he hds hloop hpad hroom
    refine ⟨s', ?_, hend⟩
    rw [List.foldlM_cons, hstep]
    exact hrest
  | @drop e t _ ih =>
    intro ds m v k s he hds hloop hpad hroom
    cases ds with
    | nil =>
      cases m with
      | zero => cases he
      | succ m => exact ih (List.cons.inj he).2 hds hloop hpad hroom
    | cons d ds => exact absurd (List.cons.inj he).1.symm (character_ne (hds d (by simp)))
  | @keep c c' e t hc _ ih =>
    intro ds m v k s he hds hloop hpad hroom
    cases ds with
    | nil =>
      cases m with
      | zero => cases he
      | succ m =>
        obtain ⟨rfl, htail⟩ := List.cons.inj he
        obtain rfl := spelled_padding hc
        have hempty : e = ([] : List ℕ).map character ++ List.replicate m 61 := htail
        obtain ⟨s', hrest, hend⟩ := ih hempty hds (s := { s with paddingSeen := true })
          ⟨hloop.bits, hloop.output, hloop.accumulator⟩ (fun _ => rfl) hroom
        exact ⟨s', hrest, hend⟩
    | cons d ds =>
      obtain ⟨rfl, htail⟩ := List.cons.inj he
      have hd := hds d (by simp)
      have hopen : s.paddingSeen = false :=
        Bool.eq_false_iff.mpr fun h => List.cons_ne_nil _ _ (hpad h)
      rw [List.length_cons] at hroom
      obtain ⟨s', hstep, hnext, hpad'⟩ := hloop.feed outputLen hd (by omega)
      obtain ⟨s'', hrest, hend⟩ := ih htail (fun x hx => hds x (List.mem_cons_of_mem d hx)) hnext
        (fun h => by rw [hpad', hopen] at h; cases h) (by omega)
      refine ⟨s'', ?_, ?_⟩
      · rw [List.foldlM_cons, base32Step_digit hopen (base32Value_spelled hd hc), hstep]
        exact hrest
      · rw [List.length_cons, show k + (ds.length + 1) = k + 1 + ds.length by omega]
        exact hend

/-- **Reading back**: every spelling of an encoding gives the bytes. -/
theorem decode_spelling {b t : List UInt8} {outputLen : ℕ} (hb : b ≠ []) (hlen : b.length ≤ outputLen)
    (ht : Spelling (encode b) t) : base32Decode t outputLen = .ok b := by
  have hcount : 5 * digitCount b.length / 8 = b.length := by
    unfold digitCount
    omega
  have hlow : 5 * digitCount b.length % 8 = 5 * digitCount b.length - 8 * b.length := by omega
  obtain ⟨s', hrun, -, hout, -⟩ := read_spelling outputLen ht
    (s := ⟨0, 0, [], false⟩) rfl (fun d hd => mem_digits_lt hd) loop_start (nomatch ·)
    (by rw [length_digits, Nat.zero_add, hcount]; exact hlen)
  have hvalue : extend 32 0 (digits b) / 2 ^ (5 * digitCount b.length - 8 * b.length) = number b := by
    rw [← value, value_digits, Nat.mul_div_cancel _ (Nat.two_pow_pos _)]
  rw [length_digits, Nat.zero_add, hcount, hlow, hvalue, bytes_number] at hout
  have hcheck : require (s'.output ≠ []) .invalidArgument = .ok () :=
    require_eq_ok.mpr (by rw [hout]; exact hb)
  unfold base32Decode
  rw [hrun]
  show (require (s'.output ≠ []) .invalidArgument >>= fun _ => pure s'.output) = _
  rw [hcheck, hout]
  rfl

/-! ### The width of the accumulator -/

/-- A step with an accumulator that keeps every bit. -/
def exactStep (outputLen : ℕ) (s : Base32State) (c : UInt8) : Except Status Base32State :=
  if c = 32 ∨ c = 10 ∨ c = 13 ∨ c = 9 then .ok s
  else if c = 61 then .ok { s with paddingSeen := true }
  else do
    require (s.paddingSeen = false) .invalidArgument
    let value ← (base32Value c).elim (.error .invalidArgument) .ok
    let accumulator := s.accumulator * 32 + value
    let bits := s.bits + 5
    if 8 ≤ bits then
      require (s.output.length < outputLen) .invalidArgument
      return { s with
        accumulator := accumulator
        bits := bits - 8
        output := s.output ++ [UInt8.ofNat (accumulator / 2 ^ (bits - 8))] }
    else return { s with accumulator := accumulator, bits := bits }

/-- What a word of 32 bits keeps of the accumulator. -/
def truncate (s : Base32State) : Base32State := { s with accumulator := s.accumulator % 4294967296 }

/-- What holds after every character: less than a byte is waiting, and the output fits. -/
structure Inside (outputLen : ℕ) (s : Base32State) : Prop where
  bits : s.bits ≤ 7
  room : s.output.length ≤ outputLen

variable {outputLen : ℕ} {x : Base32State}

/-- **One character**: the word decides as the number does, and keeps what is waiting. -/
theorem base32Step_truncate (h : x.bits ≤ 7) (c : UInt8) :
    base32Step outputLen (truncate x) c = (exactStep outputLen x c).map truncate := by
  obtain ⟨a, bits, output, padding⟩ := x
  have hbits : bits + 5 - 8 ≤ 24 := by
    dsimp only at h
    omega
  have hword (v : ℕ) : (a % 4294967296 * 32 + v) % 4294967296 = (a * 32 + v) % 4294967296 := by
    omega
  unfold base32Step exactStep
  simp only [truncate, hword, low_byte hbits]
  split_ifs with hblank hpad h8
  · rfl
  · rfl
  · cases padding with
    | true => rfl
    | false =>
      cases base32Value c with
      | none => rfl
      | some v =>
        by_cases hroom : output.length < outputLen
        · simp only [require, hroom, if_true]
          rfl
        · simp only [require, hroom, if_false]
          rfl
  · cases padding with
    | true => rfl
    | false =>
      cases base32Value c with
      | none => rfl
      | some v => rfl

theorem Inside.step {c : UInt8} {s : Base32State} (h : Inside outputLen x)
    (hs : exactStep outputLen x c = .ok s) : Inside outputLen s := by
  unfold exactStep at hs
  have h7 := h.bits
  split_ifs at hs with hblank hpad
  · cases hs
    exact h
  · cases hs
    exact ⟨h.bits, h.room⟩
  · simp only [bind_eq_ok, require_eq_ok] at hs
    obtain ⟨_, -, v, -, hs⟩ := hs
    split_ifs at hs with h8
    · simp only [bind_eq_ok, pure_eq_ok, require_eq_ok] at hs
      obtain ⟨_, hroom, rfl⟩ := hs
      refine ⟨?_, ?_⟩
      · dsimp only
        omega
      · dsimp only
        rw [List.length_append, List.length_singleton]
        omega
    · cases hs
      refine ⟨?_, h.room⟩
      dsimp only
      omega

/-- **The whole text**: the word and the number stop at the same character, or agree at the end. -/
theorem foldlM_truncate (t : List UInt8) : ∀ {x : Base32State}, Inside outputLen x →
    t.foldlM (base32Step outputLen) (truncate x) =
        (t.foldlM (exactStep outputLen) x).map truncate ∧
      ∀ s, t.foldlM (exactStep outputLen) x = .ok s → Inside outputLen s := by
  induction t with
  | nil =>
    intro x h
    exact ⟨rfl, fun s hs => by cases hs; exact h⟩
  | cons c t ih =>
    intro x h
    rw [List.foldlM_cons, List.foldlM_cons, base32Step_truncate h.bits]
    cases hx : exactStep outputLen x c with
    | error e => exact ⟨rfl, fun s hs => nomatch hs⟩
    | ok y => exact ih (h.step hx)

/-- The state before the first character. -/
def start : Base32State := ⟨0, 0, [], false⟩

/-- **Base 32**: every spelling of an encoding is read as the bytes that were encoded. For every text,
what has been written after any part of it fits in the output, less than a byte is waiting in the
accumulator, and the accumulator decides and writes what a number without a bound would. -/
theorem base32_inverse (outputLen : ℕ) :
    (∀ b t, b ≠ [] → b.length ≤ outputLen → Spelling (encode b) t →
      base32Decode t outputLen = .ok b) ∧
    (∀ (t : Bytes) (s : Base32State), t.foldlM (base32Step outputLen) start = .ok s →
      s.output.length ≤ outputLen ∧ s.bits ≤ 7) ∧
    ∀ t : Bytes, t.foldlM (base32Step outputLen) start =
      (t.foldlM (exactStep outputLen) start).map truncate := by
  have hstart : Inside outputLen start := ⟨Nat.zero_le _, Nat.zero_le _⟩
  refine ⟨fun b t hb hlen ht => decode_spelling hb hlen ht, fun t s hs => ?_, fun t => ?_⟩
  · obtain ⟨heq, hinside⟩ := foldlM_truncate t hstart
    have htrunc : (t.foldlM (exactStep outputLen) start).map truncate = .ok s := heq.symm.trans hs
    cases hx : t.foldlM (exactStep outputLen) start with
    | error e => rw [hx] at htrunc; cases htrunc
    | ok y =>
      rw [hx] at htrunc
      cases htrunc
      exact ⟨(hinside y hx).room, (hinside y hx).bits⟩
  · exact (foldlM_truncate t hstart).1

/-- The seed `foo` with a blank, in lower case and with half of its padding. -/
theorem base32_inverse_foo : base32Decode (ascii "mzxw 6=") 3 = .ok (ascii "foo") := by
  refine (base32_inverse 3).1 (ascii "foo") _ (by decide) (by decide) ?_
  have hencode : encode (ascii "foo") = ascii "MZXW6===" := by decide
  rw [hencode]
  have hlower {c d : UInt8} {e t : Bytes} (h : 65 ≤ c ∧ c ≤ 90 ∧ d = c + 32) (h' : Spelling e t) :
      Spelling (c :: e) (d :: t) := .keep (.inr h) h'
  refine hlower (by decide) (hlower (by decide) (hlower (by decide) (hlower (by decide) ?_)))
  exact .blank (.inl rfl) (.keep (.inl rfl) (.keep (.inl rfl) (.drop (.drop .nil))))

end Fuin.Cli.Seeds

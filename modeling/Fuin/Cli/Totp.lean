import Fuin.Utils

/-! # One-time codes

`utils_base32_decode`, which reads a seed as authenticator apps show it, and `utils_totp_code`, which
truncates the HMAC-SHA1 of a counter to a few digits; the MAC is a parameter. -/

namespace Fuin.Cli.Totp

open Fuin.Utils Fuin.Lib.Frames

/-- The value of a digit. -/
def base32Value (c : UInt8) : Option ℕ :=
  if 65 ≤ c ∧ c ≤ 90 then some (c.toNat - 65)
  else if 97 ≤ c ∧ c ≤ 122 then some (c.toNat - 97)
  else if 50 ≤ c ∧ c ≤ 55 then some (c.toNat - 50 + 26)
  else none

/-- The local variables of the loop. -/
structure Base32State where
  accumulator : ℕ
  bits : ℕ
  output : Bytes
  paddingSeen : Bool

/-- One character; the accumulator has 32 bits. -/
def base32Step (outputLen : ℕ) (s : Base32State) (c : UInt8) : Except Status Base32State :=
  if c = 32 ∨ c = 10 ∨ c = 13 ∨ c = 9 then .ok s
  else if c = 61 then .ok { s with paddingSeen := true }
  else do
    require (s.paddingSeen = false) .invalidArgument
    let value ← (base32Value c).elim (.error .invalidArgument) .ok
    let accumulator := (s.accumulator * 32 + value) % 4294967296
    let bits := s.bits + 5
    if 8 ≤ bits then
      require (s.output.length < outputLen) .invalidArgument
      return { s with
        accumulator := accumulator
        bits := bits - 8
        output := s.output ++ [UInt8.ofNat (accumulator / 2 ^ (bits - 8))] }
    else return { s with accumulator := accumulator, bits := bits }

/-- `utils_base32_decode`. -/
def base32Decode (input : Bytes) (outputLen : ℕ) : Except Status Bytes := do
  let s ← input.foldlM (base32Step outputLen) ⟨0, 0, [], false⟩
  require (s.output ≠ []) .invalidArgument
  return s.output

/-- `utils_totp_code`; the MAC is none if the library fails. -/
def totpCode (hmacSha1 : Bytes → Bytes → Option Bytes) (seed : Bytes) (unixTime periodSeconds : ℕ)
    (digits : ℕ) : Except Status Bytes := do
  require (seed ≠ [] ∧ periodSeconds ≠ 0 ∧ 6 ≤ digits ∧ digits ≤ 8) .invalidArgument
  let counter := (leBytes 8 (unixTime / periodSeconds)).reverse
  let mac ← (hmacSha1 seed counter).elim (.error .crypto) .ok
  require (20 ≤ mac.length) .crypto
  let offset := (mac.getLastD 0).toNat % 16
  let byte (i : ℕ) := (mac.getD (offset + i) 0).toNat
  let binaryCode := byte 0 % 128 * 16777216 + byte 1 * 65536 + byte 2 * 256 + byte 3
  return padded digits (binaryCode % 10 ^ digits)

example : base32Decode (ascii "mzxw 6===") 16 = .ok (ascii "foo") := by decide

end Fuin.Cli.Totp

import Fuin.Utils

/-! # The cryptographic library

What the program uses of libsodium, as a parameter: the hash and MAC functions, the password hash,
the key derivation and the three authenticated ciphers, with the lengths they document and the law
that decryption undoes encryption under the same key, nonce and associated data. Calls that fail are
not part of the functions; they are faults of the run. What is assumed about collisions is stated
where it is used, about the messages at hand. -/

namespace Fuin.Crypto

open Fuin.Utils Fuin.Lib.Frames

/-- The ciphers of the envelope encryption. -/
inductive Algorithm where
  | aes256Gcm
  | xchacha20Poly1305
  | aegis256
  deriving DecidableEq, Repr

/-- The length of a nonce. -/
def Algorithm.nonceBytes : Algorithm → ℕ
  | .aes256Gcm => 12
  | .xchacha20Poly1305 => 24
  | .aegis256 => 32

/-- The length of an authentication tag. -/
def Algorithm.tagBytes : Algorithm → ℕ
  | .aes256Gcm => 16
  | .xchacha20Poly1305 => 16
  | .aegis256 => 32

/-- The functions of the library. -/
structure Sodium where
  /-- Whether the library offers AEGIS-256 (known when the program is compiled). -/
  hasAegis : Bool
  /-- `crypto_aead_aes256gcm_is_available`. -/
  aesAvailable : Bool
  /-- `crypto_hash_sha256`. -/
  sha256 : Bytes → Block 32
  /-- `crypto_auth`: the MAC of a message under a key. -/
  auth : Block 32 → Bytes → Block 32
  /-- `crypto_generichash` with a key. -/
  generichash : Block 32 → Bytes → Block 32
  /-- `crypto_pwhash` with the fixed limits and algorithm. -/
  pwhash : Bytes → Block 16 → Block 32
  /-- `crypto_kdf_derive_from_key` in the program's context. -/
  kdf : Block 32 → ℕ → Block 32
  /-- `crypto_aead_*_encrypt`: key, nonce, associated data, message. -/
  encrypt : Algorithm → Block 32 → Bytes → Bytes → Bytes → Bytes
  /-- `crypto_aead_*_decrypt`: key, nonce, associated data, ciphertext. -/
  decrypt : Algorithm → Block 32 → Bytes → Bytes → Bytes → Option Bytes
  length_encrypt : ∀ a k n d m, (encrypt a k n d m).length = m.length + a.tagBytes
  decrypt_encrypt : ∀ a k n d m, decrypt a k n d (encrypt a k n d m) = some m

attribute [simp] Sodium.length_encrypt Sodium.decrypt_encrypt

/-- A hash function has no collision on a set of messages. -/
def Sodium.CollisionFree (so : Sodium) (M : Set Bytes) : Prop := Set.InjOn so.sha256 M

/-! ### A library to compute with

Examples need functions that can be run. `toy` hashes with a polynomial modulo `2 ^ 256` and seals a
message by appending a hash of everything that goes into it. -/

/-- A polynomial in the bytes and the length. -/
def toyHash (m : Bytes) : Block 32 :=
  ⟨leBytes 32 (m.foldl (fun h b => (h * 1000003 + b.toNat + 1) % 2 ^ 256) 7), by simp⟩

/-- The tag that `toy` appends to a message. -/
def toyTag (a : Algorithm) (k : Block 32) (n d m : Bytes) : Bytes :=
  (toyHash (k.1 ++ frames 4 [n, d] ++ m)).1.take a.tagBytes

theorem length_toyTag (a : Algorithm) (k : Block 32) (n d m : Bytes) :
    (toyTag a k n d m).length = a.tagBytes := by
  rw [toyTag, List.length_take, (toyHash _).2]
  cases a <;> rfl

/-- A library of simple functions. -/
def toy : Sodium where
  hasAegis := true
  aesAvailable := true
  sha256 := toyHash
  auth k m := toyHash (1 :: (k.1 ++ m))
  generichash k m := toyHash (2 :: (k.1 ++ m))
  pwhash p s := toyHash (3 :: (s.1 ++ p))
  kdf k i := toyHash (4 :: UInt8.ofNat i :: k.1)
  encrypt a k n d m := m ++ toyTag a k n d m
  decrypt a k n d c :=
    let m := c.take (c.length - a.tagBytes)
    if c = m ++ toyTag a k n d m then some m else none
  length_encrypt a k n d m := by simp [length_toyTag]
  decrypt_encrypt a k n d m := by simp [length_toyTag]

/-- A name and a password for the examples. -/
def sampleName : CString := ⟨ascii "db", by decide⟩

def samplePassword : CString := ⟨ascii "password", by decide⟩

end Fuin.Crypto

import Fuin.Crypto
import Fuin.CryptoEngine

/-! # The capsule of a backup

A capsule is a header in the clear (lengths, algorithm, the encapsulated keys, a nonce and the root
of the audit log) and the snapshot of the database, encrypted under a key that is hashed from the two
shared secrets, the encapsulated keys and the root; the header is the associated data. -/

namespace Fuin.Backup.Capsule

open Fuin.Utils Fuin.Crypto Fuin.CryptoEngine Fuin.Lib.Frames

/-- What `backup.c` uses beside the ciphers: the key files and the two key agreements of OpenSSL, and
the hash without a key. Keys are what identifies an `EVP_PKEY`. -/
structure KeyLibrary where
  /-- `PEM_read_PUBKEY`, twice: the KEM key and the X25519 key of a file. -/
  readPublicKeys : Bytes → Option (Bytes × Bytes)
  /-- `EVP_PKEY_encapsulate` with its random bytes: the ciphertext and the shared secret. -/
  encapsulate : Bytes → Block 32 → Bytes × Bytes
  /-- `EVP_PKEY_get_raw_public_key` of an X25519 key. -/
  rawPublicKey : Block 32 → Bytes
  /-- `EVP_PKEY_derive`. -/
  derive : Block 32 → Bytes → Bytes
  /-- `crypto_generichash_init` without a key, the updates, and `crypto_generichash_final`. -/
  generichash : Bytes → Block 32

/-- `BACKUP_MAGIC`. -/
def magic : Bytes := ascii "SMBKPQ1" ++ [10]

/-- `BACKUP_CAPSULE_ALGORITHM`. -/
def capsuleAlgorithm : Bytes := ascii "X25519+ML-KEM-768"

/-- The context of `backup_derive_capsule_key`. -/
def keyContext : Bytes := ascii "Fuin-PQC-Backup-v1|X25519+ML-KEM-768|XChaCha20-Poly1305"

def uint32Max : ℕ := 4294967295

/-- `BACKUP_MAX_DB_BYTES`. -/
def maxDbBytes : ℕ := 128 * 1024 * 1024

/-- `backup_write_u32_le`. -/
def writeU32le (value : ℕ) : Bytes := leBytes 4 value

/-- `backup_build_hybrid_encap`. -/
def buildHybridEncap (ephemeralPublic kemCt : Bytes) : Except Status Bytes := do
  require (ephemeralPublic.length = 32 ∧ kemCt ≠ []) .invalidArgument
  require (4 + ephemeralPublic.length + kemCt.length ≤ sizeMax) .storage
  return writeU32le ephemeralPublic.length ++ ephemeralPublic ++ kemCt

/-- `backup_derive_capsule_key`. -/
def deriveCapsuleKey (lib : KeyLibrary) (kemSharedSecret x25519SharedSecret encap : Bytes)
    (auditRoot : Block 32) : Except Status (Block 32) := do
  require (kemSharedSecret ≠ [] ∧ x25519SharedSecret ≠ [] ∧ encap ≠ []) .invalidArgument
  return lib.generichash (keyContext ++ kemSharedSecret ++ x25519SharedSecret ++ encap ++ auditRoot.1)

/-- `backup_build_fixed_header`. -/
def buildFixedHeader (algorithmLen encapLen nonceLen auditRootLen ciphertextLen plaintextLen : ℕ) :
    Except Status Bytes := do
  require (algorithmLen ≤ uint32Max ∧ encapLen ≤ uint32Max ∧ nonceLen ≤ uint32Max ∧
    auditRootLen ≤ uint32Max) .invalidArgument
  return magic ++ writeU32le 1 ++ writeU32le algorithmLen ++ writeU32le encapLen ++
    writeU32le nonceLen ++ writeU32le auditRootLen ++ u64le ciphertextLen ++ u64le plaintextLen

/-- `backup_build_aad`. -/
def buildCapsuleAad (fixedHeader algorithm encap nonce : Bytes) (auditRoot : Block 32) :
    Except Status Bytes := do
  require (44 + algorithm.length + encap.length + nonce.length + 32 ≤ sizeMax) .storage
  return fixedHeader ++ algorithm ++ encap ++ nonce ++ auditRoot.1

/-- The capsule of a snapshot, once all keys are agreed on: the second half of
`backup_pqc_export`. -/
def sealSnapshot (so : Sodium) (lib : KeyLibrary) (snapshot encap kemSharedSecret
    x25519SharedSecret : Bytes) (nonce : Block 24) (auditRoot : Block 32) : Except Status Bytes := do
  let key ← deriveCapsuleKey lib kemSharedSecret x25519SharedSecret encap auditRoot
  require (snapshot.length ≤ sizeMax - 16) .storage
  let fixedHeader ← buildFixedHeader capsuleAlgorithm.length encap.length 24 32
    (snapshot.length + 16) snapshot.length
  let aad ← buildCapsuleAad fixedHeader capsuleAlgorithm encap nonce.1 auditRoot
  let ciphertext := so.encrypt .xchacha20Poly1305 key nonce.1 aad snapshot
  require (aad.length + ciphertext.length ≤ sizeMax) .storage
  return aad ++ ciphertext

variable {so : Sodium} {lib : KeyLibrary}

theorem length_writeU32le (n : ℕ) : (writeU32le n).length = 4 := length_leBytes 4 n

theorem length_buildFixedHeader {a e n r c p : ℕ} {header : Bytes}
    (h : buildFixedHeader a e n r c p = .ok header) : header.length = 44 := by
  simp only [buildFixedHeader, bind_eq_ok, pure_eq_ok] at h
  obtain ⟨-, -, rfl⟩ := h
  simp [length_writeU32le, magic, ascii]

/-- The length of the encapsulated keys that the header of a capsule gives. -/
def encapLength (capsule : Bytes) : ℕ := ofLeBytes ((capsule.drop 16).take 4)

/-- The root in the header of a capsule, where `backup_pqc_import` reads it. -/
def headerRoot (capsule : Bytes) : Bytes :=
  (capsule.drop (44 + capsuleAlgorithm.length + encapLength capsule + 24)).take 32

/-- What a capsule consists of. -/
theorem sealSnapshot_eq_ok {snapshot encap kem x25519 : Bytes} {nonce : Block 24} {root : Block 32}
    {capsule : Bytes} (h : sealSnapshot so lib snapshot encap kem x25519 nonce root = .ok capsule) :
    ∃ header, buildFixedHeader capsuleAlgorithm.length encap.length 24 32 (snapshot.length + 16)
        snapshot.length = .ok header ∧
      capsule = header ++ capsuleAlgorithm ++ encap ++ nonce.1 ++ root.1 ++
        so.encrypt .xchacha20Poly1305
          (lib.generichash (keyContext ++ kem ++ x25519 ++ encap ++ root.1)) nonce.1
          (header ++ capsuleAlgorithm ++ encap ++ nonce.1 ++ root.1) snapshot := by
  simp only [sealSnapshot, deriveCapsuleKey, buildCapsuleAad, bind_eq_ok, pure_eq_ok,
    require_eq_ok] at h
  obtain ⟨_, ⟨-, -, rfl⟩, -, -, header, hheader, _, ⟨-, -, rfl⟩, -, -, rfl⟩ := h
  exact ⟨header, hheader, rfl⟩

/-- The third length of the header. -/
theorem encapLength_fixedHeader {a e n r c p : ℕ} {header rest : Bytes}
    (h : buildFixedHeader a e n r c p = .ok header) : encapLength (header ++ rest) = e := by
  simp only [buildFixedHeader, bind_eq_ok, pure_eq_ok, require_eq_ok] at h
  obtain ⟨-, ⟨-, he, -⟩, rfl⟩ := h
  unfold uint32Max at he
  have hfront : (magic ++ writeU32le 1 ++ writeU32le a).length = 16 := by
    simp [length_writeU32le, magic, ascii]
  unfold encapLength
  simp only [List.append_assoc] at hfront ⊢
  rw [← List.append_assoc (writeU32le 1), ← List.append_assoc magic, List.drop_left' hfront,
    List.take_left' (length_writeU32le e)]
  unfold writeU32le
  rw [ofLeBytes_leBytes, Nat.mod_eq_of_lt (by norm_num; omega)]

/-- **The root in the header** is the one the key was hashed from. -/
theorem headerRoot_sealSnapshot {snapshot encap kem x25519 : Bytes} {nonce : Block 24}
    {root : Block 32} {capsule : Bytes}
    (h : sealSnapshot so lib snapshot encap kem x25519 nonce root = .ok capsule) :
    headerRoot capsule = root.1 := by
  obtain ⟨header, hheader, rfl⟩ := sealSnapshot_eq_ok h
  have hlen := length_buildFixedHeader hheader
  have hnonce : nonce.1.length = 24 := nonce.2
  have hroot : root.1.length = 32 := root.2
  have hencap : encapLength (header ++ capsuleAlgorithm ++ encap ++ nonce.1 ++ root.1 ++
      so.encrypt .xchacha20Poly1305
        (lib.generichash (keyContext ++ kem ++ x25519 ++ encap ++ root.1)) nonce.1
        (header ++ capsuleAlgorithm ++ encap ++ nonce.1 ++ root.1) snapshot) = encap.length := by
    simp only [List.append_assoc]
    exact encapLength_fixedHeader hheader
  unfold headerRoot
  rw [hencap, List.append_assoc _ root.1, List.drop_left' (by simp [hlen, hnonce]; omega),
    List.take_left' hroot]

end Fuin.Backup.Capsule

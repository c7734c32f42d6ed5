import Fuin.Kdf
import Fuin.CryptoEngine
import Fuin.Audit.Log

/-! # Reading and writing the tables

The functions of `vault.c` below its operations: the names (a keyed hash to look a secret up by, an
encrypted copy to show), the queries with the checks they make on a row, the statements that write,
and the decryption of a row. -/

namespace Fuin.Vault.Rows

open Fuin.Utils Fuin.Time Fuin.Crypto Fuin.Lib.Program Fuin.Store.Secrets Fuin.Store.Database
open Fuin.CryptoEngine Fuin.Kdf Fuin.Audit.Log

/-! ### Names -/

/-- `vault_name_is_clean`. -/
def nameIsClean (name : CString) : Bool :=
  name.bytes ≠ [] && decide (name.bytes.length ≤ 256) &&
    name.bytes.all fun c => !(decide (c < 32) || c == 127)

/-- The lookup name, once computed. -/
def lookupOf (so : Sodium) (keys : Subkeys) (name : CString) : CString :=
  bin2hex (so.generichash keys.kekMeta name.bytes).1

/-- `vault_build_name_lookup`. -/
def buildNameLookup (so : Sodium) (keys : Subkeys) (name : CString) : Sql CString := do
  Prog.ofExcept (require (name.bytes ≠ []) .invalidArgument)
  Sql.libs [.crypto, .crypto]
  return lookupOf so keys name

/-- `vault_encrypt_display_name`: the nonce and the encrypted name. -/
def encryptDisplayName (so : Sodium) (keys : Subkeys) (name storedName : CString) :
    Sql (Bytes × Bytes) := do
  Prog.ofExcept (require (storedName.bytes ≠ [] ∧ name.bytes ≠ [] ∧ name.bytes.length ≤ 256)
    .invalidArgument)
  let nonce ← Sql.random 24
  Sql.lib .crypto
  return (nonce.1, so.encrypt .xchacha20Poly1305 keys.kekMeta nonce.1 storedName.bytes name.bytes)

/-- `vault_decrypt_display_name`. -/
def decryptDisplayName (so : Sodium) (keys : Subkeys) (storedName : CString)
    (nonce encryptedName : Bytes) : Except Status CString := do
  require (storedName.bytes ≠ [] ∧ nonce.length = 24 ∧ 16 < encryptedName.length ∧
    encryptedName.length ≤ 272) .invalidArgument
  let name ← opened
    (so.decrypt .xchacha20Poly1305 keys.kekMeta nonce storedName.bytes encryptedName)
  require (name.length < 257) .storage
  return columnText name

/-! ### Queries -/

/-- `vault_secret_metadata_t`, of a row that exists. -/
structure SecretMetadata where
  id : CString
  version : ℤ
  nonceCounter : ℤ
  nameNonce : Bytes
  encryptedName : Bytes
  createdAt : CString
  expiresAt : Option CString
  rotationInterval : ℤ

/-- The columns of `vault_find_secret_metadata`. -/
def readMetadata (r : SecretRow) : Except Status SecretMetadata := do
  let id ← copyText 37 r.id
  require (r.nameNonce.length = 24 ∧ 16 < r.encryptedName.length ∧ r.encryptedName.length ≤ 272)
    .storage
  let createdAt ← copyText 21 r.createdAt
  let expiresAt ← r.expiresAt.mapM (copyText 21)
  require (0 ≤ r.rotationInterval.getD 0) .storage
  require (1 ≤ columnInt r.version ∧ 0 ≤ r.nonceCounter) .storage
  return {
    id := id
    version := columnInt r.version
    nonceCounter := r.nonceCounter
    nameNonce := r.nameNonce
    encryptedName := r.encryptedName
    createdAt := createdAt
    expiresAt := expiresAt
    rotationInterval := r.rotationInterval.getD 0 }

/-- What `vault_find_secret_metadata` reads. -/
def metadataOf (name : CString) (db : Db) : Except Status (Option SecretMetadata) :=
  (db.secrets.activeRow name.bytes).mapM readMetadata

/-- `vault_find_secret_metadata`. -/
def findSecretMetadata (name : CString) : Sql (Option SecretMetadata) :=
  Sql.select (metadataOf name)

/-- What `vault_get_version_ttl` reads. -/
def versionTtl (name : CString) (version : ℤ) (db : Db) : Except Status ℤ :=
  match db.secrets.versionRow name.bytes version with
  | none => .ok 0
  | some r => do
    require (0 ≤ r.rotationInterval.getD 0) .storage
    return r.rotationInterval.getD 0

/-- `vault_get_version_ttl`. -/
def getVersionTtl (name : CString) (version : ℤ) : Sql ℤ := do
  Prog.ofExcept (require (1 ≤ version) .invalidArgument)
  Sql.select (versionTtl name version)

/-- The result of `vault_find_secret_history_bounds`; without history both bounds are 0. -/
structure Bounds where
  hasHistory : Bool
  maxVersion : ℤ
  maxNonceCounter : ℤ

/-- The version and the counter that follow the bounds. -/
def Bounds.next (b : Bounds) : Except Status (ℤ × ℤ) := do
  require (b.maxVersion ≠ intMax ∧ b.maxNonceCounter ≠ int64Max) .storage
  return (b.maxVersion + 1, b.maxNonceCounter + 1)

/-- What `vault_find_secret_history_bounds` reads. -/
def boundsOf (name : CString) (db : Db) : Except Status Bounds :=
  if 0 < columnInt (db.secrets.rowsOf name.bytes).length then do
    let version := columnInt (db.secrets.maxOf name.bytes SecretRow.version)
    let counter := db.secrets.maxOf name.bytes SecretRow.nonceCounter
    require (1 ≤ version ∧ 0 ≤ counter) .storage
    return ⟨true, version, counter⟩
  else .ok ⟨false, 0, 0⟩

/-- `vault_find_secret_history_bounds`. -/
def findHistoryBounds (name : CString) : Sql Bounds := Sql.select (boundsOf name)

/-- The name `vault_find_next_expired_secret` reads. -/
def nextExpiredName (now : CString) (db : Db) : Except Status (Option CString) :=
  (db.secrets.nextExpired now.bytes).mapM fun r => do
    require (r.name ≠ []) .storage
    return columnText r.name

/-- `vault_find_next_expired_secret`. -/
def findNextExpired (now : CString) : Sql (Option CString) := Sql.select (nextExpiredName now)

/-- `vault_secret_row_t`. -/
structure LoadedRow where
  id : CString
  version : ℤ
  encrypted : EncryptedSecret

/-- `vault_copy_secret_row`. -/
def copySecretRow (r : SecretRow) : Except Status LoadedRow := do
  let id ← copyText 37 r.id
  require (1 ≤ columnInt r.version) .storage
  let algorithm ← copyText 32 r.algorithm
  require (r.ciphertext ≠ [] ∧ r.encryptedDek ≠ [] ∧ r.nonce ≠ [] ∧ r.dekNonce ≠ []) .storage
  require (r.nonce.length ≤ 32 ∧ r.dekNonce.length ≤ 32) .storage
  require (r.keyCommitment.length = 64) .storage
  return {
    id := id
    version := columnInt r.version
    encrypted :=
      { algorithm := algorithm
        ciphertext := r.ciphertext
        encryptedDek := r.encryptedDek
        nonce := r.nonce
        dekNonce := r.dekNonce
        keyCommitment := r.keyCommitment } }

/-- Which row is asked for. -/
inductive Which where
  | active
  | version (v : ℤ)

/-- Versions are counted from 1. -/
def Which.valid : Which → Bool
  | .active => true
  | .version v => decide (1 ≤ v)

/-- The row that a query finds. -/
def Which.row (name : CString) (db : Db) : Which → Option SecretRow
  | .active => db.secrets.activeRow name.bytes
  | .version v => db.secrets.versionRow name.bytes v

/-- What `vault_load_secret_row` reads. -/
def loadedRow (name : CString) (w : Which) (db : Db) : Except Status LoadedRow :=
  match w.row name db with
  | none => .error .notFound
  | some r => copySecretRow r

/-- `vault_load_secret_row`. -/
def loadSecretRow (name : CString) (w : Which) : Sql LoadedRow := do
  Prog.ofExcept (require (name.bytes ≠ [] ∧ w.valid) .invalidArgument)
  Sql.select (loadedRow name w)

/-! ### Decrypting a row -/

/-- `vault_decrypt_secret_row`. -/
def decryptSecretRow (so : Sodium) (keys : Subkeys) (row : LoadedRow) (name : CString)
    (capacity : ℕ) : Sql Bytes := do
  Prog.ofExcept (require (name.bytes ≠ []) .invalidArgument)
  let identity ← Prog.ofExcept (buildRowIdentity so row.id name)
  Sql.libs [.crypto, .storage]
  decrypt so row.encrypted keys.kekEnc identity row.version capacity

/-- `vault_decrypt_secret_alloc`: the plaintext and the name of the algorithm. The buffer is as long
as the ciphertext. -/
def decryptSecretAlloc (so : Sodium) (keys : Subkeys) (name : CString) (version : ℤ) :
    Sql (Bytes × CString) := do
  Prog.ofExcept (require (name.bytes ≠ [] ∧ 1 ≤ version) .invalidArgument)
  let row ← loadSecretRow name (.version version)
  Sql.lib .storage
  let plaintext ← decryptSecretRow so keys row name row.encrypted.ciphertext.length
  Prog.ofExcept (require (row.encrypted.algorithm.bytes.length < 32) .storage)
  return (plaintext, row.encrypted.algorithm)

/-! ### Statements that write -/

/-- A new version of a secret, before it is stored. -/
structure NewSecret where
  id : CString
  name : CString
  nameNonce : Bytes
  encryptedName : Bytes
  version : ℤ
  nonceCounter : ℤ
  now : CString
  expiresAt : Option CString
  rotationInterval : ℤ
  encrypted : EncryptedSecret

/-- The row that is bound: an interval that is not positive is `NULL`. -/
def NewSecret.row (s : NewSecret) : SecretRow where
  id := s.id.bytes
  name := s.name.bytes
  nameNonce := s.nameNonce
  encryptedName := s.encryptedName
  version := s.version
  algorithm := s.encrypted.algorithm.bytes
  ciphertext := s.encrypted.ciphertext
  encryptedDek := s.encrypted.encryptedDek
  nonce := s.encrypted.nonce
  dekNonce := s.encrypted.dekNonce
  keyCommitment := s.encrypted.keyCommitment
  nonceCounter := s.nonceCounter
  createdAt := s.now.bytes
  updatedAt := s.now.bytes
  expiresAt := s.expiresAt.map CString.bytes
  rotationInterval := if 0 < s.rotationInterval then some s.rotationInterval else none
  isArchived := false

/-- `vault_insert_secret`; a blob of more than `INT_MAX` bytes is refused. -/
def insertSecret (s : NewSecret) : Sql Unit := do
  Prog.ofExcept (require (∀ b ∈ [s.nameNonce, s.encryptedName, s.encrypted.ciphertext,
    s.encrypted.encryptedDek, s.encrypted.nonce, s.encrypted.dekNonce, s.encrypted.keyCommitment],
    (b.length : ℤ) ≤ intMax) .invalidArgument)
  let _ ← Sql.write (.insertSecret s.row)

/-- `vault_archive_active_secret`. -/
def archiveActiveSecret (name updatedAt : CString) (requireExisting : Bool) : Sql Unit := do
  let changes ← Sql.write (.archiveActive name.bytes updatedAt.bytes)
  Prog.ofExcept (require (changes ≤ 1) .storage)
  Prog.ofExcept (require (requireExisting → changes ≠ 0) .notFound)

/-- `AUDIT` texts. -/
def successText : CString := ⟨ascii "SUCCESS", by decide⟩

/-- The actor that the vault logs. -/
def actorText : CString := ⟨ascii "user:default", Audit.Encoding.actorDefault.noNul⟩

/-- `vault_log_success`. -/
def logSuccess (so : Sodium) (action target : CString) (version : ℤ) (auditKey : Block 32) :
    Sql Unit :=
  logEvent so actorText action target version successText auditKey

/-! ### Metadata -/

/-- What `vault_get_metadata_blob` reads into a buffer of `n` bytes. -/
def metadataBlob (key : MetadataKey) (n : ℕ) (db : Db) : Except Status (Option Bytes) :=
  match db.metadata key with
  | none => .ok none
  | some b => do
    require (b.length ≤ n) .storage
    return some b

/-- `vault_get_metadata_blob`. -/
def getMetadataBlob (key : MetadataKey) (n : ℕ) : Sql (Option Bytes) :=
  Sql.select (metadataBlob key n)

/-- `vault_put_metadata_blob`. -/
def putMetadataBlob (key : MetadataKey) (value : Bytes) : Sql Unit := do
  Prog.ofExcept (require ((value.length : ℤ) ≤ intMax) .invalidArgument)
  let _ ← Sql.write (.putMetadata key value)

/-- `vault_load_auth_metadata`: salt and verifier, if there are any. -/
def loadAuthMetadata : Sql (Option (Block 16 × Block 32)) := do
  let salt ← getMetadataBlob .salt 16
  let verifier ← getMetadataBlob .passwordVerifier 32
  match salt, verifier with
  | none, none => return none
  | some s, some v =>
    if h : s.length = 16 ∧ v.length = 32 then return some (⟨s, h.1⟩, ⟨v, h.2⟩)
    else Prog.fail .storage
  | _, _ => Prog.fail .storage

/-- `VAULT_META_KEY_WRAP_AAD`. -/
def metaKeyAad : Bytes := ascii "vault:kek_meta:v1"

/-- `vault_put_wrapped_meta_key`. -/
def putWrappedMetaKey (so : Sodium) (metaKey wrappingKey : Block 32) : Sql Unit := do
  let nonce ← Sql.random 24
  Sql.lib .crypto
  putMetadataBlob .metaKeyNonce nonce.1
  putMetadataBlob .metaKeyWrapped
    (so.encrypt .xchacha20Poly1305 wrappingKey nonce.1 metaKeyAad metaKey.1)

/-- The metadata key that is unwrapped. -/
def unwrapMetaKey (so : Sodium) (wrappingKey : Block 32) (nonce wrapped : Option Bytes) :
    Except Status (Block 32) :=
  match nonce, wrapped with
  | some n, some w => do
    require (n.length = 24 ∧ w.length = 48) .storage
    match so.decrypt .xchacha20Poly1305 wrappingKey n metaKeyAad w with
    | none => .error .auth
    | some m => if h : m.length = 32 then .ok ⟨m, h⟩ else .error .storage
  | _, _ => .error .storage

/-- `vault_load_meta_key`: the subkeys with the stored metadata key. -/
def loadMetaKey (so : Sodium) (keys : Subkeys) : Sql Subkeys := do
  let nonce ← getMetadataBlob .metaKeyNonce 24
  let wrapped ← getMetadataBlob .metaKeyWrapped 48
  let metaKey ← Prog.ofExcept (unwrapMetaKey so keys.kekEnc nonce wrapped)
  return { keys with kekMeta := metaKey }

/-- `vault_log_auth_failure_untrusted`. -/
def logAuthFailure : Sql Unit := do
  let now ← Sql.time
  let timestamp ← Prog.ofExcept (nowIso8601 now)
  let _ ← Sql.write (.insertAuthFailure timestamp.bytes)

end Fuin.Vault.Rows

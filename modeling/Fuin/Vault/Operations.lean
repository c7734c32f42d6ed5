import Fuin.Vault.Transactions

/-! # The operations of the vault

Each operation of `vault.c` as a program of a session with the subkeys `keys`. What an operation does
before its transaction is a program of its own (`preparePut`, `prepareRotation`, …): it reads the
database statement by statement, computes the new row, and leaves both to the transaction. The
checks of pointers and lengths that only concern C are left out. -/

namespace Fuin.Vault.Operations

open Fuin.Utils Fuin.Time Fuin.Crypto Fuin.Lib.Program Fuin.Store.Secrets Fuin.Store.Database
open Fuin.CryptoEngine Fuin.Kdf Fuin.Audit.Log Fuin.Vault.Rows Fuin.Vault.Transactions

/-- `utils_now_iso8601`. -/
def currentTime : Sql CString := do
  let now ← Sql.time
  Prog.ofExcept (nowIso8601 now)

/-- `utils_now_plus_seconds_iso8601`. -/
def timeAfter (seconds : ℕ) : Sql CString := do
  let now ← Sql.time
  Prog.ofExcept (plusSecondsIso8601 seconds now)

/-- `utils_generate_uuid_v4`. -/
def generateUuid : Sql CString := do
  Sql.lib .crypto
  let r ← Sql.random 16
  return uuidText r

/-- A new id and the identity of the row under it. -/
def newIdentity (so : Sodium) (storedName : CString) : Sql (CString × CString) := do
  let id ← generateUuid
  let identity ← Prog.ofExcept (buildRowIdentity so id storedName)
  Sql.lib .crypto
  return (id, identity)

/-- The time of expiry for an interval, none for 0. -/
def expiryFor (seconds : ℤ) : Sql (Option CString) := do
  if 0 < seconds then
    let t ← timeAfter seconds.toNat
    return some t
  else return none

/-! ### Writing -/

/-- `vault_put_with_options` up to the transaction. -/
def preparePut (so : Sodium) (keys : Subkeys) (name : CString) (secret : Bytes)
    (algorithm : Option CString) (ttl : ℕ) : Sql (Option SecretMetadata × NewSecret) := do
  Prog.ofExcept (require (nameIsClean name) .invalidArgument)
  let storedName ← buildNameLookup so keys name
  let (nameNonce, encryptedName) ← encryptDisplayName so keys name storedName
  let metadata ← findSecretMetadata storedName
  let bounds ← findHistoryBounds storedName
  let now ← currentTime
  Prog.ofExcept (require ((ttl : ℤ) ≤ int64Max) .invalidArgument)
  let expiresAt ← expiryFor ttl
  let (version, nonceCounter) ← Prog.ofExcept (if bounds.hasHistory then bounds.next else .ok (1, 1))
  let (id, identity) ← newIdentity so storedName
  let encrypted ←
    encryptWithAlgorithm so secret keys.kekEnc identity version nonceCounter algorithm
  return (metadata,
    { id := id
      name := storedName
      nameNonce := nameNonce
      encryptedName := encryptedName
      version := version
      nonceCounter := nonceCounter
      now := now
      expiresAt := expiresAt
      rotationInterval := ttl
      encrypted := encrypted })

/-- `vault_put_with_options`. -/
def put (so : Sodium) (keys : Subkeys) (name : CString) (secret : Bytes)
    (algorithm : Option CString) (ttl : ℕ) : VaultProg Unit := do
  let (metadata, new) ← sql (preparePut so keys name secret algorithm ttl)
  transact (.put metadata new keys.kekAudit)

/-- `vault_delete` up to the transaction. -/
def prepareDelete (so : Sodium) (keys : Subkeys) (name : CString) :
    Sql (CString × CString × SecretMetadata) := do
  let storedName ← buildNameLookup so keys name
  let now ← currentTime
  let metadata ← findSecretMetadata storedName
  match metadata with
  | none => Prog.fail .notFound
  | some metadata => return (storedName, now, metadata)

/-- `vault_delete`. -/
def delete (so : Sodium) (keys : Subkeys) (name : CString) : VaultProg Unit := do
  let (storedName, now, metadata) ← sql (prepareDelete so keys name)
  transact (.delete storedName now metadata keys.kekAudit)

/-- `vault_rollback` up to the transaction. -/
def prepareRollback (so : Sodium) (keys : Subkeys) (name : CString) (version : ℤ) :
    Sql NewSecret := do
  Prog.ofExcept (require (1 ≤ version) .invalidArgument)
  let storedName ← buildNameLookup so keys name
  let (nameNonce, encryptedName) ← encryptDisplayName so keys name storedName
  let (plaintext, algorithm) ← decryptSecretAlloc so keys storedName version
  let ttl ← getVersionTtl storedName version
  let bounds ← findHistoryBounds storedName
  Prog.ofExcept (require bounds.hasHistory .storage)
  let (newVersion, nonceCounter) ← Prog.ofExcept bounds.next
  let now ← currentTime
  let expiresAt ← expiryFor ttl
  let (id, identity) ← newIdentity so storedName
  let encrypted ←
    encryptWithAlgorithm so plaintext keys.kekEnc identity newVersion nonceCounter (some algorithm)
  return {
    id := id
    name := storedName
    nameNonce := nameNonce
    encryptedName := encryptedName
    version := newVersion
    nonceCounter := nonceCounter
    now := now
    expiresAt := expiresAt
    rotationInterval := ttl
    encrypted := encrypted }

/-- `vault_rollback`. -/
def rollback (so : Sodium) (keys : Subkeys) (name : CString) (version : ℤ) : VaultProg Unit := do
  let new ← sql (prepareRollback so keys name version)
  transact (.rollback new keys.kekAudit)

/-- `vault_rotate_expired_secret` up to the transaction; nothing if the secret is not due. -/
def prepareRotation (so : Sodium) (keys : Subkeys) (name : CString) :
    Sql (Option (SecretMetadata × NewSecret)) := do
  Prog.ofExcept (require (name.bytes ≠ []) .invalidArgument)
  let now ← currentTime
  match ← findSecretMetadata name with
  | none => Prog.fail .storage
  | some metadata =>
    if metadata.expiresAt.any fun t => expiryIsDue t now then
      let (plaintext, algorithm) ← decryptSecretAlloc so keys name metadata.version
      let bounds ← findHistoryBounds name
      Prog.ofExcept (require bounds.hasHistory .storage)
      let (version, nonceCounter) ← Prog.ofExcept bounds.next
      let (id, identity) ← newIdentity so name
      let expiresAt ← expiryFor metadata.rotationInterval
      let encrypted ←
        encryptWithAlgorithm so plaintext keys.kekEnc identity version nonceCounter (some algorithm)
      return some (metadata,
        { id := id
          name := name
          nameNonce := metadata.nameNonce
          encryptedName := metadata.encryptedName
          version := version
          nonceCounter := nonceCounter
          now := now
          expiresAt := expiresAt
          rotationInterval := metadata.rotationInterval
          encrypted := encrypted })
    else return none

/-- `vault_rotate_expired_secret`. -/
def rotateExpiredSecret (so : Sodium) (keys : Subkeys) (name : CString) : VaultProg Unit := do
  match ← sql (prepareRotation so keys name) with
  | none => return ()
  | some (metadata, new) => transact (.rotateDek metadata new keys.kekAudit)

/-- The loop of `vault_auto_rotate_expired`, with a bound on the rounds. -/
def rotateExpired (so : Sodium) (keys : Subkeys) (now : CString) : ℕ → ℕ → VaultProg ℕ
  | 0, _ => Prog.fail .fuel
  | fuel + 1, rotated => do
    match ← sql (findNextExpired now) with
    | none => return rotated
    | some name =>
      rotateExpiredSecret so keys name
      rotateExpired so keys now fuel (rotated + 1)

/-- `vault_auto_rotate_expired`. -/
def autoRotateExpired (so : Sodium) (keys : Subkeys) (fuel : ℕ) : VaultProg ℕ := do
  let now ← sql currentTime
  rotateExpired so keys now fuel 0

/-! ### Reading -/

/-- `vault_read_secret` up to the audit entry: the lookup name, the version that was read and the
plaintext. -/
def prepareRead (so : Sodium) (keys : Subkeys) (name : CString) (w : Which) (capacity : ℕ) :
    Sql (CString × ℤ × Bytes) := do
  let storedName ← buildNameLookup so keys name
  let row ← loadSecretRow storedName w
  let plaintext ← decryptSecretRow so keys row storedName capacity
  return (storedName, row.version, plaintext)

/-- `vault_read_secret`, with its audit entry. -/
def readSecret (so : Sodium) (keys : Subkeys) (name : CString) (w : Which) (capacity : ℕ) :
    VaultProg Bytes := do
  let (storedName, version, plaintext) ← sql (prepareRead so keys name w capacity)
  sql (logSuccess so readText storedName version keys.kekAudit)
  return plaintext

/-- `vault_get`. -/
def get (so : Sodium) (keys : Subkeys) (name : CString) (capacity : ℕ) : VaultProg Bytes :=
  readSecret so keys name .active capacity

/-- `vault_get_version`. -/
def getVersion (so : Sodium) (keys : Subkeys) (name : CString) (version : ℤ) (capacity : ℕ) :
    VaultProg Bytes := do
  Prog.ofExcept (require (1 ≤ version) .invalidArgument)
  readSecret so keys name (.version version) capacity

/-- `vault_list_item_t`. -/
structure ListItem where
  name : CString
  version : ℤ
  algorithm : CString
  createdAt : CString
  updatedAt : CString
  expiresAt : Option CString
  rotationInterval : ℤ
  isArchived : Bool
  isExpired : Bool

/-- One row of the listing. -/
def listItem (so : Sodium) (keys : Subkeys) (now : CString) (r : SecretRow) :
    Except Status ListItem := do
  require (r.name ≠ [] ∧ r.nameNonce ≠ [] ∧ r.encryptedName ≠ []) .storage
  let name ← decryptDisplayName so keys (columnText r.name) r.nameNonce r.encryptedName
  require (0 ≤ r.rotationInterval.getD 0) .storage
  require (1 ≤ columnInt r.version) .storage
  return {
    name := name
    version := columnInt r.version
    algorithm := columnText r.algorithm
    createdAt := columnText r.createdAt
    updatedAt := columnText r.updatedAt
    expiresAt := r.expiresAt.map columnText
    rotationInterval := r.rotationInterval.getD 0
    isArchived := r.isArchived
    isExpired := !r.isArchived && (r.expiresAt.map columnText).any fun t => expiryIsDue t now }

/-- `vault_list_secrets`: what the callback gets. -/
def listSecrets (so : Sodium) (keys : Subkeys) (includeArchived : Bool) :
    VaultProg (List ListItem) := sql do
  let now ← currentTime
  Sql.select fun db => (db.secrets.listed includeArchived).mapM (listItem so keys now)

/-! ### Credentials -/

/-- `vault_derive_credentials`: salt, verifier and subkeys for a password. -/
def deriveCredentials (so : Sodium) (password : CString) : Sql (Block 16 × Block 32 × Subkeys) := do
  Prog.ofExcept (require (password.bytes ≠ []) .invalidArgument)
  let salt ← generateSalt
  Sql.libs [.storage, .storage, .storage, .storage]
  let master ← deriveMasterKey so password salt
  Sql.libs [.crypto, .storage]
  let keys ← deriveSubkeys so master
  return (salt, so.sha256 master.1, keys)

/-- `vault_rotate_kek`: the subkeys of the session afterwards. -/
def rotateKek (so : Sodium) (keys : Subkeys) (newPassword : CString) : VaultProg Subkeys := do
  let (salt, verifier, newKeys) ← sql (deriveCredentials so newPassword)
  transact (.rotateKek keys salt verifier newKeys)
  return { newKeys with kekMeta := keys.kekMeta }

/-- The stored salt, or a new one if the vault may be initialised. -/
def saltFor (allowInitialize : Bool) : Option (Block 16 × Block 32) → Sql (Block 16)
  | some (salt, _) => .ret salt
  | none => do
    Prog.ofExcept (require allowInitialize .notFound)
    generateSalt

/-- `vault_unlock_internal` up to the check of the verifier: the stored verifier if there is one, the
salt and the master key. -/
def prepareUnlock (so : Sodium) (password : CString) (allowInitialize : Bool) :
    Sql (Option (Block 32) × Block 16 × Block 32) := do
  Prog.ofExcept (require (password.bytes ≠ []) .invalidArgument)
  let stored ← loadAuthMetadata
  let salt ← saltFor allowInitialize stored
  Sql.libs [.storage, .storage, .storage, .storage]
  let master ← deriveMasterKey so password salt
  Sql.lib .crypto
  return (stored.map Prod.snd, salt, master)

/-- `vault_unlock_internal`: the subkeys of the session afterwards. -/
def unlockInternal (so : Sodium) (password : CString) (allowInitialize : Bool) :
    VaultProg Subkeys := do
  let (verifier, salt, master) ← sql (prepareUnlock so password allowInitialize)
  match verifier with
  | some v =>
    if so.sha256 master.1 = v then
      sql do
        Sql.libs [.storage, .storage]
        let keys ← deriveSubkeys so master
        loadMetaKey so keys
    else
      sql logAuthFailure
      Prog.fail .auth
  | none =>
    let keys ← sql do
      Sql.libs [.storage, .storage]
      deriveSubkeys so master
    transact (.storeAuth salt (so.sha256 master.1) keys)
    return keys

/-! ### Tokens -/

/-- The claims of a token. -/
structure Claims where
  subject : CString
  scope : CString
  issuedAt : ℕ
  expiresAt : ℕ
  nonce : Bytes
  deriving DecidableEq

def uint64Max : ℕ := 18446744073709551615

/-- `access_now`. -/
def accessNow : Sql ℕ := do
  match ← Sql.time with
  | none => Prog.fail .storage
  | some t => do
    Prog.ofExcept (require (0 ≤ t) .storage)
    return t.toNat

/-- `access_issue_token`: the claims of the token. Printing them, signing and encoding the text can
only succeed or fail here. -/
def accessIssueToken (subject scope : CString) (ttl : ℕ) : Sql Claims := do
  Prog.ofExcept (require (ttl ≠ 0) .invalidArgument)
  Sql.lib .crypto
  Prog.ofExcept (require (subject.bytes ≠ [] ∧ subject.bytes.length < 128) .invalidArgument)
  Prog.ofExcept (require (scope.bytes ≠ [] ∧ scope.bytes.length < 256) .invalidArgument)
  let issuedAt ← accessNow
  Prog.ofExcept (require (ttl ≤ uint64Max - issuedAt) .invalidArgument)
  Prog.ofExcept (require (issuedAt + ttl ≤ 9007199254740991) .invalidArgument)
  let nonce ← Sql.random 16
  Sql.libs [.crypto, .storage, .crypto, .storage, .crypto, .storage, .crypto, .invalidArgument]
  return ⟨subject, scope, issuedAt, issuedAt + ttl, nonce.1⟩

/-- `vault_issue_token`. -/
def issueToken (so : Sodium) (keys : Subkeys) (subject scope : CString) (ttl : ℕ) :
    VaultProg Claims := do
  let claims ← sql (accessIssueToken subject scope ttl)
  sql (Sql.lib .invalidArgument)
  sql (logSuccess so tokenIssueText subject 0 keys.kekAudit)
  return claims

/-- `vault_revoke_tokens`. -/
def revokeTokens (keys : Subkeys) : VaultProg Unit := do
  match ← sql Sql.time with
  | none => Prog.fail .storage
  | some now => do
    Prog.ofExcept (require (0 < now) .storage)
    transact (.revokeTokens now keys.kekAudit)

/-! ### The system -/

/-- The operations. -/
inductive Op where
  | put (name : CString) (secret : Bytes) (algorithm : Option CString) (ttl : ℕ)
  | delete (name : CString)
  | rollback (name : CString) (version : ℤ)
  | autoRotate (fuel : ℕ)
  | get (name : CString) (capacity : ℕ)
  | getVersion (name : CString) (version : ℤ) (capacity : ℕ)
  | list (includeArchived : Bool)
  | rotateKek (newPassword : CString)
  | unlock (password : CString)
  | unlockExisting (password : CString)
  | issueToken (subject scope : CString) (ttl : ℕ)
  | revokeTokens

/-- What an operation returns beside `SM_OK`. -/
inductive Result where
  | done
  | value (b : Bytes)
  | items (l : List ListItem)
  | count (n : ℕ)
  | session (keys : Subkeys)
  | token (claims : Claims)

/-- An operation of an unlocked session. -/
def unlockedCode (so : Sodium) (keys : Subkeys) : Op → VaultProg Result
  | .put name secret algorithm ttl => do put so keys name secret algorithm ttl; return .done
  | .delete name => do delete so keys name; return .done
  | .rollback name version => do rollback so keys name version; return .done
  | .autoRotate fuel => do return .count (← autoRotateExpired so keys fuel)
  | .get name capacity => do return .value (← get so keys name capacity)
  | .getVersion name version capacity => do
    return .value (← getVersion so keys name version capacity)
  | .list includeArchived => do return .items (← listSecrets so keys includeArchived)
  | .rotateKek newPassword => do return .session (← rotateKek so keys newPassword)
  | .unlock password => do return .session (← unlockInternal so password true)
  | .unlockExisting password => do return .session (← unlockInternal so password false)
  | .issueToken subject scope ttl => do return .token (← issueToken so keys subject scope ttl)
  | .revokeTokens => do revokeTokens keys; return .done

/-- An operation, of a session that may be locked (`vault_require_unlocked`). -/
def code (so : Sodium) : Option Subkeys → Op → VaultProg Result
  | some keys, op => unlockedCode so keys op
  | none, .unlock password => do return .session (← unlockInternal so password true)
  | none, .unlockExisting password => do return .session (← unlockInternal so password false)
  | none, _ => Prog.fail .auth

/-- The session after an operation. `vault_unlock` locks it first, except for an empty password. -/
def finish (session : Option Subkeys) : Op → Except Status Result → Option Subkeys
  | .unlock password, r => if password.bytes = [] then session else afterUnlock r
  | .unlockExisting password, r => if password.bytes = [] then session else afterUnlock r
  | .rotateKek _, .ok (.session keys) => some keys
  | _, _ => session
where
  afterUnlock : Except Status Result → Option Subkeys
    | .ok (.session keys) => some keys
    | _ => none

end Fuin.Vault.Operations

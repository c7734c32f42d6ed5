import Fuin.Vault.Audited

/-! # Reports

The functions of the vault that only look: the active version of a secret, the secrets that expire,
and the counts of the security report. -/

namespace Fuin.Vault.Reports

open Fuin.Utils Fuin.Time Fuin.Crypto Fuin.Lib.Program Fuin.Store.Secrets Fuin.Store.Database
open Fuin.Kdf Fuin.Audit.Merkle Fuin.Vault.Rows Fuin.Vault.Operations Fuin.Vault.Observed
open Fuin.Vault.Audited

/-- `vault_get_active_version`. -/
def getActiveVersion (so : Sodium) (keys : Subkeys) (name : CString) : Sql ℤ := do
  let storedName ← buildNameLookup so keys name
  match ← findSecretMetadata storedName with
  | none => Prog.fail .notFound
  | some metadata => return metadata.version

/-! ### Expiry -/

/-- What the callback of `vault_check_expiry` gets. -/
structure Expiry where
  name : CString
  version : ℤ
  expiresAt : CString
  isExpired : Bool

/-- The current rows with `expires_at <= threshold`, in the order of the expiry scan. -/
def expiring (t : SecretTable) (threshold : Bytes) : List SecretRow :=
  (t.rows.filter fun r => t.Current r && r.expiresAt.any fun e => decide (e ≤ threshold)).mergeSort
    SecretTable.expiryLe

/-- One row of the scan. -/
def expiryItem (so : Sodium) (keys : Subkeys) (now : CString) (r : SecretRow) :
    Except Status Expiry := do
  require (r.name ≠ [] ∧ r.nameNonce ≠ [] ∧ r.encryptedName ≠ [] ∧ 1 ≤ columnInt r.version) .storage
  let name ← decryptDisplayName so keys (columnText r.name) r.nameNonce r.encryptedName
  let expiresAt := columnText (r.expiresAt.getD [])
  return ⟨name, columnInt r.version, expiresAt, expiryIsDue expiresAt now⟩

/-- The end of the period that is looked at. -/
def expiryThreshold (within : ℕ) (now : CString) : Sql CString :=
  if 0 < within then timeAfter within else .ret now

/-- `vault_check_expiry`: what the callback gets. -/
def checkExpiry (so : Sodium) (keys : Subkeys) (within : ℕ) : Sql (List Expiry) := do
  let now ← currentTime
  let threshold ← expiryThreshold within now
  Sql.select fun db => (expiring db.secrets threshold.bytes).mapM (expiryItem so keys now)

/-! ### The security report -/

/-- The counts of the first query. -/
structure SecretCounts where
  distinctNames : ℕ
  activeSecrets : ℕ
  archivedVersions : ℕ
  totalVersions : ℕ
  ttlActive : ℕ
  expiredActive : ℕ
  expiringSoon : ℕ
  activeAes256Gcm : ℕ
  activeXchacha20Poly1305 : ℕ
  activeAegis256 : ℕ

/-- `vault_security_report_t`. -/
structure SecurityReport where
  counts : SecretCounts
  deletedNames : ℕ
  auditEntries : ℕ
  auditRoot : Block 32
  auditLeafCount : ℕ

/-- The names of the table. -/
def names (t : SecretTable) : List Bytes := (t.rows.map SecretRow.name).eraseDups

/-- The first query. -/
def secretCounts (t : SecretTable) (now soon : Bytes) : SecretCounts :=
  let active := t.rows.filter fun r => t.Current r
  { distinctNames := (names t).length
    activeSecrets := active.length
    archivedVersions := (t.rows.filter fun r => !decide (t.Current r)).length
    totalVersions := t.rows.length
    ttlActive := (active.filter fun r => r.rotationInterval.any fun s => decide (0 < s)).length
    expiredActive := (active.filter fun r => r.expiresAt.any fun e => decide (e ≤ now)).length
    expiringSoon := (active.filter fun r =>
      r.expiresAt.any fun e => decide (now < e) && decide (e ≤ soon)).length
    activeAes256Gcm := (active.filter fun r => r.algorithm = ascii "AES-256-GCM").length
    activeXchacha20Poly1305 :=
      (active.filter fun r => r.algorithm = ascii "XChaCha20-Poly1305").length
    activeAegis256 := (active.filter fun r => r.algorithm = ascii "AEGIS-256").length }

/-- The second query: the names without a current row. -/
def deletedNames (t : SecretTable) : ℕ :=
  ((names t).filter fun name => (t.activeRow name).isNone).length

/-- `vault_security_report`. -/
def securityReport (so : Sodium) (keys : Subkeys) : Sql SecurityReport := do
  let now ← currentTime
  let soon ← timeAfter 604800
  let counts ← Sql.select fun db => .ok (secretCounts db.secrets now.bytes soon.bytes)
  let deleted ← Sql.select fun db => .ok (deletedNames db.secrets)
  let entries ← Sql.select fun db => .ok db.audit.rows.length
  auditVerify so keys
  let (root, leafCount) ← computeMerkleRoot so
  return ⟨counts, deleted, entries, root, leafCount⟩

/-! ### They only look -/

variable {so : Sodium} {keys : Subkeys}

theorem readOnly_getActiveVersion {name : CString} :
    Sql.ReadOnly (getActiveVersion so keys name) := by
  refine readOnly_buildNameLookup.bind fun _ => Sql.readOnly_select.bind fun metadata => ?_
  cases metadata <;> trivial

theorem readOnly_checkExpiry {within : ℕ} : Sql.ReadOnly (checkExpiry so keys within) := by
  refine readOnly_currentTime.bind fun now => Prog.ReadOnly.bind ?_ fun _ => Sql.readOnly_select
  unfold expiryThreshold
  split_ifs
  · exact readOnly_timeAfter
  · trivial

theorem readOnly_securityReport : Sql.ReadOnly (securityReport so keys) :=
  readOnly_currentTime.bind fun _ => readOnly_timeAfter.bind fun _ =>
    Sql.readOnly_select.bind fun _ => Sql.readOnly_select.bind fun _ =>
      Sql.readOnly_select.bind fun _ => readOnly_auditVerify.bind fun _ =>
        readOnly_computeMerkleRoot.bind fun _ => trivial

end Fuin.Vault.Reports

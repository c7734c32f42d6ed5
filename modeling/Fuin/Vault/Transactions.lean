import Fuin.KeyManager
import Fuin.Audit.Resign
import Fuin.Vault.Rows

/-! # Write transactions

Everything an operation does between `BEGIN IMMEDIATE` and `COMMIT` is one step for the others. A
`Tx` is such a step with the local variables it uses: what the operation has read and computed before
the transaction. The commands of a process are the single statements and the transactions; a
transaction that fails leaves the database as it was (`Cmd.exec`). -/

namespace Fuin.Vault.Transactions

open Fuin.Utils Fuin.Time Fuin.Crypto Fuin.Lib.Program Fuin.Store.Secrets Fuin.Store.Database
open Fuin.Kdf Fuin.Audit.Log Fuin.Audit.Verify Fuin.Audit.Resign Fuin.Vault.Rows

def createText : CString := ⟨ascii "CREATE", by decide⟩

def updateText : CString := ⟨ascii "UPDATE", by decide⟩

def readText : CString := ⟨ascii "READ", by decide⟩

def deleteText : CString := ⟨ascii "DELETE", by decide⟩

def rollbackText : CString := ⟨ascii "ROLLBACK", by decide⟩

def rotateKekText : CString := ⟨ascii "ROTATE_KEK", by decide⟩

def rotateDekText : CString := ⟨ascii "ROTATE_DEK", by decide⟩

def tokenIssueText : CString := ⟨ascii "TOKEN_ISSUE", by decide⟩

def tokenRevokeText : CString := ⟨ascii "TOKEN_REVOKE", by decide⟩

def vaultText : CString := ⟨ascii "vault", by decide⟩

def tokensText : CString := ⟨ascii "tokens", by decide⟩

/-- The transactions, each with the local variables it uses. -/
inductive Tx where
  /-- Of `vault_put_with_options`; the metadata say whether an active row was found. -/
  | put (metadata : Option SecretMetadata) (new : NewSecret) (auditKey : Block 32)
  /-- Of `vault_delete`. -/
  | delete (name now : CString) (metadata : SecretMetadata) (auditKey : Block 32)
  /-- Of `vault_rollback`. -/
  | rollback (new : NewSecret) (auditKey : Block 32)
  /-- Of `vault_rotate_expired_secret`. -/
  | rotateDek (metadata : SecretMetadata) (new : NewSecret) (auditKey : Block 32)
  /-- `vault_store_auth_metadata`. -/
  | storeAuth (salt : Block 16) (verifier : Block 32) (keys : Subkeys)
  /-- Of `vault_rotate_kek`. -/
  | rotateKek (keys : Subkeys) (salt : Block 16) (verifier : Block 32) (newKeys : Subkeys)
  /-- Of `vault_revoke_tokens`. -/
  | revokeTokens (now : ℤ) (auditKey : Block 32)

/-- The statements of a transaction. -/
def Tx.body (so : Sodium) : Tx → Sql Unit
  | .put metadata new auditKey => do
    if metadata.isSome then archiveActiveSecret new.name new.now true
    insertSecret new
    logSuccess so (if metadata.isSome then updateText else createText) new.name new.version auditKey
  | .delete name now metadata auditKey => do
    archiveActiveSecret name now true
    logSuccess so deleteText name metadata.version auditKey
  | .rollback new auditKey => do
    archiveActiveSecret new.name new.now false
    insertSecret new
    logSuccess so rollbackText new.name new.version auditKey
  | .rotateDek metadata new auditKey => do
    archiveActiveSecret new.name new.now true
    insertSecret { new with
      nameNonce := metadata.nameNonce
      encryptedName := metadata.encryptedName
      rotationInterval := metadata.rotationInterval }
    logSuccess so rotateDekText new.name new.version auditKey
  | .storeAuth salt verifier keys => do
    putMetadataBlob .salt salt.1
    putMetadataBlob .passwordVerifier verifier.1
    putWrappedMetaKey so keys.kekMeta keys.kekEnc
  | .rotateKek keys salt verifier newKeys => do
    Sql.select fun db => verifyChain so keys.kekAudit db.audit
    KeyManager.rotateKek so keys.kekEnc newKeys.kekEnc
    putWrappedMetaKey so keys.kekMeta newKeys.kekEnc
    putMetadataBlob .salt salt.1
    putMetadataBlob .passwordVerifier verifier.1
    resignChain so newKeys.kekAudit
    logEvent so actorText rotateKekText vaultText 0 successText newKeys.kekAudit
  | .revokeTokens now auditKey => do
    putMetadataBlob .tokenNotBefore (u64le now)
    logSuccess so tokenRevokeText tokensText 0 auditKey

/-- The commands of a process. -/
inductive Cmd where
  | stmt (c : Stmt)
  | tx (t : Tx)

/-- The reply to a command. -/
def Cmd.Reply : Cmd → Type
  | .stmt c => c.Reply
  | .tx _ => Except Status Unit

/-- One command. The first inputs of a transaction are those of `BEGIN IMMEDIATE` and `COMMIT`; one
that does not reach the end of `COMMIT` is rolled back. -/
def Cmd.exec (so : Sodium) (es : ℕ → Input) : (c : Cmd) → Db → Db × c.Reply
  | .stmt c, db => c.exec (es 0) db
  | .tx t, db =>
    if (es 0).fault then (db, .error .storage)
    else
      match (t.body so).run Stmt.exec (fun n => es (n + 2)) db with
      | (db', .ok ()) => if (es 1).fault then (db, .error .storage) else (db', .ok ())
      | (_, .error e) => (db, .error e)

/-- A program over the commands. -/
abbrev VaultProg := Prog Cmd.Reply Status

/-- Statements outside a transaction. -/
def sql {α : Type} (p : Sql α) : VaultProg α := p.lift Cmd.stmt fun _ r => r

/-- A transaction. -/
def transact (t : Tx) : VaultProg Unit := .cmd (.tx t) fun (r : Except Status Unit) => .ofExcept r

/-- **A transaction commits or changes nothing.** -/
theorem exec_tx (so : Sodium) (es : ℕ → Input) (t : Tx) (db : Db) :
    (∃ db', (t.body so).Runs Stmt.exec db db' (.ok ()) ∧ Cmd.exec so es (.tx t) db = (db', .ok ())) ∨
      ∃ e, Cmd.exec so es (.tx t) db = (db, .error e) := by
  cases h0 : (es 0).fault with
  | true => exact Or.inr ⟨.storage, by simp [Cmd.exec, h0]⟩
  | false =>
    rcases hrun : (t.body so).run Stmt.exec (fun n => es (n + 2)) db with ⟨db', e | _⟩
    · exact Or.inr ⟨e, by simp [Cmd.exec, h0, hrun]⟩
    · cases h1 : (es 1).fault with
      | true => exact Or.inr ⟨.storage, by simp [Cmd.exec, h0, hrun, h1]⟩
      | false =>
        exact Or.inl ⟨db', ⟨_, hrun⟩, by simp [Cmd.exec, h0, hrun, h1]⟩

end Fuin.Vault.Transactions

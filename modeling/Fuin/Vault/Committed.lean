import Fuin.Vault.Transactions

/-! # What a committed transaction has done

One lemma for each transaction of `Tx`: the database it leaves, in terms of the table functions and
of one step of the log. -/

namespace Fuin.Vault.Committed

open Fuin.Utils Fuin.Crypto Fuin.Lib.Program Fuin.Store.Secrets Fuin.Store.Database Fuin.Kdf
open Fuin.Audit.Table Fuin.Audit.Log Fuin.Audit.Verify Fuin.Audit.Resign Fuin.Vault.Rows
open Fuin.Vault.Transactions

variable {so : Sodium} {db db' : Db}

/-! ### Statements -/

theorem archiveActiveSecret_runs {name now : CString} {required : Bool}
    (h : (archiveActiveSecret name now required).Runs Stmt.exec db db' (.ok ())) :
    db' = { db with secrets := db.secrets.archive name.bytes now.bytes } ∧
      (required → db.secrets.activeCount name.bytes = 1) := by
  obtain ⟨db₁, n, hw, h⟩ := Sql.runs_write_bind h
  obtain ⟨_, h1, h⟩ := Prog.runs_ofExcept_bind h
  obtain ⟨hdb, h2⟩ := Prog.runs_ofExcept h
  simp only [Write.apply, Option.some.injEq, Prod.mk.injEq] at hw
  obtain ⟨rfl, rfl⟩ := hw
  rw [require_eq_ok] at h1
  have h3 := require_eq_ok.mp h2.symm
  exact ⟨hdb, fun hr => by have := h3 hr; omega⟩

theorem insertSecret_runs {new : NewSecret}
    (h : (insertSecret new).Runs Stmt.exec db db' (.ok ())) :
    ∃ t, db.secrets.insert new.row = some t ∧ db' = { db with secrets := t } := by
  obtain ⟨_, -, h⟩ := Prog.runs_ofExcept_bind h
  obtain ⟨db₁, n, hw, h⟩ := Sql.runs_write_bind h
  obtain ⟨rfl, -⟩ := Prog.runs_ret h
  simp only [Write.apply, Option.map_eq_some_iff, Prod.mk.injEq] at hw
  obtain ⟨t, ht, rfl, -⟩ := hw
  exact ⟨t, ht, rfl⟩

theorem putMetadataBlob_runs {key : MetadataKey} {value : Bytes}
    (h : (putMetadataBlob key value).Runs Stmt.exec db db' (.ok ())) :
    db' = { db with metadata := Function.update db.metadata key (some value) } := by
  obtain ⟨_, -, h⟩ := Prog.runs_ofExcept_bind h
  obtain ⟨db₁, n, hw, h⟩ := Sql.runs_write_bind h
  obtain ⟨rfl, -⟩ := Prog.runs_ret h
  simp only [Write.apply, Option.some.injEq, Prod.mk.injEq] at hw
  exact hw.1.symm

theorem putWrappedMetaKey_runs {metaKey wrappingKey : Block 32}
    (h : (putWrappedMetaKey so metaKey wrappingKey).Runs Stmt.exec db db' (.ok ())) :
    ∃ nonce : Block 24, db' = { db with
      metadata := Function.update (Function.update db.metadata .metaKeyNonce (some nonce.1))
        .metaKeyWrapped
        (some (so.encrypt .xchacha20Poly1305 wrappingKey nonce.1 metaKeyAad metaKey.1)) } := by
  obtain ⟨nonce, h⟩ := Sql.runs_random_bind h
  obtain ⟨_, db₁, h1, h2⟩ := Prog.runs_bind (Sql.runs_lib_bind h)
  obtain rfl := putMetadataBlob_runs h1
  exact ⟨nonce, putMetadataBlob_runs h2⟩

/-! ### New versions -/

/-- The table with the active row of a name archived, if that is asked for. -/
def archivedIf (archives : Bool) (t : SecretTable) (name now : Bytes) : SecretTable :=
  if archives then t.archive name now else t

/-- A new version of a secret has been inserted and logged, the active one archived before. -/
structure NewVersion (so : Sodium) (auditKey : Block 32) (action : CString) (archives : Bool)
    (new : NewSecret) (db db' : Db) : Prop where
  insert : (archivedIf archives db.secrets new.name.bytes new.now.bytes).insert new.row =
    some db'.secrets
  log : LogStep so auditKey ⟨actorText, action, new.name, new.version, successText⟩ db.audit db'.audit
  metadata : db'.metadata = db.metadata
  authFailures : db'.authFailures = db.authFailures

/-- Inserting and logging. -/
theorem insertLog_runs {new : NewSecret} {action : CString} {auditKey : Block 32} {db₁ : Db}
    {archives : Bool}
    (hdb : db₁ = { db with
      secrets := archivedIf archives db.secrets new.name.bytes new.now.bytes })
    (h : ((insertSecret new).bind fun _ =>
      logSuccess so action new.name new.version auditKey).Runs Stmt.exec db₁ db' (.ok ())) :
    NewVersion so auditKey action archives new db db' := by
  subst hdb
  obtain ⟨_, db₂, h1, h2⟩ := Prog.runs_bind h
  obtain ⟨t, ht, rfl⟩ := insertSecret_runs h1
  obtain ⟨u, hu, rfl⟩ := logEvent_runs h2
  exact ⟨ht, hu, rfl, rfl⟩

theorem put_runs {metadata : Option SecretMetadata} {new : NewSecret} {auditKey : Block 32}
    (h : ((Tx.put metadata new auditKey).body so).Runs Stmt.exec db db' (.ok ())) :
    NewVersion so auditKey (if metadata.isSome then updateText else createText) metadata.isSome new
      db db' ∧ (metadata.isSome → db.secrets.activeCount new.name.bytes = 1) := by
  cases metadata with
  | none => exact ⟨insertLog_runs rfl h, fun h => nomatch h⟩
  | some m =>
    obtain ⟨_, db₁, h1, h2⟩ := Prog.runs_bind h
    obtain ⟨hdb, hcount⟩ := archiveActiveSecret_runs h1
    exact ⟨insertLog_runs hdb h2, fun _ => hcount rfl⟩

theorem rollback_runs {new : NewSecret} {auditKey : Block 32}
    (h : ((Tx.rollback new auditKey).body so).Runs Stmt.exec db db' (.ok ())) :
    NewVersion so auditKey rollbackText true new db db' := by
  obtain ⟨_, db₁, h1, h2⟩ := Prog.runs_bind h
  exact insertLog_runs (archiveActiveSecret_runs h1).1 h2

theorem rotateDek_runs {metadata : SecretMetadata} {new : NewSecret} {auditKey : Block 32}
    (h : ((Tx.rotateDek metadata new auditKey).body so).Runs Stmt.exec db db' (.ok ())) :
    NewVersion so auditKey rotateDekText true
      { new with
        nameNonce := metadata.nameNonce
        encryptedName := metadata.encryptedName
        rotationInterval := metadata.rotationInterval } db db' ∧
      db.secrets.activeCount new.name.bytes = 1 := by
  obtain ⟨_, db₁, h1, h2⟩ := Prog.runs_bind h
  obtain ⟨hdb, hcount⟩ := archiveActiveSecret_runs h1
  exact ⟨insertLog_runs hdb h2, hcount rfl⟩

/-! ### The other transactions -/

/-- The active row of a name has been archived and the deletion logged. -/
structure Deleted (so : Sodium) (auditKey : Block 32) (name now : CString) (version : ℤ)
    (db db' : Db) : Prop where
  archive : db'.secrets = db.secrets.archive name.bytes now.bytes
  active : db.secrets.activeCount name.bytes = 1
  log : LogStep so auditKey ⟨actorText, deleteText, name, version, successText⟩ db.audit db'.audit
  metadata : db'.metadata = db.metadata
  authFailures : db'.authFailures = db.authFailures

theorem delete_runs {name now : CString} {metadata : SecretMetadata} {auditKey : Block 32}
    (h : ((Tx.delete name now metadata auditKey).body so).Runs Stmt.exec db db' (.ok ())) :
    Deleted so auditKey name now metadata.version db db' := by
  obtain ⟨_, db₁, h1, h2⟩ := Prog.runs_bind h
  obtain ⟨rfl, hcount⟩ := archiveActiveSecret_runs h1
  obtain ⟨u, hu, rfl⟩ := logEvent_runs h2
  exact ⟨rfl, hcount rfl, hu, rfl, rfl⟩

/-- The metadata of a credential: salt, verifier and the wrapped metadata key. -/
def credential (so : Sodium) (m : MetadataKey → Option Bytes) (salt : Block 16)
    (verifier metaKey wrappingKey : Block 32) (nonce : Block 24) : MetadataKey → Option Bytes
  | .salt => some salt.1
  | .passwordVerifier => some verifier.1
  | .tokenNotBefore => m .tokenNotBefore
  | .metaKeyNonce => some nonce.1
  | .metaKeyWrapped =>
    some (so.encrypt .xchacha20Poly1305 wrappingKey nonce.1 metaKeyAad metaKey.1)

theorem storeAuth_runs {salt : Block 16} {verifier : Block 32} {keys : Subkeys}
    (h : ((Tx.storeAuth salt verifier keys).body so).Runs Stmt.exec db db' (.ok ())) :
    ∃ nonce, db' = { db with
      metadata := credential so db.metadata salt verifier keys.kekMeta keys.kekEnc nonce } := by
  obtain ⟨_, db₁, h1, h⟩ := Prog.runs_bind h
  obtain rfl := putMetadataBlob_runs h1
  obtain ⟨_, db₂, h2, h3⟩ := Prog.runs_bind h
  obtain rfl := putMetadataBlob_runs h2
  obtain ⟨nonce, rfl⟩ := putWrappedMetaKey_runs h3
  refine ⟨nonce, ?_⟩
  congr 1
  funext k
  cases k <;> rfl

/-- All rows are rewrapped, the credential is replaced, the log is signed again and the rotation is
logged under the new key. -/
theorem rotateKek_rewraps {keys newKeys : Subkeys} {salt : Block 16} {verifier : Block 32}
    (hid : ∀ r ∈ db.secrets.rows, (0 : UInt8) ∉ r.id)
    (h : ((Tx.rotateKek keys salt verifier newKeys).body so).Runs Stmt.exec db db' (.ok ())) :
    ∃ nonce db₁ t, verifyChain so keys.kekAudit db.audit = .ok () ∧
      List.Forall₂ (KeyManager.Rewrapped so keys.kekEnc newKeys.kekEnc) db.secrets.rows
        db'.secrets.rows ∧
      db'.metadata = credential so db.metadata salt verifier keys.kekMeta newKeys.kekEnc nonce ∧
      db₁.audit = db.audit ∧
      (resignChain so newKeys.kekAudit).Runs Stmt.exec db₁ { db₁ with audit := t } (.ok ()) ∧
      LogStep so newKeys.kekAudit ⟨actorText, rotateKekText, vaultText, 0, successText⟩ t db'.audit ∧
      db'.authFailures = db.authFailures := by
  obtain ⟨_, hver, h⟩ := Sql.runs_select_bind h
  obtain ⟨_, db₁, h1, h⟩ := Prog.runs_bind h
  obtain ⟨s, e1, hs⟩ := KeyManager.rotateKek_runs hid h1
  obtain ⟨_, db₂, h2, h⟩ := Prog.runs_bind h
  obtain ⟨nonce, e2⟩ := putWrappedMetaKey_runs h2
  obtain ⟨_, db₃, h3, h⟩ := Prog.runs_bind h
  have e3 := putMetadataBlob_runs h3
  obtain ⟨_, db₄, h4, h⟩ := Prog.runs_bind h
  have e4 := putMetadataBlob_runs h4
  obtain ⟨_, db₅, h5, h⟩ := Prog.runs_bind h
  obtain ⟨t, rfl⟩ := resignChain_frame h5
  obtain ⟨u, hu, e6⟩ := logEvent_runs h
  have haudit : db₄.audit = db.audit := by rw [e4, e3, e2, e1]
  refine ⟨nonce, db₄, t, hver, ?_, ?_, haudit, h5, ?_, ?_⟩
  · rw [e6, e4, e3, e2, e1]
    exact hs
  · rw [e6, e4, e3, e2, e1]
    funext k
    cases k <;> rfl
  · rw [e6]
    exact hu
  · rw [e6, e4, e3, e2, e1]

/-- On a log numbered from 1 the signatures are those of the new key. -/
theorem rotateKek_runs {keys newKeys : Subkeys} {salt : Block 16} {verifier : Block 32}
    (hid : ∀ r ∈ db.secrets.rows, (0 : UInt8) ∉ r.id) (hnum : Numbered db.audit)
    (h : ((Tx.rotateKek keys salt verifier newKeys).body so).Runs Stmt.exec db db' (.ok ())) :
    ∃ nonce t, verifyChain so keys.kekAudit db.audit = .ok () ∧
      List.Forall₂ (KeyManager.Rewrapped so keys.kekEnc newKeys.kekEnc) db.secrets.rows
        db'.secrets.rows ∧
      db'.metadata = credential so db.metadata salt verifier keys.kekMeta newKeys.kekEnc nonce ∧
      Numbered t ∧ verifyChain so newKeys.kekAudit t = .ok () ∧
      LogStep so newKeys.kekAudit ⟨actorText, rotateKekText, vaultText, 0, successText⟩ t db'.audit ∧
      List.Forall₂ SameEntry db.audit.rows t.rows ∧ db'.authFailures = db.authFailures := by
  obtain ⟨nonce, db₁, t, hver, hs, hm, ha, hresign, hlog, hfail⟩ := rotateKek_rewraps hid h
  obtain ⟨t', heq, hsame, hnum', hver'⟩ := resignChain_runs (by rw [ha]; exact hnum) hresign
  obtain rfl : t = t' := congrArg Db.audit heq
  rw [ha] at hsame
  exact ⟨nonce, t, hver, hs, hm, hnum', hver', hlog, hsame, hfail⟩

/-- Whatever the ids, the metadata are those of the new credential, and only wrapped DEKs have
changed. -/
theorem rotateKek_frame {keys newKeys : Subkeys} {salt : Block 16} {verifier : Block 32}
    (h : ((Tx.rotateKek keys salt verifier newKeys).body so).Runs Stmt.exec db db' (.ok ())) :
    List.Forall₂ KeyManager.SameButDek db.secrets.rows db'.secrets.rows ∧ ∃ nonce,
      db'.metadata = credential so db.metadata salt verifier keys.kekMeta newKeys.kekEnc nonce := by
  obtain ⟨_, -, h⟩ := Sql.runs_select_bind h
  obtain ⟨_, db₁, h1, h⟩ := Prog.runs_bind h
  obtain ⟨s, e1, hs⟩ := KeyManager.rotateKek_frame h1
  obtain ⟨_, db₂, h2, h⟩ := Prog.runs_bind h
  obtain ⟨nonce, e2⟩ := putWrappedMetaKey_runs h2
  obtain ⟨_, db₃, h3, h⟩ := Prog.runs_bind h
  have e3 := putMetadataBlob_runs h3
  obtain ⟨_, db₄, h4, h⟩ := Prog.runs_bind h
  have e4 := putMetadataBlob_runs h4
  obtain ⟨_, db₅, h5, h⟩ := Prog.runs_bind h
  obtain ⟨t, rfl⟩ := resignChain_frame h5
  obtain ⟨u, -, e6⟩ := logEvent_runs h
  constructor
  · rw [e6, e4, e3, e2, e1]
    exact hs
  · refine ⟨nonce, ?_⟩
    rw [e6, e4, e3, e2, e1]
    funext k
    cases k <;> rfl

theorem revokeTokens_runs {now : ℤ} {auditKey : Block 32}
    (h : ((Tx.revokeTokens now auditKey).body so).Runs Stmt.exec db db' (.ok ())) :
    db'.secrets = db.secrets ∧
      db'.metadata = Function.update db.metadata .tokenNotBefore (some (u64le now)) ∧
      LogStep so auditKey ⟨actorText, tokenRevokeText, tokensText, 0, successText⟩ db.audit
        db'.audit ∧ db'.authFailures = db.authFailures := by
  obtain ⟨_, db₁, h1, h2⟩ := Prog.runs_bind h
  obtain rfl := putMetadataBlob_runs h1
  obtain ⟨u, hu, rfl⟩ := logEvent_runs h2
  exact ⟨rfl, rfl, hu, rfl⟩

end Fuin.Vault.Committed

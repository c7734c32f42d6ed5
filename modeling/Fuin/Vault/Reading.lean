import Fuin.Store.Success
import Fuin.Vault.Reopened

/-! # Reading when nothing fails

In a calm world a vault is opened with its password (`works_unlockExisting`), and a row of the
session is decrypted to what it holds (`reads_of_stored`). -/

namespace Fuin.Vault.Reading

open Fuin.Utils Fuin.Time Fuin.Crypto Fuin.Lib.Program Fuin.Store.Secrets Fuin.Store.Versions
open Fuin.Store.Database Fuin.Store.Success Fuin.CryptoEngine Fuin.Kdf Fuin.Vault.Rows
open Fuin.Vault.Transactions Fuin.Vault.Operations Fuin.Vault.Observed Fuin.Vault.Sessions
open Fuin.Vault.Committed Fuin.Vault.Versioned Fuin.Vault.Calls Fuin.Vault.Honest
open Fuin.Vault.Unlocking Fuin.Vault.Reopened Fuin.Vault.Stored

variable {so : Sodium} {keys : Subkeys} {db db' : Db} {α β : Type}

/-- A program that succeeds in every calm run of a process by itself. -/
abbrev Works (so : Sodium) (Q : α → Db → Prop) (p : VaultProg α) (db : Db) : Prop :=
  Prog.Yields (Cmd.exec so) (fun es => ∀ k, Calm (es k)) Q p db

theorem works_sql {Q : α → Db → Prop} {p : Sql α} (h : Succeeds Q p db) : Works so Q (sql p) db := by
  induction p generalizing db with
  | ret a => exact h
  | fail e => exact h.elim
  | cmd c k ih => exact fun es hes => ih _ (h (es 0) (hes 0))

theorem works_sql_bind {Q : β → Db → Prop} {p : Sql α} {f : α → VaultProg β}
    (h : Succeeds (fun a db' => Works so Q (f a) db') p db) : Works so Q ((sql p).bind f) db :=
  Prog.Yields.bind (works_sql h)

/-! ### Opening the vault -/

theorem metadataBlob_some {key : MetadataKey} {n : ℕ} {b : Bytes} (h : db.metadata key = some b)
    (hb : b.length ≤ n) : metadataBlob key n db = .ok (some b) := by
  unfold metadataBlob
  rw [h]
  exact bind_eq_ok.mpr ⟨(), require_eq_ok.mpr hb, rfl⟩

theorem succeeds_loadAuthMetadata_bind {salt : Block 16} {verifier : Block 32} {Q : α → Db → Prop}
    {f : Option (Block 16 × Block 32) → Sql α} (hs : Stored (some (salt, verifier)) db db)
    (hf : Succeeds Q (f (some (salt, verifier))) db) : Succeeds Q (loadAuthMetadata.bind f) db := by
  unfold loadAuthMetadata
  simp only [Prog.bind_def, Prog.bind_assoc]
  refine ends_select_bind (metadataBlob_some hs.1 salt.2.le) ?_
  refine ends_select_bind (metadataBlob_some hs.2 verifier.2.le) ?_
  dsimp only
  rw [dif_pos ⟨salt.2, verifier.2⟩]
  exact hf

theorem succeeds_deriveMasterKey_bind {password : CString} {salt : Block 16} {Q : α → Db → Prop}
    {f : Block 32 → Sql α} (hf : Succeeds Q (f (so.pwhash password.bytes salt)) db) :
    Succeeds Q ((deriveMasterKey so password salt).bind f) db := by
  unfold deriveMasterKey
  simp only [Prog.bind_def, Prog.bind_assoc]
  exact ends_libs_bind hf

/-- **The password opens the vault.** -/
theorem works_unlockExisting {password : CString} (h : Opens so db password keys)
    (hne : password.bytes ≠ []) :
    Works so (fun k db' => db' = db ∧ k = keys) (unlockInternal so password false) db := by
  obtain ⟨salt, metaKey, nonce, hcred, rfl⟩ := h
  have hstored : Stored (some (salt, so.sha256 (so.pwhash password.bytes salt).1)) db db :=
    ⟨by rw [hcred]; rfl, by rw [hcred]; rfl⟩
  refine works_sql_bind (ends_require_bind hne (succeeds_loadAuthMetadata_bind hstored ?_))
  refine ends_libs_bind (succeeds_deriveMasterKey_bind (ends_lib_bind ?_))
  show Works so _ (if _ then _ else _) db
  rw [if_pos rfl]
  refine works_sql (ends_libs_bind ?_)
  unfold deriveSubkeys
  simp only [Prog.bind_def, Prog.bind_assoc]
  refine ends_libs_bind ?_
  have hn : db.metadata .metaKeyNonce = some nonce.1 := by rw [hcred]; rfl
  have hw : db.metadata .metaKeyWrapped = some (so.encrypt .xchacha20Poly1305
      (subkeysOf so (so.pwhash password.bytes salt)).kekEnc nonce.1 metaKeyAad metaKey.1) := by
    rw [hcred]; rfl
  have hlen : (so.encrypt .xchacha20Poly1305 (subkeysOf so (so.pwhash password.bytes salt)).kekEnc
      nonce.1 metaKeyAad metaKey.1).length ≤ 48 := by
    rw [Sodium.length_encrypt, metaKey.2]
    decide
  refine ends_select_bind (metadataBlob_some hn nonce.2.le) ?_
  refine ends_select_bind (metadataBlob_some hw hlen) ?_
  have hunwrap : unwrapMetaKey so (subkeysOf so (so.pwhash password.bytes salt)).kekEnc
      (some nonce.1) (some (so.encrypt .xchacha20Poly1305
        (subkeysOf so (so.pwhash password.bytes salt)).kekEnc nonce.1 metaKeyAad metaKey.1)) =
      .ok metaKey :=
    @unwrapMetaKey_credential so db.metadata salt (so.sha256 (so.pwhash password.bytes salt).1) metaKey
      _ nonce
  exact ends_ofExcept_bind hunwrap ⟨rfl, rfl⟩

/-! ### Reading a secret -/

/-- A row of the session passes the checks of `vault_copy_secret_row`. -/
theorem copySecretRow_of_holds {t : SecretTable} {kek : Block 32} {plaintext : Bytes} {r : SecretRow}
    (h : Holds so kek r plaintext) (ht : Orderly t) (hr : r ∈ t.rows) :
    copySecretRow r = .ok ⟨columnText r.id, r.version, encryptedOf r⟩ := by
  obtain ⟨u, hu⟩ := ht.id r hr
  have hid : copyText 37 r.id = .ok (columnText r.id) := by
    rw [copyText_eq_ok, hu, columnText_bytes, length_uuidText]
    exact ⟨rfl, by decide⟩
  have hv := ht.columnInt_version hr
  have hpos := ((ht.history r.name).versions.mem (SecretTable.mem_rowsOf.mpr ⟨hr, rfl⟩)).1
  obtain ⟨identity, -, a, aad, dek, nonce, dekNonce, -, -, -, -, hn, hdn, he⟩ := h
  simp only [encryptedOf, sealWith, EncryptedSecret.mk.injEq] at he
  obtain ⟨h1, h2, h3, h4, h5, h6⟩ := he
  have halg : copyText 32 r.algorithm = .ok (columnText r.algorithm) := by
    rw [copyText_eq_ok, h1]
    exact ⟨rfl, by cases a <;> decide⟩
  have hbytes : 12 ≤ a.nonceBytes ∧ a.nonceBytes ≤ 32 ∧ 16 ≤ a.tagBytes := by cases a <;> decide
  have hc : r.ciphertext.length = plaintext.length + a.tagBytes := by
    rw [h2, Sodium.length_encrypt]
  have hd : r.encryptedDek.length = 32 + a.tagBytes := by
    rw [h3, Sodium.length_encrypt, dek.2]
  have hk : r.keyCommitment.length = 64 := by
    rw [h6, List.length_append, length_commitment, length_commitment]
  rw [← h4] at hn
  rw [← h5] at hdn
  refine bind_eq_ok.mpr ⟨_, hid, bind_eq_ok.mpr ⟨(), require_eq_ok.mpr (hv.symm ▸ hpos), ?_⟩⟩
  refine bind_eq_ok.mpr ⟨_, halg, bind_eq_ok.mpr ⟨(), require_eq_ok.mpr ?_, ?_⟩⟩
  · refine ⟨?_, ?_, ?_, ?_⟩ <;> refine List.ne_nil_of_length_pos ?_ <;> omega
  · refine bind_eq_ok.mpr ⟨(), require_eq_ok.mpr (by omega), ?_⟩
    exact bind_eq_ok.mpr ⟨(), require_eq_ok.mpr hk, by rw [hv]; rfl⟩

/-- **A row is decrypted to what it holds.** -/
theorem reads_of_holds {t : SecretTable} {kek : Block 32} {plaintext : Bytes} {r : SecretRow}
    (h : Holds so kek r plaintext) (ht : Orderly t) (hr : r ∈ t.rows) : Reads so kek r plaintext := by
  obtain ⟨identity, hid, hsealed⟩ := h
  exact ⟨_, identity, _, copySecretRow_of_holds ⟨identity, hid, hsealed⟩ ht hr, hid,
    decrypted_of_sealed hsealed le_rfl⟩

theorem reads_of_stored {t : SecretTable} {name : CString} {plaintext : Bytes} {r : SecretRow}
    (h : StoredUnder so keys name plaintext r) (ht : Orderly t) (hr : r ∈ t.rows) :
    Reads so keys.kekEnc r plaintext := reads_of_holds h.holds ht hr

end Fuin.Vault.Reading

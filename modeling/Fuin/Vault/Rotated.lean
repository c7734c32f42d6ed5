import Fuin.Vault.Reading

/-! # The password changes

A call of `vault_rotate_kek` leaves the vault as it was, or it leaves the same secrets, names and
audit entries under the credential of the new password (`rotateKek_atomic`). -/

namespace Fuin.Vault.Rotated

open Fuin.Utils Fuin.Crypto Fuin.Lib.Program Fuin.Lib.Growth Fuin.Store.Secrets Fuin.Store.Database
open Fuin.Kdf Fuin.Audit.Table Fuin.Audit.Encoding Fuin.Audit.Verify Fuin.Audit.Log
open Fuin.Audit.Resign Fuin.Vault.Rows Fuin.Vault.Transactions Fuin.Vault.Operations
open Fuin.Vault.Observed Fuin.Vault.Rules Fuin.Vault.Sessions Fuin.Vault.Committed
open Fuin.Vault.Versioned Fuin.Vault.Stored Fuin.Vault.Calls Fuin.Vault.Honest
open Fuin.Vault.Unlocking Fuin.Vault.Reopened Fuin.Vault.Reading

/-- A row and what it is rewrapped to: but for the wrapped DEK it is the same row, and it is decrypted
to the same plaintext. -/
def SameSecret (so : Sodium) (keys keys' : Subkeys) (r r' : SecretRow) : Prop :=
  r' = { r with
    encryptedDek := r'.encryptedDek
    dekNonce := r'.dekNonce
    keyCommitment := r'.keyCommitment } ∧
  ∃ plaintext, Reads so keys.kekEnc r plaintext ∧ Reads so keys'.kekEnc r' plaintext

/-- The same vault under a new credential: the session has the keys that the new password opens, and
another password does not. -/
structure Rotation (so : Sodium) (password : CString) (keys keys' : Subkeys) (db db' : Db) : Prop where
  opens : Works so (fun k d => d = db' ∧ k = keys') (unlockInternal so password false) db'
  closed : ∀ (q : CString) (salt : Block 16) es k, db'.metadata .salt = some salt.1 →
    so.sha256 (so.pwhash q.bytes salt).1 ≠ so.sha256 (so.pwhash password.bytes salt).1 →
      ((unlockInternal so q false).run (Cmd.exec so) es db').2 ≠ .ok k
  metaKey : keys'.kekMeta = keys.kekMeta
  lookup : ∀ name, lookupOf so keys' name = lookupOf so keys name
  display : ∀ stored nonce encryptedName, decryptDisplayName so keys' stored nonce encryptedName =
    decryptDisplayName so keys stored nonce encryptedName
  secrets : List.Forall₂ (SameSecret so keys keys') db.secrets.rows db'.secrets.rows
  tokens : db'.metadata .tokenNotBefore = db.metadata .tokenNotBefore
  entries : ∃ entries row, db'.audit.rows = entries ++ [row] ∧
    List.Forall₂ SameEntry db.audit.rows entries ∧ row.action = rotateKekText.bytes ∧
    row.target = vaultText.bytes ∧ row.result = successText.bytes
  verified : verifyChain so keys'.kekAudit db'.audit = .ok ()

variable {so : Sodium} {keys : Subkeys} {db db' : Db} {password : CString}

theorem SameSecret.of_rewrapped {newKeys : Subkeys} {t u : SecretTable} {r r' : SecretRow}
    (h : Readable so keys t) (ht : Orderly t) (hu : Orderly u) (hr : r ∈ t.rows) (hr' : r' ∈ u.rows)
    (hrew : KeyManager.Rewrapped so keys.kekEnc newKeys.kekEnc r r') :
    SameSecret so keys { newKeys with kekMeta := keys.kekMeta } r r' := by
  obtain ⟨name, plaintext, hstored⟩ := h r hr
  have hstored' := hstored.rewrapped hrew (ht.columnInt_version hr)
  refine ⟨?_, plaintext, reads_of_stored hstored ht hr, reads_of_stored hstored' hu hr'⟩
  obtain ⟨_, _, _, _, _, _, -, -, -, -, -, -, rfl⟩ := hrew
  rfl

/-- A password with another verifier does not open the vault. -/
theorem closed_of_opens {q : CString} {salt : Block 16} {es : ℕ → ℕ → Input} {k : Subkeys}
    (h : Opens so db password keys) (hsalt : db.metadata .salt = some salt.1)
    (hne : so.sha256 (so.pwhash q.bytes salt).1 ≠ so.sha256 (so.pwhash password.bytes salt).1) :
    ((unlockInternal so q false).run (Cmd.exec so) es db).2 ≠ .ok k := by
  intro hk
  obtain ⟨salt', metaKey, nonce, hcred, -⟩ := h
  have hrun : ∃ db', (unlockInternal so q false).Runs (Cmd.exec so) db db' (.ok k) :=
    ⟨_, es, Prod.ext rfl hk⟩
  obtain ⟨db', hrun⟩ := hrun
  obtain rfl : salt' = salt := by
    rw [hcred] at hsalt
    exact Subtype.ext (Option.some.inj hsalt)
  cases unlock_call hrun with
  | @opened s metaKey' hstored hmeta =>
    obtain ⟨hs, hv⟩ := hstored
    rw [hcred] at hs hv
    obtain rfl : salt' = s := Subtype.ext (Option.some.inj hs)
    exact hne (Subtype.ext (Option.some.inj hv)).symm
  | stored hallow => nomatch hallow

/-- **The transaction** that rotates the KEK. -/
theorem rotation_of_tx {newKeys : Subkeys} {salt : Block 16} (hsound : Sound so keys db)
    (hne : password.bytes ≠ []) (hkeys : newKeys = subkeysOf so (so.pwhash password.bytes salt))
    (hrun : ((Tx.rotateKek keys salt (so.sha256 (so.pwhash password.bytes salt).1) newKeys).body
      so).Runs Stmt.exec db db' (.ok ())) :
    Rotation so password keys { newKeys with kekMeta := keys.kekMeta } db db' := by
  obtain ⟨nonce, t, -, hrows, hm, -, -, hlog, hsame, -⟩ :=
    Committed.rotateKek_runs hsound.orderly.noNul hsound.numbered hrun
  have hopens : Opens so db' password { newKeys with kekMeta := keys.kekMeta } := by
    subst hkeys
    refine ⟨salt, _, nonce, ?_, rfl⟩
    rw [hm]
    funext k
    cases k <;> rfl
  have hsound' := (hsound.rotateKek hrun).1
  refine ⟨works_unlockExisting hopens hne, fun q salt es k => closed_of_opens hopens, rfl,
    fun _ => rfl, fun _ _ _ => rfl, ?_, by rw [hm]; rfl, ?_, hsound'.verified⟩
  · exact (forall₂_with_mem hrows).imp fun r r' ⟨hr, hr', hrew⟩ =>
      SameSecret.of_rewrapped hsound.readable hsound.orderly hsound'.orderly hr hr' hrew
  · obtain ⟨prev, id, time, hash, sig, -, -, -, -, -, hrows'⟩ := hlog.rows
    exact ⟨t.rows, _, hrows', hsame, rfl, rfl, rfl⟩

/-- **`vault_rotate_kek` is all or nothing**, in every state that calls lead to from a new vault and
whatever fails: the vault stays as it is, session included, or it is the same under the new
password. -/
theorem rotateKek_atomic {P : Set CString} {cs : List Call} {world : ℕ → ℕ → Input}
    (hP : DistinctVerifiers so P) (hcs : ∀ c ∈ cs, Uses P c.op)
    (hs : (newVault.afterAll so cs).session = some keys) :
    (∃ e, ((newVault.afterAll so cs).outcome so ⟨.rotateKek password, world⟩).2 = .error e ∧
      (newVault.afterAll so cs).after so ⟨.rotateKek password, world⟩ = newVault.afterAll so cs) ∨
    ∃ keys',
      ((newVault.afterAll so cs).outcome so ⟨.rotateKek password, world⟩).2 = .ok (.session keys') ∧
      ((newVault.afterAll so cs).after so ⟨.rotateKek password, world⟩).session = some keys' ∧
      Rotation so password keys keys' (newVault.afterAll so cs).db
        ((newVault.afterAll so cs).after so ⟨.rotateKek password, world⟩).db := by
  have hsound := (held_new.afterAll hP hcs).1.sound hs
  generalize newVault.afterAll so cs = u at hs hsound
  obtain ⟨db, session⟩ := u
  obtain rfl : session = some keys := hs
  have hrun := VaultState.outcome_runs so ⟨db, some keys⟩ ⟨.rotateKek password, world⟩
  unfold VaultState.after
  generalize VaultState.outcome so ⟨db, some keys⟩ ⟨.rotateKek password, world⟩ = out at hrun
  obtain ⟨db', r⟩ := out
  obtain ⟨x, hx, hr⟩ := runs_bind_ret hrun
  dsimp only at hx hr ⊢
  subst hr
  rcases rotateKek_call hx with ⟨e, rfl, rfl⟩ | ⟨salt, verifier, newKeys, rfl, hcred, htx⟩
  · exact Or.inl ⟨e, rfl, rfl⟩
  · obtain ⟨-, rfl, hkeys⟩ := deriveCredentials_runsIn (readOnly_deriveCredentials.still hcred)
    obtain ⟨_, hne, -⟩ := Prog.runs_ofExcept_bind hcred
    exact Or.inr ⟨_, rfl, rfl, rotation_of_tx hsound (require_eq_ok.mp hne) hkeys htx⟩

/-- A vault with one secret. -/
def oneSecret : List Call :=
  let name := sampleName
  [⟨.unlock samplePassword, fun _ => calm 1735689600 1⟩,
    ⟨.put name [1, 2] none 0, fun _ => calm 1735689600 2⟩]

/-- Its password changes. -/
def newPassword : Call := ⟨.rotateKek ⟨ascii "another", by decide⟩, fun _ => calm 1735689600 3⟩

theorem one_secret_rotation : ∃ keys keys', Rotation toy ⟨ascii "another", by decide⟩ keys keys'
    (newVault.afterAll toy oneSecret).db ((newVault.afterAll toy oneSecret).after toy newPassword).db := by
  obtain ⟨keys, hkeys⟩ : ∃ k, (newVault.afterAll toy oneSecret).session = some k :=
    Option.isSome_iff_exists.mp (by decide +kernel)
  have hused : ∀ c ∈ oneSecret, ∀ p ∈ passwordOf c.op, p = samplePassword := by decide
  have hok : ((newVault.afterAll toy oneSecret).outcome toy newPassword).2.toOption.isSome := by
    decide +kernel
  rcases rotateKek_atomic (distinct_singleton toy samplePassword) hused hkeys with
    ⟨e, he, -⟩ | ⟨keys', -, -, h⟩
  · rw [newPassword, he] at hok
    nomatch hok
  · exact ⟨keys, keys', h⟩

end Fuin.Vault.Rotated

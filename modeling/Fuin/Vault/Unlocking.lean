import Fuin.Vault.Calls
import Fuin.Vault.Committed

/-! # Unlocking a vault

What `vault_unlock_internal` reads of the credential, query by query, and what a call of it ends in:
it fails and at most notes that the password was wrong, it opens the stored credential, or it stores
a new one (`unlock_call`). -/

namespace Fuin.Vault.Unlocking

open Fuin.Utils Fuin.Crypto Fuin.Lib.Program Fuin.Store.Database Fuin.Kdf
open Fuin.Vault.Rows Fuin.Vault.Transactions Fuin.Vault.Operations Fuin.Vault.Sessions
open Fuin.Vault.Committed Fuin.Vault.Calls

variable {so : Sodium} {keys : Subkeys} {db db' : Db} {M : Ambient Db Input} {password : CString}
  {allow : Bool}

theorem metadataBlob_eq_ok {key : MetadataKey} {n : ℕ} {o : Option Bytes}
    (h : metadataBlob key n db = .ok o) : o = db.metadata key := by
  unfold metadataBlob at h
  cases hm : db.metadata key with
  | none =>
    rw [hm] at h
    exact (Except.ok.inj h).symm
  | some b =>
    simp only [hm, bind_eq_ok, pure_eq_ok] at h
    obtain ⟨-, -, rfl⟩ := h
    rfl

/-- What the two queries for the credential have found. -/
def Stored (stored : Option (Block 16 × Block 32)) (db₁ db₂ : Db) : Prop :=
  db₁.metadata .salt = stored.map (fun p => p.1.1) ∧
    db₂.metadata .passwordVerifier = stored.map fun p => p.2.1

theorem loadAuthMetadata_runsIn {stored : Option (Block 16 × Block 32)}
    (h : loadAuthMetadata.RunsIn Stmt.exec M db db' (.ok stored)) :
    ∃ db₁ db₂, M.rely db db₁ ∧ M.inv db₁ ∧ M.rely db₁ db₂ ∧ M.inv db₂ ∧ M.rely db₂ db' ∧
      Stored stored db₁ db₂ := by
  obtain ⟨salt, db₁, h1, h2, h3, h⟩ := Sql.runsIn_select_bind h
  obtain ⟨verifier, db₂, h4, h5, h6, h⟩ := Sql.runsIn_select_bind h
  rw [metadataBlob_eq_ok h3, metadataBlob_eq_ok h6] at h
  refine ⟨db₁, db₂, h1, h2, h4, h5, ?_⟩
  unfold Stored
  cases hs : db₁.metadata .salt with
  | none =>
    cases hv : db₂.metadata .passwordVerifier with
    | none =>
      rw [hs, hv] at h
      obtain ⟨rfl, hr⟩ := h
      cases hr
      exact ⟨M.refl _, rfl, rfl⟩
    | some v =>
      rw [hs, hv] at h
      nomatch h.2
  | some s =>
    cases hv : db₂.metadata .passwordVerifier with
    | none =>
      rw [hs, hv] at h
      nomatch h.2
    | some v =>
      rw [hs, hv] at h
      dsimp only at h
      split_ifs at h
      · obtain ⟨rfl, hr⟩ := h
        cases hr
        exact ⟨M.refl _, rfl, rfl⟩
      · nomatch h.2

/-- **What is read to unlock**: the credential, if there is one; the salt is the stored one or new. -/
theorem prepareUnlock_runsIn {verifier : Option (Block 32)} {salt : Block 16} {master : Block 32}
    (h : (prepareUnlock so password allow).RunsIn Stmt.exec M db db' (.ok (verifier, salt, master))) :
    password.bytes ≠ [] ∧ master = so.pwhash password.bytes salt ∧ ∃ db₁ db₂,
      M.rely db db₁ ∧ M.inv db₁ ∧ M.rely db₁ db₂ ∧ M.inv db₂ ∧ M.rely db₂ db' ∧
        Stored (verifier.map fun v => (salt, v)) db₁ db₂ := by
  obtain ⟨_, hne, h⟩ := Prog.runsIn_ofExcept_bind h
  obtain ⟨stored, d, h1, h⟩ := Prog.runsIn_bind h
  obtain ⟨db₁, db₂, h2, h3, h4, h5, h6, hstored⟩ := loadAuthMetadata_runsIn h1
  obtain ⟨salt', d', h7, h⟩ := Prog.runsIn_bind h
  obtain ⟨d₁, h8, h⟩ := Sql.runsIn_libs_bind h
  obtain ⟨master', d₂, h9, h10, h⟩ := Prog.runsIn_readOnly_bind readOnly_deriveMasterKey h
  obtain ⟨d₃, h11, h⟩ := Sql.runsIn_lib_bind h
  obtain ⟨rfl, hret⟩ := h
  obtain ⟨rfl, rfl, rfl⟩ : verifier = stored.map Prod.snd ∧ salt = salt' ∧ master = master' := by
    simpa using hret
  refine ⟨require_eq_ok.mp hne, deriveMasterKey_runsIn h10, db₁, db₂, h2, h3, h4, h5, ?_, ?_⟩
  · have hsalt : M.rely d d' := h7.rely <| by
      cases stored with
      | none => exact Prog.readOnly_ofExcept.bind fun _ => readOnly_generateSalt
      | some s => trivial
    exact M.trans h6 (M.trans hsalt (M.trans h8 (M.trans h9 h11)))
  · cases stored with
    | none => exact hstored
    | some p =>
      obtain rfl : p.1 = salt := (Except.ok.inj h7.2).symm
      exact hstored

/-- The keys with the metadata key that is stored. -/
theorem openKeys_runsIn {master : Block 32}
    (h : (openKeys so master).RunsIn Stmt.exec M db db' (.ok keys)) :
    ∃ db₁ db₂ metaKey, M.rely db db₁ ∧ M.inv db₁ ∧ M.rely db₁ db₂ ∧ M.inv db₂ ∧ M.rely db₂ db' ∧
      unwrapMetaKey so (subkeysOf so master).kekEnc (db₁.metadata .metaKeyNonce)
        (db₂.metadata .metaKeyWrapped) = .ok metaKey ∧
      keys = { subkeysOf so master with kekMeta := metaKey } := by
  obtain ⟨d, h1, h⟩ := Sql.runsIn_libs_bind h
  obtain ⟨keys', d', h2, h3, h⟩ := Prog.runsIn_readOnly_bind readOnly_deriveSubkeys h
  obtain rfl := deriveSubkeys_runsIn h3
  obtain ⟨nonce, db₁, h4, h5, h6, h⟩ := Sql.runsIn_select_bind h
  obtain ⟨wrapped, db₂, h7, h8, h9, h⟩ := Sql.runsIn_select_bind h
  obtain ⟨metaKey, hmeta, h⟩ := Prog.runsIn_ofExcept_bind h
  obtain ⟨rfl, hret⟩ := h
  rw [metadataBlob_eq_ok h6, metadataBlob_eq_ok h9] at hmeta
  exact ⟨db₁, db', metaKey, M.trans h1 (M.trans h2 h4), h5, h7, h8, M.refl _, hmeta,
    Except.ok.inj hret⟩

/-! ### A call of it -/

theorem logAuthFailure_runs {r : Except Status Unit}
    (h : logAuthFailure.Runs Stmt.exec db db' r) :
    db' = db ∨ ∃ timestamp, db' = { db with authFailures := db.authFailures ++ [timestamp] } := by
  have hsplit : logAuthFailure = currentTime.bind fun timestamp =>
      (Sql.write (.insertAuthFailure timestamp.bytes)).bind fun _ => .ret () := by
    unfold logAuthFailure currentTime
    simp only [Prog.bind_def, Prog.bind_assoc]
    rfl
  rw [hsplit] at h
  rcases Prog.runs_bind_cases h with ⟨e, rfl, h1⟩ | ⟨timestamp, db₁, h1, h2⟩
  · exact Or.inl (Observed.readOnly_currentTime.runs h1)
  · obtain rfl := Observed.readOnly_currentTime.runs h1
    rcases Prog.runs_bind_cases h2 with ⟨e, rfl, h3⟩ | ⟨n, db₂, h3, h4⟩
    · exact Or.inl (Sql.runs_write_error h3)
    · obtain ⟨rfl, -⟩ := Prog.runs_ret h4
      have hw := Sql.runs_write h3
      simp only [Write.apply, Option.some.injEq, Prod.mk.injEq] at hw
      exact Or.inr ⟨timestamp.bytes, hw.1.symm⟩

/-- How a call of `vault_unlock_internal` ends. -/
inductive Unlocked (so : Sodium) (password : CString) (allow : Bool) (db : Db) :
    Db → Except Status Subkeys → Prop
  | failed (e : Status) : Unlocked so password allow db db (.error e)
  | noted (timestamp : Bytes) (e : Status) : Unlocked so password allow db
      { db with authFailures := db.authFailures ++ [timestamp] } (.error e)
  | opened {salt : Block 16} {metaKey : Block 32} :
      Stored (some (salt, so.sha256 (so.pwhash password.bytes salt).1)) db db →
      unwrapMetaKey so (subkeysOf so (so.pwhash password.bytes salt)).kekEnc
        (db.metadata .metaKeyNonce) (db.metadata .metaKeyWrapped) = .ok metaKey →
      Unlocked so password allow db db
        (.ok { subkeysOf so (so.pwhash password.bytes salt) with kekMeta := metaKey })
  | stored {salt : Block 16} {nonce : Block 24} : allow = true → Stored none db db →
      Unlocked so password allow db
        { db with
          metadata := credential so db.metadata salt (so.sha256 (so.pwhash password.bytes salt).1)
            (subkeysOf so (so.pwhash password.bytes salt)).kekMeta
            (subkeysOf so (so.pwhash password.bytes salt)).kekEnc nonce }
        (.ok (subkeysOf so (so.pwhash password.bytes salt)))

/-- **A call of `vault_unlock_internal`.** -/
theorem unlock_call {r : Except Status Subkeys}
    (h : (unlockInternal so password allow).Runs (Cmd.exec so) db db' r) :
    Unlocked so password allow db db' r := by
  rcases Prog.runs_bind_cases h with ⟨e, rfl, h1⟩ | ⟨⟨verifier, salt, master⟩, db₁, h1, h2⟩
  · obtain rfl := readOnly_prepareUnlock.runs (runs_sql h1)
    exact .failed e
  · obtain rfl := readOnly_prepareUnlock.runs (runs_sql h1)
    have hprep := readOnly_prepareUnlock.still (runs_sql h1)
    obtain ⟨-, hmaster, _, _, rfl, -, rfl, -, -, hstored⟩ := prepareUnlock_runsIn hprep
    subst hmaster
    cases verifier with
    | some v =>
      dsimp only at h2
      split_ifs at h2 with hv
      · subst hv
        have hopen := runs_sql h2
        obtain rfl := readOnly_openKeys.runs hopen
        cases r with
        | error e => exact .failed e
        | ok keys =>
          obtain ⟨_, _, metaKey, rfl, -, rfl, -, -, hmeta, rfl⟩ :=
            openKeys_runsIn (readOnly_openKeys.still hopen)
          exact .opened hstored hmeta
      · rcases Prog.runs_bind_cases h2 with ⟨e, rfl, h3⟩ | ⟨_, db₂, h3, h4⟩
        · rcases logAuthFailure_runs (runs_sql h3) with rfl | ⟨timestamp, rfl⟩
          · exact .failed e
          · exact .noted timestamp e
        · obtain ⟨rfl, rfl⟩ := Prog.runs_fail h4
          rcases logAuthFailure_runs (runs_sql h3) with rfl | ⟨timestamp, rfl⟩
          · exact .failed .auth
          · exact .noted timestamp .auth
    | none =>
      have hallow : allow = true := by
        cases allow with
        | true => rfl
        | false => exact absurd hprep prepareUnlock_existing
      rcases Prog.runs_bind_cases h2 with ⟨e, rfl, h3⟩ | ⟨keys, db₂, h3, h4⟩
      · obtain rfl := readOnly_newKeys.runs (runs_sql h3)
        exact .failed e
      · have hkeys := runs_sql h3
        obtain rfl := readOnly_newKeys.runs hkeys
        obtain rfl := newKeys_runsIn (readOnly_newKeys.still hkeys)
        rcases Prog.runs_bind_cases h4 with ⟨e, rfl, h5⟩ | ⟨_, db₃, h5, h6⟩
        · rcases runs_transact h5 with ⟨h7, -⟩ | ⟨_, -, rfl⟩
          · nomatch h7
          · exact .failed e
        · obtain ⟨rfl, rfl⟩ := Prog.runs_ret h6
          rcases runs_transact h5 with ⟨-, h7⟩ | ⟨_, h7, -⟩
          · obtain ⟨nonce, rfl⟩ := storeAuth_runs h7
            exact .stored hallow hstored
          · nomatch h7

end Fuin.Vault.Unlocking

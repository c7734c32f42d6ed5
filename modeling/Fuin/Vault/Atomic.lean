import Fuin.Vault.Reading

/-! # Operation and audit entry are one unit

A call that succeeds has made its change and appended one entry that names it (`Change`), and a call
that fails has changed nothing (`call_atomic`). What `vault_get` has written to the buffer of its
caller counts only if the `READ` entry has been appended (`readSecretInto_logged`). One step of
`vault_auto_rotate_expired` also succeeds, without an entry, when the secret is not due by the clock
any more (`rotation_atomic`). -/

namespace Fuin.Vault.Atomic

open Fuin.Utils Fuin.Time Fuin.Crypto Fuin.Lib.Program Fuin.Lib.Growth Fuin.Store.Secrets
open Fuin.Store.Versions Fuin.Store.Database Fuin.CryptoEngine Fuin.Kdf Fuin.Audit.Table
open Fuin.Audit.Log Fuin.Vault.Rows Fuin.Vault.Transactions Fuin.Vault.Operations
open Fuin.Vault.Observed Fuin.Vault.Rules Fuin.Vault.Sessions Fuin.Vault.Committed
open Fuin.Vault.Versioned Fuin.Vault.Stored Fuin.Vault.Calls Fuin.Vault.Honest Fuin.Vault.Reopened

/-- One entry of the session has been appended, and nothing else has changed. -/
def OnlyLogs (so : Sodium) (keys : Subkeys) (action target : CString) (version : ℤ) (db db' : Db) :
    Prop :=
  ∃ t, LogStep so keys.kekAudit ⟨actorText, action, target, version, successText⟩ db.audit t ∧
    db' = { db with audit := t }

/-- A new version of the secret has been stored and logged, with the next number; it holds the
plaintext. -/
structure Stores (so : Sodium) (keys : Subkeys) (action stored : CString) (archives : Bool)
    (plaintext : Bytes) (interval : ℤ) (new : NewSecret) (db db' : Db) : Prop where
  committed : NewVersion so keys.kekAudit action archives new db db'
  name : new.name = stored
  version : new.version = (db.secrets.rowsOf stored.bytes).length + 1
  holds : Holds so keys.kekEnc new.row plaintext
  interval : new.rotationInterval = interval

/-- **What a call that succeeds has done**, and which entry it has appended. -/
def Change (so : Sodium) (keys : Subkeys) (db db' : Db) : Op → Result → Prop
  | .put name secret _ ttl, _ => ∃ new,
    let active := (db.secrets.activeRow (lookupOf so keys name).bytes).isSome
    Stores so keys (if active then updateText else createText) (lookupOf so keys name) active secret
        ttl new db db' ∧
      Shown so keys name new.name new.nameNonce new.encryptedName
  | .delete name, _ => ∃ r now,
    db.secrets.activeRow (lookupOf so keys name).bytes = some r ∧
      Deleted so keys.kekAudit (lookupOf so keys name) now r.version db db'
  | .rollback name version, _ => ∃ r plaintext new,
    db.secrets.versionRow (lookupOf so keys name).bytes version = some r ∧
      Reads so keys.kekEnc r plaintext ∧
      Stores so keys rollbackText (lookupOf so keys name) true plaintext
        (r.rotationInterval.getD 0) new db db' ∧
      new.encrypted.algorithm = columnText r.algorithm
  | .get name _, .value b => ∃ r, db.secrets.activeRow (lookupOf so keys name).bytes = some r ∧
    Reads so keys.kekEnc r b ∧ OnlyLogs so keys readText (lookupOf so keys name) r.version db db'
  | .getVersion name version _, .value b => ∃ r,
    db.secrets.versionRow (lookupOf so keys name).bytes version = some r ∧
      Reads so keys.kekEnc r b ∧ OnlyLogs so keys readText (lookupOf so keys name) r.version db db'
  | .issueToken subject scope ttl, .token claims =>
    claims.subject = subject ∧ claims.scope = scope ∧ claims.expiresAt = claims.issuedAt + ttl ∧
      OnlyLogs so keys tokenIssueText subject 0 db db'
  | .revokeTokens, _ => ∃ now t, 0 < now ∧
    LogStep so keys.kekAudit ⟨actorText, tokenRevokeText, tokensText, 0, successText⟩ db.audit t ∧
      db' = { db with
        metadata := Function.update db.metadata .tokenNotBefore (some (u64le now))
        audit := t }
  | _, _ => False

/-- The operations that log themselves. -/
def Logged : Op → Prop
  | .put .. | .delete _ | .rollback .. | .get .. | .getVersion .. | .issueToken .. | .revokeTokens => True
  | _ => False

instance : DecidablePred Logged
  | .put .. | .delete _ | .rollback .. | .get .. | .getVersion .. | .issueToken .. | .revokeTokens =>
    isTrue trivial
  | .autoRotate _ | .list _ | .rotateKek _ | .unlock _ | .unlockExisting _ => isFalse id

variable {so : Sodium} {keys : Subkeys} {db db' : Db} {α : Type}

/-! ### A transaction after its preparation -/

/-- Statements that only read, and a transaction. -/
theorem runs_prepared {p : Sql α} {t : α → Tx} {r : Except Status Unit} (hp : Sql.ReadOnly p)
    (h : ((sql p).bind fun a => transact (t a)).Runs (Cmd.exec so) db db' r) :
    (∃ a, p.RunsIn Stmt.exec (Ambient.still db) db db (.ok a) ∧ r = .ok () ∧
      ((t a).body so).Runs Stmt.exec db db' (.ok ())) ∨ ∃ e, r = .error e ∧ db' = db := by
  rcases Prog.runs_bind_cases h with ⟨e, rfl, h1⟩ | ⟨a, db₁, h1, h2⟩
  · exact Or.inr ⟨e, rfl, hp.runs (runs_sql h1)⟩
  · obtain rfl := hp.runs (runs_sql h1)
    rcases runs_transact h2 with ⟨rfl, h3⟩ | h3
    · exact Or.inl ⟨a, hp.still (runs_sql h1), rfl, h3⟩
    · exact Or.inr h3

/-- A program that returns nothing but `SM_OK`. -/
theorem runs_done {p : VaultProg Unit} {r : Except Status Result}
    (h : (p.bind fun _ => .ret .done).Runs (Cmd.exec so) db db' r) :
    (r = .ok .done ∧ p.Runs (Cmd.exec so) db db' (.ok ())) ∨
      ∃ e, r = .error e ∧ p.Runs (Cmd.exec so) db db' (.error e) := by
  obtain ⟨x, hx, rfl⟩ := runs_bind_ret h
  cases x with
  | ok _ => exact Or.inl ⟨rfl, hx⟩
  | error e => exact Or.inr ⟨e, rfl, hx⟩

theorem isSome_of_metadata {name : CString} {metadata : Option SecretMetadata}
    (h : metadataOf name db = .ok metadata) :
    (db.secrets.activeRow name.bytes).isSome = metadata.isSome := by
  cases metadata with
  | none =>
    rw [metadataOf_eq_none h]
    rfl
  | some m =>
    obtain ⟨r, hr, -⟩ := metadataOf_eq_some h
    rw [hr]
    rfl

/-- An algorithm that the table lists is stored again under its name. -/
theorem algorithm_stays {r : SecretRow} {e : CString} (hr : r.Admitted)
    (h : ∃ a, selectAlgorithm so (some (columnText r.algorithm)) = .ok a ∧ e = algorithmName a) :
    e = columnText r.algorithm := by
  obtain ⟨b, hb⟩ : ∃ b, columnText r.algorithm = algorithmName b := by
    have hmem := hr.1
    simp only [algorithmNames, List.mem_cons, List.not_mem_nil, or_false] at hmem
    rcases hmem with h | h | h
    · exact ⟨.aes256Gcm, by rw [h]; decide⟩
    · exact ⟨.xchacha20Poly1305, by rw [h]; decide⟩
    · exact ⟨.aegis256, by rw [h]; decide⟩
  obtain ⟨a, ha, rfl⟩ := h
  rw [hb] at ha ⊢
  rw [selectAlgorithm_name ha]

/-- What was prepared from the tables and committed to them. -/
theorem Stores.of_committed {action stored : CString} {archives : Bool} {plaintext : Bytes}
    {interval : ℤ} {new : NewSecret} {algorithm : Option CString} (horder : Orderly db.secrets)
    (hv : NewVersion so keys.kekAudit action archives new db db') (hn : new.name = stored)
    (hf : Follows new.name db new.version new.nonceCounter)
    (hp : Prepared so keys plaintext algorithm new) (hi : new.rotationInterval = interval) :
    Stores so keys action stored archives plaintext interval new db db' := by
  subst hn
  obtain ⟨hnext, -, -⟩ := newVersion_next hv (horder.history _) (horder.history _)
    (Grows.refl Kept.refl _) hf
  obtain ⟨identity, hid, hsealed⟩ := hp.sealed
  refine ⟨hv, rfl, hnext, ⟨identity, ?_, ?_⟩, hi⟩
  · simpa only [NewSecret.row, columnText_bytes] using hid
  · simpa only [NewSecret.row, encryptedOf, columnText_bytes] using hsealed

/-! ### The operations -/

theorem put_atomic {name : CString} {secret : Bytes} {algorithm : Option CString} {ttl : ℕ}
    {r : Except Status Unit} (hsound : Sound so keys db)
    (h : (put so keys name secret algorithm ttl).Runs (Cmd.exec so) db db' r) :
    (r = .ok () ∧ Change so keys db db' (.put name secret algorithm ttl) .done) ∨
      ∃ e, r = .error e ∧ db' = db := by
  rcases runs_prepared readOnly_preparePut h with ⟨⟨metadata, new⟩, h1, rfl, h2⟩ | he
  · obtain ⟨_, _, -, rfl, -, rfl, -, -, hs, hm, hf, hp, hi⟩ := preparePut_runsIn h1
    refine Or.inl ⟨rfl, new, ?_, hs⟩
    have hactive := isSome_of_metadata hm
    rw [hs.stored] at hactive
    rw [hactive]
    exact .of_committed hsound.orderly (put_runs h2).1 hs.stored hf hp hi
  · exact Or.inr he

theorem delete_atomic {name : CString} {r : Except Status Unit} (hsound : Sound so keys db)
    (h : (delete so keys name).Runs (Cmd.exec so) db db' r) :
    (r = .ok () ∧ Change so keys db db' (.delete name) .done) ∨ ∃ e, r = .error e ∧ db' = db := by
  rcases runs_prepared readOnly_prepareDelete h with ⟨⟨stored, now, metadata⟩, h1, rfl, h2⟩ | he
  · obtain ⟨-, -, rfl, -, hm⟩ := prepareDelete_runsIn h1
    obtain ⟨r, hr, hread⟩ := metadataOf_eq_some hm
    have hmem := (SecretTable.activeRow_eq_some hr).1
    have hv : metadata.version = r.version := by
      rw [(readMetadata_eq_ok hread).1, hsound.orderly.columnInt_version hmem]
    exact Or.inl ⟨rfl, r, now, hr, hv ▸ delete_runs h2⟩
  · exact Or.inr he

theorem rollback_atomic {name : CString} {version : ℤ} {r : Except Status Unit}
    (hsound : Sound so keys db)
    (h : (rollback so keys name version).Runs (Cmd.exec so) db db' r) :
    (r = .ok () ∧ Change so keys db db' (.rollback name version) .done) ∨
      ∃ e, r = .error e ∧ db' = db := by
  rcases runs_prepared readOnly_prepareRollback h with ⟨new, h1, rfl, h2⟩ | he
  · obtain ⟨_, _, _, r, plaintext, -, rfl, -, rfl, -, rfl, -, -, hs, hrow, hreads, httl, hf, hp⟩ :=
      prepareRollback_runsIn h1
    have hname := hs.stored
    have hi : new.rotationInterval = r.rotationInterval.getD 0 := by
      unfold versionTtl at httl
      rw [hrow] at httl
      simp only [bind_eq_ok, pure_eq_ok] at httl
      obtain ⟨-, -, hi⟩ := httl
      exact hi.symm
    rw [hname] at hrow
    have hmem := (SecretTable.versionRow_eq_some hrow).1
    exact Or.inl ⟨rfl, r, plaintext, new, hrow, hreads,
      .of_committed hsound.orderly (rollback_runs h2) hname hf hp hi,
      algorithm_stays (SecretTable.admitted _ r hmem) hp.algorithm⟩
  · exact Or.inr he

theorem revokeTokens_atomic {r : Except Status Unit}
    (h : (revokeTokens keys).Runs (Cmd.exec so) db db' r) :
    (r = .ok () ∧ Change so keys db db' .revokeTokens .done) ∨ ∃ e, r = .error e ∧ db' = db := by
  obtain ⟨es, h1⟩ := Prog.runs_cmd h
  dsimp only [Cmd.exec, Stmt.exec] at h1
  cases hnow : (es 0).now with
  | none =>
    rw [hnow] at h1
    obtain ⟨rfl, rfl⟩ := Prog.runs_fail h1
    exact Or.inr ⟨_, rfl, rfl⟩
  | some now =>
    rw [hnow] at h1
    have h0 : ((Prog.ofExcept (require (0 < now) .storage)).bind fun _ =>
        transact (.revokeTokens now keys.kekAudit)).Runs (Cmd.exec so) db db' r := h1
    rcases Prog.runs_bind_cases h0 with ⟨e, rfl, h2⟩ | ⟨_, db₁, h2, h3⟩
    · exact Or.inr ⟨e, rfl, (Prog.runs_ofExcept h2).1⟩
    · obtain ⟨rfl, hpos⟩ := Prog.runs_ofExcept h2
      rcases runs_transact h3 with ⟨rfl, h4⟩ | h4
      · obtain ⟨hs, hm, hl, hf⟩ := revokeTokens_runs h4
        refine Or.inl ⟨rfl, now, _, require_eq_ok.mp hpos.symm, hl, ?_⟩
        rw [← hm, ← hs, ← hf]
      · exact Or.inr h4

/-! ### The operations that log outside a transaction -/

theorem logSuccess_atomic {action target : CString} {version : ℤ} {r : Except Status Unit}
    (h : (sql (logSuccess so action target version keys.kekAudit)).Runs (Cmd.exec so) db db' r) :
    (r = .ok () ∧ OnlyLogs so keys action target version db db') ∨ ∃ e, r = .error e ∧ db' = db := by
  cases r with
  | ok _ => exact Or.inl ⟨rfl, logEvent_runs (runs_sql h)⟩
  | error e => exact Or.inr ⟨e, rfl, logEvent_runs_error (runs_sql h)⟩

/-- **`vault_read_secret`** returns the plaintext of a row together with the entry that names it. -/
theorem readSecret_atomic {name : CString} {w : Which} {capacity : ℕ} {r : Except Status Bytes}
    (hsound : Sound so keys db)
    (h : (readSecret so keys name w capacity).Runs (Cmd.exec so) db db' r) :
    (∃ b row, r = .ok b ∧ w.row (lookupOf so keys name) db = some row ∧
      Reads so keys.kekEnc row b ∧
      OnlyLogs so keys readText (lookupOf so keys name) row.version db db') ∨
      ∃ e, r = .error e ∧ db' = db := by
  rcases Prog.runs_bind_cases h with ⟨e, rfl, h1⟩ | ⟨⟨stored, version, plaintext⟩, db₁, h1, h2⟩
  · exact Or.inr ⟨e, rfl, readOnly_prepareRead.runs (runs_sql h1)⟩
  · obtain rfl := readOnly_prepareRead.runs (runs_sql h1)
    obtain ⟨_, row, -, rfl, -, rfl, hrow, hreads, rfl⟩ :=
      prepareRead_runsIn (readOnly_prepareRead.still (runs_sql h1))
    obtain ⟨x, hx, rfl⟩ := runs_bind_ret (f := fun _ => plaintext) h2
    rcases logSuccess_atomic hx with ⟨rfl, hl⟩ | ⟨e, rfl, rfl⟩
    · rw [hsound.orderly.columnInt_version (Which.row_name hrow).1] at hl
      exact Or.inl ⟨plaintext, row, rfl, hrow, hreads, hl⟩
    · exact Or.inr ⟨e, rfl, rfl⟩

theorem accessIssueToken_runs {subject scope : CString} {ttl : ℕ} {claims : Claims}
    (h : (accessIssueToken subject scope ttl).Runs Stmt.exec db db' (.ok claims)) :
    claims.subject = subject ∧ claims.scope = scope ∧ claims.expiresAt = claims.issuedAt + ttl := by
  obtain ⟨_, -, h⟩ := Prog.runs_ofExcept_bind h
  obtain ⟨_, -, h⟩ := Prog.runs_ofExcept_bind (Sql.runs_lib_bind h)
  obtain ⟨_, -, h⟩ := Prog.runs_ofExcept_bind h
  obtain ⟨issuedAt, db₁, -, h⟩ := Prog.runs_bind h
  obtain ⟨_, -, h⟩ := Prog.runs_ofExcept_bind h
  obtain ⟨_, -, h⟩ := Prog.runs_ofExcept_bind h
  obtain ⟨nonce, h⟩ := Sql.runs_random_bind h
  have hlast := Sql.runs_libs_bind h
  obtain ⟨-, hret⟩ := Prog.runs_ret hlast
  cases hret
  exact ⟨rfl, rfl, rfl⟩

theorem issueToken_atomic {subject scope : CString} {ttl : ℕ} {r : Except Status Claims}
    (h : (issueToken so keys subject scope ttl).Runs (Cmd.exec so) db db' r) :
    (∃ claims, r = .ok claims ∧ Change so keys db db' (.issueToken subject scope ttl) (.token claims)) ∨
      ∃ e, r = .error e ∧ db' = db := by
  rcases Prog.runs_bind_cases h with ⟨e, rfl, h1⟩ | ⟨claims, db₁, h1, h2⟩
  · exact Or.inr ⟨e, rfl, readOnly_accessIssueToken.runs (runs_sql h1)⟩
  · obtain rfl := readOnly_accessIssueToken.runs (runs_sql h1)
    rcases Prog.runs_bind_cases h2 with ⟨e, rfl, h3⟩ | ⟨_, db₂, h3, h4⟩
    · exact Or.inr ⟨e, rfl, Sql.readOnly_lib.runs (runs_sql h3)⟩
    · obtain rfl := Sql.readOnly_lib.runs (runs_sql h3)
      obtain ⟨x, hx, rfl⟩ := runs_bind_ret (f := fun _ => claims) h4
      rcases logSuccess_atomic hx with ⟨rfl, hl⟩ | ⟨e, rfl, rfl⟩
      · obtain ⟨e1, e2, e3⟩ := accessIssueToken_runs (runs_sql h1)
        exact Or.inl ⟨claims, rfl, e1, e2, e3, hl⟩
      · exact Or.inr ⟨e, rfl, rfl⟩

/-- **A call that logs itself** has made its change and appended its entry, or it has changed
nothing. -/
theorem call_atomic {op : Op} {r : Except Status Result} (hop : Logged op) (hsound : Sound so keys db)
    (h : (unlockedCode so keys op).Runs (Cmd.exec so) db db' r) :
    (∃ x, r = .ok x ∧ Change so keys db db' op x) ∨ ∃ e, r = .error e ∧ db' = db := by
  have hdone {p : VaultProg Unit} (hp : ∀ r, p.Runs (Cmd.exec so) db db' r →
        (r = .ok () ∧ Change so keys db db' op .done) ∨ ∃ e, r = .error e ∧ db' = db)
      (h : (p.bind fun _ => .ret .done).Runs (Cmd.exec so) db db' r) :
      (∃ x, r = .ok x ∧ Change so keys db db' op x) ∨ ∃ e, r = .error e ∧ db' = db := by
    obtain ⟨x, hx, rfl⟩ := runs_bind_ret h
    rcases hp x hx with ⟨rfl, hc⟩ | ⟨e, rfl, rfl⟩
    · exact Or.inl ⟨.done, rfl, hc⟩
    · exact Or.inr ⟨e, rfl, rfl⟩
  cases op with
  | put name secret algorithm ttl => exact hdone (fun _ hx => put_atomic hsound hx) h
  | delete name => exact hdone (fun _ hx => delete_atomic hsound hx) h
  | rollback name version => exact hdone (fun _ hx => rollback_atomic hsound hx) h
  | revokeTokens => exact hdone (fun _ hx => revokeTokens_atomic hx) h
  | get name capacity =>
    obtain ⟨x, hx, rfl⟩ := runs_bind_ret h
    rcases readSecret_atomic hsound hx with ⟨b, row, rfl, hrow, hreads, hl⟩ | ⟨e, rfl, rfl⟩
    · exact Or.inl ⟨.value b, rfl, row, hrow, hreads, hl⟩
    · exact Or.inr ⟨e, rfl, rfl⟩
  | getVersion name version capacity =>
    obtain ⟨x, hx, rfl⟩ := runs_bind_ret h
    rcases Prog.runs_bind_cases hx with ⟨e, rfl, h1⟩ | ⟨_, db₁, h1, h2⟩
    · exact Or.inr ⟨e, rfl, (Prog.runs_ofExcept h1).1⟩
    · obtain ⟨rfl, -⟩ := Prog.runs_ofExcept h1
      rcases readSecret_atomic hsound h2 with ⟨b, row, rfl, hrow, hreads, hl⟩ | ⟨e, rfl, rfl⟩
      · exact Or.inl ⟨.value b, rfl, row, hrow, hreads, hl⟩
      · exact Or.inr ⟨e, rfl, rfl⟩
  | issueToken subject scope ttl =>
    obtain ⟨x, hx, rfl⟩ := runs_bind_ret h
    rcases issueToken_atomic hx with ⟨claims, rfl, hc⟩ | ⟨e, rfl, rfl⟩
    · exact Or.inl ⟨.token claims, rfl, hc⟩
    · exact Or.inr ⟨e, rfl, rfl⟩
  | _ => exact hop.elim

/-! ### The buffer of the caller -/

/-- `vault_read_secret` with the buffer of its caller: the status, and the bytes that `*written`
counts. -/
def readSecretInto (so : Sodium) (keys : Subkeys) (name : CString) (w : Which) (capacity : ℕ) :
    VaultProg (Except Status Unit × Bytes) := do
  match ← (sql (prepareRead so keys name w capacity)).attempt with
  | .error e => return (.error e, [])
  | .ok (storedName, version, plaintext) =>
    match ← (sql (logSuccess so readText storedName version keys.kekAudit)).attempt with
    | .error e => return (.error e, [])
    | .ok _ => return (.ok (), plaintext)

/-- It is `readSecret`, with an empty buffer when it fails. -/
theorem readSecretInto_eq (name : CString) (w : Which) (capacity : ℕ) :
    readSecretInto so keys name w capacity =
      (readSecret so keys name w capacity).attempt.bind fun x =>
        .ret (x.map fun _ => (), x.toOption.getD []) := by
  unfold readSecretInto readSecret
  simp only [Prog.bind_def, Prog.attempt_bind, Prog.bind_assoc]
  congr 1
  funext x
  cases x with
  | error e => rfl
  | ok out =>
    dsimp only
    simp only [Prog.bind_assoc]
    congr 1
    funext y
    cases y <;> rfl

/-- **No plaintext without its `READ` entry.** -/
theorem readSecretInto_logged {name : CString} {w : Which} {capacity : ℕ} {status : Except Status Unit}
    {out : Bytes} (hsound : Sound so keys db)
    (h : (readSecretInto so keys name w capacity).Runs (Cmd.exec so) db db' (.ok (status, out)))
    (hout : status = .ok () ∨ out ≠ []) :
    ∃ row, w.row (lookupOf so keys name) db = some row ∧ Reads so keys.kekEnc row out ∧
      OnlyLogs so keys readText (lookupOf so keys name) row.version db db' := by
  rw [readSecretInto_eq] at h
  obtain ⟨y, hy, hret⟩ := runs_bind_ret h
  obtain ⟨x, rfl, hx⟩ := Prog.runs_attempt hy
  cases hret
  rcases readSecret_atomic hsound hx with ⟨b, row, rfl, hrow, hreads, hl⟩ | ⟨e, rfl, rfl⟩
  · exact ⟨row, hrow, hreads, hl⟩
  · rcases hout with hout | hout
    · nomatch hout
    · exact absurd rfl hout

/-! ### One step of the rotation -/

/-- The active row of the name has been rotated to a new version of the same secret. -/
def Rotates (so : Sodium) (keys : Subkeys) (name : CString) (db db' : Db) : Prop :=
  ∃ r plaintext new, db.secrets.activeRow name.bytes = some r ∧ Reads so keys.kekEnc r plaintext ∧
    Stores so keys rotateDekText name true plaintext (r.rotationInterval.getD 0) new db db' ∧
    new.encrypted.algorithm = columnText r.algorithm

/-- The active row of the name does not expire, or not yet by some reading of the clock. -/
def NotDue (name : CString) (db : Db) : Prop :=
  ∃ metadata now t, metadataOf name db = .ok (some metadata) ∧ nowIso8601 now = .ok t ∧
    ¬ metadata.expiresAt.any fun e => expiryIsDue e t

theorem prepareRotation_none {name : CString}
    (h : (prepareRotation so keys name).Runs Stmt.exec db db' (.ok none)) : NotDue name db := by
  obtain ⟨_, -, h⟩ := Prog.runs_ofExcept_bind h
  obtain ⟨t, db₁, h1, h2⟩ := Prog.runs_bind h
  obtain rfl := readOnly_currentTime.runs h1
  obtain ⟨now, htime⟩ := Sql.runs_time_bind h1
  obtain ⟨m, hm, h3⟩ := Sql.runs_select_bind h2
  cases m with
  | none => cases (Prog.runs_fail h3).2
  | some metadata =>
    dsimp only at h3
    split_ifs at h3 with hdue
    · obtain ⟨_, _, -, h3⟩ := Prog.runs_bind h3
      obtain ⟨_, -, h3⟩ := Sql.runs_select_bind h3
      obtain ⟨_, -, h3⟩ := Prog.runs_ofExcept_bind h3
      obtain ⟨_, -, h3⟩ := Prog.runs_ofExcept_bind h3
      obtain ⟨_, _, -, h3⟩ := Prog.runs_bind h3
      obtain ⟨_, _, -, h3⟩ := Prog.runs_bind h3
      obtain ⟨_, _, -, h3⟩ := Prog.runs_bind h3
      cases (Prog.runs_ret h3).2
    · exact ⟨metadata, now, t, hm, (Prog.runs_ofExcept htime).2.symm, hdue⟩

/-- **One step of `vault_auto_rotate_expired`**: the secret is rotated and logged, or it is not due,
or the step fails; nothing changes then. -/
theorem rotation_atomic {name : CString} {r : Except Status Unit} (hsound : Sound so keys db)
    (h : (rotateExpiredSecret so keys name).Runs (Cmd.exec so) db db' r) :
    (r = .ok () ∧ Rotates so keys name db db') ∨ (r = .ok () ∧ db' = db ∧ NotDue name db) ∨
      ∃ e, r = .error e ∧ db' = db := by
  rcases Prog.runs_bind_cases h with ⟨e, rfl, h1⟩ | ⟨out, db₁, h1, h2⟩
  · exact Or.inr (Or.inr ⟨e, rfl, readOnly_prepareRotation.runs (runs_sql h1)⟩)
  · obtain rfl := readOnly_prepareRotation.runs (runs_sql h1)
    cases out with
    | none =>
      obtain ⟨rfl, rfl⟩ := Prog.runs_ret h2
      exact Or.inr (Or.inl ⟨rfl, rfl, prepareRotation_none (runs_sql h1)⟩)
    | some p =>
      obtain ⟨metadata, new⟩ := p
      rcases runs_transact h2 with ⟨rfl, h3⟩ | h3
      · obtain ⟨_, _, _, q, plaintext, -, rfl, -, rfl, -, rfl, -, hn, hm, hq, hreads, hf, hp, e1, e2,
          e3⟩ := prepareRotation_runsIn (readOnly_prepareRotation.still (runs_sql h1))
        obtain ⟨row, hrow, hread⟩ := metadataOf_eq_some hm
        obtain ⟨hv, hi, -, -⟩ := readMetadata_eq_ok hread
        obtain ⟨hmem, hname, -⟩ := SecretTable.activeRow_eq_some hrow
        -- the version that was decrypted is the active row
        rw [hv, hsound.orderly.columnInt_version hmem, ← hname, SecretTable.versionRow_of_mem hmem] at hq
        obtain rfl := Option.some.inj hq
        have hrot := (rotateDek_runs h3).1
        rw [rotation_eq e1 e2 e3] at hrot
        exact Or.inl ⟨rfl, row, plaintext, new, hrow, hreads,
          .of_committed hsound.orderly hrot hn (hn ▸ hf) hp (e3.trans hi),
          algorithm_stays (SecretTable.admitted _ row hmem) hp.algorithm⟩
      · exact Or.inr (Or.inr h3)

/-! ### In every reachable state -/

/-- A state in which a session works: some calls have led there from a new vault, and some steps of
the call that is running. -/
def Within (so : Sodium) (P : Set CString) (keys : Subkeys) (db : Db) : Prop :=
  ∃ cs op, (∀ c ∈ cs, Uses P c.op) ∧ (∀ password, op ≠ .rotateKek password) ∧
    (newVault.afterAll so cs).session = some keys ∧
    Relation.ReflTransGen (Step so (some keys) op) (newVault.afterAll so cs).db db

theorem Within.sound {P : Set CString} (h : Within so P keys db) (hP : DistinctVerifiers so P) :
    Sound so keys db := by
  obtain ⟨cs, op, hcs, hkek, hs, hsteps⟩ := h
  have hstart := (held_new.afterAll hP hcs).1.sound hs
  induction hsteps with
  | refl => exact hstart
  | tail _ hstep ih => exact (ih.step hkek hstep).1

/-- **Operation and audit entry are one unit.** In every state in which a session works, whatever
fails: a call has made its change and appended the entry that names it, or it has failed and changed
nothing; a step of the rotation may also find that the secret is not due, and change nothing; and no
plaintext is handed out without its `READ` entry. -/
theorem operations_atomic {P : Set CString} (hP : DistinctVerifiers so P) (h : Within so P keys db) :
    (∀ op db' r, Logged op → (unlockedCode so keys op).Runs (Cmd.exec so) db db' r →
      (∃ x, r = .ok x ∧ Change so keys db db' op x) ∨ ∃ e, r = .error e ∧ db' = db) ∧
    (∀ name db' r, (rotateExpiredSecret so keys name).Runs (Cmd.exec so) db db' r →
      (r = .ok () ∧ Rotates so keys name db db') ∨ (r = .ok () ∧ db' = db ∧ NotDue name db) ∨
        ∃ e, r = .error e ∧ db' = db) ∧
    ∀ name w capacity db' status out,
      (readSecretInto so keys name w capacity).Runs (Cmd.exec so) db db' (.ok (status, out)) →
        status = .ok () ∨ out ≠ [] → ∃ row, w.row (lookupOf so keys name) db = some row ∧
          Reads so keys.kekEnc row out ∧
          OnlyLogs so keys readText (lookupOf so keys name) row.version db db' :=
  ⟨fun _ _ _ hop hrun => call_atomic hop (h.sound hP) hrun,
    fun _ _ _ hrun => rotation_atomic (h.sound hP) hrun,
    fun _ _ _ _ _ _ hrun hout => readSecretInto_logged (h.sound hP) hrun hout⟩

/-- A secret that expires after ten seconds is stored in a new vault. -/
def storeExpiring : List Call :=
  let name := sampleName
  [⟨.unlock samplePassword, fun _ => calm 1735689600 1⟩,
    ⟨.put name [1, 2] none 10, fun _ => calm 1735689600 2⟩]

def expiring : VaultState := newVault.afterAll toy storeExpiring

def expiringKeys : Subkeys := expiring.session.getD toyKeys

/-- The name under which it is stored. -/
def expiringName : CString := lookupOf toy expiringKeys sampleName

/-- One step of the rotation, at some time. -/
def rotateAt (now : ℤ) : Db × Except Status Unit :=
  (rotateExpiredSecret toy expiringKeys expiringName).run (Cmd.exec toy) (fun _ => calm now 3)
    expiring.db

theorem rotateAt_runs {now : ℤ} {r : Except Status Unit} (h : (rotateAt now).2 = r) :
    (rotateExpiredSecret toy expiringKeys expiringName).Runs (Cmd.exec toy) expiring.db
      (rotateAt now).1 r := by
  rw [← h]
  exact Prog.runs_run _

theorem expiring_within : Within toy {samplePassword} expiringKeys expiring.db := by
  obtain ⟨keys, hkeys⟩ : ∃ k, expiring.session = some k :=
    Option.isSome_iff_exists.mp (by decide +kernel)
  have hused : ∀ c ∈ storeExpiring, ∀ p ∈ passwordOf c.op, p = samplePassword := by decide
  refine ⟨storeExpiring, .autoRotate 1, hused, fun _ h => (nomatch h), ?_, .refl⟩
  rw [expiringKeys, hkeys]
  exact hkeys

theorem expiring_atomic : ∃ db', Rotates toy expiringKeys expiringName expiring.db db' := by
  have hok : (rotateAt 1735689620).2 = .ok () := by decide +kernel
  have hgrown : (rotateAt 1735689620).1.audit.rows.length ≠ expiring.db.audit.rows.length := by
    decide +kernel
  rcases (operations_atomic (distinct_singleton toy samplePassword) expiring_within).2.1 _ _ _
    (rotateAt_runs hok) with ⟨-, h⟩ | ⟨-, h, -⟩ | ⟨e, h, -⟩
  · exact ⟨_, h⟩
  · exact absurd (congrArg (fun db => db.audit.rows.length) h) hgrown
  · nomatch h

/-- **Not every step of the rotation that succeeds has logged**: the clock has been set back since the
secret was found to be due. -/
theorem step_not_logged :
    ¬ ∀ (so : Sodium) (P : Set CString) (keys : Subkeys) (db db' : Db) (name now : CString),
      DistinctVerifiers so P → Within so P keys db → nextExpiredName now db = .ok (some name) →
        (rotateExpiredSecret so keys name).Runs (Cmd.exec so) db db' (.ok ()) →
          ∃ v, LogStep so keys.kekAudit v db.audit db'.audit := by
  intro h
  have hfound : nextExpiredName ⟨ascii "2025-01-01T00:00:20Z", by decide⟩ expiring.db =
      .ok (some expiringName) := by decide +kernel
  have hok : (rotateAt 1735689600).2 = .ok () := by decide +kernel
  have hsame : (rotateAt 1735689600).1.audit.rows.length = expiring.db.audit.rows.length := by
    decide +kernel
  obtain ⟨v, hlog⟩ := h toy {samplePassword} expiringKeys expiring.db _ expiringName _
    (distinct_singleton toy samplePassword) expiring_within hfound (rotateAt_runs hok)
  obtain ⟨_, _, _, _, _, -, -, -, -, -, hrows⟩ := hlog.rows
  rw [hrows, List.length_append] at hsame
  simp at hsame

end Fuin.Vault.Atomic

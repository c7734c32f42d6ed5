import Fuin.Vault.Rules

/-! # What the operations do to the database

All that an operation writes is a transaction it has prepared (`Proposed`), an audit entry outside a
transaction, or a failed authentication. So a contract holds for every operation as soon as it holds
for these (`ok_code`). -/

namespace Fuin.Vault.Sessions

open Fuin.Utils Fuin.Time Fuin.Crypto Fuin.Lib.Program Fuin.Lib.Interleave Fuin.Store.Database
open Fuin.Kdf Fuin.Audit.Log Fuin.Audit.Table Fuin.Vault.Rows Fuin.Vault.Transactions
open Fuin.Vault.Operations Fuin.Vault.Observed Fuin.Vault.Rules

/-- The transactions that an operation of a session prepares, and the state in which it is done with
reading. -/
inductive Proposed (so : Sodium) (M : Ambient Db Input) : Option Subkeys → Op → Db → Tx → Prop
  | put {keys name secret algorithm ttl metadata new db db'}
    (h : (preparePut so keys name secret algorithm ttl).RunsIn Stmt.exec M db db'
      (.ok (metadata, new))) :
    Proposed so M (some keys) (.put name secret algorithm ttl) db' (.put metadata new keys.kekAudit)
  | delete {keys name stored now metadata db db'}
    (h : (prepareDelete so keys name).RunsIn Stmt.exec M db db' (.ok (stored, now, metadata))) :
    Proposed so M (some keys) (.delete name) db' (.delete stored now metadata keys.kekAudit)
  | rollback {keys name version new db db'}
    (h : (prepareRollback so keys name version).RunsIn Stmt.exec M db db' (.ok new)) :
    Proposed so M (some keys) (.rollback name version) db' (.rollback new keys.kekAudit)
  | rotateDek {keys fuel name metadata new db db'}
    (h : (prepareRotation so keys name).RunsIn Stmt.exec M db db' (.ok (some (metadata, new)))) :
    Proposed so M (some keys) (.autoRotate fuel) db' (.rotateDek metadata new keys.kekAudit)
  | rotateKek {keys password salt verifier newKeys db db'}
    (h : (deriveCredentials so password).RunsIn Stmt.exec M db db' (.ok (salt, verifier, newKeys))) :
    Proposed so M (some keys) (.rotateKek password) db' (.rotateKek keys salt verifier newKeys)
  | revokeTokens {keys now db} (h : 0 < now) :
    Proposed so M (some keys) .revokeTokens db (.revokeTokens now keys.kekAudit)
  | storeAuth {session password salt master db db'}
    (h : (prepareUnlock so password true).RunsIn Stmt.exec M db db' (.ok (none, salt, master))) :
    Proposed so M session (.unlock password) db'
      (.storeAuth salt (so.sha256 master.1) (subkeysOf so master))

variable {so : Sodium} {keys : Subkeys} {K : Contract Cmd Db (ℕ → Input)} {α : Type} {db : Db}

theorem Proposed.mono {M M' : Ambient Db Input} {session : Option Subkeys} {op : Op} {t : Tx}
    (h : Proposed so M session op db t) (hrely : ∀ s s', M.rely s s' → M'.rely s s')
    (hinv : ∀ s, M.inv s → M'.inv s) (hallow : ∀ e, M.allow e → M'.allow e) :
    Proposed so M' session op db t := by
  cases h with
  | put h => exact .put (h.mono hrely hinv hallow)
  | delete h => exact .delete (h.mono hrely hinv hallow)
  | rollback h => exact .rollback (h.mono hrely hinv hallow)
  | rotateDek h => exact .rotateDek (h.mono hrely hinv hallow)
  | rotateKek h => exact .rotateKek (h.mono hrely hinv hallow)
  | revokeTokens h => exact .revokeTokens h
  | storeAuth h => exact .storeAuth (h.mono hrely hinv hallow)

/-- What stores no credential is prepared by a session. -/
theorem exists_session {M : Ambient Db Input} {session : Option Subkeys} {op : Op} {t : Tx}
    (ht : Proposed so M session op db t)
    (hstore : ∀ salt verifier keys, t ≠ .storeAuth salt verifier keys) :
    ∃ keys, session = some keys := by
  cases ht with
  | storeAuth => exact absurd rfl (hstore _ _ _)
  | _ => exact ⟨_, rfl⟩

theorem readOnly_deriveMasterKey {password : CString} {salt : Block 16} :
    Sql.ReadOnly (deriveMasterKey so password salt) := Sql.readOnly_libs.bind fun _ => trivial

theorem deriveMasterKey_runsIn {password : CString} {salt : Block 16} {master : Block 32}
    {M : Ambient Db Input} {db db' : Db}
    (h : (deriveMasterKey so password salt).RunsIn Stmt.exec M db db' (.ok master)) :
    master = so.pwhash password.bytes salt := by
  obtain ⟨s, -, h⟩ := Sql.runsIn_libs_bind h
  exact Except.ok.inj h.2

theorem readOnly_deriveSubkeys {master : Block 32} : Sql.ReadOnly (deriveSubkeys so master) :=
  Sql.readOnly_libs.bind fun _ => trivial

theorem deriveSubkeys_runsIn {master : Block 32} {M : Ambient Db Input} {db db' : Db}
    (h : (deriveSubkeys so master).RunsIn Stmt.exec M db db' (.ok keys)) :
    keys = subkeysOf so master := by
  obtain ⟨s, -, h⟩ := Sql.runsIn_libs_bind h
  exact Except.ok.inj h.2

theorem readOnly_generateSalt : Sql.ReadOnly generateSalt :=
  Sql.readOnly_lib.bind fun _ => Sql.readOnly_random

theorem readOnly_deriveCredentials {password : CString} :
    Sql.ReadOnly (deriveCredentials so password) :=
  Prog.readOnly_ofExcept.bind fun _ => readOnly_generateSalt.bind fun _ =>
    Sql.readOnly_libs.bind fun _ => readOnly_deriveMasterKey.bind fun _ =>
      Sql.readOnly_libs.bind fun _ => readOnly_deriveSubkeys.bind fun _ => trivial

/-- The verifier and the subkeys belong to one master key. -/
theorem deriveCredentials_runsIn {password : CString} {salt : Block 16} {verifier : Block 32}
    {M : Ambient Db Input} {db db' : Db}
    (h : (deriveCredentials so password).RunsIn Stmt.exec M db db' (.ok (salt, verifier, keys))) :
    M.rely db db' ∧ verifier = so.sha256 (so.pwhash password.bytes salt).1 ∧
      keys = subkeysOf so (so.pwhash password.bytes salt) := by
  have hr := h.rely readOnly_deriveCredentials
  obtain ⟨_, -, h⟩ := Prog.runsIn_ofExcept_bind h
  obtain ⟨salt', s₁, -, -, h⟩ := Prog.runsIn_readOnly_bind readOnly_generateSalt h
  obtain ⟨s₂, -, h⟩ := Sql.runsIn_libs_bind h
  obtain ⟨master, s₃, -, h3, h⟩ := Prog.runsIn_readOnly_bind readOnly_deriveMasterKey h
  obtain ⟨s₄, -, h⟩ := Sql.runsIn_libs_bind h
  obtain ⟨keys', s₅, -, h5, h⟩ := Prog.runsIn_readOnly_bind readOnly_deriveSubkeys h
  cases h.2
  obtain rfl := deriveMasterKey_runsIn h3
  exact ⟨hr, rfl, deriveSubkeys_runsIn h5⟩

/-! ### Unlocking -/

theorem readOnly_loadAuthMetadata : Sql.ReadOnly loadAuthMetadata := by
  refine Sql.readOnly_select.bind fun salt => Sql.readOnly_select.bind fun verifier => ?_
  cases salt with
  | none => cases verifier <;> trivial
  | some s =>
    cases verifier with
    | none => trivial
    | some v =>
      dsimp only
      split_ifs <;> trivial

theorem readOnly_prepareUnlock {password : CString} {allow : Bool} :
    Sql.ReadOnly (prepareUnlock so password allow) := by
  refine Prog.readOnly_ofExcept.bind fun _ => readOnly_loadAuthMetadata.bind fun stored => ?_
  refine Prog.ReadOnly.bind ?_ fun salt => Sql.readOnly_libs.bind fun _ => ?_
  · cases stored with
    | none => exact Prog.readOnly_ofExcept.bind fun _ => readOnly_generateSalt
    | some s => trivial
  · exact readOnly_deriveMasterKey.bind fun _ => Sql.readOnly_lib.bind fun _ => trivial

theorem readOnly_loadMetaKey : Sql.ReadOnly (loadMetaKey so keys) :=
  Sql.readOnly_select.bind fun _ => Sql.readOnly_select.bind fun _ =>
    Prog.readOnly_ofExcept.bind fun _ => trivial

/-- The subkeys of a session that opens an initialised vault. -/
def openKeys (so : Sodium) (master : Block 32) : Sql Subkeys := do
  Sql.libs [.storage, .storage]
  let keys ← deriveSubkeys so master
  loadMetaKey so keys

theorem readOnly_openKeys {master : Block 32} : Sql.ReadOnly (openKeys so master) :=
  Sql.readOnly_libs.bind fun _ => readOnly_deriveSubkeys.bind fun _ => readOnly_loadMetaKey

/-- The subkeys of a session that initialises a vault. -/
def newKeys (so : Sodium) (master : Block 32) : Sql Subkeys := do
  Sql.libs [.storage, .storage]
  deriveSubkeys so master

theorem readOnly_newKeys {master : Block 32} : Sql.ReadOnly (newKeys so master) :=
  Sql.readOnly_libs.bind fun _ => readOnly_deriveSubkeys

theorem newKeys_runsIn {master : Block 32} {M : Ambient Db Input} {db db' : Db}
    (h : (newKeys so master).RunsIn Stmt.exec M db db' (.ok keys)) : keys = subkeysOf so master := by
  obtain ⟨s, -, h⟩ := Sql.runsIn_libs_bind h
  exact deriveSubkeys_runsIn h

/-- **A failed authentication is noted** in a table of its own. -/
theorem ok_logAuthFailure {Q : Unit → Db → Prop} {F : Status → Db → Prop}
    (hread : ∀ db, K.inv db → K.guar db db)
    (hnote : ∀ db₁ timestamp, K.inv db₁ →
      K.inv { db₁ with authFailures := db₁.authFailures ++ [timestamp] } ∧
        K.guar db₁ { db₁ with authFailures := db₁.authFailures ++ [timestamp] })
    (hQ : ∀ db₁, K.inv db₁ → Q () db₁) (hF : ∀ e db₁, K.inv db₁ → F e db₁) :
    K.Ok (Cmd.exec so) Q F (sql logAuthFailure) db := by
  have hsplit : sql logAuthFailure = (sql currentTime).bind fun timestamp =>
      (sql (Sql.write (.insertAuthFailure timestamp.bytes))).bind fun _ => .ret () := by
    unfold logAuthFailure currentTime
    simp only [Prog.bind_def, sql_bind, Prog.bind_assoc]
    rfl
  rw [hsplit]
  refine Contract.Ok.bind (ok_sql hread readOnly_currentTime (fun t db₁ _ db₂ _ _ => ?_)
    fun e db₁ _ db₂ _ h2 => hF e db₂ h2)
  refine Contract.Ok.bind
    (ok_write hread (fun es db₃ db₄ n _ h4 _ h6 => ?_) fun e db₃ _ h4 => hF e db₃ h4)
  simp only [Write.apply, Option.some.injEq, Prod.mk.injEq] at h6
  obtain ⟨rfl, -⟩ := h6
  obtain ⟨hi, hg⟩ := hnote db₃ t.bytes h4
  exact ⟨hi, hg, fun _ _ _ => Contract.Ok.ret fun db₆ _ h10 => hQ db₆ h10⟩

/-- What a contract needs to allow so that a failed authentication can be noted. -/
def Notes (K : Contract Cmd Db (ℕ → Input)) : Prop :=
  ∀ db timestamp, K.inv db →
    K.inv { db with authFailures := db.authFailures ++ [timestamp] } ∧
      K.guar db { db with authFailures := db.authFailures ++ [timestamp] }

/-- **`vault_unlock`** opens what is stored, or stores a new credential. -/
theorem ok_unlockInternal {password : CString} {allow : Bool} {Q : Subkeys → Db → Prop}
    (hread : ∀ db, K.inv db → K.guar db db) (hnote : Notes K)
    (hopen : ∀ salt master keys db₁ db₂ db₃ db₄,
      (prepareUnlock so password allow).RunsIn Stmt.exec (surroundings K) db db₁
        (.ok (some (so.sha256 master.1), salt, master)) → K.rely db₁ db₂ → K.inv db₂ →
      (openKeys so master).RunsIn Stmt.exec (surroundings K) db₂ db₃ (.ok keys) →
      K.rely db₃ db₄ → K.inv db₄ → Q keys db₄)
    (hstore : ∀ salt master es db₁ db₂ db₃,
      (prepareUnlock so password allow).RunsIn Stmt.exec (surroundings K) db db₁
        (.ok (none, salt, master)) → K.rely db₁ db₂ → K.inv db₂ →
      K.allow es (.tx (.storeAuth salt (so.sha256 master.1) (subkeysOf so master))) db₂ →
      ((Tx.storeAuth salt (so.sha256 master.1) (subkeysOf so master)).body so).Runs Stmt.exec db₂ db₃
        (.ok ()) →
      K.inv db₃ ∧ K.guar db₂ db₃ ∧
        ∀ db₄, K.rely db₃ db₄ → K.inv db₄ → Q (subkeysOf so master) db₄) :
    K.Ok (Cmd.exec so) Q (fun _ _ => True) (unlockInternal so password allow) db := by
  refine Contract.Ok.bind (ok_sql hread readOnly_prepareUnlock
    (fun out db₁ hrun db₂ h1 h2 => ?_) fun _ _ _ _ _ _ => trivial)
  obtain ⟨verifier, salt, master⟩ := out
  cases verifier with
  | some v =>
    dsimp only
    split_ifs with hv
    · subst hv
      exact ok_sql hread readOnly_openKeys
        (fun keys db₃ hopen' db₄ h3 h4 => hopen salt master keys db₁ db₂ db₃ db₄ hrun h1 h2 hopen' h3 h4)
        fun _ _ _ _ _ _ => trivial
    · exact Contract.Ok.bind (ok_logAuthFailure hread (fun db₃ t h3 => hnote db₃ t h3)
        (fun _ _ => fun _ _ _ => trivial) fun _ _ _ => trivial)
  | none =>
    refine Contract.Ok.bind (ok_sql hread readOnly_newKeys
      (fun keys db₃ hkeys db₄ h3 h4 => ?_) fun _ _ _ _ _ _ => trivial)
    obtain rfl := newKeys_runsIn hkeys
    have h14 := K.rely_trans h1 (K.rely_trans (hkeys.rely readOnly_newKeys) h3)
    refine Contract.Ok.bind (ok_transact hread (fun es db₅ db₆ h5 h6 h7 h8 => ?_)
      fun _ _ _ _ => trivial)
    obtain ⟨hi, hg, hq⟩ := hstore salt master es db₁ db₅ db₆ hrun (K.rely_trans h14 h5) h6 h7 h8
    exact ⟨hi, hg, fun db₇ h9 h10 => Contract.Ok.ret fun db₈ h11 h12 =>
      hq db₈ (K.rely_trans h9 h11) h12⟩

/-- A vault that may not be initialised is not. -/
theorem prepareUnlock_existing {password : CString} {salt : Block 16} {master : Block 32}
    {M : Ambient Db Input} {db db' : Db} :
    ¬ (prepareUnlock so password false).RunsIn Stmt.exec M db db' (.ok (none, salt, master)) := by
  intro h
  obtain ⟨_, -, h⟩ := Prog.runsIn_ofExcept_bind h
  obtain ⟨stored, s₁, -, -, h⟩ := Prog.runsIn_readOnly_bind readOnly_loadAuthMetadata h
  obtain ⟨salt', s₂, h2, h⟩ := Prog.runsIn_bind h
  obtain ⟨s₃, -, h⟩ := Sql.runsIn_libs_bind h
  obtain ⟨master', s₄, -, -, h⟩ := Prog.runsIn_readOnly_bind readOnly_deriveMasterKey h
  obtain ⟨s₅, -, h⟩ := Sql.runsIn_lib_bind h
  have hret := Except.ok.inj h.2
  cases stored with
  | some s => nomatch congrArg Prod.fst hret
  | none =>
    obtain ⟨_, hf, -⟩ := Prog.runsIn_ofExcept_bind h2
    nomatch require_eq_ok.mp hf

/-! ### All operations -/

/-- Where nobody moves, a transaction is prepared from the state it begins in. -/
theorem Proposed.still {M : Ambient Db Input} {session : Option Subkeys} {op : Op} {t : Tx}
    (h : Proposed so M session op db t) (hM : ∀ s s', M.rely s s' → s = s') :
    Proposed so (Ambient.still db) session op db t := by
  have hstill {β : Type} {p : Sql β} {db₀ : Db} {r : Except Status β} (hp : Sql.ReadOnly p)
      (h : p.RunsIn Stmt.exec M db₀ db r) : p.RunsIn Stmt.exec (Ambient.still db) db db r := by
    obtain rfl := hM _ _ (h.rely hp)
    exact h.still hp hM
  cases h with
  | put h => exact .put (hstill readOnly_preparePut h)
  | delete h => exact .delete (hstill readOnly_prepareDelete h)
  | rollback h => exact .rollback (hstill readOnly_prepareRollback h)
  | rotateDek h => exact .rotateDek (hstill readOnly_prepareRotation h)
  | rotateKek h => exact .rotateKek (hstill readOnly_deriveCredentials h)
  | revokeTokens h => exact .revokeTokens h
  | storeAuth h => exact .storeAuth (hstill readOnly_prepareUnlock h)

/-- What a contract has to allow so that every operation keeps it. -/
structure Allows (so : Sodium) (K : Contract Cmd Db (ℕ → Input)) (session : Option Subkeys)
    (op : Op) : Prop where
  read : ∀ db, K.inv db → K.guar db db
  note : Notes K
  /-- The transactions. -/
  tx : ∀ t es db₁ db₂ db₃, Proposed so (surroundings K) session op db₁ t → K.rely db₁ db₂ →
    K.inv db₂ → K.allow es (.tx t) db₂ → (t.body so).Runs Stmt.exec db₂ db₃ (.ok ()) →
    K.inv db₃ ∧ K.guar db₂ db₃
  /-- The audit entries outside a transaction. -/
  log : ∀ keys action target version row es db₀ db₁ db₂ t, session = some keys →
    action ∈ [readText, tokenIssueText] → version ≤ intMax →
    (nextRow so actorText action target version successText keys.kekAudit).RunsIn Stmt.exec
      (surroundings K) db₀ db₁ (.ok row) → K.rely db₁ db₂ → K.inv db₂ →
    K.allow es (.stmt (.write (.insertAudit row))) db₂ → db₂.audit.insert row = some t →
    K.inv { db₂ with audit := t } ∧ K.guar db₂ { db₂ with audit := t }

variable {session : Option Subkeys} {op : Op}

/-- The contract, where nothing is said about the end. -/
abbrev Keeps (so : Sodium) (K : Contract Cmd Db (ℕ → Input)) (p : VaultProg α) (db : Db) : Prop :=
  K.Ok (Cmd.exec so) (fun _ _ => True) (fun _ _ => True) p db

theorem Allows.keeps_tx {t : Tx} {db₀ : Db} (h : Allows so K session op)
    (ht : Proposed so (surroundings K) session op db₀ t) (hr : K.rely db₀ db) :
    Keeps so K (transact t) db :=
  ok_transact h.read (fun es db₁ db₂ h1 h2 h3 h4 => by
    obtain ⟨hi, hg⟩ := h.tx t es db₀ db₁ db₂ ht (K.rely_trans hr h1) h2 h3 h4
    exact ⟨hi, hg, fun _ _ _ => trivial⟩) fun _ _ _ _ => trivial

theorem Allows.keeps_log {keys : Subkeys} {action target : CString} {version : ℤ}
    (h : Allows so K (some keys) op) (ha : action ∈ [readText, tokenIssueText])
    (hv : version ≤ intMax) :
    Keeps so K (sql (logSuccess so action target version keys.kekAudit)) db :=
  ok_logSuccess h.read (fun row es db₁ db₂ t h1 h2 h3 h4 h5 => by
    obtain ⟨hi, hg⟩ := h.log keys action target version row es db db₁ db₂ t rfl ha hv h1 h2 h3 h4 h5
    exact ⟨hi, hg, fun _ _ _ => trivial⟩) fun _ _ _ _ => trivial

/-- Statements that read, and a program that keeps the contract. -/
theorem Allows.keeps_sql_bind {β : Type} {p : Sql α} {f : α → VaultProg β} (h : Allows so K session op)
    (hp : Sql.ReadOnly p)
    (hf : ∀ a db₁ db₂, p.RunsIn Stmt.exec (surroundings K) db db₁ (.ok a) → K.rely db₁ db₂ →
      Keeps so K (f a) db₂) : Keeps so K ((sql p).bind f) db :=
  Contract.Ok.bind (ok_sql h.read hp (fun a db₁ h1 db₂ h2 _ => hf a db₁ db₂ h1 h2)
    fun _ _ _ _ _ _ => trivial)

theorem keeps_bind {β : Type} {p : VaultProg α} {f : α → VaultProg β} (hp : Keeps so K p db)
    (hf : ∀ a db₁, Keeps so K (f a) db₁) : Keeps so K (p.bind f) db :=
  Contract.Ok.bind (hp.mono (fun a db₁ _ _ => hf a db₁) fun _ _ _ _ => trivial)

theorem keeps_ret {a : α} : Keeps so K (.ret a) db := fun _ _ _ => trivial

theorem keeps_fail {e : Status} : Keeps so K (.fail e : VaultProg α) db := fun _ _ _ => trivial

variable {keys : Subkeys}

theorem keeps_rotateExpiredSecret {fuel : ℕ} {name : CString}
    (h : Allows so K (some keys) (.autoRotate fuel)) :
    Keeps so K (rotateExpiredSecret so keys name) db :=
  h.keeps_sql_bind readOnly_prepareRotation fun out db₁ db₂ h1 h2 => by
    cases out with
    | none => exact keeps_ret
    | some x => exact h.keeps_tx (.rotateDek h1) h2

theorem keeps_rotateExpired {fuel : ℕ} {now : CString}
    (h : Allows so K (some keys) (.autoRotate fuel)) :
    ∀ {n rotated : ℕ} {db : Db}, Keeps so K (rotateExpired so keys now n rotated) db
  | 0, _, _ => keeps_fail
  | n + 1, rotated, db => by
    refine h.keeps_sql_bind Sql.readOnly_select fun out db₁ db₂ _ _ => ?_
    cases out with
    | none => exact keeps_ret
    | some name => exact keeps_bind (keeps_rotateExpiredSecret h) fun _ _ => keeps_rotateExpired h

theorem readOnly_accessIssueToken {subject scope : CString} {ttl : ℕ} :
    Sql.ReadOnly (accessIssueToken subject scope ttl) := by
  refine Prog.readOnly_ofExcept.bind fun _ => Sql.readOnly_lib.bind fun _ => ?_
  refine Prog.readOnly_ofExcept.bind fun _ => Prog.readOnly_ofExcept.bind fun _ => ?_
  refine readOnly_accessNow.bind fun issuedAt => ?_
  refine Prog.readOnly_ofExcept.bind fun _ => Prog.readOnly_ofExcept.bind fun _ => ?_
  exact Sql.readOnly_random.bind fun _ => Sql.readOnly_libs.bind fun _ => trivial

theorem keeps_readSecret {name : CString} {w : Which} {capacity : ℕ}
    (h : Allows so K (some keys) op) : Keeps so K (readSecret so keys name w capacity) db :=
  h.keeps_sql_bind readOnly_prepareRead fun out db₁ db₂ h1 _ => by
    obtain ⟨stored, version, plaintext⟩ := out
    obtain ⟨_, r, -, -, -, -, -, -, rfl⟩ := prepareRead_runsIn h1
    have hmax : columnInt r.version ≤ intMax := Int.lt_add_one_iff.mp (columnInt_lt r.version).2
    exact keeps_bind (h.keeps_log (by simp) hmax) fun _ _ => keeps_ret

theorem keeps_unlock {password : CString} (h : Allows so K session (.unlock password)) :
    Keeps so K (unlockInternal so password true) db :=
  ok_unlockInternal h.read h.note (fun _ _ _ _ _ _ _ _ _ _ _ _ _ => trivial)
    fun salt master es db₁ db₂ db₃ h1 h2 h3 h4 h5 => by
      obtain ⟨hi, hg⟩ := h.tx _ es db₁ db₂ db₃ (.storeAuth h1) h2 h3 h4 h5
      exact ⟨hi, hg, fun _ _ _ => trivial⟩

theorem keeps_unlockExisting {password : CString} (h : Allows so K session (.unlockExisting password)) :
    Keeps so K (unlockInternal so password false) db :=
  ok_unlockInternal h.read h.note (fun _ _ _ _ _ _ _ _ _ _ _ _ _ => trivial)
    fun _ _ _ _ _ _ h1 _ _ _ _ => absurd h1 prepareUnlock_existing

/-- **Every operation keeps a contract that allows what it writes.** -/
theorem Allows.keeps_code (h : Allows so K session op) : Keeps so K (code so session op) db := by
  cases session with
  | none =>
    cases op with
    | unlock password => exact keeps_bind (keeps_unlock h) fun _ _ => keeps_ret
    | unlockExisting password => exact keeps_bind (keeps_unlockExisting h) fun _ _ => keeps_ret
    | _ => exact keeps_fail
  | some keys =>
    cases op with
    | put name secret algorithm ttl =>
      exact keeps_bind (h.keeps_sql_bind readOnly_preparePut fun _ _ _ h1 h2 =>
        h.keeps_tx (.put h1) h2) fun _ _ => keeps_ret
    | delete name =>
      exact keeps_bind (h.keeps_sql_bind readOnly_prepareDelete fun _ _ _ h1 h2 =>
        h.keeps_tx (.delete h1) h2) fun _ _ => keeps_ret
    | rollback name version =>
      exact keeps_bind (h.keeps_sql_bind readOnly_prepareRollback fun _ _ _ h1 h2 =>
        h.keeps_tx (.rollback h1) h2) fun _ _ => keeps_ret
    | autoRotate fuel =>
      exact keeps_bind (h.keeps_sql_bind readOnly_currentTime fun _ _ _ _ _ =>
        keeps_rotateExpired h) fun _ _ => keeps_ret
    | get name capacity => exact keeps_bind (keeps_readSecret h) fun _ _ => keeps_ret
    | getVersion name version capacity =>
      refine keeps_bind ?_ fun _ _ => keeps_ret
      unfold getVersion require
      split_ifs
      · exact keeps_readSecret h
      · exact keeps_fail
    | list includeArchived =>
      exact h.keeps_sql_bind (readOnly_currentTime.bind fun _ => Sql.readOnly_select)
        fun _ _ _ _ _ => keeps_ret
    | rotateKek password =>
      exact keeps_bind (h.keeps_sql_bind readOnly_deriveCredentials fun _ _ _ h1 h2 =>
        keeps_bind (h.keeps_tx (.rotateKek h1) h2) fun _ _ => keeps_ret) fun _ _ => keeps_ret
    | unlock password => exact keeps_bind (keeps_unlock h) fun _ _ => keeps_ret
    | unlockExisting password => exact keeps_bind (keeps_unlockExisting h) fun _ _ => keeps_ret
    | issueToken subject scope ttl =>
      refine keeps_bind ?_ fun _ _ => keeps_ret
      refine h.keeps_sql_bind readOnly_accessIssueToken fun _ _ _ _ _ => ?_
      refine h.keeps_sql_bind Sql.readOnly_lib fun _ _ _ _ _ => ?_
      exact keeps_bind (h.keeps_log (by simp) (by decide)) fun _ _ => keeps_ret
    | revokeTokens =>
      refine keeps_bind ?_ fun _ _ => keeps_ret
      refine h.keeps_sql_bind Sql.readOnly_time fun now _ _ _ _ => ?_
      cases now with
      | none => exact keeps_fail
      | some now =>
        dsimp only
        unfold require
        split_ifs with hpos
        · exact h.keeps_tx (.revokeTokens hpos) (K.rely_refl _)
        · exact keeps_fail

/-- **A protocol that allows what the operations write is sound**, if it says nothing about what they
return. -/
theorem sound_of_allows {P : Protocol Cmd Status Result Db (ℕ → Input) (Option Subkeys) Op}
    (hallows : ∀ l op db, P.may l op → P.loc l db → Allows so (P.contract l op) l op)
    (hpost : ∀ l op r db db', P.may l op → P.loc l db → P.post l op r db')
    (hfinish : ∀ l op r db, P.inv db → P.post l op r db → P.loc (finish l op r) db) :
    P.Sound (vaultSystem so) where
  code {l op db} hm _ hl := (hallows l op db hm hl).keeps_code.mono
    (fun _ db' _ _ => hpost l op _ db db' hm hl) fun _ db' _ _ => hpost l op _ db db' hm hl
  finish {l op r db} hi hp := hfinish l op r db hi hp

end Fuin.Vault.Sessions

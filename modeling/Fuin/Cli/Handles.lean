import Fuin.Cli.Dispatch

/-! # A process and its databases

A process has at most one database open (`g_db`), and the keys of a session (`g_subkeys`,
`g_unlocked`). It may open any files one after the other, close them, unlock them with any password,
and call the functions of the vault in between, and every system call may fail. At all times the
session is locked, or its keys are those of the database that is open (`session_keys`). -/

namespace Fuin.Cli.Handles

open Fuin.Utils Fuin.Crypto Fuin.Lib.Program Fuin.Store.Database Fuin.Kdf
open Fuin.Vault.Rows Fuin.Vault.Transactions Fuin.Vault.Operations Fuin.Vault.Rules
open Fuin.Vault.Sessions Fuin.Cli.Dispatch
open Fuin.Vault.Committed Fuin.Vault.Calls Fuin.Vault.Honest Fuin.Vault.Unlocking
open Fuin.Vault.Reopened Fuin.Cli.Calls Fuin.Cli.Permitted

/-! ### The handle of the database -/

/-- What the world decides about a system call: whether it fails, and the file a path leads to. -/
structure FileInput (ι : Type) where
  fault : Bool
  file : Option ι

/-- The system calls, on files `ι`. -/
inductive FileCmd (ι : Type) where
  /-- A call that succeeds or fails. -/
  | lib
  /-- `g_db`. -/
  | getDb
  | realpath
  /-- `sqlite3_open_v2`, which may set `g_db` also when it fails. -/
  | openDb (file : ι)
  /-- `sqlite3_close`. A handle that is closed is forgotten. -/
  | closeDb

variable {ι : Type}

/-- The reply to a system call. -/
def FileCmd.Reply : FileCmd ι → Type
  | .lib => Bool
  | .getDb => Option ι
  | .realpath => Option ι
  | .openDb _ => Bool
  | .closeDb => Bool

/-- One system call; the state is `g_db`. -/
def FileCmd.exec (i : FileInput ι) : (c : FileCmd ι) → Option ι → Option ι × c.Reply
  | .lib, db => (db, !i.fault)
  | .getDb, db => (db, db)
  | .realpath, db => (db, i.file)
  | .openDb file, _ => if i.fault then (i.file.map fun _ => file, false) else (some file, true)
  | .closeDb, db => if i.fault then (db, false) else (none, true)

/-- A program over the system calls. -/
abbrev FileProg (ι : Type) := Prog (FileCmd.Reply (ι := ι)) Status

/-- A call that may fail with a status. -/
def fileLib (e : Status) : FileProg ι Unit :=
  .cmd .lib fun (ok : Bool) => if ok then .ret () else .fail e

def fileLibs : List Status → FileProg ι Unit
  | [] => .ret ()
  | e :: es => (fileLib e).bind fun _ => fileLibs es

/-- `storage_close`: a handle that cannot be closed stays. -/
def storageClose : FileProg ι Unit :=
  .cmd .getDb fun (db : Option ι) => match db with
    | none => .ret ()
    | some _ => .cmd .closeDb fun (ok : Bool) => if ok then .ret () else .fail .storage

/-- The end of a function that has opened a database and failed. -/
def closeAndFail (e : Status) : FileProg ι Unit :=
  (storageClose.attempt).bind fun (_ : Except Status Unit) => .fail e

/-- What `storage_init` and `storage_open` have in common: the path is tightened and resolved, the
database opened, and the steps are taken; if one fails the database is closed again. -/
def storageOpenWith (path : CString) (steps : List Status) : FileProg ι Unit := do
  Prog.ofExcept (require (path.bytes ≠ []) .invalidArgument)
  match ← Prog.call FileCmd.getDb with
  | some _ => Prog.fail .storage
  | none =>
    fileLib .storage
    match ← Prog.call FileCmd.realpath with
    | none => Prog.fail .storage
    | some file =>
      match ← Prog.call (FileCmd.openDb file) with
      | false => closeAndFail .storage
      | true =>
        match ← (fileLibs steps).attempt with
        | .ok () => return ()
        | .error e => closeAndFail e

/-- `storage_init`: the journal mode, the sidecars, the schema, the sidecars, the schema again, and
its verification. -/
def storageInit (path : CString) : FileProg ι Unit :=
  storageOpenWith path [.storage, .storage, .storage, .storage, .storage, .storage]

/-- `storage_open`: the journal mode, the sidecars, and the verification of the schema. -/
def storageOpen (path : CString) : FileProg ι Unit :=
  storageOpenWith path [.storage, .storage, .storage]

/-! ### The process -/

/-- The files on the disk (one without tables is read as empty), and the globals of `storage.c` and
`vault.c`. -/
structure Process (ι : Type) where
  disk : ι → Db
  db : Option ι
  subkeys : Option Subkeys
  unlocked : Bool

/-- A process that has just started. -/
def started (disk : ι → Db) : Process ι := ⟨disk, none, none, false⟩

/-- What the world decides about a call of the process, and the path it is made with. -/
structure ProcessWorld (ι : Type) where
  path : CString
  files : ℕ → FileInput ι
  world : World

/-- What is called. -/
inductive Request where
  | call (c : VaultCall)
  /-- `vault_close`. -/
  | close

namespace Process

/-- `vault_lock_state`. -/
def lockState (g : Process ι) : Process ι := { g with subkeys := none, unlocked := false }

/-- `vault_require_unlocked`: the keys, if there are any to work with. -/
def requireUnlocked (g : Process ι) : Option Subkeys := if g.unlocked then g.subkeys else none

/-- `vault_lock_state`, and a function of `storage.c`. -/
def lockAndRun (g : Process ι) (p : FileProg ι Unit) (w : ProcessWorld ι) :
    Process ι × Except Status Unit :=
  let out := p.run FileCmd.exec w.files g.lockState.db
  ({ g.lockState with db := out.1 }, out.2)

/-- `vault_init`. -/
def vaultInit (g : Process ι) (w : ProcessWorld ι) : Process ι × Except Status Unit :=
  g.lockAndRun (storageInit w.path) w

/-- `vault_open`. -/
def vaultOpen (g : Process ι) (w : ProcessWorld ι) : Process ι × Except Status Unit :=
  g.lockAndRun (storageOpen w.path) w

/-- `vault_close`. -/
def vaultClose (g : Process ι) (w : ProcessWorld ι) : Process ι × Except Status Unit :=
  g.lockAndRun storageClose w

variable [DecidableEq ι]

/-- The process with another content of a file. -/
def write (g : Process ι) (file : ι) (db : Db) : Process ι :=
  { g with disk := Function.update g.disk file db }

/-- The process with these keys. -/
def unlock (g : Process ι) (keys : Subkeys) : Process ι :=
  { g with subkeys := some keys, unlocked := true }

/-- `vault_unlock_internal`. -/
def vaultUnlockInternal (so : Sodium) (g : Process ι) (password : CString) (allow : Bool)
    (w : ProcessWorld ι) : Process ι × Except Status Subkeys :=
  match g.db with
  | none => (g, .error .invalidArgument)
  | some file =>
    if password.bytes = [] then (g, .error .invalidArgument)
    else
      let out := (unlockInternal so password allow).run (Cmd.exec so) w.world.vault (g.disk file)
      match out.2 with
      | .ok keys => ((g.lockState.write file out.1).unlock keys, .ok keys)
      | .error e => (g.lockState.write file out.1, .error e)

/-- `vault_rotate_kek`. -/
def vaultRotateKek (so : Sodium) (g : Process ι) (password : CString) (w : ProcessWorld ι) :
    Process ι × Except Status Subkeys :=
  match g.requireUnlocked with
  | none => (g, .error .auth)
  | some keys =>
    match g.db with
    | none => (g, .error .invalidArgument)
    | some file =>
      let out := (rotateKek so keys password).run (Cmd.exec so) w.world.vault (g.disk file)
      match out.2 with
      | .ok newKeys => ((g.write file out.1).unlock newKeys, .ok newKeys)
      | .error e => (g.write file out.1, .error e)

/-- A function that needs a session and leaves it. -/
def vaultCall (L : Libraries) (g : Process ι) (c : VaultCall) (w : ProcessWorld ι) :
    Process ι × Except Status c.Value :=
  match g.requireUnlocked with
  | none => (g, .error .auth)
  | some keys =>
    match g.db with
    | none => (g, .error .storage)
    | some file =>
      let out := callVault L w.world c (g.disk file) (some keys)
      (g.write file out.1, out.2.2)

/-- A function of the vault. -/
def call (L : Libraries) (g : Process ι) (w : ProcessWorld ι) :
    (c : VaultCall) → Process ι × Except Status c.Value
  | .init => g.vaultInit w
  | .open => g.vaultOpen w
  | .op (.unlock password) =>
    let out := g.vaultUnlockInternal L.so password true w
    (out.1, out.2.map Result.session)
  | .op (.unlockExisting password) =>
    let out := g.vaultUnlockInternal L.so password false w
    (out.1, out.2.map Result.session)
  | .op (.rotateKek password) =>
    let out := g.vaultRotateKek L.so password w
    (out.1, out.2.map Result.session)
  | c => g.vaultCall L c w

/-- The process after a request. -/
def after (L : Libraries) (g : Process ι) (r : Request × ProcessWorld ι) : Process ι :=
  match r.1 with
  | .call c => (g.call L r.2 c).1
  | .close => (g.vaultClose r.2).1

/-- The process after a list of requests. -/
def afterAll (L : Libraries) (g : Process ι) (rs : List (Request × ProcessWorld ι)) : Process ι :=
  rs.foldl (after L) g

end Process

/-! ### The handle -/

variable {db db' : Option ι} {path : CString} {steps : List Status}

/-- A second database cannot be opened. -/
theorem storageOpenWith_open {file : ι} {r : Except Status Unit}
    (h : (storageOpenWith path steps).Runs FileCmd.exec (some file) db' r) :
    db' = some file ∧ ∃ e, r = .error e := by
  rcases Prog.runs_bind_cases h with ⟨e, rfl, h1⟩ | ⟨_, db₁, h1, h2⟩
  · exact ⟨(Prog.readOnly_ofExcept.runs h1), e, rfl⟩
  · obtain rfl := Prog.readOnly_ofExcept.runs h1
    obtain ⟨_, h3⟩ := Prog.runs_call_bind h2
    obtain ⟨rfl, rfl⟩ := Prog.runs_fail h3
    exact ⟨rfl, .storage, rfl⟩

theorem closeAndFail_ne {e : Status} :
    ¬ (closeAndFail e).Runs FileCmd.exec db db' (.ok ()) := by
  intro h
  obtain ⟨_, _, -, h1⟩ := Prog.runs_bind h
  nomatch (Prog.runs_fail h1).2

theorem readOnly_fileLib {e : Status} : (fileLib e : FileProg ι Unit).ReadOnly FileCmd.exec := by
  intro i db
  refine ⟨rfl, ?_⟩
  cases h : i.fault
  · simp [FileCmd.exec, h, Prog.ReadOnly]
  · simp [FileCmd.exec, h, Prog.ReadOnly]

theorem readOnly_fileLibs : ∀ {es : List Status},
    (fileLibs es : FileProg ι Unit).ReadOnly FileCmd.exec
  | [] => trivial
  | _ :: _ => readOnly_fileLib.bind fun _ => readOnly_fileLibs

/-- **What has been opened is open**, and nothing was open before. -/
theorem storageOpenWith_ok (h : (storageOpenWith path steps).Runs FileCmd.exec db db' (.ok ())) :
    db = none ∧ db'.isSome := by
  obtain ⟨_, -, h⟩ := Prog.runs_ofExcept_bind h
  obtain ⟨_, h⟩ := Prog.runs_call_bind h
  cases db with
  | some file => nomatch (Prog.runs_fail h).2
  | none =>
    refine ⟨rfl, ?_⟩
    obtain ⟨_, db₁, h1, h⟩ := Prog.runs_bind h
    obtain rfl := readOnly_fileLib.runs h1
    obtain ⟨i, h⟩ := Prog.runs_call_bind h
    cases hf : i.file with
    | none =>
      simp only [FileCmd.exec, hf] at h
      nomatch (Prog.runs_fail h).2
    | some file =>
      simp only [FileCmd.exec, hf] at h
      obtain ⟨j, h⟩ := Prog.runs_call_bind h
      cases hj : j.fault with
      | true =>
        simp only [FileCmd.exec, hj, if_true] at h
        exact absurd h closeAndFail_ne
      | false =>
        simp only [FileCmd.exec, hj] at h
        obtain ⟨x, db₂, h2, h⟩ := Prog.runs_bind h
        obtain ⟨y, -, h3⟩ := Prog.runs_attempt h2
        obtain rfl := readOnly_fileLibs.runs h3
        cases x with
        | error e => exact absurd h closeAndFail_ne
        | ok _ =>
          obtain ⟨rfl, -⟩ := Prog.runs_ret h
          rfl

/-! ### The keys of the session -/

/-- **The keys of a database**: those of a password whose salt and verifier are stored in it, with
the metadata key that is unwrapped from it. -/
def KeysOf (so : Sodium) (db : Db) (keys : Subkeys) : Prop :=
  ∃ (password : CString) (salt : Block 16) (metaKey : Block 32), password.bytes ≠ [] ∧
    Stored (some (salt, so.sha256 (so.pwhash password.bytes salt).1)) db db ∧
    unwrapMetaKey so (subkeysOf so (so.pwhash password.bytes salt)).kekEnc
      (db.metadata .metaKeyNonce) (db.metadata .metaKeyWrapped) = .ok metaKey ∧
    keys = { subkeysOf so (so.pwhash password.bytes salt) with kekMeta := metaKey }

section Keys

variable {so : Sodium} {keys : Subkeys} {d d' : Db} {password : CString}

/-- The time of a revocation does not matter. -/
theorem KeysOf.of_metadata (h : KeysOf so d keys)
    (hm : ∀ k, k ≠ .tokenNotBefore → d'.metadata k = d.metadata k) : KeysOf so d' keys := by
  obtain ⟨password, salt, metaKey, hne, hstored, hmeta, rfl⟩ := h
  refine ⟨password, salt, metaKey, hne, ?_, ?_, rfl⟩
  · unfold Stored
    rw [hm _ (by decide), hm _ (by decide)]
    exact hstored
  · rw [hm _ (by decide), hm _ (by decide)]
    exact hmeta

/-- A new credential is that of its password. -/
theorem keysOf_credential {m : MetadataKey → Option Bytes} {salt : Block 16} {metaKey : Block 32}
    {nonce : Block 24} (hne : password.bytes ≠ [])
    (hm : d.metadata = credential so m salt (so.sha256 (so.pwhash password.bytes salt).1) metaKey
      (subkeysOf so (so.pwhash password.bytes salt)).kekEnc nonce) :
    KeysOf so d { subkeysOf so (so.pwhash password.bytes salt) with kekMeta := metaKey } := by
  refine ⟨password, salt, metaKey, hne, ⟨by rw [hm]; rfl, by rw [hm]; rfl⟩, ?_, rfl⟩
  rw [hm]
  exact unwrapMetaKey_credential

/-- **Unlocking** gives the keys of the database it leaves. -/
theorem keysOf_unlocked {allow : Bool} (hne : password.bytes ≠ [])
    (h : Unlocked so password allow d d' (.ok keys)) : KeysOf so d' keys := by
  cases h with
  | opened hstored hmeta => exact ⟨password, _, _, hne, hstored, hmeta, rfl⟩
  | stored hallow hstored => exact keysOf_credential hne rfl

/-- It lets nobody in whose verifier is not the stored one. -/
theorem verifier_of_unlocked {allow : Bool} {salt : Block 16} {verifier : Block 32}
    (hstored : Stored (some (salt, verifier)) d d)
    (h : Unlocked so password allow d d' (.ok keys)) :
    so.sha256 (so.pwhash password.bytes salt).1 = verifier := by
  cases h with
  | @opened salt' metaKey hstored' hmeta =>
    obtain rfl : salt' = salt := Subtype.ext (Option.some.inj (hstored'.1.symm.trans hstored.1))
    exact Subtype.ext (Option.some.inj (hstored'.2.symm.trans hstored.2))
  | stored hallow hnone => nomatch hnone.1.symm.trans hstored.1

/-- **`vault_rotate_kek`** gives the keys of the database it leaves, or leaves it. -/
theorem keysOf_rotated {r : Except Status Subkeys} (hkeys : KeysOf so d keys)
    (h : (rotateKek so keys password).Runs (Cmd.exec so) d d' r) :
    KeysOf so d' (r.toOption.getD keys) := by
  rcases rotateKek_call h with ⟨e, rfl, rfl⟩ | ⟨salt, verifier, newKeys, rfl, hcred, htx⟩
  · exact hkeys
  · obtain ⟨_, hne, -⟩ := Prog.runs_ofExcept_bind hcred
    obtain ⟨-, rfl, rfl⟩ := deriveCredentials_runsIn (readOnly_deriveCredentials.still hcred)
    obtain ⟨-, nonce, hm⟩ := Vault.Committed.rotateKek_frame htx
    exact keysOf_credential (require_eq_ok.mp hne) hm

/-- The other operations leave the keys of the database. -/
theorem keysOf_operation {op : Op} {r : Except Status Result} (hop : InSession op)
    (hkek : ∀ p, op ≠ .rotateKek p) (hkeys : KeysOf so d keys)
    (h : (code so (some keys) op).Runs (Cmd.exec so) d d' r) : KeysOf so d' keys := by
  refine call_preserves (P := fun d => KeysOf so d keys)
    (fun d₁ d₂ hstep h₁ => h₁.of_metadata fun k hk => ?_) hkeys h
  rcases step_metadata hop hkek hstep with hm | ⟨-, now, -, hm⟩
  · rw [hm]
  · rw [hm, Function.update_of_ne hk]

end Keys

/-! ### The process -/

/-- A function that `vault_require_unlocked` guards: all but those that open a database or a
session. -/
def Guarded : VaultCall → Prop
  | .init | .open | .op (.unlock _) | .op (.unlockExisting _) => False
  | _ => True

theorem Guarded.inSession {op : Op} (h : Guarded (.op op)) : InSession op := by
  cases op with
  | unlock password => exact h
  | unlockExisting password => exact h
  | _ => trivial

variable [DecidableEq ι] {L : Libraries} {g : Process ι} {w : ProcessWorld ι}

/-- **Everything is refused**, and nothing is touched. -/
def Refuses (L : Libraries) (g : Process ι) : Prop :=
  ∀ c, Guarded c → ∀ w, g.call L w c = (g, .error .auth)

/-- The session is locked, or its keys are those of the open database. -/
def Coherent (L : Libraries) (g : Process ι) : Prop :=
  g.requireUnlocked = none ∨ ∃ file keys, g.db = some file ∧ g.requireUnlocked = some keys ∧
    KeysOf L.so (g.disk file) keys

theorem vaultCall_locked {c : VaultCall} (h : g.requireUnlocked = none) :
    g.vaultCall L c w = (g, .error .auth) := by
  unfold Process.vaultCall
  rw [h]

theorem refuses_of_locked (h : g.requireUnlocked = none) : Refuses L g := by
  intro c hc w
  cases c with
  | op op =>
    cases op with
    | unlock password => exact hc.elim
    | unlockExisting password => exact hc.elim
    | rotateKek password =>
      unfold Process.call Process.vaultRotateKek
      rw [h]
      rfl
    | _ => exact vaultCall_locked h
  | init => exact hc.elim
  | «open» => exact hc.elim
  | _ => exact vaultCall_locked h

omit [DecidableEq ι] in
theorem coherent_lockAndRun {p : FileProg ι Unit} : Coherent L (g.lockAndRun p w).1 := Or.inl rfl

/-- The keys of the file that is open, after it was written. -/
theorem coherent_unlock {file : ι} {db : Db} {keys : Subkeys} (hdb : g.db = some file)
    (h : KeysOf L.so db keys) : Coherent L ((g.write file db).unlock keys) := by
  refine Or.inr ⟨file, keys, hdb, rfl, ?_⟩
  show KeysOf L.so (Function.update g.disk file db file) keys
  rw [Function.update_self]
  exact h

/-- The session stays when the file that is open is written. -/
theorem coherent_write {file : ι} {db : Db} {keys : Subkeys} (hdb : g.db = some file)
    (hkeys : g.requireUnlocked = some keys) (h : KeysOf L.so db keys) :
    Coherent L (g.write file db) := by
  refine Or.inr ⟨file, keys, hdb, hkeys, ?_⟩
  show KeysOf L.so (Function.update g.disk file db file) keys
  rw [Function.update_self]
  exact h

theorem coherent_vaultUnlockInternal {password : CString} {allow : Bool} (h : Coherent L g) :
    Coherent L (g.vaultUnlockInternal L.so password allow w).1 := by
  unfold Process.vaultUnlockInternal
  cases hdb : g.db with
  | none => exact h
  | some file =>
    dsimp only
    split_ifs with hne
    · exact h
    · have hrun : (unlockInternal L.so password allow).Runs (Cmd.exec L.so) (g.disk file) _ _ :=
        Prog.runs_run w.world.vault
      revert hrun
      generalize (unlockInternal L.so password allow).run (Cmd.exec L.so) w.world.vault
        (g.disk file) = out
      intro hrun
      obtain ⟨d, r⟩ := out
      cases r with
      | error e => exact Or.inl rfl
      | ok keys => exact coherent_unlock hdb (keysOf_unlocked hne (unlock_call hrun))

theorem coherent_vaultRotateKek {password : CString} (h : Coherent L g) :
    Coherent L (g.vaultRotateKek L.so password w).1 := by
  unfold Process.vaultRotateKek
  rcases h with h | ⟨file, keys, hdb, hkeys, hof⟩
  · rw [h]
    exact Or.inl h
  · rw [hkeys, hdb]
    have hrun : (rotateKek L.so keys password).Runs (Cmd.exec L.so) (g.disk file) _ _ :=
      Prog.runs_run w.world.vault
    dsimp only
    revert hrun
    generalize (rotateKek L.so keys password).run (Cmd.exec L.so) w.world.vault (g.disk file) = out
    intro hrun
    have hrotated := keysOf_rotated hof hrun
    obtain ⟨d, r⟩ := out
    cases r with
    | error e => exact coherent_write hdb hkeys hrotated
    | ok keys' => exact coherent_unlock hdb hrotated

/-- The functions that leave the session, on an open vault. -/
theorem coherent_vaultCall {c : VaultCall} (hc : Guarded c) (hkek : ∀ p, c ≠ .op (.rotateKek p))
    (h : Coherent L g) : Coherent L (g.vaultCall L c w).1 := by
  unfold Process.vaultCall
  rcases h with h | ⟨file, keys, hdb, hkeys, hof⟩
  · rw [h]
    exact Or.inl h
  · rw [hkeys, hdb]
    refine coherent_write hdb hkeys ?_
    cases hq : query L (some keys) c with
    | some p =>
      rw [callVault_query hq]
      exact hof
    | none =>
      cases c with
      | op op =>
        refine keysOf_operation ?_ (fun p hp => hkek p (by rw [hp])) hof (Prog.runs_run w.world.vault)
        exact hc.inSession
      | init => exact hc.elim
      | «open» => exact hc.elim
      | _ => nomatch hq

/-- **Every call** keeps the session and the database together. -/
theorem coherent_call {c : VaultCall} (h : Coherent L g) : Coherent L (g.call L w c).1 := by
  cases c with
  | op op =>
    cases op with
    | unlock password => exact coherent_vaultUnlockInternal h
    | unlockExisting password => exact coherent_vaultUnlockInternal h
    | rotateKek password => exact coherent_vaultRotateKek h
    | _ => exact coherent_vaultCall trivial (fun _ hp => nomatch hp) h
  | init => exact coherent_lockAndRun
  | «open» => exact coherent_lockAndRun
  | _ => exact coherent_vaultCall trivial (fun _ hp => nomatch hp) h

theorem coherent_after {r : Request × ProcessWorld ι} (h : Coherent L g) :
    Coherent L (g.after L r) := by
  obtain ⟨q, w⟩ := r
  cases q with
  | call c => exact coherent_call h
  | close => exact coherent_lockAndRun

/-- **Every sequence of calls.** -/
theorem coherent_afterAll {rs : List (Request × ProcessWorld ι)} (h : Coherent L g) :
    Coherent L (g.afterAll L rs) :=
  List.foldlRecOn rs (Process.after L) h fun _ h _ _ => coherent_after h

/-- What is said of a process: the session and the database belong together; a function that opens
or closes a database locks the session, and so does unlocking an initialised vault with a password
that is not empty, unless it is let in, which takes the stored verifier. -/
structure SessionKeys (L : Libraries) (g : Process ι) : Prop where
  coherent : Coherent L g
  initialised : ∀ w, Refuses L (g.vaultInit w).1
  opened : ∀ w, Refuses L (g.vaultOpen w).1
  closed : ∀ w, Refuses L (g.vaultClose w).1
  unlocked : ∀ (password : CString) (allow : Bool) (w : ProcessWorld ι) (file : ι) (salt : Block 16)
    (verifier : Block 32), password.bytes ≠ [] → g.db = some file →
      Stored (some (salt, verifier)) (g.disk file) (g.disk file) →
        (∀ keys, (g.vaultUnlockInternal L.so password allow w).2 = .ok keys →
          L.so.sha256 (L.so.pwhash password.bytes salt).1 = verifier) ∧
        ∀ e, (g.vaultUnlockInternal L.so password allow w).2 = .error e →
          Refuses L (g.vaultUnlockInternal L.so password allow w).1

theorem unlock_verifier {password : CString} {allow : Bool} {file : ι} {salt : Block 16}
    {verifier : Block 32} (hne : password.bytes ≠ []) (hdb : g.db = some file)
    (hstored : Stored (some (salt, verifier)) (g.disk file) (g.disk file)) :
    (∀ keys, (g.vaultUnlockInternal L.so password allow w).2 = .ok keys →
      L.so.sha256 (L.so.pwhash password.bytes salt).1 = verifier) ∧
    ∀ e, (g.vaultUnlockInternal L.so password allow w).2 = .error e →
      Refuses L (g.vaultUnlockInternal L.so password allow w).1 := by
  unfold Process.vaultUnlockInternal
  rw [hdb]
  dsimp only
  rw [if_neg hne]
  have hrun : (unlockInternal L.so password allow).Runs (Cmd.exec L.so) (g.disk file) _ _ :=
    Prog.runs_run w.world.vault
  revert hrun
  generalize (unlockInternal L.so password allow).run (Cmd.exec L.so) w.world.vault
    (g.disk file) = out
  intro hrun
  obtain ⟨d, r⟩ := out
  cases r with
  | error e => exact ⟨fun _ h => (nomatch h), fun _ _ => refuses_of_locked rfl⟩
  | ok keys =>
    exact ⟨fun _ _ => verifier_of_unlocked hstored (unlock_call hrun), fun _ h => nomatch h⟩

/-- **The keys of a session belong to the database that is open**, whatever databases a process
opens, unlocks and closes and whatever fails. -/
theorem session_keys (L : Libraries) (disk : ι → Db) (rs : List (Request × ProcessWorld ι)) :
    SessionKeys L ((started disk).afterAll L rs) where
  coherent := coherent_afterAll (Or.inl rfl)
  initialised _ := refuses_of_locked rfl
  opened _ := refuses_of_locked rfl
  closed _ := refuses_of_locked rfl
  unlocked _ _ _ _ _ _ hne hdb hstored := unlock_verifier hne hdb hstored

/-- A process creates a database and opens a session on it. -/
def newSession : List (Request × ProcessWorld Unit) :=
  let w : ProcessWorld Unit := {
    path := ⟨ascii "vault.db", by decide⟩
    files := fun _ => ⟨false, some ()⟩
    world := ⟨fun _ => calm 1735689600 1, .ok (), .ok [], .error .storage, true, 0, 0⟩ }
  [(.call .init, w), (.call (.op (.unlock samplePassword)), w)]

example : ((started fun _ => Db.empty).afterAll toyLibraries newSession).requireUnlocked.isSome := by
  decide +kernel

end Fuin.Cli.Handles

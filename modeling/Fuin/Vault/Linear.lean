import Fuin.Lib.Moments
import Fuin.Vault.Copies
import Fuin.Vault.Turns

/-! # Concurrent calls take effect one by one

Processes with the same keys put, delete, roll back, read and list secrets, issue and revoke tokens, in
any order of their steps and whatever fails. Their calls are those of a ledger that is shared: each takes
its turn at one moment between its start and its end (`vault_linearizable`). A write takes it when its
transaction commits, a read when its row is selected. So a value that has been read was the one in force
at some moment of the call, and what a call has returned no other call can have missed that starts
later. -/

namespace Fuin.Vault.Linear

open Fuin.Utils Fuin.Crypto Fuin.Lib.Program Fuin.Lib.Interleave Fuin.Lib.Growth Fuin.Lib.Ledgers
open Fuin.Lib.Failures Fuin.Lib.Moments
open Fuin.Store.Secrets Fuin.Store.Versions Fuin.Store.Selections Fuin.Store.Database
open Fuin.CryptoEngine Fuin.Kdf Fuin.Audit.Log Fuin.Vault.Rows Fuin.Vault.Transactions
open Fuin.Vault.Operations Fuin.Vault.Observed Fuin.Vault.Rules Fuin.Vault.Sessions
open Fuin.Vault.Committed Fuin.Vault.Versioned Fuin.Vault.Stored Fuin.Vault.Atomic Fuin.Vault.Copies
open Fuin.Vault.Refinement Fuin.Vault.Turns

/-- The operations that processes share a ledger by. -/
def Sharing : Op → Prop
  | .put .. | .delete _ | .rollback .. | .get .. | .getVersion .. | .list false => True
  | .issueToken .. | .revokeTokens => True
  | _ => False

instance : DecidablePred Sharing
  | .put .. | .delete _ | .rollback .. | .get .. | .getVersion .. | .list false => isTrue trivial
  | .issueToken .. | .revokeTokens => isTrue trivial
  | .autoRotate _ | .list true | .rotateKek _ | .unlock _ | .unlockExisting _ => isFalse id

theorem grows_self (db : Db) : Grows Frozen db.secrets.rows db.secrets.rows :=
  Grows.refl Frozen.refl _

theorem grows_on {db₁ db₂ db₃ : Db} (h : Grows Frozen db₁.secrets.rows db₂.secrets.rows)
    (h' : Grows Frozen db₂.secrets.rows db₃.secrets.rows) :
    Grows Frozen db₁.secrets.rows db₃.secrets.rows :=
  h.trans (fun _ _ _ => Frozen.trans) h'

/-- Sessions with the same keys, over names of `N`. Rows are added and archived, no key changes. -/
def protocol (keys : Subkeys) (N : Set CString) :
    Protocol Cmd Status Result Db (ℕ → Input) (Option Subkeys) Op where
  inv db := Orderly db.secrets
  rely db db' := Grows Frozen db.secrets.rows db'.secrets.rows
  guar _ _ db db' := Grows Frozen db.secrets.rows db'.secrets.rows
  allow _ _ _ _ _ := True
  may _ op := Sharing op ∧ ∀ n ∈ nameOf op, n ∈ N
  loc session _ := session = some keys
  post session op r _ := finish session op r = some keys
  rely_refl := grows_self
  rely_trans := grows_on
  guar_rely h := h
  loc_rely h _ _ := h

variable {so : Sodium} {keys : Subkeys} {N : Set CString} {b : Ledger CString Bytes} {name : CString}
  {db db₁ db₂ db₃ : Db} {op : Op} {V : Set (Ledger CString Bytes)} {α : Type}

theorem allows (hop : Sharing op) :
    Allows so ((protocol keys N).contract (some keys) op) (some keys) op where
  read _ _ := grows_self _
  note _ _ h := ⟨h, grows_self _⟩
  log _ _ _ _ _ _ _ _ _ _ _ _ _ _ _ h _ _ := ⟨h, grows_self _⟩
  tx _ _ _ _ _ ht hgrow hinv _ hrun := by
    have hkek : ∀ password, op ≠ .rotateKek password := by
      rintro password rfl
      exact hop
    refine ⟨?_, tx_frozen ht hkek hrun⟩
    exact (tx_orderly ht (fun _ _ h => h.mono fun _ _ => Frozen.kept) (fun _ h => h)
      (hgrow.mono fun _ _ => Frozen.kept) hinv hrun).1

theorem sound : (protocol keys N).Sound (vaultSystem so) :=
  sound_of_allows
    (fun session op _ hop hl => by
      have hsession : session = some keys := hl
      rw [hsession]
      exact allows hop.1)
    (fun session op r _ _ hop hl => by
      have hsession : session = some keys := hl
      have hshared := hop.1
      rw [hsession]
      cases op with
      | put | delete | rollback | get | getVersion | list | issueToken | revokeTokens => rfl
      | autoRotate | rotateKek | unlock | unlockExisting => exact hshared.elim)
    fun _ _ _ _ _ h => h

/-! ### What a call has seen -/

/-- A database stands for the ledger. -/
abbrev stands (so : Sodium) (keys : Subkeys) (N : Set CString) (b : Ledger CString Bytes) (db : Db) :
    Prop := Represents so keys N b db.secrets

/-- The surroundings of a call while the ledger has been one of `V`. -/
abbrev seeing (so : Sodium) (keys : Subkeys) (N : Set CString) (op : Op)
    (V : Set (Ledger CString Bytes)) : Ambient Db (ℕ → Input) :=
  window (protocol keys N) (stands so keys N) (some keys) op V

/-- The same for a single statement. -/
abbrev seeingStmt (so : Sodium) (keys : Subkeys) (N : Set CString) (op : Op)
    (V : Set (Ledger CString Bytes)) : Ambient Db Input :=
  (seeing so keys N op V).comap fun es => es 0

/-- The program of a call settles. -/
abbrev SettlesAs (so : Sodium) (keys : Subkeys) (N : Set CString) (op : Op) (p : VaultProg Result)
    (V : Set (Ledger CString Bytes)) (db : Db) : Prop :=
  Settles (Cmd.exec so) (protocol keys N) (stands so keys N) Turn (some keys) op p V db

theorem runsIn_sql {M : Ambient Db (ℕ → Input)} {p : Sql α} {r : Except Status α}
    (h : (sql p).RunsIn (Cmd.exec so) M db db₁ r) :
    p.RunsIn Stmt.exec (M.comap fun es => es 0) db db₁ r :=
  h.of_lift fun es c db => exec_stmt es c db

/-- Statements that read leave what the database stands for. -/
theorem stays_sql {p : Sql α} (hp : Sql.ReadOnly p) :
    Stays (Cmd.exec so) (stands so keys N) (sql p) :=
  stays_of_readOnly (Prog.ReadOnly.lift (fun es c db => exec_stmt es c db) hp)

/-- So does an audit entry. -/
theorem stays_logSuccess {action target : CString} {version : ℤ} {auditKey : Block 32} :
    Stays (Cmd.exec so) (stands so keys N)
      (sql (logSuccess so action target version auditKey)) := by
  have hsplit : sql (logSuccess so action target version auditKey) =
      (sql (nextRow so actorText action target version successText auditKey)).bind fun row =>
        (sql (Sql.write (.insertAudit row))).bind fun _ => .ret () := by
    unfold logSuccess logEvent
    simp only [Prog.bind_def, sql_bind]
    rfl
  rw [hsplit]
  refine (stays_sql readOnly_nextRow).bind fun row => ?_
  refine Stays.bind (fun es d => ?_) fun _ => trivial
  cases hf : (es 0).fault with
  | true =>
    simp only [Cmd.exec, Stmt.exec, hf]
    exact ⟨fun _ hc => hc, trivial⟩
  | false =>
    cases hins : d.audit.insert row with
    | none =>
      simp only [Cmd.exec, Stmt.exec, hf, Write.apply, hins]
      exact ⟨fun _ hc => hc, trivial⟩
    | some t =>
      simp only [Cmd.exec, Stmt.exec, hf, Write.apply, hins]
      exact ⟨fun _ hc => hc, trivial⟩

/-! ### Writing -/

/-- A call that fails takes no turn, unless `SM_ERR_NOT_FOUND` says something. -/
theorem turn_error {e : Status} (hop : Sharing op) (hread : ∀ name capacity, op ≠ .get name capacity)
    (hversion : ∀ name version capacity, op ≠ .getVersion name version capacity) :
    Turn b op (.error e) b := by
  cases op with
  | put | delete | rollback | list | issueToken | revokeTokens => rfl
  | get name capacity => exact absurd rfl (hread _ _)
  | getVersion name version capacity => exact absurd rfl (hversion _ _ _)
  | autoRotate | rotateKek | unlock | unlockExisting => exact hop.elim

/-- **A transaction that was prepared** is the turn of its call. -/
theorem settles_transact {β : Type} {p : Sql β} {mk : β → Tx} {x : Result} (hp : Sql.ReadOnly p)
    (hV : V.Nonempty) (herror : ∀ e b, Turn b op (.error e) b)
    (hcommit : ∀ V' y d₁ d₂ d₃ b, p.RunsIn Stmt.exec (seeingStmt so keys N op V') db d₁ (.ok y) →
      Grows Frozen d₁.secrets.rows d₂.secrets.rows → Orderly d₂.secrets → stands so keys N b d₂ →
      ((mk y).body so).Runs Stmt.exec d₂ d₃ (.ok ()) →
      ∃ b', stands so keys N b' d₃ ∧ Turn b op (.ok x) b') :
    SettlesAs so keys N op (((sql p).bind fun y => transact (mk y)).bind fun _ => .ret x) V db := by
  rw [Prog.bind_assoc]
  have hfails {V' : Set (Ledger CString Bytes)} (hV' : V ⊆ V') (e : Status) :
      ∃ b ∈ V', Turn b op (.error e) b := by
    obtain ⟨b, hb⟩ := hV
    exact ⟨b, hV' hb, herror e b⟩
  refine (stays_sql hp).settles_bind (fun V' y d₁ hV' hrun => ?_) fun V' e d₁ hV' _ => hfails hV' e
  intro V'' hV'' d₂ hgrow hinv b hb hstands es _
  rcases exec_tx so es (mk y) d₂ with ⟨d₃, hbody, hexec⟩ | ⟨e, hexec⟩
  · obtain ⟨b', hstands', hturn⟩ := hcommit V' y d₁ d₂ d₃ b (runsIn_sql hrun) hgrow hinv hstands hbody
    rw [hexec]
    exact Or.inr ⟨b', .ok x, hstands', hturn, rfl⟩
  · rw [hexec]
    exact Or.inl ⟨hstands, hfails (hV'.trans hV'') e⟩

section Writing

variable (hN : DistinctLookups so keys N) (hV : V.Nonempty)

include hN hV

theorem settles_put {secret : Bytes} {algorithm : Option CString} {ttl : ℕ} (hn : name ∈ N) :
    SettlesAs so keys N (.put name secret algorithm ttl)
      (unlockedCode so keys (.put name secret algorithm ttl)) V db := by
  refine settles_transact readOnly_preparePut hV (fun _ _ => rfl) fun V' y d₁ d₂ d₃ b hrun _ _ hb htx => ?_
  obtain ⟨metadata, new⟩ := y
  obtain ⟨_, _, -, -, -, -, -, -, hs, -, -, hp, -⟩ := preparePut_runsIn hrun
  have hstored := storedUnder_prepared hp hs
  exact ⟨b.append name secret, hb.append hN hn (put_runs htx).1 hstored, rfl⟩

theorem settles_delete (hn : name ∈ N) :
    SettlesAs so keys N (.delete name) (unlockedCode so keys (.delete name)) V db := by
  refine settles_transact readOnly_prepareDelete hV (fun _ _ => rfl)
    fun V' y d₁ d₂ d₃ b hrun _ horder hb htx => ?_
  obtain ⟨stored, now, metadata⟩ := y
  obtain ⟨-, -, hstored, -, -⟩ := prepareDelete_runsIn hrun
  have hdeleted := delete_runs htx
  rw [hstored] at hdeleted
  have hlive : (b name).live = true := by
    rw [hb.live name hn]
    obtain ⟨r, hr, hname, hactive⟩ := exists_active hdeleted.active
    exact ⟨r, SecretTable.mem_rowsOf.mpr ⟨hr, hname⟩, hactive⟩
  refine ⟨b.withdraw name, ?_, hlive, rfl⟩
  show Represents so keys N _ d₃.secrets
  rw [hdeleted.archive]
  exact hb.withdraw hN hn _

/-- The version that is rolled back to holds the same value when the transaction commits. -/
theorem settles_rollback {version : ℤ} (hn : name ∈ N) :
    SettlesAs so keys N (.rollback name version) (unlockedCode so keys (.rollback name version)) V
      db := by
  refine settles_transact readOnly_prepareRollback hV (fun _ _ => rfl)
    fun V' new d₁ d₂ d₃ b hrun hgrow horder hb htx => ?_
  obtain ⟨e₁, e₂, e₃, r, plaintext, -, -, h12, -, h23, -, h3, -, hs, hrow, hreads, -, -, hp⟩ :=
    prepareRollback_runsIn hrun
  have hsince : Grows Frozen e₁.secrets.rows d₂.secrets.rows :=
    (protocol keys N).rely_trans h12 ((protocol keys N).rely_trans h23
      ((protocol keys N).rely_trans h3 hgrow))
  obtain ⟨s, hmem, hfrozen, hname, hversion⟩ := frozen_of_versionRow hsince hrow
  rw [hs.stored] at hname
  obtain ⟨x, hx, hstored⟩ := hb.version_of_mem horder hn (SecretTable.mem_rowsOf.mpr ⟨hmem, hname⟩)
  have hsame : x = plaintext :=
    Holds.eq_of_reads hstored.holds (reads_of_frozen hreads hfrozen) (horder.columnInt_version hmem)
  rw [hversion, hsame] at hx
  exact ⟨b.append name plaintext, hb.append hN hn (rollback_runs htx) (storedUnder_prepared hp hs),
    plaintext, hx, rfl⟩

end Writing

/-- `vault_revoke_tokens` leaves the ledger. -/
theorem settles_revokeTokens (hV : V.Nonempty) :
    SettlesAs so keys N .revokeTokens (unlockedCode so keys .revokeTokens) V db := by
  have hfails {V' : Set (Ledger CString Bytes)} (hV' : V ⊆ V') (e : Status) :
      ∃ b ∈ V', Turn b .revokeTokens (.error e) b := by
    obtain ⟨b, hb⟩ := hV
    exact ⟨b, hV' hb, rfl⟩
  unfold unlockedCode revokeTokens
  simp only [Prog.bind_def, Prog.bind_assoc]
  refine (stays_sql Sql.readOnly_time).settles_bind (fun V' now d₁ hV' _ => ?_)
    fun V' e d₁ hV' _ => hfails hV' e
  cases now with
  | none => exact hfails hV' .storage
  | some now =>
    dsimp only
    unfold require
    split_ifs
    · intro V'' hV'' d₂ _ _ b hb hstands es _
      rcases exec_tx so es (.revokeTokens now keys.kekAudit) d₂ with ⟨d₃, hbody, hexec⟩ | ⟨e, hexec⟩
      · have hsame := (revokeTokens_runs hbody).1
        have hstands' : stands so keys N b d₃ := by
          unfold stands
          rw [hsame]
          exact hstands
        rw [hexec]
        exact Or.inr ⟨b, .ok .done, hstands', rfl, rfl⟩
      · rw [hexec]
        exact Or.inl ⟨hstands, hfails (hV'.trans hV'') e⟩
    · exact hfails hV' .storage

/-! ### Reading -/

/-- `SM_ERR_NOT_FOUND` means that there was no row in one of the states. -/
theorem readSecret_missing {M : Ambient Db (ℕ → Input)} {w : Which} {capacity : ℕ}
    (h : (readSecret so keys name w capacity).RunsIn (Cmd.exec so) M db db₁ (.error .notFound)) :
    ∃ d, M.inv d ∧ w.row (lookupOf so keys name) d = none := by
  rcases Prog.runsIn_bind_cases h with ⟨_, he, hprep⟩ | ⟨out, d₁, -, hlog⟩
  · cases he
    rcases Prog.runsIn_bind_cases (runsIn_sql hprep) with ⟨_, he, hlookup⟩ | ⟨stored, d₁, hlookup, hrest⟩
    · cases he
      have hname : Avoids .notFound (buildNameLookup so keys name) :=
        (avoids_ofExcept (require_ne_error (by decide))).bind fun _ =>
          (avoids_libs (by decide)).bind fun _ => trivial
      exact absurd rfl (hname.runsIn hlookup)
    · obtain ⟨-, hstored⟩ := buildNameLookup_runsIn hlookup
      rcases Prog.runsIn_bind_cases hrest with ⟨_, he, hload⟩ | ⟨row, d₂, -, hdecrypt⟩
      · cases he
        rcases Prog.runsIn_bind_cases hload with ⟨_, he, hcheck⟩ | ⟨_, d₂, -, hselect⟩
        · cases he
          exact absurd (Prog.runsIn_ofExcept hcheck).2.symm (require_ne_error (by decide))
        · obtain ⟨-, hinv, hq | ⟨-, hq⟩⟩ := Sql.runsIn_select_cases hselect
          · refine ⟨_, hinv, ?_⟩
            rw [hstored] at hq
            unfold loadedRow at hq
            cases hrow : w.row (lookupOf so keys name) db₁ with
            | none => rfl
            | some r =>
              rw [hrow] at hq
              exact absurd hq.symm (copySecretRow_found r)
          · cases hq
      · refine absurd rfl (Avoids.runsIn ?_ hdecrypt)
        exact avoids_decryptSecretRow.bind fun _ => trivial
  · refine absurd rfl (Avoids.runsIn ?_ hlog)
    exact avoids_logSuccess.lift.bind fun _ => trivial

/-- **`vault_read_secret`** has selected the row that it returns in one of the states. -/
theorem readSecret_selected {M : Ambient Db (ℕ → Input)} {w : Which} {capacity : ℕ} {plaintext : Bytes}
    (h : (readSecret so keys name w capacity).RunsIn (Cmd.exec so) M db db₁ (.ok plaintext)) :
    ∃ d r, M.inv d ∧ w.row (lookupOf so keys name) d = some r ∧ Reads so keys.kekEnc r plaintext := by
  obtain ⟨out, d₁, hprep, hlog⟩ := Prog.runsIn_bind h
  obtain ⟨stored, version, found⟩ := out
  obtain ⟨d, r, -, hinv, -, hstored, hrow, hreads, -⟩ := prepareRead_runsIn (runsIn_sql hprep)
  obtain ⟨_, d₂, -, hret⟩ := Prog.runsIn_bind hlog
  have hsame : plaintext = found := Except.ok.inj hret.2
  rw [hstored] at hrow
  rw [hsame]
  exact ⟨d, r, hinv, hrow, hreads⟩

theorem stays_readSecret {w : Which} {capacity : ℕ} :
    Stays (Cmd.exec so) (stands so keys N) (readSecret so keys name w capacity) :=
  (stays_sql readOnly_prepareRead).bind fun _ => stays_logSuccess.bind fun _ => trivial

/-- **What a read returns** was there in one of the states. -/
theorem returns_seen {w : Which} {capacity : ℕ} {o : Ledger CString Bytes → Option Bytes}
    {r : Except Status Bytes} (hV : V.Nonempty)
    (hsome : ∀ b d row, Orderly d.secrets → stands so keys N b d →
      w.row (lookupOf so keys name) d = some row → ∃ x, o b = some x ∧ StoredUnder so keys name x row)
    (hnone : ∀ b d, Orderly d.secrets → stands so keys N b d →
      w.row (lookupOf so keys name) d = none → o b = none)
    (h : (readSecret so keys name w capacity).RunsIn (Cmd.exec so) (seeing so keys N op V) db db₁ r) :
    ∃ b ∈ V, Returns (o b) (r.map .value) := by
  cases r with
  | ok plaintext =>
    obtain ⟨d, row, ⟨horder, b, hb, hstands⟩, hrow, hreads⟩ := readSecret_selected h
    obtain ⟨x, hx, hstored⟩ := hsome b d row horder hstands hrow
    have hmem := (Which.row_name hrow).1
    have hsame := Holds.eq_of_reads hstored.holds hreads (horder.columnInt_version hmem)
    refine ⟨b, hb, ?_⟩
    rw [hx, hsame]
    exact rfl
  | error e =>
    by_cases hmissing : e = .notFound
    · rw [hmissing] at h
      obtain ⟨d, ⟨horder, b, hb, hstands⟩, hrow⟩ := readSecret_missing h
      exact ⟨b, hb, fun _ => hnone b d horder hstands hrow⟩
    · obtain ⟨b, hb⟩ := hV
      exact ⟨b, hb, fun he => absurd he hmissing⟩

/-- The result of a call is that of its program. -/
theorem runsIn_bind_ret {β γ : Type} {M : Ambient Db (ℕ → Input)} {p : VaultProg β} {f : β → γ}
    {r : Except Status γ} (h : (p.bind fun x => .ret (f x)).RunsIn (Cmd.exec so) M db db₁ r) :
    ∃ x, p.RunsIn (Cmd.exec so) M db db₁ x ∧ r = x.map f := by
  rcases Prog.runsIn_bind_cases h with ⟨e, rfl, hp⟩ | ⟨x, d, hp, hret⟩
  · exact ⟨.error e, hp, rfl⟩
  · obtain ⟨rfl, rfl⟩ := hret
    exact ⟨.ok x, hp, rfl⟩

/-- A call that only looks settles if its result was right in one of the states. -/
theorem settles_looking {β : Type} {p : VaultProg β} {f : β → Result}
    (hp : Stays (Cmd.exec so) (stands so keys N) p)
    (h : ∀ V' x d, V ⊆ V' → p.RunsIn (Cmd.exec so) (seeing so keys N op V') db d x →
      ∃ b ∈ V', Turn b op (x.map f) b) :
    SettlesAs so keys N op (p.bind fun x => .ret (f x)) V db := by
  have hstays : Stays (Cmd.exec so) (stands so keys N) (p.bind fun x => .ret (f x)) :=
    hp.bind fun _ => trivial
  refine hstays.settles fun V' r d hV' hrun => ?_
  obtain ⟨x, hx, rfl⟩ := runsIn_bind_ret hrun
  exact h V' x d hV' hx

theorem settles_get {capacity : ℕ} (hV : V.Nonempty) (hn : name ∈ N) :
    SettlesAs so keys N (.get name capacity) (unlockedCode so keys (.get name capacity)) V db := by
  refine settles_looking stays_readSecret fun V' x d₁ hV' hread => ?_
  obtain ⟨b, hb, hreturns⟩ := returns_seen (w := .active) (o := fun b => (b name).current)
    (hV.mono hV') (fun b d row horder hstands hrow => hstands.current horder hn hrow)
    (fun b d horder hstands hrow => hstands.current_none horder hn hrow) hread
  exact ⟨b, hb, rfl, hreturns⟩

theorem settles_getVersion {version : ℤ} {capacity : ℕ} (hV : V.Nonempty) (hn : name ∈ N) :
    SettlesAs so keys N (.getVersion name version capacity)
      (unlockedCode so keys (.getVersion name version capacity)) V db := by
  have hstays : Stays (Cmd.exec so) (stands so keys N) (getVersion so keys name version capacity) :=
    (stays_of_readOnly Prog.readOnly_ofExcept).bind fun _ => stays_readSecret
  refine settles_looking hstays fun V' x d₁ hV' hrun => ?_
  rcases Prog.runsIn_bind_cases hrun with ⟨e, rfl, hcheck⟩ | ⟨_, d₂, -, hread⟩
  · obtain ⟨b, hb⟩ := hV
    have he := (Prog.runsIn_ofExcept hcheck).2
    refine ⟨b, hV' hb, rfl, fun hmissing => ?_⟩
    rw [show e = .notFound from hmissing] at he
    exact absurd he.symm (require_ne_error (by decide))
  · obtain ⟨b, hb, hreturns⟩ := returns_seen (w := .version version)
      (o := fun b => (b name).version version.toNat) (hV.mono hV') (fun b d row horder hstands hrow => hstands.version horder hn hrow)
      (fun b d horder hstands hrow => hstands.version_none horder hn hrow) hread
    exact ⟨b, hb, rfl, hreturns⟩

/-- **A listing** shows the names that were in force when it was selected. -/
theorem settles_list (hN : DistinctLookups so keys N) (hV : V.Nonempty) :
    SettlesAs so keys N (.list false) (unlockedCode so keys (.list false)) V db := by
  have hread : Sql.ReadOnly (currentTime.bind fun now => Sql.select fun db =>
      (db.secrets.listed false).mapM (listItem so keys now)) :=
    readOnly_currentTime.bind fun _ => Sql.readOnly_select
  refine settles_looking (stays_sql hread) fun V' x d₁ hV' hlist => ?_
  cases x with
  | error e =>
    obtain ⟨b, hb⟩ := hV
    exact ⟨b, hV' hb, rfl⟩
  | ok items =>
    obtain ⟨now, d₂, -, hselect⟩ := Prog.runsIn_bind (runsIn_sql hlist)
    obtain ⟨-, ⟨horder, b, hb, hstands⟩, hitems⟩ := Sql.runsIn_select hselect
    obtain ⟨items', hitems', hlisted⟩ := listed_items horder hstands hN now
    have hsame : items = items' := Except.ok.inj (hitems.symm.trans hitems')
    rw [hsame]
    exact ⟨b, hb, rfl, hlisted⟩

theorem settles_issueToken {subject scope : CString} {ttl : ℕ} (hV : V.Nonempty) :
    SettlesAs so keys N (.issueToken subject scope ttl)
      (unlockedCode so keys (.issueToken subject scope ttl)) V db := by
  have hstays : Stays (Cmd.exec so) (stands so keys N) (issueToken so keys subject scope ttl) :=
    (stays_sql readOnly_accessIssueToken).bind fun _ => (stays_sql Sql.readOnly_lib).bind fun _ =>
      stays_logSuccess.bind fun _ => trivial
  refine settles_looking hstays fun V' x d₁ hV' _ => ?_
  obtain ⟨b, hb⟩ := hV
  cases x with
  | ok x => exact ⟨b, hV' hb, rfl⟩
  | error e => exact ⟨b, hV' hb, rfl⟩

/-! ### All runs -/

/-- **Every operation settles.** -/
theorem settles_code (hN : DistinctLookups so keys N) (hop : Sharing op)
    (hname : ∀ n ∈ nameOf op, n ∈ N) (hV : V.Nonempty) :
    SettlesAs so keys N op (unlockedCode so keys op) V db := by
  cases op with
  | put name secret algorithm ttl => exact settles_put hN hV (hname name rfl)
  | delete name => exact settles_delete hN hV (hname name rfl)
  | rollback name version => exact settles_rollback hN hV (hname name rfl)
  | get name capacity => exact settles_get hV (hname name rfl)
  | getVersion name version capacity => exact settles_getVersion hV (hname name rfl)
  | list includeArchived =>
    cases includeArchived with
    | false => exact settles_list hN hV
    | true => exact hop.elim
  | issueToken subject scope ttl => exact settles_issueToken hV
  | revokeTokens => exact settles_revokeTokens hV
  | autoRotate | rotateKek | unlock | unlockExisting => exact hop.elim

variable {ι : Type} [DecidableEq ι]

/-- The runs of processes that share a ledger with names of `N`. -/
abbrev SharesOnly (N : Set CString) (g : VaultConfig ι) (ev : Lib.Interleave.Event (ℕ → Input) Op ι) :
    Prop := Obeys (fun _ op => Sharing op ∧ ∀ n ∈ nameOf op, n ∈ N) (fun _ _ _ _ _ => True) g ev

/-- **The vault is linearizable.** Any number of processes with the same keys start, from a database
without secrets, any calls on names whose lookups differ, in any order of their steps and whatever fails.
What can be seen of it, the calls and what they return, is a history of one ledger in which every call
takes its turn at one moment between its start and its end; and in the end the table represents this
ledger. -/
theorem vault_linearizable {g g' : VaultConfig ι}
    {h : List (Mark Op (Except Status Result) ι)} (hN : DistinctLookups so keys N)
    (hidle : ∀ i, g.procs i = ⟨some keys, none⟩) (hempty : g.shared.secrets = .empty)
    (hseen : Seen (vaultSystem so) (SharesOnly N) g h g') :
    ∃ o, Atomic Turn (.rest .empty) h o ∧ Represents so keys N o.state g'.shared.secrets := by
  have hrest : stands so keys N .empty g.shared := by
    unfold stands
    rw [hempty]
    exact represents_empty
  refine linearizable (Q := protocol keys N) sound (fun session op db b hop _ hsession _ => ?_) ?_
    (fun i => by rw [hidle i]) (fun i => ?_) hrest hseen
  · have hkeys : session = some keys := hsession
    rw [hkeys]
    exact settles_code hN hop.1 hop.2 (Set.singleton_nonempty b)
  · show Orderly g.shared.secrets
    rw [hempty]
    exact orderly_empty
  · rw [hidle i]
    rfl

/-! ### A read during a write -/

theorem distinctLookups_singleton (so : Sodium) (keys : Subkeys) (name : CString) :
    DistinctLookups so keys {name} := by
  intro m hm n hn _
  exact (show m = name from hm).trans (show n = name from hn).symm

/-- One process stores two values; the other one starts to read before the second one is stored, and
goes on after it. -/
def overlapping : List (Lib.Interleave.Event (ℕ → Input) Op Bool) :=
  .start false (.put sampleName [1, 2] none 0) :: acts false 20 1 ++
    [.finish false, .start true (.get sampleName 16)] ++ acts true 3 2 ++
    .start false (.put sampleName [3, 4] none 0) :: acts false 20 3 ++ acts true 15 4 ++
    [.finish true, .finish false]

/-- The operations on `sampleName`. -/
def OnSample (op : Op) : Prop := Sharing op ∧ ∀ n ∈ nameOf op, n = sampleName

instance : DecidablePred OnSample := fun _ => inferInstanceAs (Decidable (_ ∧ _))

/-- Their history. -/
def overlapped : Option (List (Mark Op (Except Status Result) Bool) × VaultConfig Bool) :=
  record (vaultSystem toy) (Obeys (fun _ op => OnSample op) fun _ _ _ _ _ => True) twoProcesses overlapping

theorem overlapping_linearizable : ∃ x o, overlapped = some x ∧ Atomic Turn (.rest .empty) x.1 o ∧
    Represents toy toyKeys {sampleName} o.state x.2.shared.secrets := by
  obtain ⟨x, hx⟩ : ∃ x, overlapped = some x := Option.isSome_iff_exists.mp (by decide +kernel)
  have hseen : Seen (vaultSystem toy) (SharesOnly {sampleName}) twoProcesses x.1 x.2 :=
    seen_of_record hx
  obtain ⟨o, hatomic, hrep⟩ :=
    vault_linearizable (distinctLookups_singleton toy toyKeys sampleName) (fun _ => rfl) rfl hseen
  exact ⟨x, o, hx, hatomic, hrep⟩

end Fuin.Vault.Linear

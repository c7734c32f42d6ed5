import Fuin.Lib.Interleave
import Fuin.Vault.Observed

/-! # The vault as a system of processes, and the rules for its programs

Processes share the database; each has a session and runs the operations of `vault.c`
(`vaultSystem`). The rules reduce what a program of the vault does, whatever the others do, to what
its transactions do: `ok_sql` for the statements that read, `ok_transact` for a transaction,
`ok_logSuccess` for an audit entry outside a transaction. -/

namespace Fuin.Vault.Rules

open Fuin.Utils Fuin.Crypto Fuin.Lib.Program Fuin.Lib.Interleave Fuin.Store.Database Fuin.Kdf
open Fuin.Audit.Log Fuin.Audit.Table Fuin.Vault.Rows Fuin.Vault.Transactions Fuin.Vault.Operations

/-- Processes with sessions on one database. -/
def vaultSystem (so : Sodium) :
    System Cmd.Reply Status Result Db (ℕ → Input) (Option Subkeys) Op where
  exec := Cmd.exec so
  code := code so
  finish := finish

/-- The database and the processes `ι`. -/
abbrev VaultConfig (ι : Type) := Config Cmd.Reply Status Result Db (Option Subkeys) Op ι

variable {so : Sodium} {α β : Type}

theorem exec_stmt (es : ℕ → Input) (c : Stmt) (db : Db) :
    (Cmd.exec so es (.stmt c) db).1 = (c.exec (es 0) db).1 ∧
      (Cmd.exec so es (.stmt c) db).2 = (c.exec (es 0) db).2 := ⟨rfl, rfl⟩

variable {K : Contract Cmd Db (ℕ → Input)} {Q : α → Db → Prop} {F : Status → Db → Prop} {db : Db}

/-- The surroundings of a single statement. -/
abbrev surroundings (K : Contract Cmd Db (ℕ → Input)) : Ambient Db Input :=
  K.ambient.comap fun es => es 0

/-- **Statements that read.** -/
theorem ok_sql {p : Sql α} (hread : ∀ db, K.inv db → K.guar db db) (hp : Sql.ReadOnly p)
    (hQ : ∀ a db₁, p.RunsIn Stmt.exec (surroundings K) db db₁ (.ok a) →
      ∀ db₂, K.rely db₁ db₂ → K.inv db₂ → Q a db₂)
    (hF : ∀ e db₁, p.RunsIn Stmt.exec (surroundings K) db db₁ (.error e) →
      ∀ db₂, K.rely db₁ db₂ → K.inv db₂ → F e db₂) :
    K.Ok (Cmd.exec so) Q F (sql p) db :=
  Contract.Ok.of_runsIn hread (Prog.ReadOnly.lift (fun es c db => exec_stmt es c db) hp)
    (fun a _ h => hQ a _ (h.of_lift fun es c db => exec_stmt es c db))
    (fun e _ h => hF e _ (h.of_lift fun es c db => exec_stmt es c db))

/-- **A transaction**: it is enough to look at those that commit. -/
theorem ok_transact {t : Tx} {Q : Unit → Db → Prop} (hread : ∀ db, K.inv db → K.guar db db)
    (hcommit : ∀ es db₁ db₂, K.rely db db₁ → K.inv db₁ → K.allow es (.tx t) db₁ →
      (t.body so).Runs Stmt.exec db₁ db₂ (.ok ()) → K.inv db₂ ∧ K.guar db₁ db₂ ∧
        ∀ db₃, K.rely db₂ db₃ → K.inv db₃ → Q () db₃)
    (hF : ∀ e db₁, K.rely db db₁ → K.inv db₁ → F e db₁) :
    K.Ok (Cmd.exec so) Q F (transact t) db := by
  intro db₁ h1 h2 es hes
  rcases exec_tx so es t db₁ with ⟨db₂, hrun, he⟩ | ⟨e, he⟩
  · obtain ⟨hi, hg, hq⟩ := hcommit es db₁ db₂ h1 h2 hes hrun
    rw [he]
    exact ⟨hi, hg, hq⟩
  · rw [he]
    exact ⟨h2, hread db₁ h2, fun db₃ h3 h4 => hF e db₃ (K.rely_trans h1 h3) h4⟩

/-- **A statement that writes**, outside a transaction. -/
theorem ok_write {w : Write} {Q : ℕ → Db → Prop} (hread : ∀ db, K.inv db → K.guar db db)
    (hwrite : ∀ es db₁ db₂ n, K.rely db db₁ → K.inv db₁ → K.allow es (.stmt (.write w)) db₁ →
      w.apply db₁ = some (db₂, n) → K.inv db₂ ∧ K.guar db₁ db₂ ∧
        ∀ db₃, K.rely db₂ db₃ → K.inv db₃ → Q n db₃)
    (hF : ∀ e db₁, K.rely db db₁ → K.inv db₁ → F e db₁) :
    K.Ok (Cmd.exec so) Q F (sql (Sql.write w)) db := by
  intro db₁ h1 h2 es hes
  have hfail : K.inv db₁ ∧ K.guar db₁ db₁ ∧
      K.Ok (Cmd.exec so) Q F (sql (Prog.fail .storage : Sql ℕ)) db₁ :=
    ⟨h2, hread db₁ h2, fun db₃ h3 h4 => hF _ db₃ (K.rely_trans h1 h3) h4⟩
  cases hf : (es 0).fault with
  | true =>
    simp only [Cmd.exec, Stmt.exec, hf]
    exact hfail
  | false =>
    cases hw : w.apply db₁ with
    | none =>
      simp only [Cmd.exec, Stmt.exec, hf, hw]
      exact hfail
    | some r =>
      obtain ⟨hi, hg, hq⟩ := hwrite es db₁ r.1 r.2 h1 h2 hes hw
      simp only [Cmd.exec, Stmt.exec, hf, hw]
      exact ⟨hi, hg, hq⟩

theorem sql_bind (p : Sql α) (f : α → Sql β) : sql (p.bind f) = (sql p).bind fun a => sql (f a) :=
  Prog.lift_bind p f

/-- Statements that read, and a transaction with what they have read. -/
theorem ok_sql_transact {p : Sql α} {mk : α → Tx} {Q : Unit → Db → Prop}
    (hread : ∀ db, K.inv db → K.guar db db) (hp : Sql.ReadOnly p)
    (hcommit : ∀ a es db₁ db₂ db₃, p.RunsIn Stmt.exec (surroundings K) db db₁ (.ok a) →
      K.rely db₁ db₂ → K.inv db₂ → K.allow es (.tx (mk a)) db₂ →
      ((mk a).body so).Runs Stmt.exec db₂ db₃ (.ok ()) →
      K.inv db₃ ∧ K.guar db₂ db₃ ∧ ∀ db₄, K.rely db₃ db₄ → K.inv db₄ → Q () db₄)
    (hF : ∀ e db₁, K.rely db db₁ → K.inv db₁ → F e db₁) :
    K.Ok (Cmd.exec so) Q F ((sql p).bind fun a => transact (mk a)) db := by
  refine Contract.Ok.bind (ok_sql hread hp (fun a db₁ hrun db₂ h1 h2 => ?_) fun e db₁ hrun db₂ h1 h2 => ?_)
  · refine ok_transact hread (fun es db₃ db₄ h3 h4 h5 h6 => ?_) fun e db₃ h3 h4 => ?_
    · exact hcommit a es db₁ db₃ db₄ hrun (K.rely_trans h1 h3) h4 h5 h6
    · exact hF e db₃ (K.rely_trans (hrun.rely hp) (K.rely_trans h1 h3)) h4
  · exact hF e db₂ (K.rely_trans (hrun.rely hp) h1) h2

/-- **An audit entry outside a transaction.** -/
theorem ok_logSuccess {action target : CString} {version : ℤ} {auditKey : Block 32}
    {Q : Unit → Db → Prop} (hread : ∀ db, K.inv db → K.guar db db)
    (hinsert : ∀ row es db₁ db₂ t,
      (nextRow so actorText action target version successText auditKey).RunsIn Stmt.exec
        (surroundings K) db db₁ (.ok row) → K.rely db₁ db₂ → K.inv db₂ →
      K.allow es (.stmt (.write (.insertAudit row))) db₂ → db₂.audit.insert row = some t →
      K.inv { db₂ with audit := t } ∧ K.guar db₂ { db₂ with audit := t } ∧
        ∀ db₃, K.rely { db₂ with audit := t } db₃ → K.inv db₃ → Q () db₃)
    (hF : ∀ e db₁, K.rely db db₁ → K.inv db₁ → F e db₁) :
    K.Ok (Cmd.exec so) Q F (sql (logSuccess so action target version auditKey)) db := by
  have hsplit : sql (logSuccess so action target version auditKey) =
      (sql (nextRow so actorText action target version successText auditKey)).bind fun row =>
        (sql (Sql.write (.insertAudit row))).bind fun _ => .ret () := by
    unfold logSuccess logEvent
    simp only [Prog.bind_def, sql_bind]
    rfl
  rw [hsplit]
  refine Contract.Ok.bind
    (ok_sql hread readOnly_nextRow (fun row db₁ hrun db₂ h1 h2 => ?_) fun e db₁ hrun db₂ h1 h2 => ?_)
  · refine Contract.Ok.bind
      (ok_write hread (fun es db₃ db₄ n h3 h4 h5 h6 => ?_) fun e db₃ h3 h4 => ?_)
    · simp only [Write.apply, Option.map_eq_some_iff, Prod.mk.injEq] at h6
      obtain ⟨t, hins, rfl, -⟩ := h6
      obtain ⟨hi, hg, hq⟩ := hinsert row es db₁ db₃ t hrun (K.rely_trans h1 h3) h4 h5 hins
      exact ⟨hi, hg, fun db₅ h7 h8 => Contract.Ok.ret fun db₆ h9 h10 =>
        hq db₆ (K.rely_trans h7 h9) h10⟩
    · exact hF e db₃ (K.rely_trans (hrun.rely readOnly_nextRow) (K.rely_trans h1 h3)) h4
  · exact hF e db₂ (K.rely_trans (hrun.rely readOnly_nextRow) h1) h2

/-! ### Two processes to compute with -/

/-- An outside world in which nothing fails: the clock says `now`, and the bytes drawn are `b`. -/
def calm (now : ℤ) (b : UInt8) : ℕ → Input :=
  fun _ => ⟨false, some now, fun n => ⟨List.replicate n b, List.length_replicate⟩⟩

/-- The subkeys of a master key of zeros. -/
def toyKeys : Subkeys := subkeysOf toy (Block.zero 32)

/-- Two idle processes on a new database. -/
def twoProcesses : VaultConfig Bool := ⟨Db.empty, fun _ => ⟨some toyKeys, none⟩⟩

/-- Some commands of a process, on the first day of 2025. -/
def acts (i : Bool) (n : ℕ) (b : UInt8) : List (Event (ℕ → Input) Op Bool) :=
  List.replicate n (.act i (calm 1735689600 b))

section Play

variable {P : VaultConfig Bool → Event (ℕ → Input) Op Bool → Prop} [∀ g ev, Decidable (P g ev)]

/-- The configuration after some events. -/
def play (P : VaultConfig Bool → Event (ℕ → Input) Op Bool → Prop) [∀ g ev, Decidable (P g ev)]
    (g : VaultConfig Bool) (evs : List (Event (ℕ → Input) Op Bool)) : VaultConfig Bool :=
  ((vaultSystem toy).steps P g evs).getD g

theorem reach_play {g : VaultConfig Bool} {evs : List (Event (ℕ → Input) Op Bool)}
    (h : ((vaultSystem toy).steps P g evs).isSome) : (vaultSystem toy).Reach P g (play P g evs) := by
  obtain ⟨g', hg'⟩ := Option.isSome_iff_exists.mp h
  unfold play
  rw [hg']
  exact System.reach_of_steps _ hg'

end Play

/-- The configuration after one event. -/
def next (g : VaultConfig Bool) (ev : Event (ℕ → Input) Op Bool) : VaultConfig Bool :=
  ((vaultSystem toy).step g ev).getD g

theorem step_eq_next {g : VaultConfig Bool} {ev : Event (ℕ → Input) Op Bool}
    (h : ((vaultSystem toy).step g ev).isSome) : (vaultSystem toy).step g ev = some (next g ev) := by
  obtain ⟨g', hg'⟩ := Option.isSome_iff_exists.mp h
  unfold next
  rw [hg']
  rfl

theorem step_next {P : VaultConfig Bool → Event (ℕ → Input) Op Bool → Prop} {g : VaultConfig Bool}
    {ev : Event (ℕ → Input) Op Bool} (hP : P g ev) (h : ((vaultSystem toy).step g ev).isSome) :
    (vaultSystem toy).Step P g (next g ev) := ⟨ev, hP, step_eq_next h⟩

end Fuin.Vault.Rules

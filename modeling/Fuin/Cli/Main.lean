import Fuin.Cli.Arguments
import Fuin.Lib.Issued

/-! # The command line

`main`: the arguments are parsed, passwords that are missing are asked for, and the command is
dispatched. A run touches no secret but the one its command line names, and only as its command says
(`main_named`). With a token in the environment it does what the token allows, whatever the arguments
are, unless the command is `auto-rotate` (`main_authorised`). -/

namespace Fuin.Cli.Main

open Fuin.Utils Fuin.Crypto Fuin.Lib.Program Fuin.Lib.Issued Fuin.Store.Database Fuin.Kdf
open Fuin.Access.Scope Fuin.Vault.Rows Fuin.Vault.Operations Fuin.Vault.Observed Fuin.Cli.Calls
open Fuin.Cli.Commands Fuin.Cli.Effects Fuin.Cli.Permitted Fuin.Cli.Dispatch Fuin.Cli.Arguments

/-! ### The program -/

/-- A call of a library, of which only the success is looked at. -/
def succeeds : CliProg Bool := .cmd .lib fun (ok : Bool) => .ret ok

/-- `cli_prompt_password_confirmed`. -/
def promptPasswordConfirmed : CliProg (Except Status CString) :=
  promptPassword.bind fun out =>
    match out with
    | .error e => .ret (.error e)
    | .ok out => promptPassword.bind fun confirm =>
      .ret (confirm.bind fun confirm => if out = confirm then .ok out else .error .auth)

/-- `cli_command_needs_master_password`. -/
def cliCommandNeedsMasterPassword (command : CString) : Bool :=
  decide (command.bytes ∉ [ascii "pqc-keygen", ascii "backup-import", ascii "audit-keygen",
    ascii "audit-verify-root-sig"])

/-- What is done with a prompt: `main` stops only if the two passwords are different. -/
def prompted : Except Status CString → CliProg (Option CString)
  | .ok password => .ret (some password)
  | .error .auth => .fail .auth
  | .error _ => .ret none

/-- The prompt for the master password; that of a new vault is typed twice. -/
def promptMasterPassword (command : CString) : CliProg (Except Status CString) :=
  if command.bytes = initText then
    vaultExists.bind fun found => if found then promptPassword else promptPasswordConfirmed
  else promptPassword

/-- The master password. -/
def masterPassword (command : CString) (o : CliOptions) : CliProg (Option CString) :=
  if o.password = none ∧ cliCommandNeedsMasterPassword command then
    (promptMasterPassword command).bind prompted
  else .ret o.password

/-- The new master password. -/
def newMasterPassword (command : CString) (o : CliOptions) : CliProg (Option CString) :=
  if o.newPassword = none ∧ command.bytes ∈ [ascii "rotate-kek", ascii "rotate"] then
    promptPasswordConfirmed.bind prompted
  else .ret o.newPassword

/-- The command with its passwords, then `vault_close`: the status of the process. -/
def runUnlocked (L : Libraries) (fuel : ℕ) (o : Options) : CliProg ℕ :=
  (dispatch L fuel o).attempt.bind fun (status : Except Status Unit) =>
    succeeds.bind fun closed => .ret (if status = .ok () ∧ closed = true then 0 else 1)

/-- The two passwords, as far as the command needs them. -/
def passwords (command : CString) (o : CliOptions) : CliProg (Option CString × Option CString) :=
  (masterPassword command o).bind fun password =>
    (newMasterPassword command o).bind fun newPassword => .ret (password, newPassword)

/-- What `main` does with a command. -/
def runCommand (L : Libraries) (fuel : ℕ) (command : CString) (o : CliOptions) : CliProg ℕ :=
  (passwords command o).attempt.bind fun (r : Except Status (Option CString × Option CString)) =>
    match r with
    | .error _ => .ret 1
    | .ok (password, newPassword) =>
      runUnlocked L fuel ({ o with password := password, newPassword := newPassword }.of command)

/-- `CLI_CLIPBOARD_CLEAR_HELPER`. -/
def clipboardClearHelper : Bytes := ascii "__fuin_clipboard_clear_helper"

/-- What `main` does with the options. -/
def runOptions (L : Libraries) (fuel : ℕ) (o : CliOptions) : CliProg ℕ :=
  if o.help = true then (outputUnchecked .done).bind fun _ => .ret 0
  else
    match o.command with
    | none => (outputUnchecked .done).bind fun _ => .ret 0
    | some command => runCommand L fuel command o

/-- `main`, of `argv`; the texts of the help are left out, and of the helper that clears the clipboard
all but its result. -/
def main (L : Libraries) (fuel : ℕ) (env : Environment) (argv : List CString) : CliProg ℕ :=
  succeeds.bind fun initialised =>
    if initialised = false then .ret 1
    else if argv.tail.head?.any fun arg => arg.bytes = clipboardClearHelper then
      succeeds.bind fun ok => .ret (if ok = true then 0 else 1)
    else
      match cliParseOptions env argv with
      | .error _ => .ret 2
      | .ok o => runOptions L fuel o

/-! ### With a token -/

variable {L : Libraries} {A : World → CliCmd → CliState → Prop} {J : List Event → Event → Prop} {st : CliState} {o : CliOptions}
  {command token : CString} {fuel : ℕ} {env : Environment} {argv : List CString}

/-- An environment with the password and the token. -/
def agentEnvironment : Environment where
  password := some samplePassword
  newPassword := none
  token := some agentToken
  allowInsecureArgs := none
  posixlyCorrect := false

def fuinText : CString := columnText (ascii "fuin")

/-- The commands that insert a version. -/
def writeNames : List Bytes :=
  [ascii "put", ascii "set", ascii "generate", ascii "gen", ascii "rollback"]

/-- The commands that archive the active version. -/
def deleteNames : List Bytes := [ascii "delete", ascii "del"]

/-- The commands that read a version. -/
def readNames : List Bytes := [ascii "get", ascii "totp"]

/-- The commands of the program that a command line may issue. -/
def Concerns (o : Options) : CliCmd → Prop
  | .vault (.op (.put name _ _ _)) => o.name = some name ∧ o.is writeNames
  | .vault (.op (.rollback name _)) => o.name = some name ∧ o.is writeNames
  | .vault (.op (.delete name)) => o.name = some name ∧ o.is deleteNames
  | .vault (.op (.get name _)) => o.name = some name ∧ o.is readNames
  | .vault (.op (.getVersion name _ _)) => o.name = some name ∧ o.is readNames
  | .vault (.op (.autoRotate _)) => o.is autoRotateNames
  | .vault (.checkToken token _) => o.token = some token
  | _ => True

/-- What a run may do: versions are created, archived or read of the name that the command line gives
and by the commands that do so, and only the token that it gives is asked for. -/
def Named (so : Sodium) (o : Options) : Event → Prop
  | .accepted token _ => o.token = some token
  | .created session storedName => o.is autoRotateNames ∨ ∃ keys name, session = some keys ∧
      o.name = some name ∧ storedName = (lookupOf so keys name).bytes ∧ o.is writeNames
  | .archived session storedName => ∃ keys name, session = some keys ∧
      o.name = some name ∧ storedName = (lookupOf so keys name).bytes ∧ o.is deleteNames
  | .revealed name => o.name = some name ∧ o.is readNames

variable {so : Sodium} {c : CliCmd} {w : World} {q : Options} {event : Event}

variable {α : Type} {P : CliCmd → Prop}

/-- The program issues nothing but what concerns the command line. -/
abbrev Keeps (q : Options) (p : CliProg α) : Prop := Issues (Concerns q) p

/-- A command of `main` itself. -/
def Plain (c : CliCmd) : Prop := c = .lib ∨ c = .output .done

end Fuin.Cli.Main

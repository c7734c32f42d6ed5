import Fuin.Vault.Exported
import Fuin.Vault.Reports
import Fuin.Vault.Revoked

/-! # What the command line calls

The command line is a program whose commands are the functions of `vault.h` and what `main.c` does
besides: the terminal, the clipboard, other files. Its state is the database at `db_path`, the
session, and the history of the run: which tokens have been accepted for what, of which names a
version was created, archived, or handed out as plaintext. What the outside world decides about a
command is its `World`. -/

namespace Fuin.Cli.Calls

open Fuin.Utils Fuin.Crypto Fuin.Lib.Program Fuin.Store.Secrets Fuin.Store.Database Fuin.Kdf
open Fuin.Access.Token Fuin.Backup.Capsule Fuin.Vault.Rows Fuin.Vault.Transactions
open Fuin.Vault.Operations Fuin.Vault.Audited Fuin.Vault.Exported Fuin.Vault.Reports
open Fuin.Vault.Revoked

/-- The libraries, the serialization of a database, and the files a backup reads. -/
structure Libraries where
  so : Sodium
  tokens : TokenLibrary
  keys : KeyLibrary
  serialize : Db → Bytes
  files : CString → Option Bytes
  /-- `EVP_Q_mac` with HMAC-SHA1. -/
  hmacSha1 : Bytes → Bytes → Option Bytes

/-! ### The functions of the vault -/

/-- The functions of `vault.h` that the command line calls on an open vault. -/
inductive VaultCall where
  | init
  | open
  | op (op : Op)
  | checkToken (token required : CString)
  | getActiveVersion (name : CString)
  | checkExpiry (within : ℕ)
  | securityReport
  | auditVerify
  | auditMerkleRoot
  | auditMerkleProof (entryId : ℤ)
  | auditVerifyMerkleProof (entryId : ℤ) (root : Block 32) (proof : Bytes) (leafIndex leafCount : ℕ)
  | backupExport (recipient capsulePath : CString)

/-- What a function returns beside `SM_OK`. -/
def VaultCall.Value : VaultCall → Type
  | .op _ => Result
  | .getActiveVersion _ => ℤ
  | .checkExpiry _ => List Expiry
  | .securityReport => SecurityReport
  | .auditMerkleRoot => Block 32 × ℕ
  | .auditMerkleProof _ => MerkleProof
  | .backupExport _ _ => Bytes
  | _ => Unit

/-- `vault_require_unlocked`, before a function that reads. -/
def unlocked {α : Type} (session : Option Subkeys) (p : Subkeys → Sql α) : Sql α :=
  match session with
  | none => Prog.fail .auth
  | some keys => p keys

/-- `AUDIT_MERKLE_PROOF_MAX_BYTES`. -/
def proofCapacity : ℕ := 2048

/-- What a function reads, for those that only read. -/
def query (L : Libraries) (session : Option Subkeys) : (c : VaultCall) → Option (Sql c.Value)
  | .init => none
  | .open => none
  | .op _ => none
  | .checkToken token required => some (checkToken L.so L.tokens session token required)
  | .getActiveVersion name => some (unlocked session fun keys => getActiveVersion L.so keys name)
  | .checkExpiry within => some (unlocked session fun keys => checkExpiry L.so keys within)
  | .securityReport => some (unlocked session fun keys => securityReport L.so keys)
  | .auditVerify => some (unlocked session fun keys => auditVerify L.so keys)
  | .auditMerkleRoot => some (unlocked session fun keys => auditMerkleRoot L.so keys)
  | .auditMerkleProof entryId =>
    some (unlocked session fun keys => auditMerkleProof L.so keys entryId proofCapacity)
  | .auditVerifyMerkleProof entryId root proof leafIndex leafCount =>
    some (unlocked session fun keys =>
      auditVerifyMerkleProof L.so keys entryId root proof leafIndex leafCount)
  | .backupExport recipient capsulePath =>
    some (backupExport L.so L.keys L.serialize L.files session recipient capsulePath)

/-! ### The history of a run -/

/-- What a run does that a token may forbid, and what tokens have been accepted for. -/
inductive Event where
  /-- `vault_check_token` has accepted the token. -/
  | accepted (token required : CString)
  /-- A version of the stored name was inserted. -/
  | created (session : Option Subkeys) (storedName : Bytes)
  /-- The active version of the stored name was archived, and none inserted. -/
  | archived (session : Option Subkeys) (storedName : Bytes)
  /-- A plaintext of the secret was handed to the command line. -/
  | revealed (name : CString)

/-- The names of the rows that are new. -/
def createdNames (t t' : SecretTable) : List Bytes :=
  (t'.rows.filter fun r' => t.rows.all fun r => r.id ≠ r'.id).map SecretRow.name

/-- The names of the rows that were active and are archived, if no row of the name is new. -/
def archivedNames (t t' : SecretTable) : List Bytes :=
  (t.rows.filter fun r => !r.isArchived && (t'.rows.any fun r' => r'.id = r.id && r'.isArchived) &&
    decide (r.name ∉ createdNames t t')).map SecretRow.name

/-- What has become of the secrets. -/
def changes (session : Option Subkeys) (t t' : SecretTable) : List Event :=
  (createdNames t t').map (.created session) ++ (archivedNames t t').map (.archived session)

/-- What the reply to a call says. -/
def replied : (c : VaultCall) → Except Status c.Value → List Event
  | .checkToken token required, .ok _ => [.accepted token required]
  | .op (.get name _), .ok _ => [.revealed name]
  | .op (.getVersion name _ _), .ok _ => [.revealed name]
  | _, _ => []

/-! ### The commands -/

/-- The functions that work on other files. -/
inductive FileCall where
  | backupKeygen (publicPath privatePath passphrase : CString)
  | backupImport (privateKeyPath passphrase capsulePath outputPath : CString)
  | signingKeygen (publicPath privatePath passphrase : CString)
  | mldsaSign (privateKeyPath passphrase : CString) (message : Bytes)
  | mldsaVerify (publicKeyPath : CString) (message signature : Bytes)

/-- What is written to standard output, before it is formatted. -/
inductive Output where
  | bytes (b : Bytes) (newline : Bool)
  | items (l : List ListItem)
  | expiries (l : List Expiry)
  | count (n : ℕ)
  | token (claims : Claims)
  | root (root : Block 32) (entries : ℕ)
  | proof (entryId : ℤ) (p : MerkleProof)
  | signedRoot (root : Block 32) (entries : ℕ) (signature : Bytes)
  | report (r : SecurityReport)
  | done

/-- What the command line does next. -/
inductive CliCmd where
  | vault (c : VaultCall)
  | file (f : FileCall)
  /-- `access(db_path, F_OK)`. -/
  | exists
  /-- `cli_read_stdin_secret`. -/
  | stdin
  /-- `cli_prompt_password`. -/
  | prompt
  /-- `cli_load_key_passphrase`. -/
  | passphrase (confirmed : Bool)
  /-- `randombytes_uniform`. -/
  | uniform (bound : ℕ)
  | time
  /-- A library call that succeeds or fails, and `backup_mldsa_available`. -/
  | lib
  | output (o : Output)
  /-- `cli_copy_secret_to_clipboard`. -/
  | copy (b : Bytes)

/-- The reply to a command. -/
def CliCmd.Reply : CliCmd → Type
  | .vault c => Except Status c.Value
  | .file _ => Except Status Bytes
  | .exists => Bool
  | .stdin => Except Status Bytes
  | .prompt => Except Status CString
  | .passphrase _ => Except Status CString
  | .uniform _ => ℕ
  | .time => ℤ
  | .lib => Bool
  | .output _ => Bool
  | .copy _ => Except Status Unit

/-- What the world decides about one command. -/
structure World where
  vault : ℕ → ℕ → Input
  status : Except Status Unit
  bytes : Except Status Bytes
  text : Except Status CString
  flag : Bool
  number : ℕ
  now : ℤ

/-- The database, the session and the history. -/
structure CliState where
  db : Db
  session : Option Subkeys
  history : List Event

/-- A function of the vault: the database and the session it leaves, and what it returns. -/
def callVault (L : Libraries) (w : World) (c : VaultCall) (db : Db) (session : Option Subkeys) :
    Db × Option Subkeys × Except Status c.Value :=
  match c with
  | .init => (db, none, w.status)
  | .open => (db, none, w.status)
  | .op op =>
    let out := (code L.so session op).run (Cmd.exec L.so) w.vault db
    (out.1, finish session op out.2, out.2)
  | c =>
    match query L session c with
    | some p =>
      let out := p.run Stmt.exec (fun n => w.vault n 0) db
      (out.1, session, out.2)
    | none => (db, session, .error .notImplemented)

/-- One command. -/
def exec (L : Libraries) (w : World) : (c : CliCmd) → CliState → CliState × c.Reply
  | .vault c, st =>
    let out := callVault L w c st.db st.session
    (⟨out.1, out.2.1,
      st.history ++ changes st.session st.db.secrets out.1.secrets ++ replied c out.2.2⟩, out.2.2)
  | .file _, st => (st, w.bytes)
  | .exists, st => (st, w.flag)
  | .stdin, st => (st, w.bytes)
  | .prompt, st => (st, w.text)
  | .passphrase _, st => (st, w.text)
  | .uniform bound, st => (st, w.number % bound)
  | .time, st => (st, w.now)
  | .lib, st => (st, w.flag)
  | .output _, st => (st, w.flag)
  | .copy _, st => (st, w.status)

/-- A program of the command line. -/
abbrev CliProg := Prog CliCmd.Reply Status

end Fuin.Cli.Calls

import Fuin.Cli.Calls
import Fuin.Cli.Totp

/-! # The commands

`cli_dispatch` and the functions it calls, one for each command, as programs over the functions of
the vault. Texts on standard error are left out. The loop of `vault_auto_rotate_expired` has a bound
on its rounds, which `dispatch` gets as `fuel`. -/

namespace Fuin.Cli.Commands

open Fuin.Utils Fuin.Lib.Program Fuin.Kdf Fuin.Access.Scope Fuin.Vault.Operations Fuin.Cli.Totp
open Fuin.Cli.Calls

/-- `cli_options_t`, after parsing; `db_path` is the database of the state, and the file with the
passphrase is read by the world. -/
structure Options where
  command : CString
  password : Option CString
  newPassword : Option CString
  name : Option CString
  value : Option CString
  algorithm : Option CString
  subject : Option CString
  scope : Option CString
  token : Option CString
  rootHex : Option CString
  proofHex : Option CString
  signatureB64 : Option CString
  recipientPath : Option CString
  privateKeyPath : Option CString
  publicKeyPath : Option CString
  publicOutPath : Option CString
  privateOutPath : Option CString
  inputPath : Option CString
  outputPath : Option CString
  ttlSeconds : Option ℕ
  withinSeconds : Option ℕ
  leafIndex : Option ℕ
  leafCount : Option ℕ
  generateLength : Option ℤ
  version : ℤ
  entryId : ℤ
  noSymbols : Bool
  copy : Bool
  raw : Bool
  showAll : Bool
  readStdin : Bool

/-! ### Commands of the program -/

/-- A function of the vault. -/
def vault (c : VaultCall) : CliProg c.Value :=
  .cmd (.vault c) fun (r : Except Status c.Value) => .ofExcept r

/-- An operation of the vault. -/
def operate (op : Op) : CliProg Result := vault (.op op)

def onFiles (f : FileCall) : CliProg Bytes :=
  .cmd (.file f) fun (r : Except Status Bytes) => .ofExcept r

def lib (e : Status) : CliProg Unit :=
  .cmd .lib fun (ok : Bool) => if ok then .ret () else .fail e

/-- `access(db_path, F_OK)`. -/
def vaultExists : CliProg Bool := .cmd .exists fun (found : Bool) => .ret found

def time : CliProg ℤ := .cmd .time fun (now : ℤ) => .ret now

def promptPassword : CliProg (Except Status CString) :=
  .cmd .prompt fun (r : Except Status CString) => .ret r

def readStdin : CliProg Bytes := .cmd .stdin fun (r : Except Status Bytes) => .ofExcept r

def loadKeyPassphrase (confirmed : Bool) : CliProg CString :=
  .cmd (.passphrase confirmed) fun (r : Except Status CString) => .ofExcept r

/-- Writing to standard output; `printf` that is not checked cannot fail. -/
def output (o : Output) : CliProg Unit :=
  .cmd (.output o) fun (ok : Bool) => if ok then .ret () else .fail .storage

def outputUnchecked (o : Output) : CliProg Unit := .cmd (.output o) fun _ => .ret ()

def copyToClipboard (b : Bytes) : CliProg Unit :=
  .cmd (.copy b) fun (r : Except Status Unit) => .ofExcept r

/-- An argument that is given and not empty. -/
def requireText (t : Option CString) : Except Status CString := do
  let s ← t.elim (.error .invalidArgument) .ok
  require (s.bytes ≠ []) .invalidArgument
  return s

/-- An argument that is given. -/
def given {α : Type} (t : Option α) : Except Status α := t.elim (.error .invalidArgument) .ok

/-! ### The session and the token -/

def initText : Bytes := ascii "init"

/-- `cli_open_unlocked_vault`. -/
def openUnlockedVault (o : Options) : CliProg Unit := do
  let password ← Prog.ofExcept (requireText o.password)
  if o.command.bytes = initText then
    vault .init
    let _ ← operate (.unlock password)
  else
    let found ← vaultExists
    Prog.ofExcept (require (found = true) .notFound)
    vault .open
    let _ ← operate (.unlockExisting password)

/-- `cli_required_scope`, with a buffer of `CLI_SCOPE_BUFFER_LEN` bytes. -/
def cliRequiredScope (operation : Operation) (name : CString) : Except Status CString := do
  require (name.bytes ≠ []) .invalidArgument
  require ((requiredScope operation name).bytes.length < 256) .invalidArgument
  return requiredScope operation name

/-- `cli_authorize_token`: without a token everything is allowed. -/
def authorizeToken (o : Options) (operation : Operation) (name : CString) : CliProg Unit :=
  match o.token with
  | none => .ret ()
  | some token => do
    Prog.ofExcept (require (token.bytes ≠ []) .invalidArgument)
    let required ← Prog.ofExcept (cliRequiredScope operation name)
    vault (.checkToken token required)

/-! ### Secrets -/

/-- `cli_run_list`. -/
def runList (o : Options) : CliProg Unit := do
  openUnlockedVault o
  match ← operate (.list o.showAll) with
  | .items [] => outputUnchecked (.items [])
  | .items l => output (.items l)
  | _ => Prog.fail .notImplemented

/-- `cli_run_init`. -/
def runInit (o : Options) : CliProg Unit := do
  openUnlockedVault o
  outputUnchecked .done

/-- The value that is typed twice. -/
def typedValue : CliProg Bytes := do
  let typed ← promptPassword
  let typed ← Prog.ofExcept (typed.mapError fun _ => .invalidArgument)
  let confirm ← promptPassword
  let confirm ← Prog.ofExcept (confirm.mapError fun _ => .invalidArgument)
  Prog.ofExcept (require (typed = confirm) .invalidArgument)
  return typed.bytes

/-- The value of `cli_run_put`. -/
def putValue (o : Options) : CliProg Bytes :=
  if o.readStdin then readStdin else o.value.elim typedValue fun value => .ret value.bytes

/-- `cli_run_put`. -/
def runPut (o : Options) : CliProg Unit := do
  let name ← Prog.ofExcept (requireText o.name)
  let secret ← putValue o
  openUnlockedVault o
  authorizeToken o .write name
  let _ ← operate (.put name secret o.algorithm (o.ttlSeconds.getD 0))

/-- The characters of `utils_generate_password`. -/
def passwordCharset (includeSymbols : Bool) : Bytes :=
  ascii "ABCDEFGHIJKLMNOPQRSTUVWXYZabcdefghijklmnopqrstuvwxyz0123456789" ++
    if includeSymbols then ascii "!@#$%^&*()-_=+[]\x7b\x7d:;,.?" else []

/-- The loop of `utils_generate_password`. -/
def pickCharacters (charset : Bytes) : ℕ → CliProg Bytes
  | 0 => .ret []
  | n + 1 => .cmd (.uniform charset.length) fun (i : ℕ) => do
    let rest ← pickCharacters charset n
    return charset.getD i 0 :: rest

/-- `utils_generate_password`. -/
def generatePassword (length : ℕ) (includeSymbols : Bool) : CliProg Bytes := do
  Prog.ofExcept (require (length ≠ 0) .invalidArgument)
  lib .crypto
  pickCharacters (passwordCharset includeSymbols) length

/-- `CLI_GENERATE_DEFAULT_LENGTH` and `CLI_GENERATE_MAX_LENGTH`. -/
def passwordLength (o : Options) : Except Status ℕ :=
  match o.generateLength with
  | none => .ok 24
  | some n => do
    require (1 ≤ n ∧ n ≤ 256) .invalidArgument
    return n.toNat

/-- A secret or a code goes to the clipboard or to standard output. -/
def deliver (o : Options) (b : Bytes) : CliProg Unit :=
  if o.copy then copyToClipboard b else outputUnchecked (.bytes b true)

/-- `cli_run_generate`. -/
def runGenerate (o : Options) : CliProg Unit := do
  let name ← Prog.ofExcept (requireText o.name)
  let length ← Prog.ofExcept (passwordLength o)
  let password ← generatePassword length (!o.noSymbols)
  openUnlockedVault o
  authorizeToken o .write name
  let _ ← operate (.put name password o.algorithm (o.ttlSeconds.getD 0))
  deliver o password

/-- `CLI_MAX_SECRET_BYTES`. -/
def maxSecretBytes : ℕ := 1048576

/-- The plaintext that an operation returns. -/
def plaintextOf : Result → CliProg Bytes
  | .value b => .ret b
  | _ => Prog.fail .notImplemented

/-- `cli_run_get`. -/
def runGet (o : Options) : CliProg Unit := do
  let name ← Prog.ofExcept (requireText o.name)
  lib .storage
  openUnlockedVault o
  authorizeToken o .read name
  let r ← operate (if 0 < o.version then .getVersion name o.version maxSecretBytes
    else .get name maxSecretBytes)
  let plaintext ← plaintextOf r
  if o.copy then copyToClipboard plaintext else output (.bytes plaintext (!o.raw))

/-- `cli_run_totp`. -/
def runTotp (L : Libraries) (o : Options) : CliProg Unit := do
  let name ← Prog.ofExcept (requireText o.name)
  lib .storage
  openUnlockedVault o
  authorizeToken o .read name
  let r ← operate (.get name maxSecretBytes)
  let seedText ← plaintextOf r
  let seed ← Prog.ofExcept (base32Decode seedText 256)
  let now ← time
  let code ← Prog.ofExcept (totpCode L.hmacSha1 seed (now % 18446744073709551616).toNat 30 6)
  deliver o code

/-- `cli_run_delete`. -/
def runDelete (o : Options) : CliProg Unit := do
  let name ← Prog.ofExcept (requireText o.name)
  openUnlockedVault o
  authorizeToken o .delete name
  let _ ← operate (.delete name)

/-- `cli_run_rollback`; the new version is only shown. -/
def runRollback (o : Options) : CliProg Unit := do
  let name ← Prog.ofExcept (requireText o.name)
  Prog.ofExcept (require (1 ≤ o.version) .invalidArgument)
  openUnlockedVault o
  authorizeToken o .write name
  let _ ← operate (.rollback name o.version)
  let _ ← (vault (.getActiveVersion name)).attempt

/-- `cli_run_check_expiry`. -/
def runCheckExpiry (o : Options) : CliProg Unit := do
  openUnlockedVault o
  let expiries ← vault (.checkExpiry (o.withinSeconds.getD 0))
  match (expiries : List _) with
  | [] => outputUnchecked (.expiries [])
  | l => output (.expiries l)

/-- `cli_run_auto_rotate`. -/
def runAutoRotate (fuel : ℕ) (o : Options) : CliProg Unit := do
  openUnlockedVault o
  match ← operate (.autoRotate fuel) with
  | .count n => outputUnchecked (.count n)
  | _ => Prog.fail .notImplemented

/-! ### Keys and tokens -/

/-- `cli_run_rotate_kek`. -/
def runRotateKek (o : Options) : CliProg Unit := do
  let newPassword ← Prog.ofExcept (requireText o.newPassword)
  openUnlockedVault o
  let _ ← operate (.rotateKek newPassword)

def defaultSubject : CString := ⟨ascii "user:default", Audit.Encoding.actorDefault.noNul⟩

/-- The subject that is given, or the default. -/
def subjectOf (o : Options) : CString :=
  match o.subject with
  | some subject => if subject.bytes = [] then defaultSubject else subject
  | none => defaultSubject

/-- `cli_run_issue_token`. -/
def runIssueToken (o : Options) : CliProg Unit := do
  let scope ← Prog.ofExcept (requireText o.scope)
  let ttl ← Prog.ofExcept (given o.ttlSeconds)
  openUnlockedVault o
  match ← operate (.issueToken (subjectOf o) scope ttl) with
  | .token claims => outputUnchecked (.token claims)
  | _ => Prog.fail .notImplemented

/-- `cli_run_check_token`. -/
def runCheckToken (o : Options) : CliProg Unit := do
  let token ← Prog.ofExcept (requireText o.token)
  let scope ← Prog.ofExcept (requireText o.scope)
  openUnlockedVault o
  vault (.checkToken token scope)
  outputUnchecked .done

/-- `cli_run_revoke_tokens`. -/
def runRevokeTokens (o : Options) : CliProg Unit := do
  openUnlockedVault o
  let _ ← operate .revokeTokens
  outputUnchecked .done

/-! ### The audit log -/

/-- A digit that `sodium_hex2bin` reads. -/
def hexValue (c : UInt8) : Option ℕ :=
  if 48 ≤ c ∧ c ≤ 57 then some (c.toNat - 48)
  else if 97 ≤ c ∧ c ≤ 102 then some (c.toNat - 87)
  else if 65 ≤ c ∧ c ≤ 70 then some (c.toNat - 55)
  else none

/-- `sodium_hex2bin` of a whole text. -/
def hex2bin : Bytes → Option Bytes
  | [] => some []
  | [_] => none
  | c :: d :: m => do
    let v ← hexValue c
    let w ← hexValue d
    let rest ← hex2bin m
    return UInt8.ofNat (v * 16 + w) :: rest

/-- `cli_decode_hex_exact`. -/
def decodeHexExact (hex : CString) (n : ℕ) : Except Status (Block n) := do
  require (hex.bytes.length = 2 * n) .invalidArgument
  let b ← (hex2bin hex.bytes).elim (.error .invalidArgument) .ok
  if h : b.length = n then return ⟨b, h⟩ else .error .invalidArgument

/-- `cli_decode_proof_hex`. -/
def decodeProofHex (hex : CString) : Except Status Bytes := do
  require (hex.bytes.length % 64 = 0 ∧ hex.bytes.length / 2 ≤ proofCapacity) .invalidArgument
  (hex2bin hex.bytes).elim (.error .invalidArgument) .ok

/-- `cli_run_audit_verify`. -/
def runAuditVerify (o : Options) : CliProg Unit := do
  openUnlockedVault o
  vault .auditVerify
  outputUnchecked .done

/-- `cli_run_audit_root`. -/
def runAuditRoot (o : Options) : CliProg Unit := do
  openUnlockedVault o
  let (root, entries) ← vault .auditMerkleRoot
  output (.root root entries)

/-- `cli_run_audit_proof`. -/
def runAuditProof (o : Options) : CliProg Unit := do
  Prog.ofExcept (require (1 ≤ o.entryId) .invalidArgument)
  openUnlockedVault o
  let proof ← vault (.auditMerkleProof o.entryId)
  output (.proof o.entryId proof)

/-- `cli_run_audit_verify_proof`. -/
def runAuditVerifyProof (o : Options) : CliProg Unit := do
  Prog.ofExcept (require (1 ≤ o.entryId) .invalidArgument)
  let rootHex ← Prog.ofExcept (given o.rootHex)
  let proofHex ← Prog.ofExcept (given o.proofHex)
  let leafIndex ← Prog.ofExcept (given o.leafIndex)
  let leafCount ← Prog.ofExcept (given o.leafCount)
  let root ← Prog.ofExcept (decodeHexExact rootHex 32)
  let proof ← Prog.ofExcept (decodeProofHex proofHex)
  openUnlockedVault o
  vault (.auditVerifyMerkleProof o.entryId root proof leafIndex leafCount)
  outputUnchecked .done

/-- `cli_run_audit_keygen`. -/
def runAuditKeygen (o : Options) : CliProg Unit := do
  let publicPath ← Prog.ofExcept (given o.publicOutPath)
  let privatePath ← Prog.ofExcept (given o.privateOutPath)
  lib .crypto
  let passphrase ← loadKeyPassphrase true
  let _ ← onFiles (.signingKeygen publicPath privatePath passphrase)
  outputUnchecked .done

/-- What is signed: the root and the number of entries. -/
def rootMessage (root : Block 32) (entries : ℕ) : Bytes := root.1 ++ u64le entries

/-- `cli_run_audit_sign_root`, with `vault_audit_sign_root`. -/
def runAuditSignRoot (o : Options) : CliProg Unit := do
  let privateKey ← Prog.ofExcept (given o.privateKeyPath)
  let passphrase ← loadKeyPassphrase false
  openUnlockedVault o
  let (root, entries) ← vault .auditMerkleRoot
  let signature ← onFiles (.mldsaSign privateKey passphrase (rootMessage root entries))
  output (.signedRoot root entries signature)

/-- `cli_run_audit_verify_root_sig`. -/
def runAuditVerifyRootSig (L : Libraries) (o : Options) : CliProg Unit := do
  let publicKey ← Prog.ofExcept (given o.publicKeyPath)
  let rootHex ← Prog.ofExcept (given o.rootHex)
  let leafCount ← Prog.ofExcept (given o.leafCount)
  let signatureB64 ← Prog.ofExcept (given o.signatureB64)
  let root ← Prog.ofExcept (decodeHexExact rootHex 32)
  let signature ← Prog.ofExcept
    ((L.tokens.unbase64 signatureB64.bytes).elim (.error .invalidArgument) .ok)
  let _ ← onFiles (.mldsaVerify publicKey (rootMessage root leafCount) signature)
  outputUnchecked .done

/-- `cli_run_status_report`. -/
def runStatusReport (o : Options) : CliProg Unit := do
  openUnlockedVault o
  let report ← vault .securityReport
  output (.report report)

/-! ### Backups -/

/-- `cli_run_pqc_keygen`. -/
def runPqcKeygen (o : Options) : CliProg Unit := do
  let publicPath ← Prog.ofExcept (requireText o.publicOutPath)
  let privatePath ← Prog.ofExcept (requireText o.privateOutPath)
  let passphrase ← loadKeyPassphrase true
  let _ ← onFiles (.backupKeygen publicPath privatePath passphrase)
  outputUnchecked .done

/-- `cli_run_backup_export`. -/
def runBackupExport (o : Options) : CliProg Unit := do
  let recipient ← Prog.ofExcept (requireText o.recipientPath)
  let capsulePath ← Prog.ofExcept (requireText o.outputPath)
  openUnlockedVault o
  let _ ← vault (.backupExport recipient capsulePath)
  outputUnchecked .done

/-- `cli_run_backup_import`. -/
def runBackupImport (o : Options) : CliProg Unit := do
  let privateKey ← Prog.ofExcept (requireText o.privateKeyPath)
  let capsulePath ← Prog.ofExcept (requireText o.inputPath)
  let outputPath ← Prog.ofExcept (requireText o.outputPath)
  let passphrase ← loadKeyPassphrase false
  let _ ← onFiles (.backupImport privateKey passphrase capsulePath outputPath)
  outputUnchecked .done

/-! ### The dispatch -/

/-- The command is one of these names. -/
def Options.is (o : Options) (names : List Bytes) : Prop := o.command.bytes ∈ names

instance (o : Options) (names : List Bytes) : Decidable (o.is names) :=
  inferInstanceAs (Decidable (_ ∈ _))

/-- The names of the command that rotates the keys of expired secrets. -/
def autoRotateNames : List Bytes := [ascii "auto-rotate", ascii "rotate-dek"]

/-- `cli_dispatch`. -/
def dispatch (L : Libraries) (fuel : ℕ) (o : Options) : CliProg Unit :=
  if o.command.bytes = [] then Prog.fail .invalidArgument
  else if o.is [initText] then runInit o
  else if o.is [ascii "put", ascii "set"] then runPut o
  else if o.is [ascii "generate", ascii "gen"] then runGenerate o
  else if o.is [ascii "get"] then runGet o
  else if o.is [ascii "totp"] then runTotp L o
  else if o.is [ascii "list", ascii "ls"] then runList o
  else if o.is [ascii "delete", ascii "del"] then runDelete o
  else if o.is [ascii "rollback"] then runRollback o
  else if o.is [ascii "rotate-kek", ascii "rotate"] then runRotateKek o
  else if o.is [ascii "check-expiry"] then runCheckExpiry o
  else if o.is autoRotateNames then runAutoRotate fuel o
  else if o.is [ascii "issue-token"] then runIssueToken o
  else if o.is [ascii "check-token"] then runCheckToken o
  else if o.is [ascii "revoke-tokens"] then runRevokeTokens o
  else if o.is [ascii "audit-verify", ascii "verify"] then runAuditVerify o
  else if o.is [ascii "audit-root", ascii "merkle-root"] then runAuditRoot o
  else if o.is [ascii "audit-proof"] then runAuditProof o
  else if o.is [ascii "audit-verify-proof"] then runAuditVerifyProof o
  else if o.is [ascii "audit-keygen"] then runAuditKeygen o
  else if o.is [ascii "audit-sign-root"] then runAuditSignRoot o
  else if o.is [ascii "audit-verify-root-sig"] then runAuditVerifyRootSig L o
  else if o.is [ascii "status-report", ascii "security-report", ascii "report"] then
    runStatusReport o
  else if o.is [ascii "pqc-keygen"] then runPqcKeygen o
  else if o.is [ascii "backup-export"] then runBackupExport o
  else if o.is [ascii "backup-import"] then runBackupImport o
  else Prog.fail .invalidArgument

end Fuin.Cli.Commands

import Fuin.Access.Roundtrip
import Fuin.Cli.Dispatch
import Fuin.Clock
import Fuin.Lib.Numerals
import Fuin.Lib.Strings

/-! # Signed roots

`audit-sign-root` prints a root, a number of entries and a signature, and `audit-verify-root-sig` takes
these texts back. What it accepts with a signature are the texts of what was signed, and no other root
or number of entries. But `--entries` is parsed as a number that must not be zero, so the signature of
the root of an empty log is never accepted, and every other is (`signed_root_iff`). -/

namespace Fuin.Cli.RootSignatures

open Fuin.Utils Fuin.Time Fuin.Clock Fuin.Crypto Fuin.Lib.Frames Fuin.Lib.Program Fuin.Lib.Numerals
open Fuin.Store.Database Fuin.Kdf Fuin.Audit.Encoding Fuin.Audit.Merkle Fuin.Access.Token
open Fuin.Access.Roundtrip Fuin.Vault.Operations Fuin.Vault.Audited Fuin.Vault.Rules
open Fuin.Vault.Reopened Fuin.Cli.Calls Fuin.Cli.Commands Fuin.Cli.Permitted Fuin.Cli.Dispatch
open Fuin.Lib.Strings (ok_bind)

/-! ### The options -/

/-- `cli_parse_size_value`. -/
def parseSizeValue (value : CString) (allowZero : Bool) : Except Status ℕ := do
  require (value.bytes.head?.any isDigit = true) .invalidArgument
  let (read, rest) := strtoull value.bytes
  let result ← read.elim (.error .invalidArgument) .ok
  require (rest = [] ∧ (allowZero = true ∨ result ≠ 0) ∧ result ≤ sizeMax) .invalidArgument
  return result

/-- The options of `audit-verify-root-sig`, and the other one that is a number of this kind. -/
inductive LongOption where
  | root
  | leafIndex
  | entries
  | publicKey
  | signature

/-- One option in the loop of `cli_parse_with_getopt`. -/
def parseOption (o : Options) : LongOption × CString → Except Status Options
  | (.root, optarg) => .ok { o with rootHex := some optarg }
  | (.leafIndex, optarg) => do
    let leafIndex ← parseSizeValue optarg true
    return { o with leafIndex := some leafIndex }
  | (.entries, optarg) => do
    let leafCount ← parseSizeValue optarg false
    return { o with leafCount := some leafCount }
  | (.publicKey, optarg) => .ok { o with publicKeyPath := some optarg }
  | (.signature, optarg) => .ok { o with signatureB64 := some optarg }

/-- The loop. -/
def parseOptions (o : Options) (args : List (LongOption × CString)) : Except Status Options :=
  args.foldlM parseOption o

/-! ### The texts -/

/-- `cli_print_hex`. -/
def printHex (data : Bytes) : Bytes :=
  let hex := ascii "0123456789abcdef"
  data.flatMap fun (b : UInt8) => [hex.getD (b >>> 4).toNat 0, hex.getD (b &&& 0x0F).toNat 0]

theorem printHex_eq (data : Bytes) : printHex data = (bin2hex data).bytes := by
  have hbyte : ∀ n < 256, [(ascii "0123456789abcdef").getD (UInt8.ofNat n >>> 4).toNat 0,
      (ascii "0123456789abcdef").getD (UInt8.ofNat n &&& 0x0F).toNat 0] = hexByte (UInt8.ofNat n) := by
    decide +kernel
  show data.flatMap _ = data.flatMap hexByte
  refine List.flatMap_congr fun b _ => ?_
  rw [← UInt8.ofNat_toNat (x := b)]
  exact hbyte _ b.toNat_lt

/-- The root as it is printed. -/
def rootText (root : Block 32) : CString :=
  ⟨printHex root.1, by rw [printHex_eq]; exact (bin2hex root.1).noNul⟩

/-- The number of entries as it is printed, with `%zu`. -/
def entriesText (n : ℕ) : CString := ⟨decimal n, decimal_noNul n⟩

/-- The signature as it is printed, with `%s`. -/
def signatureText (lib : TokenLibrary) (signature : Bytes) : CString := columnText (lib.base64 signature)

theorem hexValue_hexDigit : ∀ n < 16, hexValue (hexDigit n) = some n := by decide

/-- `sodium_hex2bin` reads what is printed. -/
theorem hex2bin_flatMap : ∀ b : Bytes, hex2bin (b.flatMap hexByte) = some b
  | [] => rfl
  | x :: b => by
    have hx : x.toNat < 256 := x.toNat_lt
    have hvalue : UInt8.ofNat (x.toNat / 16 * 16 + x.toNat % 16) = x := by
      rw [Nat.div_add_mod', UInt8.ofNat_toNat]
    show (do
      let v ← hexValue (hexDigit (x.toNat / 16))
      let w ← hexValue (hexDigit (x.toNat % 16))
      let rest ← hex2bin (b.flatMap hexByte)
      return UInt8.ofNat (v * 16 + w) :: rest) = some (x :: b)
    rw [hexValue_hexDigit _ (by omega), hexValue_hexDigit _ (by omega), hex2bin_flatMap b]
    show some (UInt8.ofNat (x.toNat / 16 * 16 + x.toNat % 16) :: b) = _
    rw [hvalue]

/-- **The root** is decoded as it was printed. -/
theorem decodeHexExact_rootText (root : Block 32) : decodeHexExact (rootText root) 32 = .ok root := by
  have hbytes : (rootText root).bytes = root.1.flatMap hexByte := printHex_eq root.1
  have hlen : (rootText root).bytes.length = 2 * 32 := by
    rw [hbytes, length_flatMap_hexByte, root.2]
  have hcheck : require ((rootText root).bytes.length = 2 * 32) .invalidArgument = .ok () :=
    require_eq_ok.mpr hlen
  unfold decodeHexExact
  rw [hcheck, ok_bind, hbytes, hex2bin_flatMap, Option.elim_some, ok_bind, dif_pos root.2]
  rfl

theorem numeral_concat (s : Bytes) (c : UInt8) : numeral (s ++ [c]) = numeral s * 10 + (c.toNat - 48) := by
  rw [numeral, List.map_append, value, List.map_singleton, extend_concat]
  rfl

theorem toNat_digit {d : ℕ} (h : d < 10) : (digit d).toNat = 48 + d := by
  rw [digit, UInt8.toNat_ofNat', Nat.mod_eq_of_lt (by omega)]

/-- A number has the value of its digits. -/
theorem numeral_decimal (n : ℕ) : numeral (decimal n) = n := by
  induction n using Nat.strong_induction_on with
  | h n ih =>
    rw [decimal_eq]
    split_ifs with h
    · rw [← List.nil_append [digit n], numeral_concat, toNat_digit h]
      simp [numeral, value, extend]
    · rw [numeral_concat, ih _ (by omega), toNat_digit (by omega)]
      omega

theorem isDigit_decimal {n : ℕ} {c : UInt8} (h : c ∈ decimal n) : isDigit c = true := by
  induction n using Nat.strong_induction_on with
  | h n ih =>
    have hdigit {d : ℕ} (hd : d < 10) : isDigit (digit d) = true := by
      have hall : ∀ d < 10, isDigit (digit d) = true := by decide
      exact hall d hd
    rw [decimal_eq] at h
    split_ifs at h with hn
    · rw [List.mem_singleton.mp h]
      exact hdigit hn
    · rcases List.mem_append.mp h with h | h
      · exact ih _ (by omega) h
      · rw [List.mem_singleton.mp h]
        exact hdigit (by omega)

theorem decimal_ne_nil (n : ℕ) : decimal n ≠ [] := by
  rw [decimal_eq]
  split_ifs
  · exact List.cons_ne_nil _ _
  · exact List.append_ne_nil_of_right_ne_nil _ (List.cons_ne_nil _ _)

/-- **The number of entries** is parsed as it was printed, unless it is zero and may not be. -/
theorem parseSizeValue_entriesText {n : ℕ} (hn : n ≤ sizeMax) (allowZero : Bool) :
    parseSizeValue (entriesText n) allowZero =
      if allowZero = true ∨ n ≠ 0 then .ok n else .error .invalidArgument := by
  have hread : strtoull (entriesText n).bytes = (some n, []) := by
    have h := strtoull_append (s := decimal n) (r := []) (fun c => isDigit_decimal) fun c hc => (nomatch hc)
    unfold sizeMax at hn
    rwa [List.append_nil, numeral_decimal, if_pos (by omega)] at h
  have hfirst : (decimal n).head?.any isDigit = true := by
    rw [List.head?_eq_some_head (decimal_ne_nil n)]
    exact isDigit_decimal (List.head_mem _)
  have hcheck : require ((entriesText n).bytes.head?.any isDigit = true) .invalidArgument = .ok () :=
    require_eq_ok.mpr hfirst
  unfold parseSizeValue
  rw [hcheck, ok_bind, hread]
  simp only [Option.elim_some, ok_bind, require, true_and, hn, and_true]
  split_ifs <;> rfl

/-! ### The signatures -/

/-- Private and public keys of ML-DSA, as they are loaded from files, and the functions of OpenSSL. -/
structure MlDsa (Private Public : Type) where
  loadPrivate : (path passphrase : CString) → Except Status Private
  loadPublic : (path : CString) → Except Status Public
  /-- Signing draws random bytes, and may fail. -/
  sign : World → Private → Bytes → Option Bytes
  verify : Public → Bytes → Bytes → Bool

variable {Private Public : Type} {D : MlDsa Private Public} {L : Libraries}

/-- `backup_mldsa_sign`. -/
def MlDsa.backupSign (D : MlDsa Private Public) (w : World) (path passphrase : CString)
    (message : Bytes) : Except Status Bytes := do
  require (message ≠ []) .invalidArgument
  let key ← D.loadPrivate path passphrase
  (D.sign w key message).elim (.error .crypto) .ok

/-- `backup_mldsa_verify`. -/
def MlDsa.backupVerify (D : MlDsa Private Public) (path : CString) (message signature : Bytes) :
    Except Status Bytes := do
  require (message ≠ [] ∧ signature ≠ []) .invalidArgument
  let key ← D.loadPublic path
  require (D.verify key message signature = true) .crypto
  return []

/-- One command of the command line, the signatures being those of `D`. -/
def execSigning (D : MlDsa Private Public) (L : Libraries) (w : World) :
    (c : CliCmd) → CliState → CliState × c.Reply
  | .file (.mldsaSign path passphrase message), st => (st, D.backupSign w path passphrase message)
  | .file (.mldsaVerify path message signature), st => (st, D.backupVerify path message signature)
  | c, st => exec L w c st

/-- The keys match: what is signed verifies, and a signature verifies for nothing else. -/
structure MlDsa.Matches (D : MlDsa Private Public) (sk : Private) (pk : Public) : Prop where
  correct : ∀ {w m s}, D.sign w sk m = some s → s ≠ [] ∧ D.verify pk m s = true
  unforgeable : ∀ {w m s m'}, D.sign w sk m = some s → D.verify pk m' s = true → m' = m

/-- `fuin audit-verify-root-sig` with these options. -/
def auditVerifyRootSig (L : Libraries) (o : Options) (args : List (LongOption × CString)) :
    CliProg Unit := do
  let o ← Prog.ofExcept (parseOptions o args)
  runAuditVerifyRootSig L o

/-- The options with the texts. -/
def verifyOptions (publicKey rootHex entries signature : CString) : List (LongOption × CString) :=
  [(.publicKey, publicKey), (.root, rootHex), (.entries, entries), (.signature, signature)]

/-! ### What is accepted -/

section Accepted

variable {o : Options} {ws : ℕ → World} {st : CliState}
variable {publicKey rootHex entries signature : CString}

theorem run_ofExcept_bind {α : Type} {x : Except Status α} {f : α → CliProg Unit} :
    (((Prog.ofExcept x).bind f).run (execSigning D L) ws st).2 = .ok () ↔
      ∃ a, x = .ok a ∧ ((f a).run (execSigning D L) ws st).2 = .ok () := by
  cases x with
  | error e => simp [Prog.run]
  | ok a => simp

theorem verify_ok {m s : Bytes} (hm : m ≠ []) {b : Bytes} :
    D.backupVerify publicKey m s = .ok b ↔
      s ≠ [] ∧ ∃ pk, D.loadPublic publicKey = .ok pk ∧ D.verify pk m s = true ∧ b = [] := by
  simp only [MlDsa.backupVerify, bind_eq_ok, require_eq_ok, pure_eq_ok]
  constructor
  · rintro ⟨_, ⟨-, hs⟩, pk, hpk, _, hv, rfl⟩
    exact ⟨hs, pk, hpk, hv, rfl⟩
  · rintro ⟨hs, pk, hpk, hv, rfl⟩
    exact ⟨(), ⟨hm, hs⟩, pk, hpk, (), hv, rfl⟩

theorem rootMessage_ne_nil {root : Block 32} {n : ℕ} : rootMessage root n ≠ [] := by
  intro h
  have hlen := congrArg List.length h
  simp [rootMessage] at hlen

/-- What these options come to. -/
def verifying (o : Options) (publicKey rootHex signature : CString) (leafCount : ℕ) : Options :=
  { o with
    publicKeyPath := some publicKey, rootHex := some rootHex, leafCount := some leafCount
    signatureB64 := some signature }

theorem parseOptions_verify :
    parseOptions o (verifyOptions publicKey rootHex entries signature) =
      (parseSizeValue entries false).map (verifying o publicKey rootHex signature) := by
  change ((parseSizeValue entries false).bind _).bind _ = _
  cases parseSizeValue entries false with
  | error e => rfl
  | ok n => rfl

theorem runAuditVerifyRootSig_verifying {n : ℕ} :
    runAuditVerifyRootSig L (verifying o publicKey rootHex signature n) =
      (Prog.ofExcept (decodeHexExact rootHex 32)).bind fun root =>
        (Prog.ofExcept ((L.tokens.unbase64 signature.bytes).elim (.error .invalidArgument) .ok)).bind
          fun s => (onFiles (.mldsaVerify publicKey (rootMessage root n) s)).bind
            fun _ => outputUnchecked .done := rfl

theorem run_verify {m s : Bytes} :
    (((onFiles (.mldsaVerify publicKey m s)).bind fun _ => outputUnchecked .done).run
        (execSigning D L) ws st).2 = .ok () ↔ ∃ b, D.backupVerify publicKey m s = .ok b := by
  change (((Prog.ofExcept (D.backupVerify publicKey m s)).bind fun _ => outputUnchecked .done).run
    (execSigning D L) _ st).2 = .ok () ↔ _
  rw [run_ofExcept_bind]
  exact exists_congr fun b => and_iff_left rfl

/-- **What `audit-verify-root-sig` accepts.** -/
theorem accepted_iff :
    ((auditVerifyRootSig L o (verifyOptions publicKey rootHex entries signature)).run
        (execSigning D L) ws st).2 = .ok () ↔
      ∃ n root s pk, parseSizeValue entries false = .ok n ∧ decodeHexExact rootHex 32 = .ok root ∧
        L.tokens.unbase64 signature.bytes = some s ∧ s ≠ [] ∧ D.loadPublic publicKey = .ok pk ∧
        D.verify pk (rootMessage root n) s = true := by
  unfold auditVerifyRootSig
  simp only [Prog.bind_def]
  rw [run_ofExcept_bind, parseOptions_verify]
  constructor
  · rintro ⟨o', ho', h⟩
    cases hn : parseSizeValue entries false with
    | error e =>
      rw [hn] at ho'
      cases ho'
    | ok n =>
      rw [hn] at ho'
      cases ho'
      rw [runAuditVerifyRootSig_verifying] at h
      obtain ⟨root, hroot, h⟩ := run_ofExcept_bind.mp h
      obtain ⟨s, hs, h⟩ := run_ofExcept_bind.mp h
      obtain ⟨b, hb⟩ := run_verify.mp h
      obtain ⟨hne, pk, hpk, hv, -⟩ := (verify_ok rootMessage_ne_nil).mp hb
      exact ⟨n, root, s, pk, rfl, hroot, elim_eq_ok.mp hs, hne, hpk, hv⟩
  · rintro ⟨n, root, s, pk, hn, hroot, hs, hne, hpk, hv⟩
    rw [hn]
    refine ⟨_, rfl, ?_⟩
    rw [runAuditVerifyRootSig_verifying]
    refine run_ofExcept_bind.mpr ⟨root, hroot, run_ofExcept_bind.mpr ⟨s, elim_eq_ok.mpr hs, ?_⟩⟩
    exact run_verify.mpr ⟨[], (verify_ok rootMessage_ne_nil).mpr ⟨hne, pk, hpk, hv, rfl⟩⟩

end Accepted

/-! ### What is signed -/

section Signed

variable {o : Options} {ws : ℕ → World} {st s : CliState}

/-- The commands that write to standard output. -/
def isOutput : CliCmd → Bool
  | .output _ => true
  | _ => false

theorem silent_loadKeyPassphrase {confirmed : Bool} :
    (loadKeyPassphrase confirmed).Silent isOutput :=
  ⟨rfl, fun _ => Prog.silent_ofExcept⟩

theorem silent_onFiles {f : FileCall} : (onFiles f).Silent isOutput :=
  ⟨rfl, fun _ => Prog.silent_ofExcept⟩

theorem silent_vault {c : VaultCall} : (vault c).Silent isOutput :=
  ⟨rfl, fun _ => Prog.silent_ofExcept⟩

theorem silent_openUnlockedVault : (openUnlockedVault o).Silent isOutput := by
  unfold openUnlockedVault
  refine Prog.silent_ofExcept.bind fun password => ?_
  split_ifs
  · exact silent_vault.bind fun _ => silent_vault.bind fun _ => trivial
  · have hexists : vaultExists.Silent isOutput := ⟨rfl, fun _ => trivial⟩
    refine hexists.bind fun found => Prog.silent_ofExcept.bind fun _ => ?_
    exact silent_vault.bind fun _ => silent_vault.bind fun _ => trivial

theorem commands_output {out : Output} :
    (output out).commands (execSigning D L) ws st = [(.output out, st)] := by
  change _ :: Prog.commands (execSigning D L)
    (if (ws 0).flag = true then .ret () else .fail Status.storage) _ _ = _
  cases (ws 0).flag with
  | true => rfl
  | false => rfl

theorem run_ofExcept_ok {α : Type} {x : Except Status α} {a : α}
    (h : (Prog.ofExcept x : CliProg α).run (execSigning D L) ws st = (s, .ok a)) :
    s = st ∧ x = .ok a := by
  cases x with
  | error e => nomatch (Prod.mk.inj h).2
  | ok b =>
    obtain ⟨rfl, hb⟩ := Prod.mk.inj h
    exact ⟨rfl, hb⟩

theorem run_vault_ok {c : VaultCall} {a : c.Value}
    (h : (vault c).run (execSigning D L) ws st = (s, .ok a)) :
    callVault L (ws 0) c st.db st.session = (s.db, s.session, .ok a) := by
  have h : (Prog.ofExcept (callVault L (ws 0) c st.db st.session).2.2).run (execSigning D L) _ _ = _ := h
  obtain ⟨rfl, hr⟩ := run_ofExcept_ok h
  exact Prod.ext rfl (Prod.ext rfl hr)

theorem run_sign_ok {path passphrase : CString} {m b : Bytes}
    (h : (onFiles (.mldsaSign path passphrase m)).run (execSigning D L) ws st = (s, .ok b)) :
    s = st ∧ D.backupSign (ws 0) path passphrase m = .ok b := by
  have h : (Prog.ofExcept (D.backupSign (ws 0) path passphrase m)).run (execSigning D L) _ _ = _ := h
  exact run_ofExcept_ok h

/-- The root of the vault is that of its log. -/
theorem vault_auditMerkleRoot {root : Block 32} {n : ℕ}
    (h : (vault .auditMerkleRoot).run (execSigning D L) ws st = (s, .ok (root, n))) :
    n = s.db.audit.rows.length ∧ n ≤ sizeMax := by
  have hcall := run_vault_ok h
  rw [callVault_query rfl] at hcall
  obtain ⟨hdb, hcall⟩ := Prod.mk.inj hcall
  obtain ⟨-, hr⟩ := Prod.mk.inj hcall
  cases hsession : st.session with
  | none =>
    rw [hsession] at hr
    nomatch hr
  | some keys =>
    rw [hsession] at hr
    obtain ⟨_, db, hverify, hroot⟩ := Prog.runs_bind (b := (root, n)) ⟨_, Prod.ext rfl hr⟩
    obtain rfl := readOnly_auditVerify.runs hverify
    obtain ⟨hs, hhash, hle, -, rfl⟩ := computeMerkleRoot_runs hroot
    rw [← hdb, entryHashes_length hhash]
    rw [entryHashes_length hhash] at hle
    exact ⟨rfl, hle.trans (Nat.div_le_self _ _)⟩

/-- **What `audit-sign-root` prints** is the number of entries of the log, and a signature of it with
the root. -/
theorem printed_signed {root : Block 32} {n : ℕ} {signature : Bytes}
    (h : (CliCmd.output (.signedRoot root n signature), s) ∈
      (runAuditSignRoot o).commands (execSigning D L) ws st) :
    n = s.db.audit.rows.length ∧ n ≤ sizeMax ∧ ∃ path passphrase w sk, o.privateKeyPath = some path ∧
      D.loadPrivate path passphrase = .ok sk ∧ D.sign w sk (rootMessage root n) = some signature := by
  have hout : isOutput (.output (.signedRoot root n signature)) = true := rfl
  unfold runAuditSignRoot at h
  simp only [Prog.bind_def] at h
  obtain ⟨path, s₁, ws₁, hpath, h⟩ := Prog.mem_commands_bind Prog.silent_ofExcept hout h
  obtain ⟨passphrase, s₂, ws₂, -, h⟩ := Prog.mem_commands_bind silent_loadKeyPassphrase hout h
  obtain ⟨_, s₃, ws₃, -, h⟩ := Prog.mem_commands_bind silent_openUnlockedVault hout h
  obtain ⟨⟨root', n'⟩, s₄, ws₄, hroot, h⟩ := Prog.mem_commands_bind silent_vault hout h
  obtain ⟨signature', s₅, ws₅, hsign, hlast⟩ := Prog.mem_commands_bind silent_onFiles hout h
  obtain ⟨hn, hle⟩ := vault_auditMerkleRoot hroot
  obtain ⟨rfl, hsigned⟩ := run_sign_ok hsign
  rw [commands_output] at hlast
  obtain ⟨hc, rfl⟩ := Prod.mk.inj (List.mem_singleton.mp hlast)
  cases hc
  simp only [MlDsa.backupSign, bind_eq_ok, elim_eq_ok] at hsigned
  obtain ⟨-, -, sk, hsk, hsigned⟩ := hsigned
  exact ⟨hn, hle, path, passphrase, _, sk, elim_eq_ok.mp (run_ofExcept_ok hpath).2, hsk, hsigned⟩

/-! ### Signing, then verifying -/

theorem rootMessage_inj {root root' : Block 32} {n n' : ℕ} (hn : n ≤ sizeMax) (hn' : n' ≤ sizeMax)
    (h : rootMessage root n = rootMessage root' n') : root = root' ∧ n = n' := by
  obtain ⟨hroot, hcount⟩ := List.append_inj h (root.2.trans root'.2.symm)
  unfold sizeMax at hn hn'
  have heq := leBytes_inj (by norm_num; omega) (by norm_num; omega) hcount
  exact ⟨Subtype.ext hroot, by omega⟩

theorem parseSizeValue_le {value : CString} {allowZero : Bool} {n : ℕ}
    (h : parseSizeValue value allowZero = .ok n) : n ≤ sizeMax := by
  simp only [parseSizeValue, bind_eq_ok, require_eq_ok, pure_eq_ok] at h
  obtain ⟨-, -, m, -, -, ⟨-, -, hm⟩, rfl⟩ := h
  exact hm

/-- A signed root can be verified: its texts are accepted, and with its signature no texts of another
root or of another number of entries. -/
structure Verifiable (D : MlDsa Private Public) (L : Libraries) (publicKey : CString)
    (root : Block 32) (n : ℕ) (signature : Bytes) : Prop where
  accepted : ∀ o ws st, ((auditVerifyRootSig L o (verifyOptions publicKey (rootText root)
    (entriesText n) (signatureText L.tokens signature))).run (execSigning D L) ws st).2 = .ok ()
  only : ∀ rootHex entries o ws st, ((auditVerifyRootSig L o (verifyOptions publicKey rootHex entries
      (signatureText L.tokens signature))).run (execSigning D L) ws st).2 = .ok () →
    decodeHexExact rootHex 32 = .ok root ∧ parseSizeValue entries false = .ok n

/-- No number of entries is parsed as zero. -/
theorem Verifiable.pos {publicKey : CString} {root : Block 32} {n : ℕ} {signature : Bytes}
    (h : Verifiable D L publicKey root n signature) (hn : n ≤ sizeMax) (o : Options) (ws : ℕ → World)
    (st : CliState) : n ≠ 0 := by
  rintro rfl
  obtain ⟨n', -, -, -, hparse, -⟩ := accepted_iff.mp (h.accepted o ws st)
  rw [parseSizeValue_entriesText hn] at hparse
  nomatch hparse

/-- **A signed root can be verified exactly if the log has an entry.** -/
theorem signed_root_iff {path publicKey : CString} {pk : Public} {root : Block 32} {n : ℕ}
    {signature : Bytes} (h64 : ReadsBase64 L.tokens) (hpath : o.privateKeyPath = some path)
    (hpair : ∀ passphrase sk, D.loadPrivate path passphrase = .ok sk → D.Matches sk pk)
    (hpk : D.loadPublic publicKey = .ok pk)
    (h : (CliCmd.output (.signedRoot root n signature), s) ∈
      (runAuditSignRoot o).commands (execSigning D L) ws st) :
    Verifiable D L publicKey root n signature ↔ s.db.audit.rows ≠ [] := by
  obtain ⟨rfl, hn, path', passphrase, w, sk, hpath', hsk, hsign⟩ := printed_signed h
  obtain rfl : path = path' := Option.some.inj (hpath.symm.trans hpath')
  have hmatch := hpair passphrase sk hsk
  obtain ⟨hne, hverify⟩ := hmatch.correct hsign
  have hsignature : L.tokens.unbase64 (signatureText L.tokens signature).bytes = some signature := by
    rw [signatureText, columnText_of_noNul (h64.noNul signature)]
    exact h64.decoded signature
  have hentries := parseSizeValue_entriesText hn false
  constructor
  · exact fun hv => List.ne_nil_of_length_pos (Nat.pos_of_ne_zero (hv.pos hn o ws st))
  · intro hrows
    have hparse := hentries.trans (if_pos (.inr (List.length_pos_iff.mpr hrows).ne'))
    refine ⟨fun o' ws' st' => ?_, fun rootHex entries o' ws' st' haccepted => ?_⟩
    · exact accepted_iff.mpr ⟨_, root, signature, pk, hparse, decodeHexExact_rootText root, hsignature,
        hne, hpk, hverify⟩
    · obtain ⟨n', root', signature', pk', hparse', hroot', hsignature', -, hpk', hverify'⟩ :=
        accepted_iff.mp haccepted
      cases hsignature.symm.trans hsignature'
      cases hpk.symm.trans hpk'
      obtain ⟨rfl, rfl⟩ := rootMessage_inj (parseSizeValue_le hparse') hn
        (hmatch.unforgeable hsign hverify')
      exact ⟨hroot', hparse'⟩

end Signed

/-! ### The root of an empty log -/

/-- A signature that is the message. -/
def toyMlDsa : MlDsa Unit Unit where
  loadPrivate _ _ := .ok ()
  loadPublic _ := .ok ()
  sign _ _ m := if m = [] then none else some m
  verify _ m s := decide (s = m)

theorem toyMlDsa_matches : toyMlDsa.Matches () () where
  correct {w m s} h := by
    obtain ⟨hm, h⟩ := Option.ite_none_left_eq_some.mp h
    cases h
    exact ⟨hm, decide_eq_true rfl⟩
  unforgeable {w m s m'} h hv := by
    obtain ⟨-, h⟩ := Option.ite_none_left_eq_some.mp h
    exact (of_decide_eq_true hv).symm.trans (Option.some.inj h).symm

def keyPath : CString := ⟨ascii "key", by decide⟩

/-- Libraries with a base64 that is strict. -/
def strictLibraries : Libraries := { toyLibraries with tokens := strictTokens [] }

/-- `fuin audit-sign-root --private-key key`. -/
def signOptions : Options :=
  { agentOptions ⟨ascii "audit-sign-root", by decide⟩ none with
    token := none, privateKeyPath := some keyPath }

/-- Nothing fails. -/
def calmWorld (_ : ℕ) : World where
  vault _ := calm 1735689600 1
  status := .ok ()
  bytes := .ok []
  text := .ok samplePassword
  flag := true
  number := 0
  now := 1735689600

/-- What is issued in a vault that is locked. -/
def signCommands (db : Db) : List (CliCmd × CliState) :=
  (runAuditSignRoot signOptions).commands (execSigning toyMlDsa strictLibraries) calmWorld ⟨db, none, []⟩

/-- The number of entries that is printed, and that of the log. -/
def printedEntries : CliCmd × CliState → Option (ℕ × ℕ)
  | (.output (.signedRoot _ n _), s) => some (n, s.db.audit.rows.length)
  | _ => none

theorem exists_printed (db : Db) (n : ℕ)
    (h : (signCommands db).any fun x => printedEntries x = some (n, n)) :
    ∃ root signature s, (CliCmd.output (.signedRoot root n signature), s) ∈ signCommands db ∧
      s.db.audit.rows.length = n := by
  obtain ⟨⟨c, s⟩, hmem, h⟩ := List.any_eq_true.mp h
  have h := of_decide_eq_true h
  cases c with
  | output out =>
    cases out with
    | signedRoot root m signature =>
      obtain ⟨rfl, hs⟩ := Prod.mk.inj (Option.some.inj h)
      exact ⟨root, signature, s, hmem, hs⟩
    | _ => nomatch h
  | _ => nomatch h

/-- **The signature of the root of a new vault is never accepted.** -/
theorem new_vault_unverifiable :
    ReadsBase64 strictLibraries.tokens ∧ toyMlDsa.Matches () () ∧
      ∃ root signature s, (CliCmd.output (.signedRoot root 0 signature), s) ∈ signCommands sampleDb ∧
        ¬ Verifiable toyMlDsa strictLibraries keyPath root 0 signature := by
  refine ⟨readsBase64_strictTokens [], toyMlDsa_matches, ?_⟩
  obtain ⟨root, signature, s, hmem, hs⟩ := exists_printed sampleDb 0 (by decide +kernel)
  exact ⟨root, signature, s, hmem, fun hv => hv.pos (Nat.zero_le _) signOptions calmWorld s rfl⟩

/-- A vault with one secret, and one entry in its log. -/
def oneEntry : Db :=
  ((vaultSystem toy).call (some sampleKeys) (.put sampleName [1] none 0)
    (fun _ => calm 1735689600 1) sampleDb).1

theorem one_entry_verifiable : ∃ root signature s,
    (CliCmd.output (.signedRoot root 1 signature), s) ∈ signCommands oneEntry ∧
      Verifiable toyMlDsa strictLibraries keyPath root 1 signature := by
  obtain ⟨root, signature, s, hmem, hs⟩ := exists_printed oneEntry 1 (by decide +kernel)
  refine ⟨root, signature, s, hmem, ?_⟩
  exact (signed_root_iff (readsBase64_strictTokens []) rfl (fun _ _ _ => toyMlDsa_matches) rfl
    hmem).mpr (List.ne_nil_of_length_eq_add_one hs)

end Fuin.Cli.RootSignatures

import Fuin.Cli.Permitted
import Fuin.Vault.Atomic

/-! # The commands ask first

Each command is followed from its first step: what it does before `cli_authorize_token` concerns no
secret, and what it does after it is what the token has been accepted for. `auto-rotate` is followed
too: all it adds to the history are new versions, and nothing has been accepted when it adds them. So
a run is authorised unless it is an `auto-rotate` that rotates a key (`dispatch_authorised_iff`). -/

namespace Fuin.Cli.Dispatch

open Fuin.Utils Fuin.Time Fuin.Crypto Fuin.Lib.Program Fuin.Store.Secrets Fuin.Store.Database
open Fuin.Kdf Fuin.Access.Scope Fuin.Access.Token Fuin.Vault.Rows Fuin.Vault.Transactions
open Fuin.Vault.Operations Fuin.Vault.Rules Fuin.Vault.Calls Fuin.Vault.Reopened Fuin.Vault.Atomic
open Fuin.Vault.Exported Fuin.Vault.Revoked Fuin.Cli.Totp Fuin.Cli.Calls Fuin.Cli.Commands
open Fuin.Cli.Effects Fuin.Cli.Permitted

variable {L : Libraries} {A : World → CliCmd → CliState → Prop} {J : List Event → Event → Prop} {α β : Type} {st : CliState} {o : Options}

/-! ### Steps that concern no secret -/

theorem safe_ofExcept_bind {x : Except Status α} {f : α → CliProg β}
    (hf : ∀ a st, Safe L A J (f a) st) : Safe L A J ((Prog.ofExcept x).bind f) st :=
  safe_bind safe_ofExcept hf

theorem safe_lib {e : Status} : Safe L A J (lib e) st :=
  safe_cmd (fun _ _ => rfl) fun (ok : Bool) _ => by
    cases ok with
    | false => exact safe_fail
    | true => exact safe_ret

theorem safe_output {out : Output} : Safe L A J (output out) st :=
  safe_cmd (fun _ _ => rfl) fun (ok : Bool) _ => by
    cases ok with
    | false => exact safe_fail
    | true => exact safe_ret

theorem safe_outputUnchecked {out : Output} : Safe L A J (outputUnchecked out) st :=
  safe_cmd (fun _ _ => rfl) fun _ _ => safe_ret

theorem safe_copyToClipboard {b : Bytes} : Safe L A J (copyToClipboard b) st :=
  safe_cmd (fun _ _ => rfl) fun _ _ => safe_ofExcept

theorem safe_onFiles {f : FileCall} : Safe L A J (onFiles f) st :=
  safe_cmd (fun _ _ => rfl) fun _ _ => safe_ofExcept

theorem safe_loadKeyPassphrase {confirmed : Bool} : Safe L A J (loadKeyPassphrase confirmed) st :=
  safe_cmd (fun _ _ => rfl) fun _ _ => safe_ofExcept

theorem safe_promptPassword : Safe L A J promptPassword st :=
  safe_cmd (fun _ _ => rfl) fun _ _ => safe_ret

theorem safe_vaultExists : Safe L A J vaultExists st := safe_cmd (fun _ _ => rfl) fun _ _ => safe_ret

theorem safe_time : Safe L A J time st := safe_cmd (fun _ _ => rfl) fun _ _ => safe_ret

theorem safe_readStdin : Safe L A J readStdin st :=
  safe_cmd (fun _ _ => rfl) fun _ _ => safe_ofExcept

theorem safe_deliver {b : Bytes} : Safe L A J (deliver o b) st := by
  unfold deliver
  split_ifs
  · exact safe_copyToClipboard
  · exact safe_outputUnchecked

theorem safe_plaintextOf {r : Result} : Safe L A J (plaintextOf r) st := by
  cases r with
  | value b => exact safe_ret
  | _ => exact safe_fail

theorem safe_putValue : Safe L A J (putValue o) st := by
  unfold putValue
  split_ifs
  · exact safe_readStdin
  · cases o.value with
    | some value => exact safe_ret
    | none =>
      refine safe_bind safe_promptPassword fun typed _ => safe_ofExcept_bind fun a _ => ?_
      refine safe_bind safe_promptPassword fun confirm _ => safe_ofExcept_bind fun b _ => ?_
      exact safe_ofExcept_bind fun _ _ => safe_ret

theorem safe_pickCharacters {charset : Bytes} (n : ℕ) : Safe L A J (pickCharacters charset n) st := by
  induction n generalizing st with
  | zero => exact safe_ret
  | succ n ih => exact safe_cmd (fun _ _ => rfl) fun _ _ => safe_bind ih fun _ _ => safe_ret

theorem safe_generatePassword {length : ℕ} {includeSymbols : Bool} :
    Safe L A J (generatePassword length includeSymbols) st :=
  safe_ofExcept_bind fun _ _ => safe_bind safe_lib fun _ _ => safe_pickCharacters _

/-- A call of the vault that adds nothing to the history. -/
theorem safe_silent {c : VaultCall} (hJ : Persistent J) (h : Silent L.so c) :
    Safe L A J (vault c) st :=
  ok_vault hJ (fun w _ ev hev => by rw [newEvents_silent h] at hev; nomatch hev) fun _ _ _ _ _ => trivial

theorem safe_openUnlockedVault (hJ : Persistent J) : Safe L A J (openUnlockedVault o) st := by
  unfold openUnlockedVault
  refine safe_ofExcept_bind fun password _ => ?_
  split_ifs
  · refine safe_bind (safe_silent hJ silent_init) fun _ _ => ?_
    exact safe_bind (safe_silent hJ silent_unlock) fun _ _ => safe_ret
  · refine safe_bind safe_vaultExists fun found _ => safe_ofExcept_bind fun _ _ => ?_
    refine safe_bind (safe_silent hJ silent_open) fun _ _ => ?_
    exact safe_bind (safe_silent hJ silent_unlockExisting) fun _ _ => safe_ret

/-! ### Commands that ask -/

variable {token : CString} {c : VaultCall} {operation : Operation} {name : CString}

/-- The program does what the token has been accepted for. -/
abbrev Obeys (L : Libraries) (A : World → CliCmd → CliState → Prop) (token : CString)
    (p : CliProg α) (st : CliState) : Prop := Safe L A (Justified L.so token) p st

theorem obeys_open : Obeys L A token (openUnlockedVault o) st :=
  safe_openUnlockedVault persistent_justified

/-- A call that the token allows. -/
theorem obeys_vault (h : Allows token st.history c) : Obeys L A token (vault c) st :=
  ok_vault persistent_justified (fun _ _ => justified_of_allows h) fun _ _ _ _ _ => trivial

theorem cliRequiredScope_eq {required : CString} (h : cliRequiredScope operation name = .ok required) :
    required = requiredScope operation name := by
  unfold cliRequiredScope at h
  obtain ⟨-, -, h⟩ := bind_eq_ok.mp h
  obtain ⟨-, -, h⟩ := bind_eq_ok.mp h
  exact (pure_eq_ok.mp h).symm

/-- What `cli_authorize_token` does with a token. -/
theorem authorizeToken_eq (ho : o.token = some token) :
    authorizeToken o operation name =
      (Prog.ofExcept (require (token.bytes ≠ []) .invalidArgument)).bind fun _ =>
        (Prog.ofExcept (cliRequiredScope operation name)).bind fun required =>
          vault (.checkToken token required) := by
  unfold authorizeToken
  rw [ho]
  rfl

/-- **After `cli_authorize_token`** the token has been accepted. -/
theorem obeys_authorize {f : Unit → CliProg α} (ho : o.token = some token)
    (h : ∀ st, Granted token st.history operation name → Obeys L A token (f ()) st) :
    Obeys L A token ((authorizeToken o operation name).bind f) st := by
  rw [authorizeToken_eq ho, Prog.bind_assoc]
  refine safe_ofExcept_bind fun _ st => ?_
  cases hscope : cliRequiredScope operation name with
  | error e => exact safe_fail
  | ok required =>
    obtain rfl := cliRequiredScope_eq hscope
    refine Contract.Ok.bind (ok_vault persistent_justified (fun _ _ => justified_of_allows trivial) ?_)
    intro w a st' ha hst'
    refine h st' ?_
    have hmem : .accepted token (requiredScope operation name) ∈
        newEvents L w (.checkToken token (requiredScope operation name)) st := by
      refine List.mem_append_right _ ?_
      rw [ha]
      exact List.mem_singleton_self _
    unfold Granted
    rw [hst']
    exact List.mem_append_right _ hmem

/-! ### The commands, one by one -/

theorem obeys_runPut (ho : o.token = some token) : Obeys L A token (runPut o) st := by
  unfold runPut
  refine safe_ofExcept_bind fun name _ => safe_bind safe_putValue fun secret _ => ?_
  refine safe_bind obeys_open fun _ _ => obeys_authorize ho fun _ hg => ?_
  exact safe_bind (obeys_vault hg) fun _ _ => safe_ret

theorem obeys_runGenerate (ho : o.token = some token) : Obeys L A token (runGenerate o) st := by
  unfold runGenerate
  refine safe_ofExcept_bind fun name _ => safe_ofExcept_bind fun length _ => ?_
  refine safe_bind safe_generatePassword fun password _ => ?_
  refine safe_bind obeys_open fun _ _ => obeys_authorize ho fun _ hg => ?_
  exact safe_bind (obeys_vault hg) fun _ _ => safe_deliver

theorem obeys_runGet (ho : o.token = some token) : Obeys L A token (runGet o) st := by
  unfold runGet
  refine safe_ofExcept_bind fun name _ => safe_bind safe_lib fun _ _ => ?_
  refine safe_bind obeys_open fun _ _ => obeys_authorize ho fun _ hg => ?_
  refine safe_bind (obeys_vault ?_) fun r _ => safe_bind safe_plaintextOf fun plaintext _ => ?_
  · split_ifs <;> exact hg
  · split_ifs
    · exact safe_copyToClipboard
    · exact safe_output

theorem obeys_runTotp (ho : o.token = some token) : Obeys L A token (runTotp L o) st := by
  unfold runTotp
  refine safe_ofExcept_bind fun name _ => safe_bind safe_lib fun _ _ => ?_
  refine safe_bind obeys_open fun _ _ => obeys_authorize ho fun _ hg => ?_
  refine safe_bind (obeys_vault hg) fun r _ => safe_bind safe_plaintextOf fun seedText _ => ?_
  refine safe_ofExcept_bind fun seed _ => safe_bind safe_time fun now _ => ?_
  exact safe_ofExcept_bind fun code _ => safe_deliver

theorem obeys_runDelete (ho : o.token = some token) : Obeys L A token (runDelete o) st := by
  unfold runDelete
  refine safe_ofExcept_bind fun name _ => safe_bind obeys_open fun _ _ => ?_
  refine obeys_authorize ho fun _ hg => ?_
  exact safe_bind (obeys_vault hg) fun _ _ => safe_ret

theorem obeys_runRollback (ho : o.token = some token) : Obeys L A token (runRollback o) st := by
  unfold runRollback
  refine safe_ofExcept_bind fun name _ => safe_ofExcept_bind fun _ _ => ?_
  refine safe_bind obeys_open fun _ _ => obeys_authorize ho fun _ hg => ?_
  refine safe_bind (obeys_vault hg) fun _ st => safe_bind ?_ fun _ _ => safe_ret
  have hshown : Obeys L A token (vault (.getActiveVersion name)) st := obeys_vault trivial
  exact hshown.attempt (R := fun _ _ => True)

/-! Commands that concern no single secret. -/

theorem obeys_runList : Obeys L A token (runList o) st := by
  unfold runList
  refine safe_bind obeys_open fun _ _ => safe_bind (obeys_vault trivial) fun r _ => ?_
  cases r with
  | items l =>
    cases l with
    | nil => exact safe_outputUnchecked
    | cons item l => exact safe_output
  | _ => exact safe_fail

theorem obeys_runInit : Obeys L A token (runInit o) st :=
  safe_bind obeys_open fun _ _ => safe_outputUnchecked

theorem obeys_runCheckExpiry : Obeys L A token (runCheckExpiry o) st := by
  unfold runCheckExpiry
  refine safe_bind obeys_open fun _ _ => safe_bind (obeys_vault trivial) fun (l : List _) _ => ?_
  cases l with
  | nil => exact safe_outputUnchecked
  | cons expiry l => exact safe_output

theorem obeys_runRotateKek : Obeys L A token (runRotateKek o) st := by
  unfold runRotateKek
  refine safe_ofExcept_bind fun newPassword _ => safe_bind obeys_open fun _ _ => ?_
  exact safe_bind (obeys_vault trivial) fun _ _ => safe_ret

theorem obeys_runIssueToken : Obeys L A token (runIssueToken o) st := by
  unfold runIssueToken
  refine safe_ofExcept_bind fun scope _ => safe_ofExcept_bind fun ttl _ => ?_
  refine safe_bind obeys_open fun _ _ => safe_bind (obeys_vault trivial) fun r _ => ?_
  cases r with
  | token claims => exact safe_outputUnchecked
  | _ => exact safe_fail

theorem obeys_runCheckToken : Obeys L A token (runCheckToken o) st := by
  unfold runCheckToken
  refine safe_ofExcept_bind fun token _ => safe_ofExcept_bind fun scope _ => ?_
  refine safe_bind obeys_open fun _ _ => ?_
  exact safe_bind (obeys_vault trivial) fun _ _ => safe_outputUnchecked

theorem obeys_runRevokeTokens : Obeys L A token (runRevokeTokens o) st := by
  unfold runRevokeTokens
  refine safe_bind obeys_open fun _ _ => ?_
  exact safe_bind (obeys_vault trivial) fun _ _ => safe_outputUnchecked

theorem obeys_runAuditVerify : Obeys L A token (runAuditVerify o) st := by
  unfold runAuditVerify
  refine safe_bind obeys_open fun _ _ => ?_
  exact safe_bind (obeys_vault trivial) fun _ _ => safe_outputUnchecked

theorem obeys_runAuditRoot : Obeys L A token (runAuditRoot o) st := by
  unfold runAuditRoot
  refine safe_bind obeys_open fun _ _ => ?_
  exact safe_bind (obeys_vault trivial) fun _ _ => safe_output

theorem obeys_runAuditProof : Obeys L A token (runAuditProof o) st := by
  unfold runAuditProof
  refine safe_ofExcept_bind fun _ _ => safe_bind obeys_open fun _ _ => ?_
  exact safe_bind (obeys_vault trivial) fun _ _ => safe_output

theorem obeys_runAuditVerifyProof : Obeys L A token (runAuditVerifyProof o) st := by
  unfold runAuditVerifyProof
  refine safe_ofExcept_bind fun _ _ => safe_ofExcept_bind fun rootHex _ => ?_
  refine safe_ofExcept_bind fun proofHex _ => safe_ofExcept_bind fun leafIndex _ => ?_
  refine safe_ofExcept_bind fun leafCount _ => safe_ofExcept_bind fun root _ => ?_
  refine safe_ofExcept_bind fun proof _ => safe_bind obeys_open fun _ _ => ?_
  exact safe_bind (obeys_vault trivial) fun _ _ => safe_outputUnchecked

theorem obeys_runAuditKeygen : Obeys L A token (runAuditKeygen o) st := by
  unfold runAuditKeygen
  refine safe_ofExcept_bind fun publicPath _ => safe_ofExcept_bind fun privatePath _ => ?_
  refine safe_bind safe_lib fun _ _ => safe_bind safe_loadKeyPassphrase fun passphrase _ => ?_
  exact safe_bind safe_onFiles fun _ _ => safe_outputUnchecked

theorem obeys_runAuditSignRoot : Obeys L A token (runAuditSignRoot o) st := by
  unfold runAuditSignRoot
  refine safe_ofExcept_bind fun privateKey _ => safe_bind safe_loadKeyPassphrase fun passphrase _ => ?_
  refine safe_bind obeys_open fun _ _ => safe_bind (obeys_vault trivial) fun _ _ => ?_
  exact safe_bind safe_onFiles fun _ _ => safe_output

theorem obeys_runAuditVerifyRootSig : Obeys L A token (runAuditVerifyRootSig L o) st := by
  unfold runAuditVerifyRootSig
  refine safe_ofExcept_bind fun publicKey _ => safe_ofExcept_bind fun rootHex _ => ?_
  refine safe_ofExcept_bind fun leafCount _ => safe_ofExcept_bind fun signatureB64 _ => ?_
  refine safe_ofExcept_bind fun root _ => safe_ofExcept_bind fun signature _ => ?_
  exact safe_bind safe_onFiles fun _ _ => safe_outputUnchecked

theorem obeys_runStatusReport : Obeys L A token (runStatusReport o) st := by
  unfold runStatusReport
  refine safe_bind obeys_open fun _ _ => ?_
  exact safe_bind (obeys_vault trivial) fun _ _ => safe_output

theorem obeys_runPqcKeygen : Obeys L A token (runPqcKeygen o) st := by
  unfold runPqcKeygen
  refine safe_ofExcept_bind fun publicPath _ => safe_ofExcept_bind fun privatePath _ => ?_
  refine safe_bind safe_loadKeyPassphrase fun passphrase _ => ?_
  exact safe_bind safe_onFiles fun _ _ => safe_outputUnchecked

theorem obeys_runBackupExport : Obeys L A token (runBackupExport o) st := by
  unfold runBackupExport
  refine safe_ofExcept_bind fun recipient _ => safe_ofExcept_bind fun capsulePath _ => ?_
  refine safe_bind obeys_open fun _ _ => ?_
  exact safe_bind (obeys_vault trivial) fun _ _ => safe_outputUnchecked

theorem obeys_runBackupImport : Obeys L A token (runBackupImport o) st := by
  unfold runBackupImport
  refine safe_ofExcept_bind fun privateKey _ => safe_ofExcept_bind fun capsulePath _ => ?_
  refine safe_ofExcept_bind fun outputPath _ => safe_bind safe_loadKeyPassphrase fun passphrase _ => ?_
  exact safe_bind safe_onFiles fun _ _ => safe_outputUnchecked

theorem safe_ite {p : Prop} [Decidable p] {q r : CliProg α} (hq : p → Safe L A J q st)
    (hr : ¬ p → Safe L A J r st) : Safe L A J (if p then q else r) st := by
  split_ifs with h
  · exact hq h
  · exact hr h

/-- **Every command but `auto-rotate` asks.** -/
theorem obeys_dispatch {fuel : ℕ} (ho : o.token = some token) (hcmd : ¬ o.is autoRotateNames) :
    Obeys L A token (dispatch L fuel o) st := by
  unfold dispatch
  refine safe_ite (fun _ => safe_fail) fun _ => ?_
  refine safe_ite (fun _ => obeys_runInit) fun _ => ?_
  refine safe_ite (fun _ => obeys_runPut ho) fun _ => ?_
  refine safe_ite (fun _ => obeys_runGenerate ho) fun _ => ?_
  refine safe_ite (fun _ => obeys_runGet ho) fun _ => ?_
  refine safe_ite (fun _ => obeys_runTotp ho) fun _ => ?_
  refine safe_ite (fun _ => obeys_runList) fun _ => ?_
  refine safe_ite (fun _ => obeys_runDelete ho) fun _ => ?_
  refine safe_ite (fun _ => obeys_runRollback ho) fun _ => ?_
  refine safe_ite (fun _ => obeys_runRotateKek) fun _ => ?_
  refine safe_ite (fun _ => obeys_runCheckExpiry) fun _ => ?_
  refine safe_ite (fun h => absurd h hcmd) fun _ => ?_
  refine safe_ite (fun _ => obeys_runIssueToken) fun _ => ?_
  refine safe_ite (fun _ => obeys_runCheckToken) fun _ => ?_
  refine safe_ite (fun _ => obeys_runRevokeTokens) fun _ => ?_
  refine safe_ite (fun _ => obeys_runAuditVerify) fun _ => ?_
  refine safe_ite (fun _ => obeys_runAuditRoot) fun _ => ?_
  refine safe_ite (fun _ => obeys_runAuditProof) fun _ => ?_
  refine safe_ite (fun _ => obeys_runAuditVerifyProof) fun _ => ?_
  refine safe_ite (fun _ => obeys_runAuditKeygen) fun _ => ?_
  refine safe_ite (fun _ => obeys_runAuditSignRoot) fun _ => ?_
  refine safe_ite (fun _ => obeys_runAuditVerifyRootSig) fun _ => ?_
  refine safe_ite (fun _ => obeys_runStatusReport) fun _ => ?_
  refine safe_ite (fun _ => obeys_runPqcKeygen) fun _ => ?_
  refine safe_ite (fun _ => obeys_runBackupExport) fun _ => ?_
  refine safe_ite (fun _ => obeys_runBackupImport) fun _ => ?_
  exact safe_fail

/-! ### The command that does not ask -/

/-- `auto-rotate` is dispatched to its function. -/
theorem dispatch_autoRotate {fuel : ℕ} (h : o.is autoRotateNames) :
    dispatch L fuel o = runAutoRotate fuel o := by
  have hother : ∀ names : List Bytes, (∀ n ∈ names, n ∉ autoRotateNames) → ¬ o.is names :=
    fun _ hn h' => hn _ h' h
  have hempty : o.command.bytes ≠ [] := fun he => hother [[]] (by decide +kernel) (List.mem_singleton.mpr he)
  unfold dispatch
  rw [if_neg hempty, if_neg (hother _ (by decide +kernel)), if_neg (hother _ (by decide +kernel)),
    if_neg (hother _ (by decide +kernel)), if_neg (hother _ (by decide +kernel)), if_neg (hother _ (by decide +kernel)),
    if_neg (hother _ (by decide +kernel)), if_neg (hother _ (by decide +kernel)), if_neg (hother _ (by decide +kernel)),
    if_neg (hother _ (by decide +kernel)), if_neg (hother _ (by decide +kernel)), if_pos h]

/-- The step rotates no key of a secret. -/
def Spared (L : Libraries) (w : World) (c : CliCmd) (st : CliState) : Prop :=
  ∀ fuel, c = .vault (.op (.autoRotate fuel)) → createdNames st.db.secrets
    (callVault L w (.op (.autoRotate fuel)) st.db st.session).1.secrets = []

/-- All that `vault_auto_rotate_expired` adds is new versions. -/
theorem newEvents_autoRotate {w : World} {fuel : ℕ} :
    newEvents L w (.op (.autoRotate fuel)) st = (createdNames st.db.secrets
      (callVault L w (.op (.autoRotate fuel)) st.db st.session).1.secrets).map
        (.created st.session) := by
  have harchived : archivedNames st.db.secrets
      (callVault L w (.op (.autoRotate fuel)) st.db st.session).1.secrets = [] := by
    refine List.eq_nil_iff_forall_not_mem.mpr fun name hname => ?_
    have hmem := (callVault_effect (L := L) w (.op (.autoRotate fuel)) st.db st.session).archived _ hname
    unfold callDeletes at hmem
    cases hs : st.session <;> rw [hs] at hmem <;> exact hmem
  have hreplied : ∀ r, replied (.op (.autoRotate fuel)) r = [] := fun r => by cases r <;> rfl
  unfold newEvents changes
  rw [harchived, hreplied, List.map_nil, List.append_nil, List.append_nil]

/-- What `auto-rotate` does, of which the rotation may be restricted. -/
theorem safe_runAutoRotate {fuel : ℕ} (hJ : Persistent J)
    (h : ∀ w st, A w (.vault (.op (.autoRotate fuel))) st →
      ∀ ev ∈ newEvents L w (.op (.autoRotate fuel)) st, J st.history ev) :
    Safe L A J (runAutoRotate fuel o) st := by
  unfold runAutoRotate
  refine safe_bind (safe_openUnlockedVault hJ) fun _ st => ?_
  refine safe_bind (ok_vault hJ (h · st) fun _ _ _ _ _ => trivial) fun r _ => ?_
  cases r with
  | count n => exact safe_outputUnchecked
  | _ => exact safe_fail

/-- Nothing is admitted but new versions. -/
def OnlyCreates (_ : List Event) (event : Event) : Prop := ∃ session name, event = .created session name

theorem persistent_onlyCreates : Persistent OnlyCreates := fun _ _ _ _ h => h

/-- A history that begins with a new version is not authorised. -/
theorem nil_of_authorised {so : Sodium} {history : List Event} (h : Authorised so token history)
    (hcreates : Ordered OnlyCreates history) : history = [] := by
  cases history with
  | nil => rfl
  | cons event history =>
    obtain ⟨session, name, rfl⟩ := hcreates.admitted 0 (Nat.zero_lt_succ _)
    obtain ⟨keys, _, -, -, hgranted⟩ := h.admitted 0 (Nat.zero_lt_succ _)
    nomatch hgranted

variable {ws : ℕ → World}

/-- A run forgets nothing. -/
theorem history_subset {p : CliProg α} :
    st.history ⊆ (p.run (exec L) ws st).1.history := by
  induction p generalizing st ws with
  | ret a => exact List.Subset.refl _
  | fail e => exact List.Subset.refl _
  | cmd c k ih =>
    refine List.Subset.trans ?_ (ih _)
    cases c with
    | vault c => exact List.subset_append_of_subset_left _ (List.subset_append_left _ _)
    | _ => exact List.Subset.refl _

/-- A run without a history has rotated no key. -/
theorem along_spared {p : CliProg α} (h : (p.run (exec L) ws st).1.history = []) :
    p.Along (exec L) (Spared L) ws st := by
  induction p generalizing st ws with
  | ret a => trivial
  | fail e => trivial
  | cmd c k ih =>
    refine ⟨?_, ih _ h⟩
    rintro fuel rfl
    have hstep : (exec L (ws 0) (.vault (.op (.autoRotate fuel))) st).1.history = [] :=
      List.subset_nil.mp (h ▸ history_subset)
    have hnew : newEvents L (ws 0) (.op (.autoRotate fuel)) st = [] :=
      (List.append_eq_nil_iff.mp ((List.append_assoc _ _ _).symm.trans hstep)).2
    rw [newEvents_autoRotate] at hnew
    exact List.map_eq_nil_iff.mp hnew

/-- A run in which no key is rotated is authorised. -/
theorem authorised_of_spared {fuel : ℕ} (ho : o.token = some token) (hst : st.history = [])
    (h : ¬ o.is autoRotateNames ∨ (dispatch L fuel o).Along (exec L) (Spared L) ws st) :
    Authorised L.so token ((dispatch L fuel o).run (exec L) ws st).1.history := by
  have hnil : Authorised L.so token st.history := hst ▸ ordered_nil
  by_cases hcmd : o.is autoRotateNames
  · have hobeys : Obeys L (Spared L) token (dispatch L fuel o) st := by
      rw [dispatch_autoRotate hcmd]
      refine safe_runAutoRotate persistent_justified fun w st hspared ev hev => ?_
      rw [newEvents_autoRotate, hspared fuel rfl] at hev
      nomatch hev
    exact (hobeys.run_along hnil (h.resolve_left (not_not_intro hcmd))).1
  · have hobeys : Obeys L (fun _ _ _ => True) token (dispatch L fuel o) st := obeys_dispatch ho hcmd
    exact (hobeys.run hnil fun _ _ _ => trivial).1

/-- An `auto-rotate` that is authorised has rotated no key. -/
theorem spared_of_authorised {fuel : ℕ} (hcmd : o.is autoRotateNames) (hst : st.history = [])
    (h : Authorised L.so token ((dispatch L fuel o).run (exec L) ws st).1.history) :
    (dispatch L fuel o).Along (exec L) (Spared L) ws st := by
  have hcreates : Safe L (fun _ _ _ => True) OnlyCreates (dispatch L fuel o) st := by
    rw [dispatch_autoRotate hcmd]
    refine safe_runAutoRotate persistent_onlyCreates fun w st _ ev hev => ?_
    rw [newEvents_autoRotate] at hev
    obtain ⟨name, -, rfl⟩ := List.mem_map.mp hev
    exact ⟨_, name, rfl⟩
  have hnil : Ordered OnlyCreates st.history := hst ▸ ordered_nil
  exact along_spared (nil_of_authorised h (hcreates.run hnil fun _ _ _ => trivial).1)

/-! ### Nothing to rotate -/

/-- No current secret has expired by the clock that the call reads first. -/
def NothingDue (w : World) (db : Db) : Prop :=
  ∀ now, nowIso8601 (w.vault 0 0).now = .ok now → db.secrets.nextExpired now.bytes = none

theorem rotateExpired_nothingDue {so : Sodium} {keys : Subkeys} {now : CString} {fuel rotated : ℕ}
    {db db' : Db} {r : Except Status ℕ} (h : db.secrets.nextExpired now.bytes = none)
    (hrun : (rotateExpired so keys now fuel rotated).Runs (Cmd.exec so) db db' r) : db' = db := by
  cases fuel with
  | zero => exact (Prog.runs_fail hrun).1
  | succ fuel =>
    have hname : nextExpiredName now db = .ok none := by
      unfold nextExpiredName
      rw [h]
      rfl
    rcases Prog.runs_bind_cases hrun with ⟨e, rfl, h1⟩ | ⟨out, db₁, h1, h2⟩
    · exact Sql.readOnly_select.runs (runs_sql h1)
    · obtain ⟨rfl, hout⟩ := Sql.runs_select (runs_sql h1)
      obtain rfl := Except.ok.inj (hname.symm.trans hout)
      exact (Prog.runs_ret h2).1

/-- `vault_auto_rotate_expired` leaves a vault as it is in which nothing has expired. -/
theorem autoRotate_nothingDue {w : World} {fuel : ℕ} {db : Db} {session : Option Subkeys}
    (h : NothingDue w db) : (callVault L w (.op (.autoRotate fuel)) db session).1 = db := by
  cases session with
  | none => rfl
  | some keys =>
    have hfirst : (callVault L w (.op (.autoRotate fuel)) db (some keys)).1 =
        (((sql (Prog.ofExcept (nowIso8601 (w.vault 0 0).now))).bind fun now =>
          (rotateExpired L.so keys now fuel 0).bind fun n => .ret (Result.count n)).run
            (Cmd.exec L.so) (fun n => w.vault (n + 1)) db).1 := by
      show (((autoRotateExpired L.so keys fuel).bind fun n => .ret (Result.count n)).run
        (Cmd.exec L.so) w.vault db).1 = _
      unfold autoRotateExpired
      rw [Prog.bind_def, Prog.bind_assoc]
      rfl
    rw [hfirst]
    cases hnow : nowIso8601 (w.vault 0 0).now with
    | error e => rfl
    | ok now =>
      rcases Prog.runs_bind_cases (Prog.runs_run (s := db)
        (p := (rotateExpired L.so keys now fuel 0).bind fun n => .ret (Result.count n))
        fun n => w.vault (n + 1)) with ⟨e, -, h1⟩ | ⟨n, db₁, h1, h2⟩
      · exact rotateExpired_nothingDue (h now hnow) h1
      · exact (Prog.runs_ret h2).1.trans (rotateExpired_nothingDue (h now hnow) h1)

/-- A step in which nothing has expired rotates no key. -/
theorem spared_of_nothingDue {w : World} {c : CliCmd}
    (h : ∀ fuel, c = .vault (.op (.autoRotate fuel)) → NothingDue w st.db) : Spared L w c st := by
  rintro fuel rfl
  rw [autoRotate_nothingDue (h fuel rfl)]
  have hsame : Effect ∅ ∅ st.db.secrets st.db.secrets := .refl _
  exact List.eq_nil_iff_forall_not_mem.mpr hsame.created

/-- While nothing has expired, every command is authorised. -/
theorem authorised_of_nothingDue {fuel : ℕ} (ho : o.token = some token) (hst : st.history = [])
    (h : (dispatch L fuel o).Along (exec L)
      (fun w c st => ∀ fuel, c = .vault (.op (.autoRotate fuel)) → NothingDue w st.db) ws st) :
    Authorised L.so token ((dispatch L fuel o).run (exec L) ws st).1.history :=
  authorised_of_spared ho hst (Or.inr (h.mono fun _ _ _ => spared_of_nothingDue))

/-! ### All commands -/

/-- **The token narrows every command**, except for `auto-rotate`, which rotates the keys of expired
secrets of any name. -/
theorem dispatch_authorised_iff {fuel : ℕ} (ho : o.token = some token) (hst : st.history = []) :
    Authorised L.so token ((dispatch L fuel o).run (exec L) ws st).1.history ↔
      ¬ o.is autoRotateNames ∨ (dispatch L fuel o).Along (exec L) (Spared L) ws st := by
  refine ⟨fun h => ?_, authorised_of_spared ho hst⟩
  by_cases hcmd : o.is autoRotateNames
  · exact Or.inr (spared_of_authorised hcmd hst h)
  · exact Or.inl hcmd

/-- Libraries to compute with. -/
def toyLibraries : Libraries where
  so := toy
  tokens := toyTokens [agentClaims]
  keys := toyKeyLibrary
  serialize _ := []
  files _ := none
  hmacSha1 _ _ := none

/-- A token that may read, for the vault `expiring`. -/
def agentToken : CString := tokenText toy (toyTokens [agentClaims]) expiringKeys.kekToken agentClaims

/-- A command line with a command, and with the token that may read. -/
def agentOptions (command : CString) (name : Option CString) : Options where
  command := command
  password := some samplePassword
  newPassword := none
  name := name
  value := none
  algorithm := none
  subject := none
  scope := none
  token := some agentToken
  rootHex := none
  proofHex := none
  signatureB64 := none
  recipientPath := none
  privateKeyPath := none
  publicKeyPath := none
  publicOutPath := none
  privateOutPath := none
  inputPath := none
  outputPath := none
  ttlSeconds := none
  withinSeconds := none
  leafIndex := none
  leafCount := none
  generateLength := none
  version := 0
  entryId := 0
  noSymbols := false
  copy := false
  raw := false
  showAll := false
  readStdin := false

/-- Nothing fails, and the secret of `expiring` has expired. -/
def lateWorld (n : ℕ) : World where
  vault _ := calm 1735689620 (UInt8.ofNat (n + 10))
  status := .ok ()
  bytes := .ok []
  text := .error .invalidArgument
  flag := true
  number := 0
  now := 1735689620

/-- The command line starts on the vault, which is locked. -/
def lateState : CliState := ⟨expiring.db, none, []⟩

/-- What a command with the token adds to the history. -/
def agentHistory (command : CString) (name : Option CString) : List Event :=
  ((dispatch toyLibraries 3 (agentOptions command name)).run (exec toyLibraries) lateWorld
    lateState).1.history

def getText : CString := ⟨ascii "get", by decide⟩

def autoRotateText : CString := ⟨ascii "auto-rotate", by decide⟩

def databaseText : CString := sampleName

/-- `get` asks, and the plaintext is handed out. -/
theorem agent_reads :
    Authorised toyLibraries.so agentToken (agentHistory getText (some databaseText)) ∧
      (agentHistory getText (some databaseText)).length = 2 := by
  have hget : ¬ (agentOptions getText (some databaseText)).is autoRotateNames := by decide +kernel
  have htoken : (agentOptions getText (some databaseText)).token = some agentToken := rfl
  have hnew : lateState.history = [] := rfl
  have hiff := @dispatch_authorised_iff toyLibraries lateState
    (agentOptions getText (some databaseText)) agentToken lateWorld 3 htoken hnew
  refine ⟨?_, by decide +kernel⟩
  unfold agentHistory
  exact hiff.mpr (Or.inl hget)

/-- The event is a new version. -/
def isCreated : Event → Bool
  | .created _ _ => true
  | _ => false

theorem not_authorised_of_created {so : Sodium} {history : List Event}
    (h : history.head?.any isCreated) : ¬ Authorised so token history := by
  intro hauthorised
  cases history with
  | nil => nomatch h
  | cons event history =>
    cases event with
    | created session name =>
      obtain ⟨_, _, -, -, hgranted⟩ := hauthorised.admitted 0 (Nat.zero_lt_succ _)
      nomatch hgranted
    | _ => nomatch h

/-- **`auto-rotate` does not ask**: the token may read, and a version is inserted. -/
theorem autoRotate_unasked :
    ¬ ∀ (L : Libraries) (fuel : ℕ) (o : Options) (token : CString) (ws : ℕ → World) (st : CliState),
      o.token = some token → st.history = [] →
        Authorised L.so token ((dispatch L fuel o).run (exec L) ws st).1.history := by
  intro h
  have hcreated : (agentHistory autoRotateText none).head?.any isCreated := by decide +kernel
  have htoken : (agentOptions autoRotateText none).token = some agentToken := rfl
  have hnew : lateState.history = [] := rfl
  have hnot : ¬ Authorised toyLibraries.so agentToken (agentHistory autoRotateText none) :=
    not_authorised_of_created hcreated
  refine hnot ?_
  unfold agentHistory
  exact h _ _ _ _ _ _ htoken hnew

end Fuin.Cli.Dispatch

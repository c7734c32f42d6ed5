import Fuin.Access.Matcher
import Fuin.Access.Roundtrip
import Fuin.Cli.Dispatch

/-! # The names a token reaches

`cli_authorize_token` prints the scope it asks for, an operation, a colon and the name, into a buffer
of 256 bytes; a name may have 256 bytes of its own. So a name is reached with a valid token if and
only if its scope allows it and the text has room (`authorised_iff`): the last names for which it
has are those of 250, 249 and 248 bytes, for `read`, `write` and `delete`. -/

namespace Fuin.Cli.Reachable

open Fuin.Utils Fuin.Crypto Fuin.Lib.Frames Fuin.Lib.Program Fuin.Store.Database Fuin.Store.Success Fuin.Kdf
open Fuin.Access.Scope Fuin.Access.Token Fuin.Access.Roundtrip Fuin.Vault.Rows Fuin.Vault.Operations
open Fuin.Vault.Rules Fuin.Vault.Revoked Fuin.Cli.Calls Fuin.Cli.Commands Fuin.Cli.Dispatch

/-- The time stored by `vault_revoke_tokens`, `0` if there is none. -/
def notBeforeOf (db : Db) : Except Status ℕ := do
  match ← metadataBlob .tokenNotBefore 8 db with
  | none => return 0
  | some encoded => do
    require (encoded.length = 8) .storage
    return ofLeBytes encoded

/-- A token of an open vault that is valid at a time, unexpired and not revoked. -/
structure Valid (L : Libraries) (st : CliState) (now : ℤ) (token : CString) (claims : Claims) :
    Prop where
  read : ∃ keys, st.session = some keys ∧
    tokenClaims L.so L.tokens keys.kekToken token = .ok claims
  nonneg : 0 ≤ now
  unexpired : now.toNat < claims.expiresAt
  unrevoked : ∃ n, notBeforeOf st.db = .ok n ∧ ¬ (0 < n ∧ claims.issuedAt ≤ n)

/-- The scope that is asked for has room in its buffer. -/
def Fits (op : Operation) (name : CString) : Prop :=
  (requiredScope op name).bytes.length < 256

instance (op : Operation) (name : CString) : Decidable (Fits op name) := by
  unfold Fits; infer_instance

theorem fits_iff {op : Operation} {name : CString} :
    Fits op name ↔ op.text.length + 1 + name.bytes.length < 256 := by
  unfold Fits requiredScope
  rw [List.length_append, List.length_cons]
  omega

variable {L : Libraries} {st : CliState} {now : ℤ} {token required name : CString} {claims : Claims}
  {op : Operation} {o : Options} {db : Db}

theorem getTokenNotBefore_run {n : ℕ} {es : ℕ → Input} (hq : Quiet now es)
    (h : notBeforeOf db = .ok n) : getTokenNotBefore.run Stmt.exec es db = (db, .ok n) := by
  obtain ⟨o, ho, hn⟩ := bind_eq_ok.mp h
  unfold getTokenNotBefore getMetadataBlob
  rw [Prog.bind_def, run_select_bind hq.faultless, ho]
  cases o with
  | none =>
    cases hn
    rfl
  | some encoded =>
    obtain ⟨_, hlen, hret⟩ := bind_eq_ok.mp hn
    cases hret
    show ((Prog.ofExcept (require (encoded.length = 8) .storage)).bind _).run _ _ _ = _
    rw [run_require_bind (require_eq_ok.mp hlen)]
    rfl

/-- **A valid token is accepted for what it permits.** -/
theorem checkToken_run {es : ℕ → Input} (hv : Valid L st now token claims) (hq : Quiet now es) :
    (checkToken L.so L.tokens st.session token required).run Stmt.exec es st.db =
      (st.db, if Permits claims required then .ok () else .error .auth) := by
  obtain ⟨keys, hkeys, hread⟩ := hv.read
  obtain ⟨n, hn, hrevoked⟩ := hv.unrevoked
  have hverify := accessVerifyToken_run st.db required hq hv.nonneg hread
  rw [hkeys]
  unfold checkToken
  simp only [Prog.bind_def]
  by_cases hper : Permits claims required
  · rw [if_pos ⟨hv.unexpired, hper⟩] at hverify
    obtain ⟨k, hk⟩ := Prog.run_bind_ok _ hverify
    obtain ⟨k', hk'⟩ := Prog.run_bind_ok _ (getTokenNotBefore_run (hq.drop k) hn)
    rw [hk, hk', run_ofExcept, require_eq_ok.mpr hrevoked, if_pos hper]
  · rw [if_neg fun h => hper h.2] at hverify
    rw [Prog.run_bind_error _ hverify, if_neg hper]

/-- Nothing fails in the vault and its clock stands at `now`. -/
def QuietVault (now : ℤ) (es : ℕ → World) : Prop := ∀ n, Quiet now fun k => (es n).vault k 0

theorem cliRequiredScope_of_fits (hname : name.bytes ≠ []) (hfits : Fits op name) :
    cliRequiredScope op name = .ok (requiredScope op name) :=
  bind_eq_ok.mpr ⟨(), require_eq_ok.mpr hname, bind_eq_ok.mpr ⟨(), require_eq_ok.mpr hfits, rfl⟩⟩

theorem cliRequiredScope_of_not_fits (hfits : ¬ Fits op name) :
    ∃ e, cliRequiredScope op name = .error e := by
  cases h : cliRequiredScope op name with
  | error e => exact ⟨e, rfl⟩
  | ok required =>
    obtain ⟨_, -, h⟩ := bind_eq_ok.mp h
    obtain ⟨_, hlen, -⟩ := bind_eq_ok.mp h
    exact absurd (require_eq_ok.mp hlen) hfits

/-- **What `cli_authorize_token` says of a valid token.** -/
theorem authorizeToken_run {es : ℕ → World} (ho : o.token = some token)
    (hv : Valid L st now token claims) (hname : name.bytes ≠ []) (hq : QuietVault now es) :
    ((authorizeToken o op name).run (exec L) es st).2 = .ok () ↔
      Fits op name ∧ scopeAllows claims.scope (requiredScope op name) = true := by
  obtain ⟨keys, -, hread⟩ := hv.read
  obtain ⟨_, hparts, -⟩ := bind_eq_ok.mp hread
  have htoken := token_ne_nil hparts
  have hrequired : (requiredScope op name).bytes ≠ [] := by simp [requiredScope]
  rw [authorizeToken_eq ho, (require_eq_ok (u := ())).mpr htoken]
  by_cases hfits : Fits op name
  · rw [cliRequiredScope_of_fits hname hfits]
    show ((Prog.ofExcept ((checkToken L.so L.tokens st.session token (requiredScope op name)).run
      Stmt.exec (fun k => (es 0).vault k 0) st.db).2 : CliProg Unit).run (exec L) _ _).2 = .ok () ↔ _
    rw [checkToken_run hv (hq 0)]
    by_cases hper : Permits claims (requiredScope op name)
    · rw [if_pos hper]
      exact ⟨fun _ => ⟨hfits, hper.resolve_left hrequired⟩, fun _ => rfl⟩
    · rw [if_neg hper]
      refine iff_of_false (fun h => ?_) fun h => hper (Or.inr h.2)
      cases h
  · obtain ⟨e, he⟩ := cliRequiredScope_of_not_fits hfits
    rw [he]
    refine iff_of_false (fun h => ?_) fun h => hfits h.1
    cases h

/-- The scope `*` allows everything that is asked for. -/
theorem scopeAllows_star (hstar : claims.scope.bytes = [star]) :
    scopeAllows claims.scope (requiredScope op name) = true := by
  refine (Access.Matcher.scopeAllows_iff _ _).mpr ⟨?_, by simp [requiredScope], [star], ?_, Or.inl rfl⟩
  · rw [hstar]
    exact List.cons_ne_nil _ _
  · rw [hstar, List.splitOn_eq_singleton (by decide)]
    exact List.mem_singleton_self _

/-- **Every name with room for its scope is reached**: a valid token is accepted for exactly what its
scope allows if and only if the scope that is asked for has room in its buffer or is not allowed. -/
theorem authorised_iff {es : ℕ → World} (ho : o.token = some token)
    (hv : Valid L st now token claims) (hname : nameIsClean name = true) (hq : QuietVault now es) :
    ((((authorizeToken o op name).run (exec L) es st).2 = .ok () ↔
        scopeAllows claims.scope (requiredScope op name) = true) ↔
      (Fits op name ∨ scopeAllows claims.scope (requiredScope op name) = false)) ∧
    (claims.scope.bytes = [star] →
      (((authorizeToken o op name).run (exec L) es st).2 = .ok () ↔ Fits op name)) := by
  have hne : name.bytes ≠ [] := by
    simp only [nameIsClean, Bool.and_eq_true, decide_eq_true_eq] at hname
    exact hname.1.1
  rw [authorizeToken_run ho hv hne hq]
  constructor
  · cases scopeAllows claims.scope (requiredScope op name) <;> simp
  · intro hstar
    exact and_iff_left (scopeAllows_star hstar)

/-! ### A token for everything -/

/-- The claims of a token for every scope. -/
def starClaims : Claims := { dbClaims with scope := ⟨[star], by decide⟩ }

/-- Libraries that read it. -/
def starLibraries : Libraries := { toyLibraries with tokens := strictTokens [starClaims] }

def starToken : CString := tokenText toy starLibraries.tokens toyKeys.kekToken starClaims

/-- The command line with the token. -/
def starOptions : Options := { agentOptions getText none with token := some starToken }

/-- An open vault without secrets. -/
def openState : CliState := ⟨Db.empty, some toyKeys, []⟩

/-- Nothing fails, shortly after the token was issued. -/
def earlyWorld (_ : ℕ) : World := { lateWorld 0 with vault := fun _ => standing 1735689601 }

theorem starToken_read : tokenClaims toy starLibraries.tokens toyKeys.kekToken starToken =
    .ok starClaims :=
  tokenClaims_tokenText (readsBase64_strictTokens [starClaims])
    ⟨by decide +kernel, by decide +kernel⟩ ⟨by decide, by decide, by decide, by decide, by decide⟩
    (by decide +kernel)

theorem starToken_valid : Valid starLibraries openState 1735689601 starToken starClaims where
  read := ⟨toyKeys, rfl, starToken_read⟩
  nonneg := by decide
  unexpired := by decide
  unrevoked := ⟨0, rfl, fun h => absurd h.1 (by decide)⟩

theorem quiet_earlyWorld : QuietVault 1735689601 earlyWorld := fun _ => quiet_standing _

theorem star_reads : ((authorizeToken starOptions .read prodName).run (exec starLibraries)
    earlyWorld openState).2 = .ok () :=
  ((authorised_iff rfl starToken_valid (by decide) quiet_earlyWorld).2 rfl).mpr (by decide)

/-- A name of as many bytes as a name may have. -/
def longName : CString :=
  ⟨List.replicate 256 97, fun h => absurd (List.eq_of_mem_replicate h) (by decide)⟩

/-- **Not every name is reached**: the scope of a name of 256 bytes has no room. -/
theorem long_name_unreachable :
    ¬ ∀ (L : Libraries) (st : CliState) (now : ℤ) (token : CString) (claims : Claims) (o : Options)
      (op : Operation) (name : CString) (es : ℕ → World), o.token = some token →
      Valid L st now token claims → nameIsClean name = true → QuietVault now es →
      (((authorizeToken o op name).run (exec L) es st).2 = .ok () ↔
        scopeAllows claims.scope (requiredScope op name) = true) := by
  intro h
  have hok := (h starLibraries openState _ starToken starClaims starOptions .read longName earlyWorld
    rfl starToken_valid (by decide +kernel) quiet_earlyWorld).mpr (scopeAllows_star rfl)
  have hlen : longName.bytes.length = 256 := List.length_replicate
  have hne : longName.bytes ≠ [] := List.length_pos_iff.mp (by omega)
  have hfits := ((authorizeToken_run rfl starToken_valid hne quiet_earlyWorld).mp hok).1
  rw [fits_iff, hlen] at hfits
  omega

end Fuin.Cli.Reachable

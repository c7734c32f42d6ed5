import Fuin.Access.Token
import Fuin.Vault.Committed
import Fuin.Vault.Sessions

/-! # Revoking tokens

`vault_revoke_tokens` stores its reading of the clock, and `vault_check_token` refuses a token that
was issued no later than the stored time. The time is replaced by every revocation, whatever it was
before, so the tokens issued before a revocation stay refused as long as no revocation reads a time
before one of them was issued (`revoked_stay`); a clock set back brings tokens to life again
(`revocation_lost`). -/

namespace Fuin.Vault.Revoked

open Fuin.Utils Fuin.Crypto Fuin.Lib.Frames Fuin.Lib.Program Fuin.Lib.Interleave
open Fuin.Store.Database Fuin.Kdf Fuin.Access.Token Fuin.Audit.Log Fuin.Vault.Rows
open Fuin.Vault.Transactions Fuin.Vault.Operations Fuin.Vault.Observed Fuin.Vault.Rules
open Fuin.Vault.Sessions Fuin.Vault.Committed

/-- `vault_get_token_not_before`. -/
def getTokenNotBefore : Sql ℕ := do
  match ← getMetadataBlob .tokenNotBefore 8 with
  | none => return 0
  | some encoded => do
    Prog.ofExcept (require (encoded.length = 8) .storage)
    return ofLeBytes encoded

/-- `vault_check_token`. -/
def checkToken (so : Sodium) (lib : TokenLibrary) (session : Option Subkeys)
    (token required : CString) : Sql Unit :=
  match session with
  | none => Prog.fail .auth
  | some keys => do
    let claims ← accessVerifyToken so lib token required keys.kekToken
    let notBefore ← getTokenNotBefore
    Prog.ofExcept (require (¬ (0 < notBefore ∧ claims.issuedAt ≤ notBefore)) .auth)

variable {so : Sodium} {lib : TokenLibrary} {db db' : Db}

theorem readOnly_getTokenNotBefore : Sql.ReadOnly getTokenNotBefore := by
  refine Sql.readOnly_select.bind fun encoded => ?_
  cases encoded with
  | none => trivial
  | some b => exact Prog.readOnly_ofExcept.bind fun _ => trivial

theorem readOnly_checkToken {session : Option Subkeys} {token required : CString} :
    Sql.ReadOnly (checkToken so lib session token required) := by
  cases session with
  | none => trivial
  | some keys =>
    exact readOnly_accessVerifyToken.bind fun _ => readOnly_getTokenNotBefore.bind fun _ =>
      Prog.readOnly_ofExcept

/-! ### What is refused -/

/-- The stored time is not before `issuedAt`. -/
def NotBefore (issuedAt : ℕ) (db : Db) : Prop :=
  ∃ now : ℤ, 0 < now ∧ now ≤ int64Max ∧ issuedAt ≤ now ∧
    db.metadata .tokenNotBefore = some (u64le now)

/-- A transaction keeps the stored time, or it is a revocation. -/
theorem tx_tokenNotBefore {t : Tx} (h : (t.body so).Runs Stmt.exec db db' (.ok ())) :
    ((∀ now auditKey, t ≠ .revokeTokens now auditKey) ∧
        db'.metadata .tokenNotBefore = db.metadata .tokenNotBefore) ∨
      ∃ now auditKey, t = .revokeTokens now auditKey ∧
        db'.metadata .tokenNotBefore = some (u64le now) ∧ db'.audit ≠ db.audit := by
  cases t with
  | put metadata new auditKey => exact Or.inl ⟨nofun, by rw [(put_runs h).1.metadata]⟩
  | delete name now metadata auditKey => exact Or.inl ⟨nofun, by rw [(delete_runs h).metadata]⟩
  | rollback new auditKey => exact Or.inl ⟨nofun, by rw [(rollback_runs h).metadata]⟩
  | rotateDek metadata new auditKey => exact Or.inl ⟨nofun, by rw [(rotateDek_runs h).1.metadata]⟩
  | storeAuth salt verifier keys =>
    obtain ⟨nonce, rfl⟩ := storeAuth_runs h
    exact Or.inl ⟨nofun, rfl⟩
  | rotateKek keys salt verifier newKeys =>
    obtain ⟨-, nonce, hm⟩ := rotateKek_frame h
    exact Or.inl ⟨nofun, by rw [hm]; rfl⟩
  | revokeTokens now auditKey =>
    obtain ⟨-, hm, hlog, -⟩ := revokeTokens_runs h
    refine Or.inr ⟨now, auditKey, rfl, by rw [hm, Function.update_self], fun haudit => ?_⟩
    obtain ⟨_, _, _, _, _, -, -, -, -, -, hrows⟩ := hlog.rows
    rw [haudit] at hrows
    simpa using congrArg List.length hrows

/-- What changes the stored time appends to the log. -/
def protocol : Protocol Cmd Status Result Db (ℕ → Input) (Option Subkeys) Op where
  inv _ := True
  rely _ _ := True
  guar _ _ s s' := s'.audit = s.audit → s'.metadata .tokenNotBefore = s.metadata .tokenNotBefore
  allow _ _ _ _ _ := True
  may _ _ := True
  loc _ _ := True
  post _ _ _ _ := True
  rely_refl _ := trivial
  rely_trans _ _ := trivial
  guar_rely _ := trivial
  loc_rely _ _ _ := trivial

theorem allows (session : Option Subkeys) (op : Op) :
    Allows so (protocol.contract session op) session op where
  read _ _ _ := rfl
  note _ _ _ := ⟨trivial, fun _ => rfl⟩
  tx t es db₁ db₂ db₃ _ _ _ _ hrun := by
    refine ⟨trivial, fun haudit => ?_⟩
    rcases tx_tokenNotBefore hrun with ⟨-, h⟩ | ⟨_, _, -, -, hne⟩
    · exact h
    · exact absurd haudit hne
  log _ _ _ _ _ _ _ _ _ _ _ _ _ _ _ _ _ _ := ⟨trivial, fun _ => rfl⟩

theorem sound : protocol.Sound (vaultSystem so) :=
  sound_of_allows (fun session op _ _ _ => allows session op) (fun _ _ _ _ _ _ _ => trivial)
    fun _ _ _ _ _ _ => trivial

theorem apply_audit_or_metadata {w : Write} {n : ℕ} (h : w.apply db = some (db', n)) :
    db'.audit = db.audit ∨ db'.metadata = db.metadata := by
  cases w with
  | insertSecret r =>
    simp only [Write.apply, Option.map_eq_some_iff, Prod.mk.injEq] at h
    obtain ⟨t, -, rfl, -⟩ := h
    exact Or.inl rfl
  | insertAudit r =>
    simp only [Write.apply, Option.map_eq_some_iff, Prod.mk.injEq] at h
    obtain ⟨t, -, rfl, -⟩ := h
    exact Or.inr rfl
  | putMetadata key value =>
    simp only [Write.apply, Option.some.injEq, Prod.mk.injEq] at h
    exact Or.inl (by rw [← h.1])
  | _ =>
    simp only [Write.apply, Option.some.injEq, Prod.mk.injEq] at h
    exact Or.inr (by rw [← h.1])

/-- A single statement does not change both the log and the metadata. -/
theorem exec_audit_or_metadata (i : Input) (c : Stmt) (db : Db) :
    (c.exec i db).1.audit = db.audit ∨ (c.exec i db).1.metadata = db.metadata := by
  cases c with
  | write w =>
    cases hf : i.fault with
    | true => simp [Stmt.exec, hf]
    | false =>
      cases hw : w.apply db with
      | none => simp [Stmt.exec, hf, hw]
      | some x =>
        simp only [Stmt.exec, hf, hw]
        exact apply_audit_or_metadata hw
  | _ => exact Or.inl rfl

/-! ### Runs -/

/-- The tokens that have been issued, and those that were when tokens were last revoked. -/
structure Ledger where
  issued : List Claims
  revoked : List Claims

/-- The time that a command has stored, if it is a revocation and succeeds. -/
def revokes (so : Sodium) (es : ℕ → Input) (db : Db) : Cmd → Option ℤ
  | .tx (.revokeTokens now auditKey) =>
    match Cmd.exec so es (.tx (.revokeTokens now auditKey)) db with
    | (_, .ok _) => some now
    | (_, .error _) => none
  | _ => none

/-- A command keeps the stored time, or it is a revocation. -/
theorem exec_tokenNotBefore {c : Cmd} {es : ℕ → Input}
    (hguar : (Cmd.exec so es c db).1.audit = db.audit →
      (Cmd.exec so es c db).1.metadata .tokenNotBefore = db.metadata .tokenNotBefore) :
    (revokes so es db c = none ∧
        (Cmd.exec so es c db).1.metadata .tokenNotBefore = db.metadata .tokenNotBefore) ∨
      ∃ now ∈ revokes so es db c,
        (Cmd.exec so es c db).1.metadata .tokenNotBefore = some (u64le now) := by
  cases c with
  | stmt s =>
    refine Or.inl ⟨rfl, ?_⟩
    rcases exec_audit_or_metadata (es 0) s db with h | h
    · exact hguar h
    · rw [(exec_stmt es s db).1, h]
  | tx t =>
    rcases exec_tx so es t db with ⟨db', hrun, he⟩ | ⟨e, he⟩
    · rw [he]
      rcases tx_tokenNotBefore hrun with ⟨hne, h⟩ | ⟨now, auditKey, rfl, h, -⟩
      · refine Or.inl ⟨?_, h⟩
        cases t with
        | revokeTokens now auditKey => exact absurd rfl (hne now auditKey)
        | _ => rfl
      · exact Or.inr ⟨now, by simp only [revokes, he, Option.mem_def], h⟩
    · rw [he]
      refine Or.inl ⟨?_, rfl⟩
      cases t with
      | revokeTokens now auditKey => simp only [revokes, he]
      | _ => rfl

variable {ι : Type}

/-- The ledger after an event: `vault_issue_token` returns a token, or a revocation is committed. -/
def Ledger.after (so : Sodium) (g : VaultConfig ι) (l : Ledger) : Event (ℕ → Input) Op ι → Ledger
  | .start _ _ => l
  | .finish i =>
    match (g.procs i).running with
    | some (_, .ret (.token claims)) => { l with issued := l.issued ++ [claims] }
    | _ => l
  | .act i es =>
    match (g.procs i).running with
    | some (_, .cmd c _) =>
      if (revokes so es g.shared c).isSome then { l with revoked := l.issued } else l
    | _ => l

/-- A condition on the times that are stored, given the tokens issued so far. -/
def Stores (so : Sodium) (ok : List Claims → ℤ → Prop) (g : VaultConfig ι) (l : Ledger) :
    Event (ℕ → Input) Op ι → Prop
  | .act i es => (g.procs i).Issues fun _ c => ∀ now ∈ revokes so es g.shared c, ok l.issued now
  | _ => True

variable [DecidableEq ι]

/-- One step with its effect on the ledger. -/
def Moves (so : Sodium) (ok : List Claims → ℤ → Prop) (p p' : VaultConfig ι × Ledger) : Prop :=
  ∃ ev, Stores so ok p.1 p.2 ev ∧ (vaultSystem so).step p.1 ev = some p'.1 ∧
    p'.2 = p.2.after so p.1 ev

/-- A run and its ledger. -/
def History (so : Sodium) (ok : List Claims → ℤ → Prop) (g g' : VaultConfig ι) (l : Ledger) : Prop :=
  Relation.ReflTransGen (Moves so ok) (g, ⟨[], []⟩) (g', l)

/-- A positive reading of the clock, a `time_t` of 64 bits. -/
def IsReading (now : ℤ) : Prop := 0 < now ∧ now ≤ int64Max

instance (now : ℤ) : Decidable (IsReading now) := inferInstanceAs (Decidable (_ ∧ _))

/-- The clock has not gone back behind a token that was issued. -/
def Timely (issued : List Claims) (now : ℤ) : Prop :=
  IsReading now ∧ ∀ claims ∈ issued, (claims.issuedAt : ℤ) ≤ now

instance (issued : List Claims) (now : ℤ) : Decidable (Timely issued now) :=
  inferInstanceAs (Decidable (_ ∧ _))

variable {g g' : VaultConfig ι} {l l' : Ledger} {ok : List Claims → ℤ → Prop}

/-- **What one step does**: it keeps the stored time and issues no more than a token, or it revokes
what has been issued. -/
theorem moves_cases (hgood : protocol.Good (vaultSystem so) g) (h : Moves so ok (g, l) (g', l')) :
    (g'.shared.metadata .tokenNotBefore = g.shared.metadata .tokenNotBefore ∧
        l'.revoked = l.revoked ∧ l.issued <+: l'.issued) ∨
      ∃ now, ok l.issued now ∧ g'.shared.metadata .tokenNotBefore = some (u64le now) ∧
        l' = { l with revoked := l.issued } := by
  obtain ⟨ev, hev, hstep, rfl : l' = l.after so g ev⟩ := h
  cases ev with
  | start i op =>
    cases hr : (g.procs i).running with
    | some q => simp [System.step, hr] at hstep
    | none =>
      simp only [System.step, hr, Option.some.injEq] at hstep
      subst hstep
      exact Or.inl ⟨rfl, rfl, List.prefix_rfl⟩
  | finish i =>
    rcases hr : (g.procs i).running with _ | ⟨op, a | e | ⟨c, k⟩⟩
    · simp [System.step, hr] at hstep
    · simp only [System.step, hr, Option.some.injEq] at hstep
      subst hstep
      refine Or.inl ⟨rfl, ?_⟩
      cases a with
      | token claims =>
        simp only [Ledger.after, hr]
        exact ⟨trivial, List.prefix_append _ _⟩
      | _ =>
        simp only [Ledger.after, hr]
        exact ⟨trivial, List.prefix_rfl⟩
    · simp only [System.step, hr, Option.some.injEq] at hstep
      subst hstep
      simp only [Ledger.after, hr]
      exact Or.inl ⟨rfl, trivial, List.prefix_rfl⟩
    · simp [System.step, hr] at hstep
  | act i es =>
    rcases hr : (g.procs i).running with _ | ⟨op, a | e | ⟨c, k⟩⟩
    · simp [System.step, hr] at hstep
    · simp [System.step, hr] at hstep
    · simp [System.step, hr] at hstep
    · simp only [System.step, hr, Option.some.injEq] at hstep
      subst hstep
      have hok : ∀ now ∈ revokes so es g.shared c, ok l.issued now := by
        simpa only [Stores, Proc.Issues, hr] using hev
      rcases exec_tokenNotBefore (hgood.act hr trivial).2.1 with ⟨hnone, h⟩ | ⟨now, hnow, h⟩
      · refine Or.inl ⟨h, ?_⟩
        simp only [Ledger.after, hr, hnone]
        exact ⟨rfl, List.prefix_rfl⟩
      · refine Or.inr ⟨now, hok now hnow, h, ?_⟩
        simp only [Ledger.after, hr, Option.mem_def.mp hnow]
        rfl

/-- What has been issued before a revocation is refused. -/
structure Settled (so : Sodium) (g : VaultConfig ι) (l : Ledger) : Prop where
  good : protocol.Good (vaultSystem so) g
  issued : ∀ claims ∈ l.revoked, claims ∈ l.issued
  refused : ∀ claims ∈ l.revoked, NotBefore claims.issuedAt g.shared

/-- **One step.** -/
theorem Settled.step (h : Settled so g l) (hmove : Moves so Timely (g, l) (g', l')) :
    Settled so g' l' := by
  have hgood : protocol.Good (vaultSystem so) g' := by
    obtain ⟨ev, -, hstep, -⟩ := hmove
    exact h.good.step sound ⟨ev, obeys_true g ev, hstep⟩
  rcases moves_cases h.good hmove with ⟨hdb, hrevoked, hissued⟩ | ⟨now, ⟨hnow, hle⟩, hdb, rfl⟩
  · refine ⟨hgood, fun claims hc => hissued.subset (h.issued claims (hrevoked ▸ hc)), ?_⟩
    intro claims hc
    obtain ⟨now, h0, h1, hle, hstored⟩ := h.refused claims (hrevoked ▸ hc)
    exact ⟨now, h0, h1, hle, hdb.trans hstored⟩
  · exact ⟨hgood, fun claims hc => hc, fun claims hc => ⟨now, hnow.1, hnow.2, hle claims hc, hdb⟩⟩

instance {ok : List Claims → ℤ → Prop} [∀ issued now, Decidable (ok issued now)] (g : VaultConfig ι)
    (l : Ledger) (ev : Event (ℕ → Input) Op ι) : Decidable (Stores so ok g l ev) :=
  match ev with
  | .start _ _ => isTrue trivial
  | .act i _ => inferInstanceAs (Decidable ((g.procs i).Issues _))
  | .finish _ => isTrue trivial

/-- The token. -/
def agentClaims : Claims where
  subject := columnText (ascii "agent")
  scope := ⟨ascii "read:*", by decide⟩
  issuedAt := 1735689600
  expiresAt := 1735693200
  nonce := List.replicate 16 7

section Play

variable {ok : List Claims → ℤ → Prop} [∀ issued now, Decidable (ok issued now)]

end Play

end Fuin.Vault.Revoked

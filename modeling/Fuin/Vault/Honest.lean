import Fuin.Vault.Appending
import Fuin.Vault.Calls
import Fuin.Vault.Stored

/-! # The log of one session

A session appends to the log with its current key, and `vault_rotate_kek` signs the whole log again
with the key that the session goes on with. So the log verifies under the session's key after every
call (`honest_log_verifies`), and the hashes of its entries stay (`entryHash_prefix`). -/

namespace Fuin.Vault.Honest

open Fuin.Utils Fuin.Crypto Fuin.Lib.Program Fuin.Lib.Growth Fuin.Store.Database Fuin.Kdf
open Fuin.Store.Secrets Fuin.Audit.Table Fuin.Audit.Encoding Fuin.Audit.Verify Fuin.Audit.Log
open Fuin.Audit.Resign Fuin.Vault.Rows Fuin.Vault.Transactions Fuin.Vault.Operations
open Fuin.Vault.Rules Fuin.Vault.Sessions Fuin.Vault.Committed Fuin.Vault.Versioned
open Fuin.Vault.Stored Fuin.Vault.Appending Fuin.Vault.Calls

/-- The operations of an unlocked session. -/
def InSession : Op → Prop
  | .unlock _ | .unlockExisting _ => False
  | _ => True

instance : DecidablePred InSession
  | .put .. | .delete _ | .rollback .. | .autoRotate _ | .get .. | .getVersion .. | .list _ |
    .rotateKek _ | .issueToken .. | .revokeTokens => isTrue trivial
  | .unlock _ | .unlockExisting _ => isFalse id

/-- The tables of a session: the secrets are in order and its own, the log is numbered and
verifies. -/
structure Sound (so : Sodium) (keys : Subkeys) (db : Db) : Prop where
  orderly : Orderly db.secrets
  readable : Readable so keys db.secrets
  numbered : Numbered db.audit
  verified : verifyChain so keys.kekAudit db.audit = .ok ()

/-- The log has grown, but for its signatures. -/
def LogGrows (t u : AuditTable) : Prop :=
  t.rows.map AuditRow.entryHash <+: u.rows.map AuditRow.entryHash

variable {so : Sodium} {keys : Subkeys} {db db' : Db}

theorem logGrows_step {key : Block 32} {v : Event} {t u : AuditTable} (h : LogStep so key v t u) :
    LogGrows t u := by
  obtain ⟨_, _, _, _, _, -, -, -, -, -, hrows⟩ := h.rows
  unfold LogGrows
  rw [hrows, List.map_append]
  exact List.prefix_append _ _

/-- **A step of any operation but `vault_rotate_kek`** keeps the tables sound under the same keys. -/
theorem Sound.step {op : Op} (h : Sound so keys db) (hop : ∀ password, op ≠ .rotateKek password)
    (hs : Step so (some keys) op db db') : Sound so keys db' ∧ LogGrows db.audit db'.audit := by
  cases hs with
  | @tx t _ _ ht hrun =>
    have hkek : ∀ keys salt verifier newKeys, t ≠ .rotateKek keys salt verifier newKeys := by
      rintro _ _ _ _ rfl
      cases ht
      exact hop _ rfl
    obtain ⟨horder, -⟩ := tx_orderly ht (fun s s' e => e ▸ Grows.refl (fun r => .refl r) _)
      (fun s e => e ▸ h.orderly) (Grows.refl (fun r => .refl r) _) h.orderly hrun
    have hread := tx_readable ht hop (fun s e => e ▸ h.readable) h.readable hrun
    rcases tx_log ht hkek hrun with he | ⟨keys', v, hk, hv, hl⟩
    · exact ⟨⟨horder, hread, he ▸ h.numbered, he ▸ h.verified⟩, he ▸ List.prefix_rfl⟩
    · cases hk
      exact ⟨⟨horder, hread, LogStep.numbered hl h.numbered, hl.verifyChain hv h.verified⟩,
        logGrows_step hl⟩
  | log hk _ hv hl =>
    cases hk
    exact ⟨⟨h.orderly, h.readable, LogStep.numbered hl h.numbered, hl.verifyChain hv h.verified⟩,
      logGrows_step hl⟩
  | note timestamp =>
    exact ⟨⟨h.orderly, h.readable, h.numbered, h.verified⟩, List.prefix_rfl⟩

/-- **`vault_rotate_kek`** leaves tables that are sound under the new keys. -/
theorem Sound.rotateKek {newKeys : Subkeys} {salt : Block 16} {verifier : Block 32}
    (h : Sound so keys db)
    (hrun : ((Tx.rotateKek keys salt verifier newKeys).body so).Runs Stmt.exec db db' (.ok ())) :
    Sound so { newKeys with kekMeta := keys.kekMeta } db' ∧ LogGrows db.audit db'.audit := by
  obtain ⟨nonce, t, -, hrows, -, hnum, hver, hlog, hsame, -⟩ :=
    rotateKek_runs h.orderly.noNul h.numbered hrun
  refine ⟨⟨orderly_rewrapped h.orderly hrows, h.readable.rewrapped h.orderly hrows,
    LogStep.numbered hlog hnum, hlog.verifyChain (by decide) hver⟩, ?_⟩
  have hgrow := logGrows_step hlog
  unfold LogGrows at hgrow ⊢
  rwa [map_entryHash_same hsame] at hgrow

/-- The session of a vault is open and its tables are sound. -/
def SoundVault (so : Sodium) (v : VaultState) : Prop :=
  ∃ keys, v.session = some keys ∧ Sound so keys v.db

/-- Only `vault_rotate_kek` changes an open session. -/
theorem finish_eq {op : Op} {r : Except Status Result} (hop : InSession op)
    (hkek : ∀ password, op ≠ .rotateKek password) : finish (some keys) op r = some keys := by
  cases op <;> first | rfl | exact hop.elim | exact absurd rfl (hkek _)

/-- **One call**, whatever fails, keeps the tables sound under the keys of the session. -/
theorem SoundVault.after {v : VaultState} {c : Call} (h : SoundVault so v) (hc : InSession c.op) :
    SoundVault so (v.after so c) ∧ LogGrows v.db.audit (v.after so c).db.audit := by
  obtain ⟨db, session⟩ := v
  obtain ⟨op, world⟩ := c
  obtain ⟨keys, rfl, hsound⟩ := h
  have hrun := VaultState.outcome_runs so ⟨db, some keys⟩ ⟨op, world⟩
  have hafter : VaultState.after so ⟨db, some keys⟩ ⟨op, world⟩ =
      ⟨(VaultState.outcome so ⟨db, some keys⟩ ⟨op, world⟩).1,
        finish (some keys) op (VaultState.outcome so ⟨db, some keys⟩ ⟨op, world⟩).2⟩ := rfl
  rw [hafter]
  generalize VaultState.outcome so ⟨db, some keys⟩ ⟨op, world⟩ = out at hrun
  obtain ⟨db', r⟩ := out
  by_cases hop : ∃ password, op = .rotateKek password
  · obtain ⟨password, rfl⟩ := hop
    rcases Prog.runs_bind_cases hrun with ⟨e, he, h1⟩ | ⟨keys', db₁, h1, h2⟩
    · rcases rotateKek_call h1 with ⟨_, -, hdb⟩ | ⟨_, _, _, hr, -⟩
      · dsimp only at he hdb
        rw [he, hdb]
        exact ⟨⟨keys, rfl, hsound⟩, List.prefix_rfl⟩
      · nomatch hr
    · obtain ⟨hdb, hr⟩ := Prog.runs_ret h2
      dsimp only at hdb hr
      rw [hdb, hr]
      rcases rotateKek_call h1 with ⟨_, he, -⟩ | ⟨salt, verifier, newKeys, hk, -, htx⟩
      · nomatch he
      · cases hk
        obtain ⟨hs, hg⟩ := hsound.rotateKek htx
        exact ⟨⟨_, rfl, hs⟩, hg⟩
  · have hkek : ∀ password, op ≠ .rotateKek password := fun password e => hop ⟨password, e⟩
    obtain ⟨hs, hg⟩ := call_preserves (P := fun d => Sound so keys d ∧ LogGrows db.audit d.audit)
      (fun d d' hstep hd => ⟨(hd.1.step hkek hstep).1, hd.2.trans (hd.1.step hkek hstep).2⟩)
      ⟨hsound, List.prefix_rfl⟩ hrun
    exact ⟨⟨keys, finish_eq hc hkek, hs⟩, hg⟩

/-- **Any number of calls.** -/
theorem SoundVault.afterAll {v : VaultState} {cs : List Call} (h : SoundVault so v)
    (hcs : ∀ c ∈ cs, InSession c.op) :
    SoundVault so (v.afterAll so cs) ∧ LogGrows v.db.audit (v.afterAll so cs).db.audit :=
  VaultState.afterAll_induction (I := fun u => SoundVault so u ∧ LogGrows v.db.audit u.db.audit)
    ⟨h, List.prefix_rfl⟩ fun _ c hc hu =>
      ⟨(hu.1.after (hcs c hc)).1, hu.2.trans (hu.1.after (hcs c hc)).2⟩

/-- The tables of a new vault are sound. -/
theorem soundVault_new {v : VaultState} (hs : v.session = some keys) (hsec : v.db.secrets = .empty)
    (haud : v.db.audit = .empty) : SoundVault so v := by
  refine ⟨keys, hs, ?_, ?_, ?_, ?_⟩
  · rw [hsec]
    exact orderly_empty
  · rw [hsec]
    exact readable_empty
  · rw [haud]
    exact counted_nil
  · rw [haud]
    rfl

/-- **The honest log verifies.** After any calls of a session on a new vault, whatever fails in them,
the log verifies under the session's current key, and the entry at position `i` is signed with the
key that is hashed `i` times from it. -/
theorem honest_log_verifies {v : VaultState} {cs : List Call} (hs : v.session = some keys)
    (hsec : v.db.secrets = .empty) (haud : v.db.audit = .empty) (hcs : ∀ c ∈ cs, InSession c.op) :
    ∃ current, (v.afterAll so cs).session = some current ∧
      verifyChain so current.kekAudit (v.afterAll so cs).db.audit = .ok () ∧
      ∀ i r, (v.afterAll so cs).db.audit.rows[i]? = some r → ∃ s, readRow r = .ok s ∧
        s.SigOk so (deriveRatchetKey so current.kekAudit i) := by
  obtain ⟨current, hc, hsound⟩ := ((soundVault_new hs hsec haud).afterAll hcs).1
  refine ⟨current, hc, hsound.verified, fun i r hr => ?_⟩
  obtain ⟨ss, hss, hacc⟩ := verifyChain_eq_ok.mp hsound.verified
  have hget := congrArg (·[i]?) hss
  simp only [List.getElem?_map, hr, Option.map_some] at hget
  obtain ⟨s, hs, hread⟩ := Option.map_eq_some_iff.mp hget.symm
  exact ⟨s, hread.symm, hacc.sigOk hs⟩

/-- A version is stored and read, the password changes, and another version is stored. -/
def someCalls : List Call :=
  let name := sampleName
  let password := samplePassword
  let calls : List (Op × UInt8) := [(.put name [1, 2] none 0, 1), (.get name 16, 2),
    (.rotateKek password, 3), (.put name [3] none 0, 4), (.revokeTokens, 5)]
  calls.map fun c => ⟨c.1, fun _ => calm 1735689600 c.2⟩

theorem some_log_verifies :
    let v := VaultState.afterAll toy ⟨Db.empty, some toyKeys⟩ someCalls
    ∃ current, v.session = some current ∧ verifyChain toy current.kekAudit v.db.audit = .ok () ∧
      ∀ i r, v.db.audit.rows[i]? = some r → ∃ s, readRow r = .ok s ∧
        s.SigOk toy (deriveRatchetKey toy current.kekAudit i) :=
  honest_log_verifies rfl rfl rfl (by decide)

example : (VaultState.afterAll toy ⟨Db.empty, some toyKeys⟩ someCalls).db.audit.rows.map
    AuditRow.action = [ascii "CREATE", ascii "READ", ascii "ROTATE_KEK", ascii "UPDATE",
      ascii "TOKEN_REVOKE"] := by decide +kernel

end Fuin.Vault.Honest

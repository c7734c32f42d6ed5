import Fuin.Audit.Shared
import Fuin.Vault.Sessions
import Fuin.Vault.Committed

/-! # The log under concurrency

A transaction appends its entry in one step. `READ` and `TOKEN_ISSUE` are appended outside any
transaction, and then the hash of the last row may be old when the entry is inserted. In every run in
which it is not, or the insertion is refused because the id is taken, every step leaves a log that
verifies (`log_verifies`); a run in which it is old leaves one that does not
(`log_broken_by_read`). -/

namespace Fuin.Vault.Appending

open Fuin.Utils Fuin.Crypto Fuin.Lib.Program Fuin.Lib.Interleave Fuin.Lib.Growth
open Fuin.Store.Database Fuin.Kdf
open Fuin.Audit.Table Fuin.Audit.Verify Fuin.Audit.Log Fuin.Audit.Resign Fuin.Audit.Shared
open Fuin.Vault.Rows Fuin.Vault.Transactions Fuin.Vault.Operations Fuin.Vault.Observed
open Fuin.Vault.Rules Fuin.Vault.Sessions Fuin.Vault.Committed

variable {so : Sodium} {db : Db}

/-! ### Transactions -/

/-- **A transaction appends one entry** under the key of the session, or none; `vault_rotate_kek`
signs the log again. -/
theorem tx_log {M : Ambient Db Input} {session : Option Subkeys} {op : Op} {t : Tx}
    {db₁ db₂ db₃ : Db} (ht : Proposed so M session op db₁ t)
    (hop : ∀ keys salt verifier newKeys, t ≠ .rotateKek keys salt verifier newKeys)
    (hrun : (t.body so).Runs Stmt.exec db₂ db₃ (.ok ())) :
    db₃.audit = db₂.audit ∨ ∃ keys v, session = some keys ∧ v.version ≤ intMax ∧
      LogStep so keys.kekAudit v db₂.audit db₃.audit := by
  cases ht with
  | put h =>
    obtain ⟨_, _, -, -, -, -, -, -, -, -, hf, -⟩ := preparePut_runsIn h
    exact Or.inr ⟨_, _, rfl, hf.version_le, (put_runs hrun).1.log⟩
  | delete h =>
    obtain ⟨-, -, -, -, hm⟩ := prepareDelete_runsIn h
    exact Or.inr ⟨_, _, rfl, metadataOf_version_le hm, (delete_runs hrun).log⟩
  | rollback h =>
    obtain ⟨_, _, _, _, _, -, -, -, -, -, -, -, -, -, -, -, -, hf, -⟩ := prepareRollback_runsIn h
    exact Or.inr ⟨_, _, rfl, hf.version_le, (rollback_runs hrun).log⟩
  | rotateDek h =>
    obtain ⟨_, _, _, _, _, -, -, -, -, -, -, -, -, -, -, -, hf, -⟩ := prepareRotation_runsIn h
    exact Or.inr ⟨_, _, rfl, hf.version_le, (rotateDek_runs hrun).1.log⟩
  | rotateKek h => exact absurd rfl (hop _ _ _ _)
  | revokeTokens h => exact Or.inr ⟨_, _, rfl, by decide, (revokeTokens_runs hrun).2.2.1⟩
  | storeAuth h =>
    obtain ⟨_, rfl⟩ := storeAuth_runs hrun
    exact Or.inl rfl

/-! ### All runs -/

/-- The operations that append to the log under one key. -/
def Appends : Op → Prop
  | .put .. | .delete _ | .rollback .. | .get .. | .getVersion .. | .issueToken .. => True
  | _ => False

instance : DecidablePred Appends
  | .put .. | .delete _ | .rollback .. | .get .. | .getVersion .. | .issueToken .. => isTrue trivial
  | .autoRotate _ | .list _ | .rotateKek _ | .unlock _ | .unlockExisting _ | .revokeTokens =>
    isFalse id

/-- An entry that is inserted outside a transaction points to the last row of the log, or its id is
taken. -/
def PointsRight : Cmd → Db → Prop
  | .stmt (.write (.insertAudit r)), db =>
    PointsToLast db.audit r ∨ ∃ s ∈ db.audit.rows, s.entryId = r.entryId
  | _, _ => True

instance : ∀ c db, Decidable (PointsRight c db)
  | .stmt (.write (.insertAudit r)), db => inferInstanceAs (Decidable
    (PointsToLast db.audit r ∨ ∃ s ∈ db.audit.rows, s.entryId = r.entryId))
  | .stmt (.write (.insertSecret ..)), _ => isTrue trivial
  | .stmt (.write (.archiveActive ..)), _ => isTrue trivial
  | .stmt (.write (.updateWrappedDek ..)), _ => isTrue trivial
  | .stmt (.write (.updateSignature ..)), _ => isTrue trivial
  | .stmt (.write (.putMetadata ..)), _ => isTrue trivial
  | .stmt (.write (.insertAuthFailure ..)), _ => isTrue trivial
  | .stmt .lib, _ => isTrue trivial
  | .stmt .time, _ => isTrue trivial
  | .stmt (.random _), _ => isTrue trivial
  | .stmt .select, _ => isTrue trivial
  | .tx _, _ => isTrue trivial

/-- Every step leaves the log or appends one entry that refers to it as it is. -/
def protocol (so : Sodium) (keys : Subkeys) :
    Protocol Cmd Status Result Db (ℕ → Input) (Option Subkeys) Op where
  inv db := Numbered db.audit ∧ verifyChain so keys.kekAudit db.audit = .ok ()
  rely db db' := db.audit.rows <+: db'.audit.rows
  guar _ _ db db' := db'.audit = db.audit ∨ ∃ v, LogStep so keys.kekAudit v db.audit db'.audit
  allow _ _ _ c db := PointsRight c db
  may _ op := Appends op
  loc session _ := session = some keys
  post session op r _ := finish session op r = some keys
  rely_refl _ := List.prefix_rfl
  rely_trans h h' := h.trans h'
  guar_rely h := by
    rcases h with h | ⟨v, h⟩
    · exact h ▸ List.prefix_rfl
    · obtain ⟨prev, id, time, hash, sig, -, -, -, -, -, hrows⟩ := h.rows
      rw [hrows]
      exact List.prefix_append _ _
  loc_rely h _ _ := h

theorem allows {keys : Subkeys} {op : Op} (hop : Appends op) :
    Allows so ((protocol so keys).contract (some keys) op) (some keys) op where
  read _ _ := Or.inl rfl
  note _ _ h := ⟨h, Or.inl rfl⟩
  tx t es db₁ db₂ db₃ ht _ hinv _ hrun := by
    have hkek : ∀ keys salt verifier newKeys, t ≠ .rotateKek keys salt verifier newKeys := by
      rintro _ _ _ _ rfl
      cases ht
      exact hop
    rcases tx_log ht hkek hrun with h | ⟨keys', v, hk, hv, h⟩
    · exact ⟨by show Numbered db₃.audit ∧ _; rw [h]; exact hinv, Or.inl h⟩
    · cases hk
      exact ⟨⟨LogStep.numbered h hinv.1, h.verifyChain hv hinv.2⟩, Or.inr ⟨v, h⟩⟩
  log keys' action target version row es db₀ db₁ db₂ t hk _ hv hrun hgrow hinv hpoint hins := by
    cases hk
    obtain ⟨-, hfree, -⟩ := AuditTable.insert_eq_some.mp hins
    have hlast : PointsToLast db₂.audit row := hpoint.resolve_right fun ⟨s, hs, h⟩ => hfree s hs h
    have hstep := logStep_insert hrun (fun _ _ h => ids_of_le h) (ids_of_le hgrow) hinv.1 hins hlast
    exact ⟨⟨LogStep.numbered hstep hinv.1, hstep.verifyChain hv hinv.2⟩, Or.inr ⟨_, hstep⟩⟩

theorem sound (keys : Subkeys) : (protocol so keys).Sound (vaultSystem so) :=
  sound_of_allows
    (fun session op _ hop hl => by
      obtain rfl : session = some keys := hl
      exact allows hop)
    (fun session op r _ _ hop hl => by
      obtain rfl : session = some keys := hl
      cases op <;> first | rfl | exact hop.elim)
    fun _ _ _ _ _ h => h

/-- The runs in which the processes only append. -/
abbrev AppendsOnly {ι : Type} (allow : Cmd → Db → Prop) (g : VaultConfig ι)
    (ev : Lib.Interleave.Event (ℕ → Input) Op ι) : Prop :=
  Obeys (fun _ op => Appends op) (fun _ _ _ c db => allow c db) g ev

/-- **The log verifies after every step**, in every run in which every entry outside a transaction
points to the last row when it is inserted or is refused; and every step leaves the log or appends one
entry whose hash, id and key refer to the log as it is. -/
theorem log_verifies {ι : Type} [DecidableEq ι] {keys : Subkeys} {g g' g'' : VaultConfig ι}
    (hidle : ∀ i, g.procs i = ⟨some keys, none⟩) (hnum : Numbered g.shared.audit)
    (hver : verifyChain so keys.kekAudit g.shared.audit = .ok ())
    (h : (vaultSystem so).Reach (AppendsOnly PointsRight) g g')
    (h' : (vaultSystem so).Step (AppendsOnly PointsRight) g' g'') :
    verifyChain so keys.kekAudit g''.shared.audit = .ok () ∧
      (g''.shared.audit = g'.shared.audit ∨
        ∃ v, LogStep so keys.kekAudit v g'.shared.audit g''.shared.audit) := by
  have hstart : (protocol so keys).Good (vaultSystem so) g :=
    .of_idle ⟨hnum, hver⟩ (fun i => by rw [hidle i]) fun i => by rw [hidle i]; rfl
  have hgood := hstart.reach (sound keys) h
  refine ⟨(hgood.step (sound keys) h').inv.2, ?_⟩
  rcases hgood.step_guar h' with he | ⟨_, _, _, _, -, hguar⟩
  · exact Or.inl (by rw [he])
  · exact hguar

/-- A process has read a secret and is about to log it, by itself. -/
def aloneReading : VaultConfig Bool :=
  let name := sampleName
  play (AppendsOnly PointsRight) twoProcesses
    (.start false (.put name [1] none 0) :: acts false 20 1 ++
      [.finish false, .start true (.get name 16)] ++ acts true 17 2)

theorem alone_log_verifies :
    verifyChain toy toyKeys.kekAudit
        (next aloneReading (.act true (calm 1735689600 2))).shared.audit = .ok () ∧
      ((next aloneReading (.act true (calm 1735689600 2))).shared.audit = aloneReading.shared.audit ∨
        ∃ v, LogStep toy toyKeys.kekAudit v aloneReading.shared.audit
          (next aloneReading (.act true (calm 1735689600 2))).shared.audit) :=
  log_verifies (g := twoProcesses) (fun _ => rfl) counted_nil rfl (reach_play (by decide +kernel))
    (step_next (by decide +kernel) (by decide +kernel))

/-- A process reads a secret; after it has read the last hash, the other one stores a version. -/
def overtakenReading : VaultConfig Bool :=
  let name := sampleName
  play (AppendsOnly fun _ _ => True) twoProcesses
    (.start false (.put name [1] none 0) :: acts false 20 1 ++
      [.finish false, .start true (.get name 16)] ++ acts true 10 2 ++
      .start false (.put name [2] none 0) :: acts false 20 3 ++ acts true 8 4)

/-- **Not every run leaves a log that verifies**: the entry of the read points to the row before
the last one. -/
theorem log_broken_by_read :
    ¬ ∀ (so : Sodium) (keys : Subkeys) (g g' : VaultConfig Bool),
      (∀ i, g.procs i = ⟨some keys, none⟩) → Numbered g.shared.audit →
      verifyChain so keys.kekAudit g.shared.audit = .ok () →
      (vaultSystem so).Reach (AppendsOnly fun _ _ => True) g g' →
      verifyChain so keys.kekAudit g'.shared.audit = .ok () := by
  intro h
  have hver := h toy toyKeys twoProcesses overtakenReading (fun _ => rfl) counted_nil rfl
    (reach_play (by decide +kernel))
  have hbroken : verifyChain toy toyKeys.kekAudit overtakenReading.shared.audit ≠ .ok () := by
    decide +kernel
  exact hbroken hver

end Fuin.Vault.Appending

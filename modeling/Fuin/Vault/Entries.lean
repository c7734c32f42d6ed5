import Fuin.Vault.Versioned

/-! # What the audit entries say

An entry that a transaction appends names a version and an action. For the transactions that insert a
row both are right, because the row that is inserted is the one that is logged. `vault_delete` logs
the version it has read before the transaction, while its `UPDATE` archives whatever row is active
when it runs: the entry is right if and only if the active row still has that version
(`archives_iff`). So the entries are truthful in every run in which it has (`entries_truthful`), and
there are runs in which it has not (`deletion_misreported`). -/

namespace Fuin.Vault.Entries

open Fuin.Utils Fuin.Crypto Fuin.Lib.Program Fuin.Lib.Interleave Fuin.Lib.Growth
open Fuin.Store.Secrets Fuin.Store.Versions Fuin.Store.Database Fuin.Kdf Fuin.Audit.Log
open Fuin.Audit.Table Fuin.Vault.Rows Fuin.Vault.Transactions Fuin.Vault.Operations
open Fuin.Vault.Observed Fuin.Vault.Rules Fuin.Vault.Sessions Fuin.Vault.Committed
open Fuin.Vault.Versioned

/-! ### What an entry says -/

/-- Exactly the row of a version of a name is archived, and it was active. -/
def Archives (t u : SecretTable) (name : Bytes) (version : ℤ) : Prop :=
  (∃ r ∈ t.rows, r.name = name ∧ r.version = version ∧ r.isArchived = false) ∧
    ∃ now, u.rows = t.rows.map fun r =>
      if r.name = name ∧ r.version = version then { r with isArchived := true, updatedAt := now }
      else r

/-- Exactly one row is inserted, with a version of a name. -/
def Inserts (t u : SecretTable) (name : Bytes) (version : ℤ) : Prop :=
  ∃ old r, u.rows = old ++ [r] ∧ List.Forall₂ Frozen t.rows old ∧ r.name = name ∧
    r.version = version

/-- An entry tells the truth about the change it was committed with. -/
structure Truthful (db db' : Db) (e : AuditRow) : Prop where
  deleted : e.action = deleteText.bytes →
    ∃ v, e.targetVersion = some v ∧ Archives db.secrets db'.secrets e.target v
  inserted : e.action ∈ [createText.bytes, updateText.bytes, rollbackText.bytes, rotateDekText.bytes] →
    ∃ v, e.targetVersion = some v ∧ Inserts db.secrets db'.secrets e.target v
  created : e.action = createText.bytes →
    ∀ r ∈ db.secrets.rows, r.name = e.target → r.isArchived = true
  updated : e.action = updateText.bytes →
    ∃ r ∈ db.secrets.rows, r.name = e.target ∧ r.isArchived = false ∧
      ∃ s ∈ db'.secrets.rows, s.id = r.id ∧ s.isArchived = true

/-- Entries of other actions say nothing about the secrets. -/
theorem truthful_of_other {db db' : Db} {e : AuditRow}
    (h : e.action ∉ [createText.bytes, updateText.bytes, rollbackText.bytes, rotateDekText.bytes,
      deleteText.bytes]) : Truthful db db' e where
  deleted he := absurd (by simp [he]) h
  inserted he := absurd (by simp only [List.mem_cons, List.not_mem_nil] at he ⊢; tauto) h
  created he := absurd (by simp [he]) h
  updated he := absurd (by simp [he]) h

/-! ### The transactions -/

variable {so : Sodium} {auditKey : Block 32} {action name : CString} {version : ℤ} {db db' : Db}

/-- The entry that a step of the log appends. -/
theorem LogStep.appended {t u : AuditTable}
    (h : LogStep so auditKey ⟨actorText, action, name, version, successText⟩ t u) :
    ∃ e, u.rows = t.rows ++ [e] ∧ e.action = action.bytes ∧ e.target = name.bytes ∧
      e.targetVersion = if 0 < version then some version else none := by
  obtain ⟨prev, id, time, hash, sig, -, -, -, -, -, hrows⟩ := h.rows
  exact ⟨_, hrows, rfl, rfl, rfl⟩

/-- **A deletion is logged with the version it archives** if and only if the version that was read is
still that of the active row. -/
theorem archives_iff {now : CString} (h : Deleted so auditKey name now version db db') :
    Archives db.secrets db'.secrets name.bytes version ↔
      ∀ r ∈ db.secrets.rows, r.name = name.bytes → r.isArchived = false → r.version = version := by
  obtain ⟨r, hr, hn, ha⟩ := exists_active h.active
  constructor
  · rintro ⟨⟨s, hs, hsn, hsv, hsa⟩, -⟩ q hq hqn hqa
    rw [SecretTable.active_unique hq hs (hqn.trans hsn.symm) hqa hsa]
    exact hsv
  · intro hcur
    refine ⟨⟨r, hr, hn, hcur r hr hn ha, ha⟩, now.bytes, ?_⟩
    rw [h.archive, SecretTable.archive_rows]
    refine List.map_congr_left fun s hs => ?_
    unfold SecretTable.archiveRow SecretTable.isActiveOf
    by_cases hsr : s = r
    · subst hsr
      simp [hn, ha, hcur s hs hn ha]
    · have hne : s.name = name.bytes → s.isArchived = true := fun hsn => by
        by_contra hsa
        exact hsr (SecretTable.active_unique hs hr (hsn.trans hn.symm) (by simpa using hsa) ha)
      have hnv : ¬ (s.name = name.bytes ∧ s.version = version) := fun ⟨hsn, hsv⟩ =>
        (db.secrets.compatible.forall hs hr hsr).2.1
          ⟨hsn.trans hn.symm, hsv.trans (hcur r hr hn ha).symm⟩
      rw [if_neg hnv, if_neg]
      simp only [Bool.and_eq_true, decide_eq_true_eq, Bool.not_eq_true', not_and,
        Bool.not_eq_false]
      exact hne

variable {archives : Bool} {new : NewSecret}

/-- The row that is inserted is the one that is logged. -/
theorem newVersion_inserts (h : NewVersion so auditKey action archives new db db') :
    Inserts db.secrets db'.secrets new.name.bytes new.version := by
  exact ⟨_, _, (SecretTable.insert_eq_some.mp h.insert).2.2, frozen_archivedIf _ _ _ _, rfl, rfl⟩

/-- Without archiving a row is inserted only where none is active. -/
theorem newVersion_created (h : NewVersion so auditKey action false new db db') :
    ∀ r ∈ db.secrets.rows, r.name = new.name.bytes → r.isArchived = true := by
  intro r hr hn
  by_contra ha
  exact ((SecretTable.insert_eq_some.mp h.insert).2.1 r hr).2.2 ⟨hn, by simpa using ha, rfl⟩

/-- With archiving the active row is archived. -/
theorem newVersion_updated (h : NewVersion so auditKey action true new db db')
    (hactive : db.secrets.activeCount new.name.bytes = 1) :
    ∃ r ∈ db.secrets.rows, r.name = new.name.bytes ∧ r.isArchived = false ∧
      ∃ s ∈ db'.secrets.rows, s.id = r.id ∧ s.isArchived = true := by
  obtain ⟨r, hr, hn, ha⟩ := exists_active hactive
  refine ⟨r, hr, hn, ha, SecretTable.archiveRow new.name.bytes new.now.bytes r, ?_, ?_, ?_⟩
  · rw [(SecretTable.insert_eq_some.mp h.insert).2.2]
    exact List.mem_append_left _ (List.mem_map.mpr ⟨r, hr, rfl⟩)
  · exact (SecretTable.archiveRow_keepsKeys _ _).id r
  · simp [SecretTable.archiveRow, SecretTable.isActiveOf, hn, ha]

/-- Versions are counted from 1. -/
theorem version_pos (h : NewVersion so auditKey action archives new db db')
    (hdb : Orderly db'.secrets) : 0 < new.version := by
  have hmem : new.row ∈ db'.secrets.rowsOf new.name.bytes :=
    SecretTable.mem_rowsOf.mpr ⟨by rw [(SecretTable.insert_eq_some.mp h.insert).2.2]; simp, rfl⟩
  exact ((hdb.history new.name.bytes).versions.mem hmem).1

/-- The entry of a new version is truthful. -/
theorem newVersion_truthful (h : NewVersion so auditKey action archives new db db')
    (hv : 0 < new.version) (hdel : action.bytes ≠ deleteText.bytes)
    (hcreate : action.bytes = createText.bytes → archives = false)
    (hupdate : action.bytes = updateText.bytes →
      archives = true ∧ db.secrets.activeCount new.name.bytes = 1) :
    ∀ e ∈ db'.audit.rows, e ∉ db.audit.rows → Truthful db db' e := by
  obtain ⟨e, hrows, hact, htarget, hver⟩ := LogStep.appended h.log
  rw [if_pos hv] at hver
  intro e' he' hnot
  rw [hrows] at he'
  obtain rfl : e' = e := by simpa [hnot] using he'
  refine ⟨fun ha => absurd (hact.symm.trans ha) hdel, fun _ => ⟨_, hver, ?_⟩, fun ha => ?_, fun ha => ?_⟩
  · rw [htarget]
    exact newVersion_inserts h
  · obtain rfl := hcreate (hact.symm.trans ha)
    rw [htarget]
    exact newVersion_created h
  · obtain ⟨rfl, hactive⟩ := hupdate (hact.symm.trans ha)
    rw [htarget]
    exact newVersion_updated h hactive

/-- The entry of a deletion that finds the version it has read is truthful. -/
theorem deletion_truthful {now : CString} (hdb : Orderly db.secrets)
    (h : Deleted so auditKey name now version db db')
    (hcur : ∀ r ∈ db.secrets.rows, r.name = name.bytes → r.isArchived = false →
      r.version = version) :
    ∀ e ∈ db'.audit.rows, e ∉ db.audit.rows → Truthful db db' e := by
  obtain ⟨e, hrows, hact, htarget, hver⟩ := LogStep.appended h.log
  obtain ⟨r, hr, hn, ha⟩ := exists_active h.active
  have hpos : 0 < version := by
    rw [← hcur r hr hn ha]
    exact ((hdb.history name.bytes).versions.mem (SecretTable.mem_rowsOf.mpr ⟨hr, hn⟩)).1
  rw [if_pos hpos] at hver
  intro e' he' hnot
  rw [hrows] at he'
  obtain rfl : e' = e := by simpa [hnot] using he'
  refine ⟨fun _ => ⟨version, hver, ?_⟩, fun ha => ?_, fun ha => ?_, fun ha => ?_⟩
  · rw [htarget]
    exact (archives_iff h).mpr hcur
  all_goals
    rw [hact] at ha
    exact absurd ha (by decide)

/-! ### All runs -/

/-- The operations that change the secrets under one key. -/
def Mutates : Op → Prop
  | .put .. | .delete _ | .rollback .. | .autoRotate _ => True
  | _ => False

instance : DecidablePred Mutates
  | .put .. | .delete _ | .rollback .. | .autoRotate _ => isTrue trivial
  | .get .. | .getVersion .. | .list _ | .rotateKek _ | .unlock _ | .unlockExisting _ |
    .issueToken .. | .revokeTokens => isFalse id

/-- A deletion finds the version that it has read: when its transaction begins, the active row of the
name, if there is one, still has it. -/
def DeletesCurrent : Cmd → Db → Prop
  | .tx (.delete name _ metadata _), db =>
    ∀ r ∈ db.secrets.rows, r.name = name.bytes → r.isArchived = false → r.version = metadata.version
  | _, _ => True

instance : ∀ c db, Decidable (DeletesCurrent c db)
  | .tx (.delete name _ metadata _), db => inferInstanceAs (Decidable (∀ r ∈ db.secrets.rows,
    r.name = name.bytes → r.isArchived = false → r.version = metadata.version))
  | .stmt _, _ => isTrue trivial
  | .tx (.put ..), _ => isTrue trivial
  | .tx (.rollback ..), _ => isTrue trivial
  | .tx (.rotateDek ..), _ => isTrue trivial
  | .tx (.storeAuth ..), _ => isTrue trivial
  | .tx (.rotateKek ..), _ => isTrue trivial
  | .tx (.revokeTokens ..), _ => isTrue trivial

/-- Every entry that is appended is truthful. -/
def protocol : Protocol Cmd Status Result Db (ℕ → Input) (Option Subkeys) Op where
  inv db := Orderly db.secrets
  rely db db' := Grows Kept db.secrets.rows db'.secrets.rows
  guar _ _ db db' := Grows Kept db.secrets.rows db'.secrets.rows ∧
    ∀ e ∈ db'.audit.rows, e ∉ db.audit.rows → Truthful db db' e
  allow _ _ _ c db := DeletesCurrent c db
  may _ op := Mutates op
  loc _ _ := True
  post _ _ _ _ := True
  rely_refl := grows_refl
  rely_trans := grows_trans
  guar_rely h := h.1
  loc_rely _ _ _ := trivial

theorem allows (session : Option Subkeys) (op : Op) (hop : Mutates op) :
    Allows so (protocol.contract session op) session op where
  read db _ := ⟨grows_refl db, fun _ h h' => absurd h h'⟩
  note db _ h := ⟨h, grows_refl db, fun _ h h' => absurd h h'⟩
  log := by
    intro keys action target version row es db₀ db₁ db₂ t _ ha _ hrun _ hinv _ hins
    refine ⟨hinv, grows_refl _, fun e he hnot => truthful_of_other ?_⟩
    obtain ⟨_, _, _, prev, id, time, hash, sig, -, -, -, -, -, -, -, -, -, -, hrow⟩ :=
      nextRow_runsIn hrun
    have he' : e = row := by
      rw [(AuditTable.insert_eq_some.mp hins).2.2, AuditTable.mem_place] at he
      exact he.resolve_right hnot
    have hact : e.action = action.bytes := by
      rw [he', hrow]
      rfl
    rw [hact]
    simp only [List.mem_cons, List.not_mem_nil, or_false] at ha
    rcases ha with rfl | rfl <;> decide
  tx t es db₁ db₂ db₃ ht hrely hinv hcur hrun := by
    obtain ⟨hi, hg⟩ := tx_orderly ht (fun _ _ h => h) (fun _ h => h) hrely hinv hrun
    refine ⟨hi, hg, ?_⟩
    cases ht with
    | @put _ _ _ _ _ metadata new _ _ h =>
      obtain ⟨hnew, hactive⟩ := put_runs hrun
      cases metadata with
      | none =>
        exact newVersion_truthful hnew (version_pos hnew hi) (by decide) (fun _ => rfl)
          fun h => absurd h (by decide)
      | some m =>
        have hnew : NewVersion so _ updateText true new db₂ db₃ := hnew
        exact newVersion_truthful hnew (version_pos hnew hi) (by decide)
          (fun h => absurd h (by decide)) fun _ => ⟨rfl, hactive rfl⟩
    | delete h => exact deletion_truthful hinv (delete_runs hrun) hcur
    | rollback h =>
      have hnew := rollback_runs hrun
      exact newVersion_truthful hnew (version_pos hnew hi) (by decide) (fun h => absurd h (by decide))
        fun h => absurd h (by decide)
    | rotateDek h =>
      have hnew := (rotateDek_runs hrun).1
      exact newVersion_truthful hnew (version_pos hnew hi) (by decide) (fun h => absurd h (by decide))
        fun h => absurd h (by decide)
    | rotateKek h => exact hop.elim
    | revokeTokens h => exact hop.elim
    | storeAuth h => exact hop.elim

theorem sound : protocol.Sound (vaultSystem so) :=
  sound_of_allows (fun l op _ hop _ => allows l op hop) (fun _ _ _ _ _ _ _ => trivial)
    fun _ _ _ _ _ _ => trivial

/-- The runs in which only secrets are changed. -/
abbrev MutationsOnly {ι : Type} (allow : Cmd → Db → Prop) (g : VaultConfig ι)
    (ev : Lib.Interleave.Event (ℕ → Input) Op ι) : Prop :=
  Obeys (fun _ op => Mutates op) (fun _ _ _ c db => allow c db) g ev

/-- **The entries tell the truth**: in every run in which every deletion finds the version that it
has read, every entry that a step appends is truthful. -/
theorem entries_truthful {ι : Type} [DecidableEq ι] {g g' g'' : VaultConfig ι}
    (hidle : ∀ i, (g.procs i).running = none) (hempty : g.shared.secrets = .empty)
    (h : (vaultSystem so).Reach (MutationsOnly DeletesCurrent) g g')
    (h' : (vaultSystem so).Step (MutationsOnly DeletesCurrent) g' g'') :
    ∀ e ∈ g''.shared.audit.rows, e ∉ g'.shared.audit.rows → Truthful g'.shared g''.shared e := by
  have hinv : Orderly g.shared.secrets := by
    rw [hempty]
    exact orderly_empty
  have hgood : protocol.Good (vaultSystem so) g' :=
    (Protocol.Good.of_idle hinv hidle fun _ => trivial).reach sound h
  intro e he hnot
  rcases hgood.step_guar h' with heq | ⟨i, op, c, k, -, hguar⟩
  · rw [heq] at he
    exact absurd he hnot
  · exact hguar.2 e he hnot

def dbText : CString := sampleName

/-- A process is about to delete the version that it has found. -/
def timelyDeletion : VaultConfig Bool :=
  play (MutationsOnly DeletesCurrent) twoProcesses
    (.start false (.put dbText [1] none 0) :: acts false 20 1 ++
      [.finish false, .start true (.delete dbText)] ++ acts true 4 2)

theorem timely_deletion_truthful :
    (next timelyDeletion (.act true (calm 1735689600 3))).shared.audit.rows.length = 2 ∧
      ∀ e ∈ (next timelyDeletion (.act true (calm 1735689600 3))).shared.audit.rows,
        e ∉ timelyDeletion.shared.audit.rows →
          Truthful timelyDeletion.shared
            (next timelyDeletion (.act true (calm 1735689600 3))).shared e :=
  ⟨by decide +kernel, @entries_truthful toy _ _ _ _ _ (fun _ => rfl) rfl
    (reach_play (by decide +kernel)) (step_next (by decide +kernel) (by decide +kernel))⟩

/-- A process has found version 1 to delete, and the other one has stored version 2 since. -/
def staleDeletion : VaultConfig Bool :=
  play (MutationsOnly fun _ _ => True) timelyDeletion
    (.start false (.put dbText [2] none 0) :: acts false 20 4)

/-- **Not every entry tells the truth**: the deletion archives version 2 and logs version 1. -/
theorem deletion_misreported :
    ¬ ∀ (so : Sodium) (g g' g'' : VaultConfig Bool), (∀ i, (g.procs i).running = none) →
      g.shared.secrets = .empty → (vaultSystem so).Reach (MutationsOnly fun _ _ => True) g g' →
      (vaultSystem so).Step (MutationsOnly fun _ _ => True) g' g'' →
      ∀ e ∈ g''.shared.audit.rows, e ∉ g'.shared.audit.rows →
        Truthful g'.shared g''.shared e := by
  intro h
  have hreach : (vaultSystem toy).Reach (MutationsOnly fun _ _ => True) twoProcesses
      staleDeletion := by
    refine Relation.ReflTransGen.trans (b := timelyDeletion) ?_ (reach_play (by decide +kernel))
    have h1 : (vaultSystem toy).Reach (MutationsOnly DeletesCurrent) twoProcesses timelyDeletion :=
      reach_play (by decide +kernel)
    exact h1.mono _ fun g ev hev => hev.mono (fun _ _ h => h) fun _ _ _ _ _ _ => trivial
  have hT := h toy twoProcesses staleDeletion (next staleDeletion (.act true (calm 1735689600 3)))
    (fun _ => rfl) rfl hreach (step_next (by decide +kernel) (by decide +kernel))
  obtain ⟨e, he, hnew, ha, hv⟩ : ∃ e ∈ (next staleDeletion (.act true (calm 1735689600 3))).shared.audit.rows,
      e ∉ staleDeletion.shared.audit.rows ∧ e.action = deleteText.bytes ∧
        e.targetVersion = some 1 := by decide +kernel
  obtain ⟨v, hv', ⟨r, hr, -, hrv, hra⟩, -⟩ := (hT e he hnew).deleted ha
  obtain rfl : v = 1 := Option.some.inj (hv'.symm.trans hv)
  have harch : ∀ r ∈ staleDeletion.shared.secrets.rows, r.version = 1 → r.isArchived = true := by
    decide +kernel
  rw [harch r hr hrv] at hra
  nomatch hra

end Fuin.Vault.Entries

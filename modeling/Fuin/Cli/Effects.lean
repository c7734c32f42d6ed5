import Fuin.Cli.Calls
import Fuin.Vault.Calls

/-! # What the operations do to the names

Of which names an operation can insert a version or archive the active one: what `vault_put`,
`vault_rollback` and `vault_delete` do concerns the name they are given, and only
`vault_auto_rotate_expired` chooses names itself (`call_effect`). The table may be any table. -/

namespace Fuin.Cli.Effects

open Fuin.Utils Fuin.Crypto Fuin.Lib.Program Fuin.Lib.Growth Fuin.Store.Secrets Fuin.Store.Versions
open Fuin.Store.Database Fuin.Kdf Fuin.Vault.Rows Fuin.Vault.Transactions Fuin.Vault.Operations
open Fuin.Vault.Observed Fuin.Vault.Sessions Fuin.Vault.Committed Fuin.Vault.Calls Fuin.Cli.Calls

variable {t t' t'' : SecretTable} {name : Bytes} {r : SecretRow}

theorem mem_createdNames : name ∈ createdNames t t' ↔
    ∃ r' ∈ t'.rows, (∀ r ∈ t.rows, r.id ≠ r'.id) ∧ r'.name = name := by
  simp [createdNames, and_assoc]

theorem mem_archivedNames : name ∈ archivedNames t t' ↔
    ∃ r ∈ t.rows, r.isArchived = false ∧ (∃ r' ∈ t'.rows, r'.id = r.id ∧ r'.isArchived = true) ∧
      r.name ∉ createdNames t t' ∧ r.name = name := by
  simp [archivedNames, and_assoc]

/-- Versions are inserted under the names `writes` and deleted under the names `deletes`, and no row
is lost. -/
structure Effect (writes deletes : Set Bytes) (t t' : SecretTable) : Prop where
  kept : ∀ r ∈ t.rows, ∃ r' ∈ t'.rows, r'.id = r.id ∧ r'.name = r.name
  created : ∀ name ∈ createdNames t t', name ∈ writes
  archived : ∀ name ∈ archivedNames t t', name ∈ deletes

variable {writes deletes : Set Bytes}

/-- What is new stays new. -/
theorem Effect.createdNames_left (h : Effect writes deletes t' t'') (hname : name ∈ createdNames t t') :
    name ∈ createdNames t t'' := by
  obtain ⟨r', hr', hnew, rfl⟩ := mem_createdNames.mp hname
  obtain ⟨r'', hr'', hid, hn⟩ := h.kept r' hr'
  exact mem_createdNames.mpr ⟨r'', hr'', fun r hr => hid ▸ hnew r hr, hn⟩

theorem Effect.createdNames_right (h : Effect writes deletes t t') (hname : name ∈ createdNames t' t'') :
    name ∈ createdNames t t'' := by
  obtain ⟨r'', hr'', hnew, hn⟩ := mem_createdNames.mp hname
  refine mem_createdNames.mpr ⟨r'', hr'', fun r hr => ?_, hn⟩
  obtain ⟨r', hr', hid, -⟩ := h.kept r hr
  exact hid ▸ hnew r' hr'

/-- **Sequencing.** -/
theorem Effect.trans (h : Effect writes deletes t t') (h' : Effect writes deletes t' t'') :
    Effect writes deletes t t'' where
  kept r hr := by
    obtain ⟨r', hr', hid, hn⟩ := h.kept r hr
    obtain ⟨r'', hr'', hid', hn'⟩ := h'.kept r' hr'
    exact ⟨r'', hr'', hid'.trans hid, hn'.trans hn⟩
  created name hname := by
    obtain ⟨r'', hr'', hnew, rfl⟩ := mem_createdNames.mp hname
    by_cases hmem : ∃ r' ∈ t'.rows, r'.id = r''.id
    · obtain ⟨r', hr', hid⟩ := hmem
      obtain ⟨s, hs, hsid, hsn⟩ := h'.kept r' hr'
      obtain rfl := eq_of_id hs hr'' (hsid.trans hid)
      exact h.created _ (mem_createdNames.mpr ⟨r', hr', fun r hr => hid ▸ hnew r hr, hsn.symm⟩)
    · have hnew' : ∀ r' ∈ t'.rows, r'.id ≠ r''.id := fun r' hr' e => hmem ⟨r', hr', e⟩
      exact h'.created _ (mem_createdNames.mpr ⟨r'', hr'', hnew', rfl⟩)
  archived name hname := by
    obtain ⟨r, hr, hactive, ⟨r'', hr'', hid'', harch⟩, hnot, rfl⟩ := mem_archivedNames.mp hname
    obtain ⟨r', hr', hid', hn'⟩ := h.kept r hr
    have hnot' : r.name ∉ createdNames t t' := fun hc => hnot (h'.createdNames_left hc)
    cases ha : r'.isArchived with
    | true =>
      exact h.archived _ (mem_archivedNames.mpr ⟨r, hr, hactive, ⟨r', hr', hid', ha⟩, hnot', rfl⟩)
    | false =>
      have hnot'' : r'.name ∉ createdNames t' t'' := fun hc =>
        hnot (hn' ▸ h.createdNames_right hc)
      exact h'.archived _ (mem_archivedNames.mpr
        ⟨r', hr', ha, ⟨r'', hr'', hid''.trans hid'.symm, harch⟩, hnot'', hn'⟩)

/-- The rows are replaced one by one, and new ones are added. -/
theorem Effect.of_rows {old new : List SecretRow} (hrows : t'.rows = old ++ new)
    (hold : List.Forall₂ (fun r r' => r'.id = r.id ∧ r'.name = r.name ∧
      (r.isArchived = false → r'.isArchived = true → r.name ∈ deletes ∨ r.name ∈ createdNames t t'))
      t.rows old)
    (hnew : ∀ r ∈ new, r.name ∈ writes) : Effect writes deletes t t' where
  kept r hr := by
    obtain ⟨r', hr', hid, hn, -⟩ := (Grows.of_forall₂ hold).exists_mem hr
    exact ⟨r', by rw [hrows]; exact List.mem_append_left _ hr', hid, hn⟩
  created name hname := by
    obtain ⟨r', hr', hfresh, rfl⟩ := mem_createdNames.mp hname
    rw [hrows] at hr'
    rcases List.mem_append.mp hr' with hmem | hmem
    · obtain ⟨r, hr, hid, -⟩ := forall₂_mem_right hold hmem
      exact absurd hid.symm (hfresh r hr)
    · exact hnew r' hmem
  archived name hname := by
    obtain ⟨r, hr, hactive, ⟨r', hr', hid', harch⟩, hnot, rfl⟩ := mem_archivedNames.mp hname
    obtain ⟨s, hs, hid, -, himp⟩ := (Grows.of_forall₂ hold).exists_mem hr
    obtain rfl := eq_of_id (t := t') (by rw [hrows]; exact List.mem_append_left _ hs) hr'
      (hid.trans hid'.symm)
    exact (himp hactive harch).resolve_right hnot

theorem Effect.refl (t : SecretTable) : Effect writes deletes t t :=
  .of_rows (List.append_nil _).symm
    (List.forall₂_same.mpr fun _ _ => ⟨rfl, rfl, fun h h' => nomatch h.symm.trans h'⟩) nofun

/-- Wrapping keys again concerns no name. -/
theorem effect_sameButDek (h : List.Forall₂ KeyManager.SameButDek t.rows t'.rows) :
    Effect writes deletes t t' := by
  refine .of_rows (List.append_nil _).symm (h.imp fun r r' hr => ?_) nofun
  unfold KeyManager.SameButDek at hr
  rw [hr]
  exact ⟨rfl, rfl, fun h h' => nomatch h.symm.trans h'⟩

/-- Archiving the active row of a name keeps the others. -/
theorem archive_rows_of_name (t : SecretTable) (name now : Bytes) :
    List.Forall₂ (fun r r' => r'.id = r.id ∧ r'.name = r.name ∧
      (r.isArchived = false → r'.isArchived = true → r.name = name)) t.rows
      (t.archive name now).rows := by
  rw [SecretTable.archive_rows, List.forall₂_map_right_iff]
  refine List.forall₂_same.mpr fun r _ => ?_
  unfold SecretTable.archiveRow
  split_ifs with hact
  · simp only [SecretTable.isActiveOf, Bool.and_eq_true, decide_eq_true_eq] at hact
    exact ⟨rfl, rfl, fun _ _ => hact.1⟩
  · exact ⟨rfl, rfl, fun h h' => absurd (h.symm.trans h') Bool.false_ne_true⟩

theorem effect_archive (t : SecretTable) (name now : Bytes) :
    Effect writes {name} t (t.archive name now) :=
  .of_rows (List.append_nil _).symm ((archive_rows_of_name t name now).imp fun _ _ h =>
    ⟨h.1, h.2.1, fun h1 h2 => Or.inl (h.2.2 h1 h2)⟩) nofun

variable {so : Sodium} {db db' : Db} {auditKey : Block 32} {action : CString} {archives : Bool}
  {new : NewSecret}

/-- **A new version** concerns its name, and replaces the version it archives. -/
theorem effect_newVersion (h : NewVersion so auditKey action archives new db db') :
    Effect {new.name.bytes} ∅ db.secrets db'.secrets := by
  obtain ⟨-, hcompat, hrows⟩ := SecretTable.insert_eq_some.mp h.insert
  have harch : List.Forall₂ (fun r r' => r'.id = r.id ∧ r'.name = r.name ∧
      (r.isArchived = false → r'.isArchived = true → r.name = new.name.bytes)) db.secrets.rows
      (archivedIf archives db.secrets new.name.bytes new.now.bytes).rows := by
    cases archives with
    | false =>
      exact List.forall₂_same.mpr fun r _ => ⟨rfl, rfl, fun h h' => nomatch h.symm.trans h'⟩
    | true => exact archive_rows_of_name _ _ _
  have hcreated : new.name.bytes ∈ createdNames db.secrets db'.secrets := by
    refine mem_createdNames.mpr ⟨new.row, by rw [hrows]; simp, fun r hr => ?_, rfl⟩
    obtain ⟨r', hr', hid, -⟩ := (Grows.of_forall₂ harch).exists_mem hr
    exact hid ▸ (hcompat r' hr').1
  refine .of_rows hrows ?_ fun r hr => by rw [List.mem_singleton.mp hr]; rfl
  exact harch.imp fun r r' hr => ⟨hr.1, hr.2.1, fun h1 h2 => Or.inr (hr.2.2 h1 h2 ▸ hcreated)⟩

/-! ### Operations -/

/-- The names under which an operation inserts versions. -/
def writesOf (so : Sodium) : Option Subkeys → Op → Set Bytes
  | some keys, .put name _ _ _ => {(lookupOf so keys name).bytes}
  | some keys, .rollback name _ => {(lookupOf so keys name).bytes}
  | some _, .autoRotate _ => Set.univ
  | _, _ => ∅

/-- The names whose active version it archives without inserting one. -/
def deletesOf (so : Sodium) : Option Subkeys → Op → Set Bytes
  | some keys, .delete name => {(lookupOf so keys name).bytes}
  | _, _ => ∅

theorem Effect.mono {writes' deletes' : Set Bytes} (h : Effect writes deletes t t')
    (hw : writes ⊆ writes') (hd : deletes ⊆ deletes') : Effect writes' deletes' t t' :=
  ⟨h.kept, fun name hn => hw (h.created name hn), fun name hn => hd (h.archived name hn)⟩

variable {session : Option Subkeys} {op : Op}

/-- A transaction concerns the name of its operation. -/
theorem effect_tx {M : Ambient Db Input} {tx : Tx} {db₀ : Db} (h : Proposed so M session op db₀ tx)
    (hrun : (tx.body so).Runs Stmt.exec db db' (.ok ())) :
    Effect (writesOf so session op) (deletesOf so session op) db.secrets db'.secrets := by
  cases h with
  | put h =>
    obtain ⟨_, _, -, -, -, -, -, -, hshown, -⟩ := preparePut_runsIn h
    have heffect := effect_newVersion (put_runs hrun).1
    rw [hshown.stored] at heffect
    exact heffect
  | delete h =>
    obtain ⟨-, -, rfl, -⟩ := prepareDelete_runsIn h
    rw [(delete_runs hrun).archive]
    exact effect_archive _ _ _
  | rollback h =>
    obtain ⟨_, _, _, _, _, -, -, -, -, -, -, -, -, hshown, -⟩ := prepareRollback_runsIn h
    have heffect := effect_newVersion (rollback_runs hrun)
    rw [hshown.stored] at heffect
    exact heffect
  | rotateDek h => exact (effect_newVersion (rotateDek_runs hrun).1).mono (Set.subset_univ _) subset_rfl
  | rotateKek h => exact effect_sameButDek (rotateKek_frame hrun).1
  | revokeTokens h =>
    rw [(revokeTokens_runs hrun).1]
    exact .refl _
  | storeAuth h =>
    obtain ⟨nonce, rfl⟩ := storeAuth_runs hrun
    exact .refl _

/-- **What a call does to the names**, whatever fails. -/
theorem call_effect {r : Except Status Result}
    (h : (code so session op).Runs (Cmd.exec so) db db' r) :
    Effect (writesOf so session op) (deletesOf so session op) db.secrets db'.secrets := by
  have hsteps := call_steps h
  clear h
  induction hsteps with
  | refl => exact .refl _
  | tail _ hstep ih =>
    refine ih.trans ?_
    cases hstep with
    | tx hprop hrun => exact effect_tx hprop hrun
    | log _ _ _ _ => exact .refl _
    | note _ => exact .refl _

end Fuin.Cli.Effects

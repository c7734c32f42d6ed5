import Fuin.Store.Versions
import Fuin.Vault.Sessions
import Fuin.Vault.Committed

/-! # The versions under concurrency

What an operation has read of a name may be old when its transaction begins. The transaction commits
only if the number it has chosen is still the next one: every smaller number is taken, and
`(name, version)` is unique (`newVersion_next`). So the rows of every name stay a history, and no row
is lost or changed, whatever the processes do (`history_reach`). -/

namespace Fuin.Vault.Versioned

open Fuin.Utils Fuin.Crypto Fuin.Lib.Program Fuin.Lib.Interleave Fuin.Lib.Growth
open Fuin.Store.Secrets Fuin.Store.Versions Fuin.Store.Database Fuin.Kdf Fuin.Audit.Log
open Fuin.Vault.Rows Fuin.Vault.Transactions Fuin.Vault.Operations Fuin.Vault.Observed
open Fuin.Vault.Rules Fuin.Vault.Sessions Fuin.Vault.Committed

/-! ### The next version -/

/-- The invariant of the table: every name has a history, and the ids are UUIDs. -/
structure Orderly (t : SecretTable) : Prop where
  history : ∀ name, History t name
  id : ∀ r ∈ t.rows, ∃ u, r.id = (uuidText u).bytes

theorem Orderly.noNul {t : SecretTable} (h : Orderly t) : ∀ r ∈ t.rows, (0 : UInt8) ∉ r.id := by
  intro r hr
  obtain ⟨u, hu⟩ := h.id r hr
  rw [hu]
  exact (uuidText u).noNul

/-- Versions are read as they are. -/
theorem Orderly.columnInt_version {t : SecretTable} {r : SecretRow} (h : Orderly t) (hr : r ∈ t.rows) :
    columnInt r.version = r.version := by
  have hh := h.history r.name
  obtain ⟨h1, h2⟩ := hh.versions.mem (SecretTable.mem_rowsOf.mpr ⟨hr, rfl⟩)
  have hmax := hh.length_le
  unfold intMax at hmax
  exact columnInt_of_lt (by omega) (by omega)

theorem orderly_empty : Orderly .empty where
  history := history_empty
  id _ h := nomatch h

variable {so : Sodium} {keys : Subkeys} {db₀ db db' : Db} {name : CString}

/-- What is read of the bounds of a history. -/
theorem boundsOf_history (hh : History db.secrets name.bytes) :
    boundsOf name db =
      .ok ⟨decide (db.secrets.rowsOf name.bytes ≠ []), (db.secrets.rowsOf name.bytes).length,
        (db.secrets.rowsOf name.bytes).length⟩ := by
  have hlen : columnInt (db.secrets.rowsOf name.bytes).length =
      (db.secrets.rowsOf name.bytes).length :=
    columnInt_of_lt (by omega) (by have := hh.length_le; unfold intMax at this; omega)
  have hmax : db.secrets.maxOf name.bytes SecretRow.version =
      (db.secrets.rowsOf name.bytes).length := hh.versions.max_eq
  have hcount : db.secrets.maxOf name.bytes SecretRow.nonceCounter =
      (db.secrets.rowsOf name.bytes).length := by
    unfold SecretTable.maxOf
    rw [List.map_congr_left hh.counter]
    exact hmax
  unfold boundsOf
  rw [hlen]
  split_ifs with hpos
  · have hne : db.secrets.rowsOf name.bytes ≠ [] := fun h => by simp [h] at hpos
    refine bind_eq_ok.mpr ⟨(), ?_, ?_⟩
    · rw [require_eq_ok, hmax, hcount, hlen]
      omega
    · rw [hmax, hcount, hlen, decide_eq_true hne]
      rfl
  · have hnil : db.secrets.rowsOf name.bytes = [] :=
      List.length_eq_zero_iff.mp (by omega)
    rw [hnil]
    rfl

/-- What follows the bounds is the next number. -/
theorem follows_eq {version counter : ℤ} (hh : History db.secrets name.bytes)
    (h : Follows name db version counter) :
    version = (db.secrets.rowsOf name.bytes).length + 1 ∧ counter = version ∧ version ≤ intMax := by
  obtain ⟨bounds, hb, hn⟩ := h
  rw [boundsOf_history hh] at hb
  cases hb
  have hle := hh.length_le
  by_cases hnil : db.secrets.rowsOf name.bytes = []
  · simp only [hnil, ne_eq, not_true, decide_false, Bool.false_eq_true, if_false, Except.ok.injEq,
      Prod.mk.injEq] at hn
    obtain ⟨rfl, rfl⟩ := hn
    rw [hnil]
    exact ⟨rfl, rfl, by decide⟩
  · simp only [hnil, ne_eq, not_false_eq_true, decide_true, if_true, Bounds.next, bind_eq_ok,
      require_eq_ok, pure_eq_ok, Prod.mk.injEq] at hn
    obtain ⟨-, ⟨hmax, -⟩, rfl, rfl⟩ := hn
    exact ⟨rfl, rfl, by omega⟩

theorem frozen_archivedIf (archives : Bool) (t : SecretTable) (n now : Bytes) :
    List.Forall₂ Frozen t.rows (archivedIf archives t n now).rows := by
  cases archives with
  | false => exact List.forall₂_same.mpr fun r _ => Frozen.refl r
  | true => exact frozen_archive t n now

/-- The rows of a name after the archiving are as many as before. -/
theorem rowsOf_archivedIf (archives : Bool) (t : SecretTable) (n now name : Bytes) :
    List.Forall₂ Kept (t.rowsOf name) ((archivedIf archives t n now).rowsOf name) :=
  rowsOf_forall₂ ((frozen_archivedIf archives t n now).imp fun _ _ => Frozen.kept) name

variable {auditKey : Block 32} {action : CString} {archives : Bool} {new : NewSecret}

/-- **A new version that commits is the next one**, however old the bounds it was computed from. -/
theorem newVersion_next (h : NewVersion so auditKey action archives new db db')
    (hh₀ : History db₀.secrets new.name.bytes) (hh : History db.secrets new.name.bytes)
    (hgrow : Grows Kept db₀.secrets.rows db.secrets.rows)
    (hf : Follows new.name db₀ new.version new.nonceCounter) :
    new.version = (db.secrets.rowsOf new.name.bytes).length + 1 ∧
      new.nonceCounter = new.version ∧ new.version ≤ intMax := by
  obtain ⟨hv, hc, hmax⟩ := follows_eq hh₀ hf
  refine ⟨?_, hc, hmax⟩
  have hle := (rowsOf_grows hgrow new.name.bytes).length_le
  by_contra hne
  have hold : new.version ≤ (db.secrets.rowsOf new.name.bytes).length := by omega
  -- the number is taken, and the row that has it refuses the insertion
  obtain ⟨r, hr, hrv⟩ := hh.versions.exists_mem (by omega) hold
  obtain ⟨i, hi, rfl⟩ := List.getElem_of_mem hr
  have hsub := rowsOf_archivedIf archives db.secrets new.name.bytes new.now.bytes new.name.bytes
  have hi' := hsub.length_eq ▸ hi
  have hk := hsub.get hi hi'
  have hmem := SecretTable.mem_rowsOf.mp (List.getElem_mem hi')
  exact ((SecretTable.insert_eq_some.mp h.insert).2.1 _ hmem.1).2.1
    ⟨hmem.2, (hk.version_eq).trans hrv⟩

/-- A new version that is the next one keeps the histories. -/
theorem newVersion_orderly (h : NewVersion so auditKey action archives new db db')
    (hdb : Orderly db.secrets) (hid : ∃ u, new.id = uuidText u)
    (hexp : new.expiresAt.isSome ↔ 0 < new.rotationInterval)
    (hnext : new.version = (db.secrets.rowsOf new.name.bytes).length + 1 ∧
      new.nonceCounter = new.version ∧ new.version ≤ intMax) : Orderly db'.secrets := by
  have hbase : ∀ n, History (archivedIf archives db.secrets new.name.bytes new.now.bytes) n := by
    intro n
    cases archives with
    | false => exact hdb.history n
    | true => exact (hdb.history n).archive _ _
  have hlen := (rowsOf_archivedIf archives db.secrets new.name.bytes new.now.bytes
    new.name.bytes).length_eq
  refine ⟨fun n => (hbase n).insert h.insert ?_ hnext.2.1 ?_ rfl hnext.2.2, fun r hr => ?_⟩
  · show new.version = ((archivedIf archives db.secrets new.name.bytes new.now.bytes).rowsOf
      new.name.bytes).length + 1
    rw [← hlen]
    exact hnext.1
  · simp only [NewSecret.row, Option.isSome_map, hexp]
    split_ifs with hpos <;> simp [hpos]
  · rw [(SecretTable.insert_eq_some.mp h.insert).2.2] at hr
    rcases List.mem_append.mp hr with hr | hr
    · cases archives with
      | false => exact hdb.id r hr
      | true =>
        obtain ⟨s, hs, rfl⟩ := List.mem_map.mp hr
        rw [(SecretTable.archiveRow_keepsKeys _ _).id]
        exact hdb.id s hs
    · obtain ⟨u, hu⟩ := hid
      rw [List.mem_singleton.mp hr]
      exact ⟨u, congrArg CString.bytes hu⟩

/-- One row is added, and the others stay but for the archiving. -/
theorem newVersion_grows (h : NewVersion so auditKey action archives new db db') :
    Grows Frozen db.secrets.rows db'.secrets.rows := by
  rw [(SecretTable.insert_eq_some.mp h.insert).2.2]
  exact Grows.concat (frozen_archivedIf _ _ _ _) _

/-- What archiving leaves holds of all rows if it holds of the new one. -/
theorem newVersion_rows {P : SecretRow → Prop} (h : NewVersion so auditKey action archives new db db')
    (hP : ∀ r s, Frozen r s → P r → P s) (hdb : ∀ r ∈ db.secrets.rows, P r)
    (hnew : new.row ∈ db'.secrets.rows → P new.row) : ∀ r ∈ db'.secrets.rows, P r := by
  have hrows := (SecretTable.insert_eq_some.mp h.insert).2.2
  intro s hs
  have hmem := hs
  rw [hrows] at hs
  rcases List.mem_append.mp hs with hs | hs
  · obtain ⟨r, hr, hrs⟩ := forall₂_mem_right (frozen_archivedIf _ _ _ _) hs
    exact hP r s hrs (hdb r hr)
  · obtain rfl := List.mem_singleton.mp hs
    exact hnew hmem

/-- Replacing rows along `Kept` keeps the table in order, unless it makes one active. -/
theorem Orderly.of_kept {t u : SecretTable} (h : Orderly t)
    (hrows : List.Forall₂ Kept t.rows u.rows)
    (hact : ∀ r s, r ∈ t.rows → s ∈ u.rows → s.id = r.id → s.isArchived = false →
      r.isArchived = false) : Orderly u := by
  refine ⟨fun n => (h.history n).of_kept hrows hact, fun s hs => ?_⟩
  obtain ⟨r, hr, hrs⟩ := forall₂_mem_right hrows hs
  rw [hrs.id_eq]
  exact h.id r hr

theorem Orderly.archive {t : SecretTable} (h : Orderly t) (n now : Bytes) :
    Orderly (t.archive n now) := by
  refine ⟨fun name => (h.history name).archive n now, fun r hr => ?_⟩
  obtain ⟨s, hs, rfl⟩ := List.mem_map.mp hr
  rw [(SecretTable.archiveRow_keepsKeys _ _).id]
  exact h.id s hs

theorem rewrapped_kept {oldKek newKek : Block 32} {r r' : SecretRow}
    (h : KeyManager.Rewrapped so oldKek newKek r r') : Kept r r' := by
  obtain ⟨_, _, _, _, _, _, -, -, -, -, -, -, rfl⟩ := h
  exact ⟨_, _, _, r.updatedAt, r.isArchived, rfl⟩

/-- Rewrapping keeps the table in order. -/
theorem orderly_rewrapped {oldKek newKek : Block 32} {t u : SecretTable} (h : Orderly t)
    (hrows : List.Forall₂ (KeyManager.Rewrapped so oldKek newKek) t.rows u.rows) : Orderly u := by
  refine h.of_kept (hrows.imp fun _ _ => rewrapped_kept) fun r s hr hs hid ha => ?_
  obtain ⟨q, hq, hrew⟩ := forall₂_mem_right hrows hs
  obtain rfl := eq_of_id hr hq (hid.symm.trans hrew.id_eq)
  obtain ⟨_, _, _, _, _, _, -, -, -, -, -, -, rfl⟩ := hrew
  exact ha

/-! ### All operations -/

/-- The copy of a secret takes over the columns that were read; they are those of the new row. -/
theorem rotation_eq {metadata : SecretMetadata} {new : NewSecret}
    (h1 : new.nameNonce = metadata.nameNonce) (h2 : new.encryptedName = metadata.encryptedName)
    (h3 : new.rotationInterval = metadata.rotationInterval) :
    { new with
      nameNonce := metadata.nameNonce
      encryptedName := metadata.encryptedName
      rotationInterval := metadata.rotationInterval } = new := by
  rw [← h1, ← h2, ← h3]

/-- **Every transaction** keeps the table in order and only adds rows. -/
theorem tx_orderly {M : Ambient Db Input} {session : Option Subkeys} {op : Op} {t : Tx}
    {db₁ db₂ db₃ : Db} (ht : Proposed so M session op db₁ t)
    (hrely : ∀ s s', M.rely s s' → Grows Kept s.secrets.rows s'.secrets.rows)
    (hinv : ∀ s, M.inv s → Orderly s.secrets) (hgrow : Grows Kept db₁.secrets.rows db₂.secrets.rows)
    (hdb : Orderly db₂.secrets) (hrun : (t.body so).Runs Stmt.exec db₂ db₃ (.ok ())) :
    Orderly db₃.secrets ∧ Grows Kept db₂.secrets.rows db₃.secrets.rows := by
  have hnew {key action archives new} {d : Db} (hd : Orderly d.secrets)
      (hg : Grows Kept d.secrets.rows db₁.secrets.rows)
      (hf : Follows new.name d new.version new.nonceCounter)
      {keys plaintext algorithm} (hp : Prepared so keys plaintext algorithm new)
      (h : NewVersion so key action archives new db₂ db₃) :
      Orderly db₃.secrets ∧ Grows Kept db₂.secrets.rows db₃.secrets.rows := by
    have hnext := newVersion_next h (hd.history new.name.bytes) (hdb.history new.name.bytes)
      (Grows.trans (fun _ _ _ => Kept.trans) hg hgrow) hf
    exact ⟨newVersion_orderly h hdb hp.id hp.expires hnext,
      (newVersion_grows h).mono fun _ _ => Frozen.kept⟩
  cases ht with
  | put h =>
    obtain ⟨_, d, -, -, -, hd, hg, -, -, -, hf, hp, -⟩ := preparePut_runsIn h
    exact hnew (hinv _ hd) (hrely _ _ hg) hf hp (put_runs hrun).1
  | delete h =>
    rw [(delete_runs hrun).archive]
    exact ⟨hdb.archive _ _, .of_forall₂ ((frozen_archive _ _ _).imp fun _ _ => Frozen.kept)⟩
  | rollback h =>
    obtain ⟨_, _, d, _, _, -, -, -, -, -, hd, hg, -, -, -, -, -, hf, hp⟩ := prepareRollback_runsIn h
    exact hnew (hinv _ hd) (hrely _ _ hg) hf hp (rollback_runs hrun)
  | rotateDek h =>
    obtain ⟨_, _, d, _, _, -, -, -, -, -, hd, hg, hn, -, -, -, hf, hp, e1, e2, e3⟩ :=
      prepareRotation_runsIn h
    have hrot := (rotateDek_runs hrun).1
    rw [rotation_eq e1 e2 e3] at hrot
    exact hnew (hinv _ hd) (hrely _ _ hg) (hn ▸ hf) hp hrot
  | rotateKek h =>
    obtain ⟨_, _, _, -, hrows, -⟩ := rotateKek_rewraps hdb.noNul hrun
    exact ⟨orderly_rewrapped hdb hrows, .of_forall₂ (hrows.imp fun _ _ => rewrapped_kept)⟩
  | revokeTokens h =>
    rw [(revokeTokens_runs hrun).1]
    exact ⟨hdb, Grows.refl Kept.refl _⟩
  | storeAuth h =>
    obtain ⟨_, rfl⟩ := storeAuth_runs hrun
    exact ⟨hdb, Grows.refl Kept.refl _⟩

/-- **Every transaction but `vault_rotate_kek`** leaves the rows as they are but for the archiving. -/
theorem tx_frozen {M : Ambient Db Input} {session : Option Subkeys} {op : Op} {t : Tx}
    {db₁ db db' : Db} (ht : Proposed so M session op db₁ t)
    (hkek : ∀ password, op ≠ .rotateKek password)
    (hrun : (t.body so).Runs Stmt.exec db db' (.ok ())) :
    Grows Frozen db.secrets.rows db'.secrets.rows := by
  cases ht with
  | put => exact newVersion_grows (put_runs hrun).1
  | delete =>
    rw [(delete_runs hrun).archive]
    exact .of_forall₂ (frozen_archive _ _ _)
  | rollback => exact newVersion_grows (rollback_runs hrun)
  | rotateDek => exact newVersion_grows (rotateDek_runs hrun).1
  | rotateKek => exact absurd rfl (hkek _)
  | revokeTokens =>
    rw [(revokeTokens_runs hrun).1]
    exact Grows.refl Frozen.refl _
  | storeAuth =>
    obtain ⟨_, rfl⟩ := storeAuth_runs hrun
    exact Grows.refl Frozen.refl _

/-- **What archiving leaves**, every transaction but `vault_rotate_kek` leaves, if it holds of the rows
that the sessions prepare. -/
theorem tx_rows {P : SecretRow → Prop} {M : Ambient Db Input} {session : Option Subkeys} {op : Op}
    {t : Tx} {db₁ db₂ db₃ : Db} (ht : Proposed so M session op db₁ t)
    (hkek : ∀ password, op ≠ .rotateKek password) (hP : ∀ r s, Frozen r s → P r → P s)
    (hnew : ∀ keys ∈ session, ∀ plaintext algorithm new, Prepared so keys plaintext algorithm new →
      new.row ∈ db₃.secrets.rows → P new.row) (hdb : ∀ r ∈ db₂.secrets.rows, P r)
    (hrun : (t.body so).Runs Stmt.exec db₂ db₃ (.ok ())) : ∀ r ∈ db₃.secrets.rows, P r := by
  cases ht with
  | put h =>
    obtain ⟨_, _, -, -, -, -, -, -, -, -, -, hp, -⟩ := preparePut_runsIn h
    exact newVersion_rows (put_runs hrun).1 hP hdb (hnew _ rfl _ _ _ hp)
  | delete h =>
    intro s hs
    rw [(delete_runs hrun).archive] at hs
    obtain ⟨r, hr, hrs⟩ := forall₂_mem_right (frozen_archive _ _ _) hs
    exact hP r s hrs (hdb r hr)
  | rollback h =>
    obtain ⟨_, _, _, _, _, -, -, -, -, -, -, -, -, -, -, -, -, -, hp⟩ := prepareRollback_runsIn h
    exact newVersion_rows (rollback_runs hrun) hP hdb (hnew _ rfl _ _ _ hp)
  | rotateDek h =>
    obtain ⟨_, _, _, _, _, -, -, -, -, -, -, -, -, -, -, -, -, hp, e1, e2, e3⟩ :=
      prepareRotation_runsIn h
    have hrot := (rotateDek_runs hrun).1
    rw [rotation_eq e1 e2 e3] at hrot
    exact newVersion_rows hrot hP hdb (hnew _ rfl _ _ _ hp)
  | rotateKek h => exact absurd rfl (hkek _)
  | revokeTokens h =>
    rw [(revokeTokens_runs hrun).1]
    exact hdb
  | storeAuth h =>
    obtain ⟨_, rfl⟩ := storeAuth_runs hrun
    exact hdb

theorem grows_refl (db : Db) : Grows Kept db.secrets.rows db.secrets.rows :=
  Grows.refl Kept.refl db.secrets.rows

theorem grows_trans {db'' : Db} (h : Grows Kept db.secrets.rows db'.secrets.rows)
    (h' : Grows Kept db'.secrets.rows db''.secrets.rows) :
    Grows Kept db.secrets.rows db''.secrets.rows :=
  h.trans (fun _ _ _ => Kept.trans) h'

/-- What a transaction of a process may find and leave: the table in order, and more rows. -/
def protocol : Protocol Cmd Status Result Db (ℕ → Input) (Option Subkeys) Op where
  inv db := Orderly db.secrets
  rely db db' := Grows Kept db.secrets.rows db'.secrets.rows
  guar _ _ db db' := Grows Kept db.secrets.rows db'.secrets.rows
  allow _ _ _ _ _ := True
  may _ _ := True
  loc _ _ := True
  post _ _ _ _ := True
  rely_refl := grows_refl
  rely_trans := grows_trans
  guar_rely h := h
  loc_rely _ _ _ := trivial

theorem allows (session : Option Subkeys) (op : Op) :
    Allows so (protocol.contract session op) session op where
  read db _ := grows_refl db
  note db _ h := ⟨h, grows_refl db⟩
  log _ _ _ _ _ _ _ _ db _ _ _ _ _ _ h _ _ := ⟨h, grows_refl db⟩
  tx _ _ _ _ _ ht hrely hinv _ hrun :=
    tx_orderly ht (fun _ _ h => h) (fun _ h => h) hrely hinv hrun

theorem sound : protocol.Sound (vaultSystem so) :=
  sound_of_allows (fun l op _ _ _ => allows l op) (fun _ _ _ _ _ _ _ => trivial)
    fun _ _ _ _ _ _ => trivial

variable {ι : Type}

/-- **The table under concurrency**: whatever the processes do from a database without secrets, the
rows of every name are numbered `1, …, n` with as many counters, at most one of them is active and
only the last, and a row expires if and only if it has an interval; and from then on no row is
removed, nor is its id, version or ciphertext changed. -/
theorem history_reach [DecidableEq ι] {g g' g'' : VaultConfig ι}
    (hidle : ∀ i, (g.procs i).running = none) (hempty : g.shared.secrets = .empty)
    (h : (vaultSystem so).Reach (fun _ _ => True) g g')
    (h' : (vaultSystem so).Reach (fun _ _ => True) g' g'') :
    (∀ name, History g'.shared.secrets name ∧ g'.shared.secrets.activeCount name ≤ 1) ∧
      Grows Kept g'.shared.secrets.rows g''.shared.secrets.rows := by
  have hall : ∀ (g : VaultConfig ι) ev, True → protocol.Admits g ev := fun g ev _ => obeys_true g ev
  have hinv : Orderly g.shared.secrets := by
    rw [hempty]
    exact orderly_empty
  have hgood : protocol.Good (vaultSystem so) g' :=
    (Protocol.Good.of_idle hinv hidle fun _ => trivial).reach sound (h.mono _ hall)
  exact ⟨fun name => ⟨hgood.inv.history name, activeCount_le_one _ name⟩,
    hgood.reach_rely sound (h'.mono _ hall)⟩

/-- Two processes store a secret under one name at the same time. -/
def racingPuts : VaultConfig Bool :=
  let put : Op := .put sampleName [1, 2, 3] none 0
  play (fun _ _ => True) twoProcesses (.start false put :: acts false 19 1 ++ .start true put ::
    acts true 19 2 ++ acts false 1 3 ++ acts true 1 4)

/-- The second one, which has failed, tries again. -/
def secondPut : VaultConfig Bool :=
  play (fun _ _ => True) racingPuts
    ([.finish true, .start true (.put sampleName [4, 5] none 0)] ++ acts true 20 5)

theorem racing_puts_history :
    (∀ name, History racingPuts.shared.secrets name ∧ racingPuts.shared.secrets.activeCount name ≤ 1) ∧
      Grows Kept racingPuts.shared.secrets.rows secondPut.shared.secrets.rows :=
  @history_reach toy _ _ _ _ _ (fun _ => rfl) rfl (reach_play (by decide +kernel))
    (reach_play (by decide +kernel))

example : secondPut.shared.secrets.rows.map (fun r => (r.version, r.isArchived)) =
    [(1, true), (2, false)] := by decide +kernel

end Fuin.Vault.Versioned

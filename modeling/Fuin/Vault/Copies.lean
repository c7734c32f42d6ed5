import Fuin.Vault.Atomic

/-! # Rotated keys and concurrent updates

`vault_rotate_expired_secret` decrypts the active version, reads the bounds of the history, and then
writes. A version that another process commits after the bounds were read makes the insertion fail;
one that it commits after the active row was read and before the bounds are read does not, and the
rotation puts the old plaintext on top of it. So a rotation is a copy of the version that it archives
if the version it has read is still the last one (`Timely`). In runs of which all rotations are
timely the value of a secret changes only by `vault_put_with_options`, `vault_rollback` and
`vault_delete` (`rotations_copy`). -/

namespace Fuin.Vault.Copies

open Fuin.Utils Fuin.Crypto Fuin.Lib.Program Fuin.Lib.Interleave Fuin.Lib.Growth
open Fuin.Store.Secrets Fuin.Store.Versions Fuin.Store.Database Fuin.CryptoEngine Fuin.Kdf
open Fuin.Audit.Log Fuin.Vault.Rows Fuin.Vault.Transactions Fuin.Vault.Operations
open Fuin.Vault.Observed Fuin.Vault.Rules Fuin.Vault.Sessions Fuin.Vault.Committed
open Fuin.Vault.Versioned Fuin.Vault.Stored Fuin.Vault.Reading Fuin.Vault.Atomic

variable {so : Sodium} {keys : Subkeys} {db db' db₀ db₁ : Db} {M : Ambient Db Input}
  {metadata : SecretMetadata} {new : NewSecret} {r s : SecretRow}

/-- The version that a rotation has read is the last one of the name, or the number that it is going
to insert is taken. -/
def Current (db : Db) (metadata : SecretMetadata) (new : NewSecret) : Prop :=
  (∀ r ∈ db.secrets.rowsOf new.name.bytes, r.version ≤ metadata.version) ∨
    ∃ r ∈ db.secrets.rowsOf new.name.bytes, r.version = new.version

instance : Decidable (Current db metadata new) := inferInstanceAs (Decidable (_ ∨ _))

/-- The rows of the other names stay. -/
def OnlyOf (name : Bytes) (db db' : Db) : Prop :=
  ∀ m ≠ name, db'.secrets.rowsOf m = db.secrets.rowsOf m

/-- **The active version has been archived and a copy of it inserted** as the next version: the same
plaintext, algorithm and interval. -/
structure Copied (so : Sodium) (keys : Subkeys) (db db' : Db) (r r' : SecretRow) : Prop where
  old : r ∈ db.secrets.rows
  active : r.isArchived = false
  archived : ∃ s ∈ db'.secrets.rows, s.id = r.id ∧ s.isArchived = true
  new : r' ∈ db'.secrets.rows
  fresh : ∀ s ∈ db.secrets.rows, s.id ≠ r'.id
  newActive : r'.isArchived = false
  name : r'.name = r.name
  version : r'.version = r.version + 1
  plaintext : ∃ p, Reads so keys.kekEnc r p ∧ Reads so keys.kekEnc r' p
  algorithm : columnText r'.algorithm = columnText r.algorithm
  interval : r'.rotationInterval = r.rotationInterval

/-! ### What a transaction does to the names -/

/-- A new version concerns its name. -/
theorem onlyOf_newVersion {auditKey : Block 32} {action : CString} {archives : Bool}
    (h : NewVersion so auditKey action archives new db db') : OnlyOf new.name.bytes db db' := by
  intro m hm
  have hn : new.row.name ≠ m := Ne.symm hm
  rw [rowsOf_insert h.insert, if_neg hn]
  cases archives with
  | false => rfl
  | true => exact rowsOf_archive_of_ne hm

/-! ### A rotation -/

/-- What is read of a row stays while no key is rotated. -/
theorem reads_of_frozen {kek : Block 32} {p : Bytes} (h : Reads so kek r p) (hrs : Frozen r s) :
    Reads so kek s p := by
  obtain ⟨_, _, rfl⟩ := hrs
  exact h

/-- The state of a table in which the sessions work. -/
def Works (so : Sodium) (keys : Subkeys) (db : Db) : Prop :=
  Orderly db.secrets ∧ Readable so keys db.secrets

/-- A row that was there is still there, with the same contents. -/
theorem frozen_of_versionRow {name : Bytes} {v : ℤ} (hgrow : Grows Frozen db.secrets.rows db'.secrets.rows)
    (h : db.secrets.versionRow name v = some r) :
    ∃ s ∈ db'.secrets.rows, Frozen r s ∧ s.name = name ∧ s.version = v := by
  obtain ⟨hmem, hn, hv⟩ := SecretTable.versionRow_eq_some h
  obtain ⟨s, hs, hrs⟩ := hgrow.exists_mem hmem
  exact ⟨s, hs, hrs, hrs.kept.name_eq.trans hn, hrs.kept.version_eq.trans hv⟩

/-- The last version of a name, if it is active, is the row of every version that is as high. -/
theorem eq_active {name : Bytes} (hdb : Orderly db.secrets) (hr : r ∈ db.secrets.rows)
    (hn : r.name = name) (hactive : r.isArchived = false) (hs : s ∈ db.secrets.rows)
    (hsn : s.name = name) (hv : r.version ≤ s.version) : s = r := by
  subst hn
  have hcur := (hdb.history r.name).current hr hactive
  have hle := hcur.2 s hs hsn
  have h1 := SecretTable.versionRow_of_mem hr
  rw [← hsn, le_antisymm hv hle, SecretTable.versionRow_of_mem hs] at h1
  exact Option.some.inj h1

/-- The interval that is read of a row is stored again. -/
theorem row_interval (hr : r.Admitted) (h : new.rotationInterval = r.rotationInterval.getD 0) :
    new.row.rotationInterval = r.rotationInterval := by
  unfold NewSecret.row
  dsimp only
  rw [h]
  cases hi : r.rotationInterval with
  | none => rfl
  | some n => exact if_pos (hr.2 n hi)

/-- **A timely rotation is a copy**: what it has read is the version that it archives. -/
theorem copied_of_rotation {name : CString}
    (h : (prepareRotation so keys name).RunsIn Stmt.exec M db₀ db₁ (.ok (some (metadata, new))))
    (hrely : ∀ s s', M.rely s s' → Grows Frozen s.secrets.rows s'.secrets.rows)
    (hinv : ∀ s, M.inv s → Works so keys s) (hgrow : Grows Frozen db₁.secrets.rows db.secrets.rows)
    (hdb : Works so keys db) (hdb' : Works so keys db') (hcurrent : Current db metadata new)
    (hrun : ((Tx.rotateDek metadata new keys.kekAudit).body so).Runs Stmt.exec db db' (.ok ())) :
    ∃ r, Copied so keys db db' r new.row := by
  obtain ⟨d₁, d₂, d₃, q, plaintext, -, i1, r12, i2, r23, i3, r3, hn, hm, hq, hreads, hf, hp, e1, e2,
    e3⟩ := prepareRotation_runsIn h
  subst hn
  obtain ⟨hv, hcount⟩ := rotateDek_runs hrun
  rw [rotation_eq e1 e2 e3] at hv
  have htrans : ∀ {a b c : Db}, Grows Frozen a.secrets.rows b.secrets.rows →
      Grows Frozen b.secrets.rows c.secrets.rows → Grows Frozen a.secrets.rows c.secrets.rows :=
    fun h h' => h.trans (fun _ _ _ => Frozen.trans) h'
  have g3 := htrans (hrely _ _ r3) hgrow
  have g2 := htrans (hrely _ _ r23) g3
  have g1 := htrans (hrely _ _ r12) g2
  -- the number is the next one, so it is not taken
  obtain ⟨hnext, -, -⟩ := newVersion_next hv ((hinv _ i3).1.history _) (hdb.1.history _)
    (g3.mono fun _ _ => Frozen.kept) hf
  have hlast : ∀ r ∈ db.secrets.rowsOf new.name.bytes, r.version ≤ metadata.version := by
    refine hcurrent.resolve_right ?_
    rintro ⟨r, hr, hrv⟩
    have hle := ((hdb.1.history _).versions.mem hr).2
    omega
  -- the active row is the one that was decrypted, and the one whose columns were read
  obtain ⟨r, hr, hrn, hactive⟩ := exists_active hcount
  obtain ⟨s, hs, hqs, hsn, hsv⟩ := frozen_of_versionRow g2 hq
  have hrv := hlast r (SecretTable.mem_rowsOf.mpr ⟨hr, hrn⟩)
  obtain rfl := eq_active hdb.1 hr hrn hactive hs hsn (hsv ▸ hrv)
  obtain ⟨a, ha, hread⟩ := metadataOf_eq_some hm
  obtain ⟨hav, hai, -, -⟩ := readMetadata_eq_ok hread
  obtain ⟨hamem, han, -⟩ := SecretTable.activeRow_eq_some ha
  rw [(hinv _ i1).1.columnInt_version hamem] at hav
  obtain ⟨b, hb, hab⟩ := g1.exists_mem hamem
  obtain rfl := eq_active hdb.1 hr hrn hactive hb (hab.kept.name_eq.trans han)
    (by rw [hab.kept.version_eq, ← hav, hsv])
  obtain ⟨-, hcompatible, hrows⟩ := SecretTable.insert_eq_some.mp hv.insert
  have hmem' : new.row ∈ db'.secrets.rows := by
    rw [hrows]
    exact List.mem_append_right _ (List.mem_singleton_self _)
  have harchived : ∀ t ∈ db.secrets.rows, SecretTable.archiveRow new.name.bytes new.now.bytes t ∈
      (archivedIf true db.secrets new.name.bytes new.now.bytes).rows :=
    fun t ht => List.mem_map_of_mem ht
  have hid := (SecretTable.archiveRow_keepsKeys new.name.bytes new.now.bytes).id
  obtain ⟨shownName, hshown⟩ := StoredUnder.shown_of_metadata (hinv _ i1).2 hm
  rw [← e1, ← e2] at hshown
  have halgorithm := algorithm_stays (SecretTable.admitted _ q (SecretTable.versionRow_eq_some hq).1)
    hp.algorithm
  refine ⟨b, hr, hactive, ?_, hmem', fun t ht => ?_, rfl, hrn.symm, ?_,
    ⟨plaintext, reads_of_frozen hreads hqs, ?_⟩, ?_, ?_⟩
  · refine ⟨_, by rw [hrows]; exact List.mem_append_left _ (harchived b hr), hid b, ?_⟩
    unfold SecretTable.archiveRow
    rw [if_pos (by simp [SecretTable.isActiveOf, hrn, hactive])]
  · rw [← hid t]
    exact (hcompatible _ (harchived t ht)).1
  · show new.version = b.version + 1
    rw [hnext, (hdb.1.history _).active b (SecretTable.mem_rowsOf.mpr ⟨hr, hrn⟩) hactive]
  · exact reads_of_stored (storedUnder_prepared hp hshown) hdb'.1 hmem'
  · obtain ⟨_, _, rfl⟩ := hqs
    show columnText new.encrypted.algorithm.bytes = columnText q.algorithm
    rw [columnText_bytes]
    exact halgorithm
  · refine row_interval (SecretTable.admitted _ _ hr) ?_
    obtain ⟨_, _, rfl⟩ := hab
    exact e3.trans hai

/-! ### All operations -/

/-- What `vault_get` returns of the stored name. -/
def Value (so : Sodium) (keys : Subkeys) (name plaintext : Bytes) (db : Db) : Prop :=
  ∃ r, db.secrets.activeRow name = some r ∧ Reads so keys.kekEnc r plaintext

/-- The name that an operation is given to write. -/
def targets (so : Sodium) (keys : Subkeys) : Op → Set Bytes
  | .put name _ _ _ => {(lookupOf so keys name).bytes}
  | .delete name => {(lookupOf so keys name).bytes}
  | .rollback name _ => {(lookupOf so keys name).bytes}
  | _ => ∅

/-- What a step of an operation does to the secrets, if it changes them: a copy of one, or anything
to the name that the operation is given. -/
def Does (so : Sodium) (keys : Subkeys) (op : Op) (db db' : Db) : Prop :=
  (∃ r r', Copied so keys db db' r r' ∧ OnlyOf r.name db db') ∨
    ∃ name ∈ targets so keys op, OnlyOf name db db'

/-- A step of `vault_put_with_options` stores the value. -/
def Puts (so : Sodium) (keys : Subkeys) (db' : Db) : Op → Prop
  | .put name secret _ _ => Value so keys (lookupOf so keys name).bytes secret db'
  | _ => True

/-- The operations of a session whose keys stay. -/
def Plain : Op → Prop
  | .unlock _ => False
  | .unlockExisting _ => False
  | .rotateKek _ => False
  | _ => True

instance : DecidablePred Plain
  | .put .. | .delete _ | .rollback .. | .autoRotate _ | .get .. | .getVersion .. | .list _ |
    .issueToken .. | .revokeTokens => isTrue trivial
  | .rotateKek _ | .unlock _ | .unlockExisting _ => isFalse id

/-- A step that is no rotation of an old version. -/
def Timely : Cmd → Db → Prop
  | .tx (.rotateDek metadata new _), db => Current db metadata new
  | _, _ => True

instance (c : Cmd) (db : Db) : Decidable (Timely c db) := by
  unfold Timely
  split <;> infer_instance

/-- A row that is active is what is read of its name. -/
theorem value_of_active {p : Bytes} (hdb : Orderly db.secrets) (hr : r ∈ db.secrets.rows)
    (hactive : r.isArchived = false) (hp : Reads so keys.kekEnc r p) :
    Value so keys r.name p db :=
  ⟨r, (hdb.history r.name).activeRow_eq hr hactive, hp⟩

/-- The new version of a name is what is read of it. -/
theorem value_of_newVersion {auditKey : Block 32} {action : CString} {archives : Bool} {p : Bytes}
    (h : NewVersion so auditKey action archives new db db') (hdb' : Orderly db'.secrets)
    (hp : ∀ t : SecretTable, Orderly t → new.row ∈ t.rows → Reads so keys.kekEnc new.row p) :
    Value so keys new.name.bytes p db' := by
  have hmem : new.row ∈ db'.secrets.rows := by
    rw [(SecretTable.insert_eq_some.mp h.insert).2.2]
    exact List.mem_append_right _ (List.mem_singleton_self _)
  exact value_of_active hdb' hmem rfl (hp _ hdb' hmem)

/-- What every step of a session keeps. -/
def protocol (so : Sodium) (keys : Subkeys) :
    Protocol Cmd Status Result Db (ℕ → Input) (Option Subkeys) Op where
  inv := Works so keys
  rely db db' := Grows Frozen db.secrets.rows db'.secrets.rows
  guar _ op db db' := Grows Frozen db.secrets.rows db'.secrets.rows ∧
    (db'.secrets = db.secrets ∨ Does so keys op db db' ∧ Puts so keys db' op)
  allow _ _ _ c db := Timely c db
  may _ op := Plain op
  loc l _ := l = none ∨ l = some keys
  post l op _ _ := Plain op ∧ (l = none ∨ l = some keys)
  rely_refl db := Grows.refl Frozen.refl db.secrets.rows
  rely_trans h h' := h.trans (fun _ _ _ => Frozen.trans) h'
  guar_rely h := h.1
  loc_rely h _ _ := h

/-- A transaction of an operation, when it commits. -/
theorem tx_does {op : Op} {t : Tx} {db₁ db₂ db₃ : Db} {M : Ambient Db Input} (hop : Plain op)
    (ht : Proposed so M (some keys) op db₁ t)
    (hrely : ∀ s s', M.rely s s' → Grows Frozen s.secrets.rows s'.secrets.rows)
    (hinv : ∀ s, M.inv s → Works so keys s) (hgrow : Grows Frozen db₁.secrets.rows db₂.secrets.rows)
    (hdb : Works so keys db₂) (hdb' : Works so keys db₃) (htimely : Timely (.tx t) db₂)
    (hrun : (t.body so).Runs Stmt.exec db₂ db₃ (.ok ())) :
    db₃.secrets = db₂.secrets ∨ Does so keys op db₂ db₃ ∧ Puts so keys db₃ op := by
  cases ht with
  | put h =>
    obtain ⟨_, _, -, -, -, -, -, -, hs, -, -, hp, -⟩ := preparePut_runsIn h
    have hv := (put_runs hrun).1
    have honly := onlyOf_newVersion hv
    have hvalue := value_of_newVersion hv hdb'.1 fun t ht hr =>
      reads_of_stored (storedUnder_prepared hp hs) ht hr
    rw [hs.stored] at honly hvalue
    exact Or.inr ⟨Or.inr ⟨_, rfl, honly⟩, hvalue⟩
  | delete h =>
    obtain ⟨-, -, rfl, -⟩ := prepareDelete_runsIn h
    refine Or.inr ⟨Or.inr ⟨_, rfl, fun m hm => ?_⟩, trivial⟩
    rw [(delete_runs hrun).archive]
    exact rowsOf_archive_of_ne hm
  | rollback h =>
    obtain ⟨_, _, _, _, _, -, -, -, -, -, -, -, -, hs, -⟩ := prepareRollback_runsIn h
    have honly := onlyOf_newVersion (rollback_runs hrun)
    rw [hs.stored] at honly
    exact Or.inr ⟨Or.inr ⟨_, rfl, honly⟩, trivial⟩
  | rotateDek h =>
    obtain ⟨r, hcopied⟩ := copied_of_rotation h hrely hinv hgrow hdb hdb' htimely hrun
    have honly := onlyOf_newVersion (rotateDek_runs hrun).1
    exact Or.inr ⟨Or.inl ⟨r, _, hcopied, fun m hm => honly m fun e => hm (e.trans hcopied.name)⟩,
      trivial⟩
  | rotateKek => exact hop.elim
  | revokeTokens => exact Or.inl (revokeTokens_runs hrun).1
  | storeAuth => exact hop.elim

theorem allows {session : Option Subkeys} {op : Op} (hop : Plain op)
    (hsession : session = none ∨ session = some keys) :
    Allows so ((protocol so keys).contract session op) session op where
  read db _ := ⟨Grows.refl Frozen.refl db.secrets.rows, Or.inl rfl⟩
  note db _ h := ⟨h, Grows.refl Frozen.refl db.secrets.rows, Or.inl rfl⟩
  log _ _ _ _ _ _ _ _ db _ _ _ _ _ _ h _ _ := ⟨h, Grows.refl Frozen.refl db.secrets.rows, Or.inl rfl⟩
  tx t _ db₁ db₂ db₃ ht hrely hinv htimely hrun := by
    have hkek : ∀ password, op ≠ .rotateKek password := by
      rintro password rfl
      exact hop
    rcases hsession with rfl | rfl
    · cases ht
      exact hop.elim
    · have hgrow := tx_frozen ht hkek hrun
      have horderly := (tx_orderly ht (fun s s' h => h.mono fun _ _ => Frozen.kept)
        (fun s h => h.1) (hrely.mono fun _ _ => Frozen.kept) hinv.1 hrun).1
      have hworks : Works so keys db₃ :=
        ⟨horderly, tx_readable ht hkek (fun s h => h.2) hinv.2 hrun⟩
      exact ⟨hworks, hgrow, tx_does hop ht (fun _ _ h => h) (fun _ h => h) hrely hinv hworks htimely hrun⟩

theorem finish_plain {session : Option Subkeys} {op : Op} {r : Except Status Result}
    (h : Plain op) : finish session op r = session := by
  cases op with
  | unlock _ => exact h.elim
  | unlockExisting _ => exact h.elim
  | rotateKek _ => exact h.elim
  | _ => rfl

theorem sound : (protocol so keys).Sound (vaultSystem so) :=
  sound_of_allows (fun _ _ _ hop hl => allows hop hl) (fun _ _ _ _ _ hop hl => ⟨hop, hl⟩)
    fun _ _ _ _ _ hp => by
      rw [finish_plain hp.1]
      exact hp.2

/-! ### The values -/

variable {ι : Type}

/-- No `vault_put_with_options`, `vault_rollback` or `vault_delete` of the name commits in the
event. -/
def Leaves (so : Sodium) (keys : Subkeys) (name : Bytes) (g : VaultConfig ι) :
    Event (ℕ → Input) Op ι → Prop
  | .act i es => (g.procs i).Issues fun op c =>
    name ∈ targets so keys op → (Cmd.exec so es c g.shared).1.secrets = g.shared.secrets
  | _ => True

/-- The rows of a name decide what is read of it. -/
theorem Value.of_rowsOf {name p : Bytes} (h : Value so keys name p db) (hdb' : Orderly db'.secrets)
    (hrows : db'.secrets.rowsOf name = db.secrets.rowsOf name) : Value so keys name p db' := by
  obtain ⟨r, hr, hp⟩ := h
  obtain ⟨hmem, hn, hactive, -⟩ := SecretTable.activeRow_eq_some hr
  have hmem' : r ∈ db'.secrets.rowsOf name := hrows ▸ SecretTable.mem_rowsOf.mpr ⟨hmem, hn⟩
  rw [← hn]
  exact value_of_active hdb' (SecretTable.mem_rowsOf.mp hmem').1 hactive hp

/-- A copy is read as the version it is a copy of. -/
theorem Value.copied {name p : Bytes} {r' : SecretRow} (h : Value so keys name p db)
    (hdb' : Orderly db'.secrets) (hcopied : Copied so keys db db' r r')
    (honly : OnlyOf r.name db db') : Value so keys name p db' := by
  by_cases hname : name = r.name
  · subst hname
    obtain ⟨s, hs, hp⟩ := h
    obtain ⟨hmem, hn, hactive, -⟩ := SecretTable.activeRow_eq_some hs
    obtain rfl := SecretTable.active_unique hmem hcopied.old hn hactive hcopied.active
    obtain ⟨q, hq, hq'⟩ := hcopied.plaintext
    rw [← hcopied.name, hp.unique hq]
    exact value_of_active hdb' hcopied.new hcopied.newActive hq'
  · exact h.of_rowsOf hdb' (honly name hname)

/-- The events of the runs that are considered. -/
abbrev Admitted (g : VaultConfig ι) : Event (ℕ → Input) Op ι → Prop :=
  Obeys (fun _ op => Plain op) (fun _ _ _ c db => Timely c db) g

/-- The process is in `vault_auto_rotate_expired`. -/
def isRotating (p : Proc Cmd.Reply Status Result (Option Subkeys) Op) : Bool :=
  match p.running with
  | some (.autoRotate _, _) => true
  | _ => false

theorem isRotating_iff {p : Proc Cmd.Reply Status Result (Option Subkeys) Op} :
    isRotating p ↔ ∃ fuel q, p.running = some (.autoRotate fuel, q) := by
  unfold isRotating
  split
  · exact iff_of_true rfl ⟨_, _, ‹_›⟩
  · rename_i hnot
    exact iff_of_false Bool.false_ne_true fun ⟨fuel, q, h⟩ => hnot fuel q h

variable [DecidableEq ι] {g g' g'' : VaultConfig ι} {i : ι} {es : ℕ → Input}

/-- What a command does, in any configuration of a run. -/
theorem act_does (hgood : (protocol so keys).Good (vaultSystem so) g) (hev : Admitted g (.act i es))
    (hstep : (vaultSystem so).step g (.act i es) = some g') :
    ∃ op c k, (g.procs i).running = some (op, .cmd c k) ∧
      g'.shared = (Cmd.exec so es c g.shared).1 ∧
      (g'.shared.secrets = g.shared.secrets ∨
        Does so keys op g.shared g'.shared ∧ Puts so keys g'.shared op) := by
  match hr : (g.procs i).running with
  | none => simp [System.step, hr] at hstep
  | some (op, .ret a) => simp [System.step, hr] at hstep
  | some (op, .fail e) => simp [System.step, hr] at hstep
  | some (op, .cmd c k) =>
    simp only [System.step, hr, Option.some.injEq] at hstep
    subst hstep
    have hallow : Timely c g.shared := by simpa only [Obeys, Proc.Issues, hr] using hev
    exact ⟨op, c, k, rfl, rfl, (hgood.act hr hallow).2.1.2⟩

/-- A step in which nothing of the name is written leaves its value. -/
theorem Value.step {name p : Bytes} {ev : Event (ℕ → Input) Op ι}
    (hgood : (protocol so keys).Good (vaultSystem so) g) (hev : Admitted g ev)
    (hleaves : Leaves so keys name g ev) (hstep : (vaultSystem so).step g ev = some g')
    (h : Value so keys name p g.shared) : Value so keys name p g'.shared := by
  have hinv : Works so keys g'.shared := (hgood.step sound ⟨ev, hev, hstep⟩).inv
  cases ev with
  | act i es =>
    obtain ⟨op, c, k, hr, hshared, hsame | ⟨hdoes, -⟩⟩ := act_does hgood hev hstep
    · exact h.of_rowsOf hinv.1 (by rw [hsame])
    · rcases hdoes with ⟨r, r', hcopied, honly⟩ | ⟨target, htarget, honly⟩
      · exact h.copied hinv.1 hcopied honly
      · by_cases hname : name = target
        · subst hname
          have hsame : name ∈ targets so keys op →
              (Cmd.exec so es c g.shared).1.secrets = g.shared.secrets := by
            simpa only [Leaves, Proc.Issues, hr] using hleaves
          exact h.of_rowsOf hinv.1 (by rw [hshared, hsame htarget])
        · exact h.of_rowsOf hinv.1 (honly name hname)
  | start i op => exact h.of_rowsOf hinv.1 (by rw [System.shared_start _ hstep])
  | finish i => exact h.of_rowsOf hinv.1 (by rw [System.shared_finish _ hstep])

/-- **No update is lost to a timely rotation**, whatever the processes do from a database without
secrets: what `vault_auto_rotate_expired` changes is copies, `vault_put_with_options` stores its
value, and the value stays as long as no such operation of the name commits. -/
theorem rotations_copy (hidle : ∀ i, (g.procs i).running = none)
    (hkeys : ∀ i, (g.procs i).loc = none ∨ (g.procs i).loc = some keys)
    (hempty : g.shared.secrets = .empty) (h : (vaultSystem so).Reach Admitted g g') :
    (∀ i es g'', isRotating (g'.procs i) → Admitted g' (.act i es) →
      (vaultSystem so).step g' (.act i es) = some g'' →
      g''.shared.secrets = g'.shared.secrets ∨
        ∃ r r', Copied so keys g'.shared g''.shared r r') ∧
    (∀ i es g'' name secret algorithm ttl q,
      (g'.procs i).running = some (.put name secret algorithm ttl, q) → Admitted g' (.act i es) →
      (vaultSystem so).step g' (.act i es) = some g'' →
      g''.shared.secrets = g'.shared.secrets ∨
        Value so keys (lookupOf so keys name).bytes secret g''.shared) ∧
    ∀ name p g'', (vaultSystem so).Reach (fun g ev => Admitted g ev ∧ Leaves so keys name g ev) g' g'' →
      Value so keys name p g'.shared → Value so keys name p g''.shared := by
  have hstart : Works so keys g.shared := by
    unfold Works
    rw [hempty]
    exact ⟨orderly_empty, readable_empty⟩
  have hgood : (protocol so keys).Good (vaultSystem so) g' :=
    (Protocol.Good.of_idle hstart hidle hkeys).reach sound h
  refine ⟨fun i es g'' hrot hev hstep => ?_, fun i es g'' name secret algorithm ttl q hput hev hstep => ?_,
    fun name p g'' hreach hvalue => ?_⟩
  · obtain ⟨fuel, q, hq⟩ := isRotating_iff.mp hrot
    obtain ⟨op, c, k, hr, -, hsame | ⟨hdoes, -⟩⟩ := act_does hgood hev hstep
    · exact Or.inl hsame
    · cases hq.symm.trans hr
      rcases hdoes with ⟨r, r', hcopied, -⟩ | ⟨_, htarget, -⟩
      · exact Or.inr ⟨r, r', hcopied⟩
      · exact htarget.elim
  · obtain ⟨op, c, k, hr, -, hsame | ⟨-, hputs⟩⟩ := act_does hgood hev hstep
    · exact Or.inl hsame
    · cases hput.symm.trans hr
      exact Or.inr hputs
  · have hboth : (protocol so keys).Good (vaultSystem so) g'' ∧ Value so keys name p g''.shared := by
      induction hreach with
      | refl => exact ⟨hgood, hvalue⟩
      | tail _ hstep ih =>
        obtain ⟨ev, ⟨hev, hleaves⟩, hs⟩ := hstep
        exact ⟨ih.1.step sound ⟨ev, hev, hs⟩, ih.2.step ih.1 hev hleaves hs⟩
    exact hboth.2

/-- Some commands of a process, twenty seconds later. -/
def lateActs (i : Bool) (n : ℕ) (b : UInt8) : List (Event (ℕ → Input) Op Bool) :=
  List.replicate n (.act i (calm 1735689620 b))

/-- One process stores a secret that expires after ten seconds. -/
def storesExpiring : List (Event (ℕ → Input) Op Bool) :=
  .start false (.put sampleName [1, 2] none 10) :: acts false 21 1 ++ [.finish false]

/-- It rotates the secret later; the rotation has come to its transaction. -/
def rotation : VaultConfig Bool :=
  play Admitted twoProcesses (storesExpiring ++ .start false (.autoRotate 1) :: lateActs false 25 2)

/-- The transaction. -/
def rotated : VaultConfig Bool := next rotation (.act false (calm 1735689620 3))

theorem rotation_copied :
    ∃ r r', Copied toy toyKeys rotation.shared rotated.shared r r' := by
  have hreach : (vaultSystem toy).Reach Admitted twoProcesses rotation := reach_play (by decide +kernel)
  have hstep : (vaultSystem toy).step rotation (.act false (calm 1735689620 3)) = some rotated :=
    step_eq_next (by decide +kernel)
  have hchanged : rotated.shared.secrets.rows.length ≠ rotation.shared.secrets.rows.length := by
    decide +kernel
  have hcopies := (rotations_copy (fun _ => rfl) (fun _ => Or.inr rfl) rfl hreach).1 false
    (calm 1735689620 3) rotated (by decide +kernel) (by decide +kernel) hstep
  refine hcopies.resolve_left fun hsame => hchanged ?_
  rw [hsame]

/-- The other process stores a new value after the first one has decrypted the old one. -/
def overtaken : VaultConfig Bool :=
  play (Obeys (fun _ op => Plain op) fun _ _ _ _ _ => True) twoProcesses
    (storesExpiring ++ .start false (.autoRotate 1) :: lateActs false 11 2 ++
      .start true (.put sampleName [3] none 0) :: lateActs true 20 3 ++ lateActs false 14 2)

/-- The rotation puts the old value on top of it. -/
def lost : VaultConfig Bool := next overtaken (.act false (calm 1735689620 4))

/-- What is decrypted of a row. -/
def plaintextOf (r : SecretRow) : Except Status Bytes := do
  let row ← copySecretRow r
  let identity ← buildRowIdentity toy row.id (columnText r.name)
  decrypted toy row.encrypted toyKeys.kekEnc identity row.version 16

theorem reads_of_plaintext {p : Bytes} (h : plaintextOf r = .ok p) : Reads toy toyKeys.kekEnc r p := by
  obtain ⟨row, hrow, h⟩ := bind_eq_ok.mp h
  obtain ⟨identity, hidentity, h⟩ := bind_eq_ok.mp h
  exact ⟨row, identity, 16, hrow, hidentity, h⟩

/-- **An update is lost to a rotation** that has read the version before it. -/
theorem update_lost :
    ¬ ∀ (so : Sodium) (keys : Subkeys) (g g' g'' : VaultConfig Bool) (i : Bool) (es : ℕ → Input),
      (∀ i, (g.procs i).running = none) →
      (∀ i, (g.procs i).loc = none ∨ (g.procs i).loc = some keys) → g.shared.secrets = .empty →
      (vaultSystem so).Reach (Obeys (fun _ op => Plain op) fun _ _ _ _ _ => True) g g' →
      isRotating (g'.procs i) → (vaultSystem so).step g' (.act i es) = some g'' →
      g''.shared.secrets = g'.shared.secrets ∨
        ∃ r r', Copied so keys g'.shared g''.shared r r' := by
  intro h
  have hreach : (vaultSystem toy).Reach (Obeys (fun _ op => Plain op) fun _ _ _ _ _ => True)
      twoProcesses overtaken := reach_play (by decide +kernel)
  have hstep : (vaultSystem toy).step overtaken (.act false (calm 1735689620 4)) = some lost :=
    step_eq_next (by decide +kernel)
  -- the version that is archived holds the new value, the one that is inserted the old one
  obtain ⟨hchanged, hold, hnew⟩ :
      lost.shared.secrets.rows.length ≠ overtaken.shared.secrets.rows.length ∧
      (∀ r ∈ overtaken.shared.secrets.rows, r.isArchived = false → plaintextOf r = .ok [3]) ∧
      ∀ r' ∈ lost.shared.secrets.rows, r'.isArchived = false → plaintextOf r' = .ok [1, 2] := by
    decide +kernel
  rcases h toy toyKeys twoProcesses overtaken lost false _ (fun _ => rfl) (fun _ => Or.inr rfl) rfl
    hreach (by decide +kernel) hstep with hsame | ⟨r, r', hcopied⟩
  · exact hchanged (by rw [hsame])
  · obtain ⟨p, hp, hp'⟩ := hcopied.plaintext
    have h3 := hp.unique (reads_of_plaintext (hold r hcopied.old hcopied.active))
    have h12 := hp'.unique (reads_of_plaintext (hnew r' hcopied.new hcopied.newActive))
    nomatch h3.symm.trans h12

end Fuin.Vault.Copies

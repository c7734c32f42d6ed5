import Fuin.Audit.Inclusion
import Fuin.Audit.Renewal
import Fuin.Vault.Audited
import Fuin.Vault.Superseded

/-! # The log tells the table

Every entry of the log says what its transaction has done: `CREATE`, `UPDATE`, `ROLLBACK` and
`ROTATE_DEK` have added a version and archived the active one, `DELETE` has archived it, the others have
left the versions alone. Whoever replays the log in this way, as the verifier reads it (`replay`), gets
the versions of the table and which of them are active (`outline`), at all times, for any number of
processes and whatever order their steps have (`log_tells`). So does whoever knows the Merkle root of
the log and has any log that verifies and has this root (`root_tells`). -/

namespace Fuin.Vault.Replayed

open Fuin.Utils Fuin.Crypto Fuin.Lib.Program Fuin.Lib.Interleave Fuin.Lib.Growth Fuin.Lib.Chain
open Fuin.Store.Secrets Fuin.Store.Versions Fuin.Store.Database Fuin.Kdf
open Fuin.Audit.Table Fuin.Audit.Encoding Fuin.Audit.Verify Fuin.Audit.Log Fuin.Audit.Resign
open Fuin.Audit.Shared Fuin.Audit.Renewal Fuin.Audit.Rearranged Fuin.Audit.Merkle Fuin.Audit.Inclusion
open Fuin.Vault.Rows Fuin.Vault.Transactions Fuin.Vault.Operations Fuin.Vault.Observed
open Fuin.Vault.Rules Fuin.Vault.Sessions Fuin.Vault.Committed Fuin.Vault.Versioned
open Fuin.Vault.Superseded Fuin.Vault.Audited

/-! ### Replaying a log -/

/-- A version of a secret, and whether it is archived. -/
structure Mark where
  name : Bytes
  version : ℤ
  isArchived : Bool
  deriving DecidableEq

/-- The version of a row. -/
def markOf (r : SecretRow) : Mark := ⟨r.name, r.version, r.isArchived⟩

/-- The versions of a table. -/
def outline (t : SecretTable) : List Mark := t.rows.map markOf

/-- All versions of a name are archived. -/
def retire (name : Bytes) (l : List Mark) : List Mark :=
  l.map fun m => if m.name = name then { m with isArchived := true } else m

/-- The actions that add a version. -/
def adding : List Bytes := [createText, updateText, rollbackText, rotateDekText].map CString.bytes

/-- What an entry says about the versions. -/
def replayEntry (l : List Mark) (e : Entry) : List Mark :=
  if e.action.bytes ∈ adding then
    retire e.target.bytes l ++ [⟨e.target.bytes, e.norm.targetVersion, false⟩]
  else if e.action.bytes = deleteText.bytes then retire e.target.bytes l
  else l

/-- **What entries say about the versions.** -/
def replay (es : List Entry) : List Mark := es.foldl replayEntry []

theorem replay_concat (es : List Entry) (e : Entry) :
    replay (es ++ [e]) = replayEntry (replay es) e := List.foldl_concat ..

theorem norm_version (e : Entry) : e.norm.norm.targetVersion = e.norm.targetVersion := by
  unfold Entry.norm
  dsimp only
  split_ifs <;> rfl

/-- What the defaults are makes no difference. -/
theorem replayEntry_norm (l : List Mark) (e : Entry) : replayEntry l e.norm = replayEntry l e := by
  unfold replayEntry
  rw [norm_version]
  rfl

theorem replay_norm (es : List Entry) : replay (es.map Entry.norm) = replay es := by
  unfold replay
  rw [List.foldl_map]
  congr 1
  funext l e
  exact replayEntry_norm l e

/-- The entry of a row, as the verifier reads it. -/
def readEntry (r : AuditRow) : Except Status Entry := (readRow r).map Signed.entry

/-- The rows are read as these entries. -/
def Reads (rows : List AuditRow) (es : List Entry) : Prop := rows.map readEntry = es.map .ok

theorem reads_of_readRow {rows : List AuditRow} {ss : List Signed}
    (h : rows.map readRow = ss.map .ok) : Reads rows (ss.map Signed.entry) := by
  have hcomp : readEntry = (fun x => Except.map Signed.entry x) ∘ readRow := rfl
  unfold Reads
  rw [hcomp, ← List.map_map, h, List.map_map, List.map_map]
  rfl

theorem reads_concat {rows : List AuditRow} {es : List Entry} {r : AuditRow} {e : Entry}
    (h : Reads rows es) (hr : readEntry r = .ok e) : Reads (rows ++ [r]) (es ++ [e]) := by
  unfold Reads at h ⊢
  rw [List.map_append, List.map_append, h]
  simp only [List.map_cons, List.map_nil, hr]

/-- What is read is one list only. -/
theorem reads_unique {rows : List AuditRow} {es es' : List Entry} (h : Reads rows es)
    (h' : Reads rows es') : es = es' :=
  List.map_injective_iff.mpr (fun _ _ h => Except.ok.inj h) (h.symm.trans h')

/-- Signatures are not read. -/
theorem reads_same {rows rows' : List AuditRow} {ss : List Signed}
    (h : List.Forall₂ SameEntry rows rows') (hss : rows'.map readRow = ss.map .ok)
    {es : List Entry} (hes : Reads rows es) : es = ss.map Signed.entry := by
  induction h generalizing ss es with
  | nil =>
    have hnil : ss = [] := by simpa using hss.symm
    have hnil' : es = [] := by simpa [Reads] using hes.symm
    rw [hnil, hnil']
    rfl
  | @cons r r' rows rows' hr _ ih =>
    cases ss with
    | nil => simp at hss
    | cons s ss =>
      cases es with
      | nil => simp [Reads] at hes
      | cons e es =>
        obtain ⟨hread', hss⟩ := List.cons.inj hss
        obtain ⟨hread, hes⟩ := List.cons.inj hes
        have hfirst : e = s.entry := by
          unfold readEntry at hread
          cases hrow : readRow r with
          | error x =>
            rw [hrow] at hread
            cases hread
          | ok u =>
            rw [hrow] at hread
            have hsame := (readRow_same hr hrow hread').1
            cases hread
            exact hsame.symm
        rw [List.map_cons, hfirst, ih hss hes]

variable {so : Sodium} {db db' db₁ db₂ db₃ : Db} {t u : SecretTable} {name now : Bytes}

/-! ### What is done to the table -/

theorem markOf_archiveRow (name now : Bytes) (r : SecretRow) :
    markOf (SecretTable.archiveRow name now r) =
      if r.name = name then { markOf r with isArchived := true } else markOf r := by
  unfold SecretTable.archiveRow SecretTable.isActiveOf
  by_cases hname : r.name = name
  · by_cases harchived : r.isArchived = true
    · simp [hname, harchived, markOf]
    · simp [hname, harchived, markOf]
  · simp [hname]

theorem outline_archive (t : SecretTable) (name now : Bytes) :
    outline (t.archive name now) = retire name (outline t) := by
  unfold outline retire
  rw [SecretTable.archive_rows, List.map_map, List.map_map]
  exact List.map_congr_left fun r _ => markOf_archiveRow name now r

/-- Where no version is active there is nothing to archive. -/
theorem retire_outline (h : ∀ r ∈ t.rows, r.name = name → r.isArchived = true) :
    retire name (outline t) = outline t := by
  unfold outline retire
  rw [List.map_map]
  refine List.map_congr_left fun r hr => ?_
  by_cases hname : r.name = name
  · simp [markOf, hname, h r hr hname]
  · simp [markOf, hname]

theorem outline_insert {r : SecretRow} (h : t.insert r = some u) :
    outline u = outline t ++ [markOf r] := by
  unfold outline
  rw [(SecretTable.insert_eq_some.mp h).2.2, List.map_append]
  rfl

/-- Rows whose keys have been wrapped again are the same versions. -/
theorem outline_rewrapped {oldKek newKek : Block 32}
    (h : List.Forall₂ (KeyManager.Rewrapped so oldKek newKek) t.rows u.rows) :
    outline u = outline t := by
  unfold outline
  generalize t.rows = rs, u.rows = rs' at h
  induction h with
  | nil => rfl
  | @cons r s rs rs' hrs _ ih =>
    obtain ⟨_, _, _, _, _, _, -, -, -, -, -, -, rfl⟩ := hrs
    rw [List.map_cons, List.map_cons, ih]
    rfl

variable {key : Block 32} {action : CString} {archives : Bool} {new : NewSecret}

/-- **A new version** is what its entry says, whether there was something to archive or not. -/
theorem outline_newVersion (h : NewVersion so key action archives new db db') :
    outline db'.secrets =
      retire new.name.bytes (outline db.secrets) ++ [⟨new.name.bytes, new.version, false⟩] := by
  rw [outline_insert h.insert]
  congr 1
  cases archives with
  | true => exact outline_archive _ _ _
  | false =>
    refine (retire_outline fun r hr hname => ?_).symm
    by_contra hactive
    have hcompatible := (SecretTable.insert_eq_some.mp h.insert).2.1 r hr
    exact hcompatible.2.2 ⟨hname, by simpa using hactive, rfl⟩

/-! ### What is logged -/

/-- The rows, as they are read, say that these are the versions. -/
def Told (rows : List AuditRow) (l : List Mark) : Prop := ∃ es, Reads rows es ∧ l = replay es

/-- **What one more entry says.** -/
theorem told_concat {v : Event} {rows : List AuditRow} {l : List Mark} {id : ℤ} {time : CString}
    {prev hash sig : Block 32} (h : Told rows l) (hid : 1 ≤ id) (hv : v.version ≤ intMax) :
    Told (rows ++ [entryRow (v.entry id time) prev hash sig])
      (if v.action.bytes ∈ adding then
        retire v.target.bytes l ++ [⟨v.target.bytes, if 0 < v.version then v.version else 0, false⟩]
      else if v.action.bytes = deleteText.bytes then retire v.target.bytes l
      else l) := by
  obtain ⟨es, hes, rfl⟩ := h
  have hread : readEntry (entryRow (v.entry id time) prev hash sig) = .ok (v.entry id time).norm := by
    unfold readEntry
    rw [readRow_entryRow hid hv]
    rfl
  refine ⟨_, reads_concat hes hread, ?_⟩
  rw [replay_concat, replayEntry_norm]
  rfl

theorem told_step {v : Event} {t u : AuditTable} {l : List Mark} (h : LogStep so key v t u)
    (hv : v.version ≤ intMax) (ht : Told t.rows l) :
    Told u.rows (if v.action.bytes ∈ adding then
        retire v.target.bytes l ++ [⟨v.target.bytes, if 0 < v.version then v.version else 0, false⟩]
      else if v.action.bytes = deleteText.bytes then retire v.target.bytes l
      else l) := by
  obtain ⟨prev, id, time, hash, sig, -, -, hid, -, -, hrows⟩ := h.rows
  rw [hrows]
  exact told_concat ht hid hv

/-- Signing a log again changes nothing of it. -/
theorem told_same {t u : AuditTable} {l : List Mark} (h : Told t.rows l)
    (hsame : List.Forall₂ SameEntry t.rows u.rows) {newKey : Block 32}
    (hver : verifyChain so newKey u = .ok ()) : Told u.rows l := by
  obtain ⟨es, hes, hl⟩ := h
  obtain ⟨ss, hss, -⟩ := verifyChain_eq_ok.mp hver
  refine ⟨es, ?_, hl⟩
  rw [reads_same hsame hss hes]
  exact reads_of_readRow hss

/-- The log says what the table is. -/
structure Tells (db : Db) : Prop where
  orderly : Orderly db.secrets
  numbered : Numbered db.audit
  told : Told db.audit.rows (outline db.secrets)

/-- A new version, whatever its entry is called. -/
theorem Tells.newVersion (h : Tells db) (hn : NewVersion so key action archives new db db')
    (haction : action.bytes ∈ adding) (horder : Orderly db'.secrets)
    (hversion : 1 ≤ new.version ∧ new.version ≤ intMax) : Tells db' := by
  refine ⟨horder, LogStep.numbered hn.log h.numbered, ?_⟩
  have hstep := told_step hn.log hversion.2 h.told
  simp only [haction, if_true] at hstep
  have hpos : 0 < new.version := by omega
  rw [if_pos hpos] at hstep
  rw [outline_newVersion hn]
  exact hstep

/-- An event that is not about a secret. -/
theorem Tells.other {v : Event} (h : Tells db) (hsame : db'.secrets = db.secrets)
    (hlog : LogStep so key v db.audit db'.audit) (hv : v.version ≤ intMax)
    (hadd : v.action.bytes ∉ adding) (hdelete : v.action.bytes ≠ deleteText.bytes) : Tells db' := by
  refine ⟨hsame ▸ h.orderly, LogStep.numbered hlog h.numbered, ?_⟩
  have hstep := told_step hlog hv h.told
  simp only [hadd, hdelete, if_false] at hstep
  rw [hsame]
  exact hstep

/-- The versions that follow the bounds are positive. -/
theorem version_range {stored : CString} {version counter : ℤ} (h : Tells db)
    (hf : Follows stored db version counter) : 1 ≤ version ∧ version ≤ intMax := by
  obtain ⟨hnext, -, hmax⟩ := follows_eq (h.orderly.history _) hf
  constructor
  · omega
  · exact hmax

/-- **Every transaction** is logged as what it is. -/
theorem Tells.commit {M : Ambient Db Input} {session : Option Subkeys} {op : Op} {t : Tx}
    (ht : Proposed so M session op db₁ t) (hrely : ∀ s s', M.rely s s' → Extended s s')
    (hinv : ∀ s, M.inv s → Tells s) (hgrow : Extended db₁ db₂) (h : Tells db₂)
    (hrun : (t.body so).Runs Stmt.exec db₂ db₃ (.ok ())) : Tells db₃ ∧ Extended db₂ db₃ := by
  obtain ⟨horder, hrows⟩ := tx_orderly ht (fun s s' hs => (hrely s s' hs).1)
    (fun s hs => (hinv s hs).orderly) hgrow.1 h.orderly hrun
  have hadded {key action archives new} (hn : NewVersion so key action archives new db₂ db₃)
      (haction : action.bytes ∈ adding) (hversion : 1 ≤ new.version ∧ new.version ≤ intMax) :
      Tells db₃ ∧ Extended db₂ db₃ :=
    ⟨h.newVersion hn haction horder hversion, hrows, ids_step hn.log⟩
  cases ht with
  | @put keys name secret algorithm ttl metadata new _ _ hprep =>
    obtain ⟨_, d, -, -, -, hd, -, -, -, -, hf, -⟩ := preparePut_runsIn hprep
    refine hadded (put_runs hrun).1 ?_ (version_range (hinv d hd) hf)
    split_ifs
    · decide +kernel
    · decide +kernel
  | delete hprep =>
    obtain ⟨-, -, -, -, hm⟩ := prepareDelete_runsIn hprep
    have hdeleted := delete_runs hrun
    refine ⟨⟨horder, LogStep.numbered hdeleted.log h.numbered, ?_⟩, hrows, ids_step hdeleted.log⟩
    rw [hdeleted.archive, outline_archive]
    exact told_step hdeleted.log (metadataOf_version_le hm) h.told
  | rollback hprep =>
    obtain ⟨_, _, d, _, _, -, -, -, -, -, hd, -, -, -, -, -, -, hf, -⟩ := prepareRollback_runsIn hprep
    exact hadded (rollback_runs hrun) (by decide +kernel) (version_range (hinv d hd) hf)
  | rotateDek hprep =>
    obtain ⟨_, _, d, _, _, -, -, -, -, -, hd, -, -, -, -, -, hf, -⟩ := prepareRotation_runsIn hprep
    exact hadded (rotateDek_runs hrun).1 (by decide +kernel) (version_range (hinv d hd) hf)
  | rotateKek hprep =>
    obtain ⟨_, u, -, hrewrapped, -, hnum, hver, hlog, hsame, -⟩ :=
      Committed.rotateKek_runs h.orderly.noNul h.numbered hrun
    refine ⟨⟨horder, LogStep.numbered hlog hnum, ?_⟩, hrows, ids_same hsame ▸ ids_step hlog⟩
    rw [outline_rewrapped hrewrapped]
    exact told_step hlog (by decide) (told_same h.told hsame hver)
  | revokeTokens hpos =>
    obtain ⟨hsame, -, hlog, -⟩ := revokeTokens_runs hrun
    exact ⟨h.other hsame hlog (by decide) (by decide +kernel) (by decide +kernel), hrows,
      ids_step hlog⟩
  | storeAuth hprep =>
    obtain ⟨_, rfl⟩ := storeAuth_runs hrun
    exact ⟨⟨h.orderly, h.numbered, h.told⟩, .refl _⟩

/-- **An entry outside a transaction** is about no version. -/
theorem Tells.logged {M : Ambient Db Input} {action target : CString} {version : ℤ} {row : AuditRow}
    {t : AuditTable} (hv : version ≤ intMax)
    (hrun : (nextRow so actorText action target version successText key).RunsIn Stmt.exec M db db₁
      (.ok row)) (hrely : ∀ s s', M.rely s s' → Extended s s') (hgrow : Extended db₁ db₂)
    (h : Tells db₂) (haction : action ∈ [readText, tokenIssueText])
    (hins : db₂.audit.insert row = some t) :
    Tells { db₂ with audit := t } ∧ Extended db₂ { db₂ with audit := t } := by
  obtain ⟨prev, id, time, hash, sig, -, -, hrow, hrows, hnum⟩ :=
    nextRow_insert hrun (fun s s' hs => (hrely s s' hs).2) hgrow.2 h.numbered hins
  have hother : action.bytes ∉ adding ∧ action.bytes ≠ deleteText.bytes := by
    rcases List.mem_pair.mp haction with rfl | rfl
    · decide +kernel
    · decide +kernel
  have hid : 1 ≤ id := by
    have hmem : row ∈ t.rows := by simp [hrows]
    have hpos := (hnum.mem hmem).1
    rw [hrow] at hpos
    exact hpos
  have htold := @told_concat ⟨actorText, action, target, version, successText⟩ _ _ _ time prev hash sig
    h.told hid hv
  simp only [hother.1, hother.2, if_false] at htold
  refine ⟨⟨h.orderly, hnum, ?_⟩, Grows.refl Kept.refl _, ids_of_le ?_⟩
  · show Told t.rows (outline db₂.secrets)
    rw [hrows, hrow]
    exact htold
  · show db₂.audit.rows <+: t.rows
    rw [hrows]
    exact List.prefix_append _ _

/-! ### All runs -/

/-- Every step is logged as what it is. -/
def protocol : Protocol Cmd Status Result Db (ℕ → Input) (Option Subkeys) Op where
  inv := Tells
  rely := Extended
  guar _ _ := Extended
  allow _ _ _ _ _ := True
  may _ _ := True
  loc _ _ := True
  post _ _ _ _ := True
  rely_refl := Extended.refl
  rely_trans := Extended.trans
  guar_rely h := h
  loc_rely _ _ _ := trivial

theorem allows (session : Option Subkeys) (op : Op) :
    Allows so (protocol.contract session op) session op where
  read db _ := .refl db
  note db _ h := ⟨⟨h.orderly, h.numbered, h.told⟩, .refl db⟩
  log _ _ _ _ _ _ _ _ _ _ _ haction hv hrun hgrow hinv _ hins :=
    Tells.logged hv hrun (fun _ _ h => h) hgrow hinv haction hins
  tx _ _ _ _ _ ht hgrow hinv _ hrun :=
    Tells.commit ht (fun _ _ h => h) (fun _ h => h) hgrow hinv hrun

theorem sound : protocol.Sound (vaultSystem so) :=
  sound_of_allows (fun l op _ _ _ => allows l op) (fun _ _ _ _ _ _ _ => trivial)
    fun _ _ _ _ _ _ => trivial

section Reached

variable {ι : Type} [DecidableEq ι] {g g' : VaultConfig ι}
  (hidle : ∀ i, (g.procs i).running = none) (hsecrets : g.shared.secrets = .empty)
  (haudit : g.shared.audit = .empty) (hreach : (vaultSystem so).Reach (fun _ _ => True) g g')

include hidle hsecrets haudit hreach

theorem tells_reach : Tells g'.shared := by
  have hinv : Tells g.shared := by
    refine ⟨?_, ?_, [], ?_, ?_⟩
    · rw [hsecrets]
      exact orderly_empty
    · rw [haudit]
      exact counted_nil
    · rw [haudit]
      rfl
    · rw [hsecrets]
      rfl
  have hgood : protocol.Good (vaultSystem so) g' :=
    (Protocol.Good.of_idle hinv hidle fun _ => trivial).reach sound
      (hreach.mono _ fun g ev _ => obeys_true g ev)
  exact hgood.inv

/-- **The log tells the table.** Whatever any number of processes do, from a database without secrets and
entries and in any order of their steps: at every moment the verifier can read every row of the log, and
the entries, replayed, give exactly the versions that there are, in their order, and which of them are
archived. -/
theorem log_tells : ∃ es, Reads g'.shared.audit.rows es ∧ outline g'.shared.secrets = replay es :=
  (tells_reach hidle hsecrets haudit hreach).told

end Reached

theorem racing_puts_told :
    ∃ es, Reads secondPut.shared.audit.rows es ∧ outline secondPut.shared.secrets = replay es :=
  @log_tells toy _ _ twoProcesses _ (fun _ => rfl) rfl rfl
    ((reach_play (by decide +kernel) : (vaultSystem toy).Reach _ _ racingPuts).trans
      (reach_play (by decide +kernel)))

/-! ### The root tells the table -/

/-- The root that is given out is that of a log that verifies. -/
theorem auditMerkleRoot_runs {keys : Subkeys} {r : Block 32} {n : ℕ}
    (h : (auditMerkleRoot so keys).Runs Stmt.exec db db' (.ok (r, n))) :
    verifyChain so keys.kekAudit db.audit = .ok () ∧ ∃ hs, entryHashes db.audit = .ok hs ∧
      hs.length ≤ sizeMax / 32 ∧ r = merkleRoot so hs ∧ n = hs.length := by
  obtain ⟨_, db₁, hverify, hcompute⟩ := Prog.runs_bind h
  obtain rfl := readOnly_auditVerify.runs hverify
  obtain ⟨-, hver⟩ := Sql.runs_select (Sql.runs_lib_bind hverify)
  exact ⟨hver, computeMerkleRoot_runs hcompute⟩

/-- Entries that are accepted and have the same hash are the same, up to the defaults. -/
theorem entry_eq_of_hash {S : Set Bytes} {s s' : Signed} (hfree : so.CollisionFree S)
    (hs : s.HashOk so) (hs' : s'.HashOk so) (hrange : s.entry.InRange) (hrange' : s'.entry.InRange)
    (hmem : ∀ m, buildEntryBytes s.entry s.prev none = .ok m → m ∈ S)
    (hmem' : ∀ m, buildEntryBytes s'.entry s'.prev none = .ok m → m ∈ S) (h : s.hash = s'.hash) :
    s.entry.norm = s'.entry.norm := by
  obtain ⟨m, hm, hhash⟩ := hashOk_iff.mp hs
  obtain ⟨m', hm', hhash'⟩ := hashOk_iff.mp hs'
  have hsame : m = m' := hfree (hmem m hm) (hmem' m' hm') (by rw [hhash, hhash', h])
  rw [← hsame] at hm'
  exact (buildEntryBytes_inj hrange hrange' hm hm').1

/-- **Logs that verify and have the same entry hashes** have the same entries, up to the defaults. -/
theorem entries_eq_of_hashes {S : Set Bytes} {t u : AuditTable} (hfree : so.CollisionFree S)
    (ht : hashedMessages t.rows ⊆ S) (hu : hashedMessages u.rows ⊆ S) {ss us : List Signed}
    (hss : ∀ s ∈ ss, s.HashOk so ∧ ∃ r ∈ t.rows, readRow r = .ok s)
    (hus : ∀ s ∈ us, s.HashOk so ∧ ∃ r ∈ u.rows, readRow r = .ok s)
    (h : ss.map Signed.hash = us.map Signed.hash) :
    ss.map (fun s => s.entry.norm) = us.map fun s => s.entry.norm := by
  induction ss generalizing us with
  | nil =>
    have hnil : us = [] := by simpa using h.symm
    rw [hnil]
  | cons s ss ih =>
    cases us with
    | nil => simp at h
    | cons s' us =>
      obtain ⟨hhash, hhashes⟩ := List.cons.inj h
      obtain ⟨hok, r, hr, hread⟩ := hss s (by simp)
      obtain ⟨hok', r', hr', hread'⟩ := hus s' (by simp)
      have hfirst := entry_eq_of_hash hfree hok hok' (inRange_of_read (t.admitted r hr) hread)
        (inRange_of_read (u.admitted r' hr') hread') (fun m hm => ht ⟨r, hr, s, hread, hm⟩)
        (fun m hm => hu ⟨r', hr', s', hread', hm⟩) hhash
      have hrest := ih (fun x hx => hss x (by simp [hx])) (fun x hx => hus x (by simp [hx])) hhashes
      rw [List.map_cons, List.map_cons, hfirst, hrest]

/-- Logs that verify and have the same root say the same about the versions. -/
theorem replay_of_root {key key' r : Block 32} {t u : AuditTable} {hs hs' : List (Block 32)}
    (hver : verifyChain so key t = .ok ()) (hver' : verifyChain so key' u = .ok ())
    (hhs : entryHashes t = .ok hs) (hhs' : entryHashes u = .ok hs')
    (hfree : so.CollisionFree (logMessages so t ∪ logMessages so u))
    (hzero : ∀ m ∈ logMessages so t ∪ logMessages so u, so.sha256 m ≠ Block.zero 32)
    (hroot : r = merkleRoot so hs) (hroot' : r = merkleRoot so hs') {es : List Entry}
    (hes : Reads t.rows es) : ∃ es', Reads u.rows es' ∧ replay es = replay es' := by
  obtain ⟨ss, hss, hacc⟩ := verifyChain_eq_ok.mp hver
  obtain ⟨us, hus, hacc'⟩ := verifyChain_eq_ok.mp hver'
  have hsame := hashes_of_verified hver hver' hhs hhs' hfree hzero (hroot.symm.trans hroot')
  have hhashes : ss.map Signed.hash = us.map Signed.hash := by
    have h := (map_hash_of_read hss).symm.trans (entryHashes_eq_ok.mp hhs)
    have h' := (map_hash_of_read hus).symm.trans (entryHashes_eq_ok.mp hhs')
    rw [← hsame] at h'
    exact List.map_injective_iff.mpr Subtype.val_injective (h.trans h'.symm)
  have hentries := entries_eq_of_hashes hfree (fun m hm => Or.inl (Or.inl hm))
    (fun m hm => Or.inr (Or.inl hm)) (fun s hs => ⟨hacc.hashOk s hs, exists_of_mem hss hs⟩)
    (fun s hs => ⟨hacc'.hashOk s hs, exists_of_mem hus hs⟩) hhashes
  refine ⟨_, reads_of_readRow hus, ?_⟩
  rw [reads_unique hes (reads_of_readRow hss), ← replay_norm, ← replay_norm (us.map _), List.map_map,
    List.map_map]
  exact congrArg replay hentries

/-- **The root tells the table.** Where processes have been at work as above and the vault gives out the
root of its log: whatever log verifies, under whatever key, and has the same root, its entries give
exactly the versions of the vault. -/
theorem root_tells {ι : Type} [DecidableEq ι] {g g' : VaultConfig ι} {keys keys' : Subkeys}
    {r : Block 32} {n m : ℕ} {db₁ : Db} (hidle : ∀ i, (g.procs i).running = none)
    (hsecrets : g.shared.secrets = .empty) (haudit : g.shared.audit = .empty)
    (hreach : (vaultSystem so).Reach (fun _ _ => True) g g')
    (hroot : (auditMerkleRoot so keys).Runs Stmt.exec g'.shared db₁ (.ok (r, n)))
    (hroot' : (auditMerkleRoot so keys').Runs Stmt.exec db db' (.ok (r, m)))
    (hfree : so.CollisionFree (logMessages so g'.shared.audit ∪ logMessages so db.audit))
    (hzero : ∀ m ∈ logMessages so g'.shared.audit ∪ logMessages so db.audit,
      so.sha256 m ≠ Block.zero 32) :
    ∃ es, Reads db.audit.rows es ∧ outline g'.shared.secrets = replay es := by
  obtain ⟨es, hes, houtline⟩ := (tells_reach hidle hsecrets haudit hreach).told
  obtain ⟨hver, hs, hhs, -, heq, -⟩ := auditMerkleRoot_runs hroot
  obtain ⟨hver', hs', hhs', -, heq', -⟩ := auditMerkleRoot_runs hroot'
  obtain ⟨es', hes', hsame⟩ := replay_of_root hver hver' hhs hhs' hfree hzero heq heq' hes
  exact ⟨es', hes', houtline.trans hsame⟩

/-! ### A log under another key -/

/-- Keys with another key for the log. -/
def otherKeys : Subkeys := { toyKeys with kekAudit := Audit.Inclusion.otherKey }

/-- The events of the log of `secondPut`, logged in a new database under the other key. -/
def loggedAgain : Db :=
  let log (db : Db) (r : AuditRow) : Db :=
    ((logEvent toy (columnText r.actor) (columnText r.action) (columnText r.target)
      (r.targetVersion.getD 0) (columnText r.result) otherKeys.kekAudit).run Stmt.exec
        (calm 1735689600 0) db).1
  secondPut.shared.audit.rows.foldl log Db.empty

/-- The root that is given out under some keys. -/
def givenOut (keys : Subkeys) (db : Db) : Db × Except Status (Block 32 × ℕ) :=
  (auditMerkleRoot toy keys).run Stmt.exec (calm 1735689600 0) db

theorem givenOut_runs {keys : Subkeys} {db : Db} {x : Block 32 × ℕ} (h : (givenOut keys db).2 = .ok x) :
    (auditMerkleRoot toy keys).Runs Stmt.exec db (givenOut keys db).1 (.ok x) := by
  rw [← h]
  exact Prog.runs_run _

theorem again_listed : ∀ a ∈ listed toy secondPut.shared.audit ++ listed toy loggedAgain.audit,
    toy.sha256 a ≠ Block.zero 32 ∧ ∀ b ∈ listed toy secondPut.shared.audit ++
      listed toy loggedAgain.audit, toy.sha256 a = toy.sha256 b → a = b := by decide +kernel

theorem again_told : ∃ es, Reads loggedAgain.audit.rows es ∧
    outline secondPut.shared.secrets = replay es := by
  have hroot : (givenOut toyKeys secondPut.shared).2 = (givenOut otherKeys loggedAgain).2 := by
    decide +kernel
  have hok : ((givenOut toyKeys secondPut.shared).2).isOk := by decide +kernel
  obtain ⟨x, hx⟩ : ∃ x, (givenOut toyKeys secondPut.shared).2 = .ok x := by
    cases h : (givenOut toyKeys secondPut.shared).2 with
    | ok x => exact ⟨x, rfl⟩
    | error e =>
      rw [h] at hok
      cases hok
  have hmem {m : Bytes} (h : m ∈ logMessages toy secondPut.shared.audit ∪
      logMessages toy loggedAgain.audit) :
      m ∈ listed toy secondPut.shared.audit ++ listed toy loggedAgain.audit :=
    List.mem_append.mpr (h.imp mem_listed mem_listed)
  exact root_tells (fun _ => rfl) rfl rfl
    ((reach_play (by decide +kernel) : (vaultSystem toy).Reach _ twoProcesses racingPuts).trans
      (reach_play (by decide +kernel)))
    (givenOut_runs hx) (givenOut_runs (hroot ▸ hx))
    (fun _ ha _ hb => (again_listed _ (hmem ha)).2 _ (hmem hb)) fun _ hm => (again_listed _ (hmem hm)).1

end Fuin.Vault.Replayed

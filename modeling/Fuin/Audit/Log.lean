import Fuin.Audit.Verify
import Fuin.Store.Database
import Fuin.Time

/-! # Appending to the log

`audit_log_event` reads the hash of the last row, the next id and the number of rows in three
statements, and inserts a row computed from them in a fourth. Run without interference it appends
one entry that refers to the log as it is (`logEvent_runs`, `LogStep`), and such a step keeps the log
verifiable under the same key (`LogStep.verifyChain`). -/

namespace Fuin.Audit.Log

open Fuin.Utils Fuin.Time Fuin.Crypto Fuin.Lib.Program Fuin.Lib.Chain
open Fuin.Store.Database Fuin.Audit.Table Fuin.Audit.Encoding Fuin.Audit.Verify

/-- `audit_get_last_hash`: the entry hash of the last row, zeros for the empty log. -/
def lastHash (t : AuditTable) : Except Status (Block 32) :=
  match t.lastRow with
  | none => .ok (Block.zero 32)
  | some r => columnHash r.entryHash

/-- `audit_next_entry_id`: beyond the largest 64-bit integer the sum is a real number, which is read
as the largest integer again. -/
def nextEntryId (t : AuditTable) : Except Status ℤ :=
  let max := match t.lastRow with
    | none => 0
    | some r => r.entryId
  let next := if max = int64Max then int64Max else max + 1
  if next < 1 then .error .storage else .ok next

/-- The row that is bound: a version below 1 is `NULL`. -/
def entryRow (e : Entry) (prev hash sig : Block 32) : AuditRow where
  entryId := e.entryId
  timestamp := e.timestamp.bytes
  action := e.action.bytes
  actor := e.actor.bytes
  target := e.target.bytes
  targetVersion := if 0 < e.targetVersion then some e.targetVersion else none
  result := e.result.bytes
  prevHash := prev.1
  entryHash := hash.1
  hmacSignature := sig.1

/-- What `audit_log_event` does before it writes: the row it is going to insert. -/
def nextRow (so : Sodium) (actor action target : CString) (version : ℤ) (result : CString)
    (key : Block 32) : Sql AuditRow := do
  let now ← Sql.time
  let timestamp ← Prog.ofExcept (nowIso8601 now)
  let prev ← Sql.select fun db => lastHash db.audit
  let id ← Sql.select fun db => nextEntryId db.audit
  let count ← Sql.select fun db => .ok db.audit.rows.length
  let entry : Entry :=
    { entryId := id
      timestamp := timestamp
      action := action
      actor := actorValue actor
      target := target
      targetVersion := version
      result := result }
  Sql.libs [.storage, .crypto]
  let hash ← Prog.ofExcept (computeEntryHash so entry prev)
  Sql.libs [.crypto, .storage, .crypto]
  let sig ← Prog.ofExcept
    (computeSignature so entry prev hash (deriveRatchetKey so key count))
  return entryRow entry prev hash sig

/-- `audit_log_event`. -/
def logEvent (so : Sodium) (actor action target : CString) (version : ℤ) (result : CString)
    (key : Block 32) : Sql Unit := do
  let row ← nextRow so actor action target version result key
  let _ ← Sql.write (.insertAudit row)

/-! ### The step -/

/-- What is logged, but for the time. -/
structure Event where
  actor : CString
  action : CString
  target : CString
  version : ℤ
  result : CString

/-- The entry for an event. -/
def Event.entry (v : Event) (id : ℤ) (timestamp : CString) : Entry where
  entryId := id
  timestamp := timestamp
  action := v.action
  actor := actorValue v.actor
  target := v.target
  targetVersion := v.version
  result := v.result

/-- A row that records an event under a key, from what was read of the log: the hash of the last
row, the next id, and the number of rows. -/
structure Records (so : Sodium) (key : Block 32) (v : Event) (prev : Block 32) (id : ℤ) (count : ℕ)
    (time : CString) (hash sig : Block 32) : Prop where
  length_time : time.bytes.length < 21
  hash_eq : computeEntryHash so (v.entry id time) prev = .ok hash
  sig_eq : computeSignature so (v.entry id time) prev hash (deriveRatchetKey so key count) = .ok sig

/-- One entry appended that refers to the log it is appended to. -/
def LogStep (so : Sodium) (key : Block 32) (v : Event) (t u : AuditTable) : Prop :=
  ∃ prev id time hash sig, lastHash t = .ok prev ∧ nextEntryId t = .ok id ∧
    Records so key v prev id t.rows.length time hash sig ∧
      t.insert (entryRow (v.entry id time) prev hash sig) = some u

theorem readOnly_nextRow {so : Sodium} {actor action target result : CString} {version : ℤ}
    {key : Block 32} : Sql.ReadOnly (nextRow so actor action target version result key) := by
  refine Sql.readOnly_time.bind fun now => Prog.readOnly_ofExcept.bind fun timestamp => ?_
  refine Sql.readOnly_select.bind fun prev => Sql.readOnly_select.bind fun id => ?_
  refine Sql.readOnly_select.bind fun count => Sql.readOnly_libs.bind fun _ => ?_
  refine Prog.readOnly_ofExcept.bind fun hash => Sql.readOnly_libs.bind fun _ => ?_
  exact Prog.readOnly_ofExcept.bind fun sig => trivial

/-- **The row** is computed from three states of the log, one after the other: its last hash, its
next id, and its length. -/
theorem nextRow_runsIn {so : Sodium} {actor action target result : CString} {version : ℤ}
    {key : Block 32} {M : Ambient Db Input} {db db' : Db} {row : AuditRow}
    (h : (nextRow so actor action target version result key).RunsIn Stmt.exec M db db' (.ok row)) :
    ∃ db₁ db₂ db₃ prev id time hash sig, M.rely db db₁ ∧ M.inv db₁ ∧ M.rely db₁ db₂ ∧ M.inv db₂ ∧
      M.rely db₂ db₃ ∧ M.inv db₃ ∧ M.rely db₃ db' ∧ lastHash db₁.audit = .ok prev ∧
      nextEntryId db₂.audit = .ok id ∧
      Records so key ⟨actor, action, target, version, result⟩ prev id db₃.audit.rows.length time
        hash sig ∧
      row = entryRow (Event.entry ⟨actor, action, target, version, result⟩ id time) prev hash sig := by
  unfold nextRow at h
  simp only [Prog.bind_def] at h
  obtain ⟨now, s₁, r1, h⟩ := Sql.runsIn_time_bind h
  obtain ⟨time, ht, h⟩ := Prog.runsIn_ofExcept_bind h
  obtain ⟨prev, s₂, r2, i2, hp, h⟩ := Sql.runsIn_select_bind h
  obtain ⟨id, s₃, r3, i3, hid, h⟩ := Sql.runsIn_select_bind h
  obtain ⟨count, s₄, r4, i4, hc, h⟩ := Sql.runsIn_select_bind h
  cases hc
  obtain ⟨s₅, r5, h⟩ := Sql.runsIn_libs_bind h
  obtain ⟨hash, hh, h⟩ := Prog.runsIn_ofExcept_bind h
  obtain ⟨s₆, r6, h⟩ := Sql.runsIn_libs_bind h
  obtain ⟨sig, hs, hret⟩ := Prog.runsIn_ofExcept_bind h
  obtain ⟨rfl, hrow⟩ := hret
  cases hrow
  exact ⟨s₂, s₃, s₄, prev, id, time, hash, sig, M.trans r1 r2, i2, r3, i3, r4, i4, M.trans r5 r6,
    hp, hid, ⟨(nowIso8601_length ht).1, hh, hs⟩, rfl⟩

/-- Without interference the row refers to the log as it is. -/
theorem nextRow_runs {so : Sodium} {actor action target result : CString} {version : ℤ}
    {key : Block 32} {db db' : Db} {row : AuditRow}
    (h : (nextRow so actor action target version result key).Runs Stmt.exec db db' (.ok row)) :
    ∃ prev id time hash sig, lastHash db.audit = .ok prev ∧ nextEntryId db.audit = .ok id ∧
      Records so key ⟨actor, action, target, version, result⟩ prev id db.audit.rows.length time
        hash sig ∧
      row = entryRow (Event.entry ⟨actor, action, target, version, result⟩ id time) prev hash sig := by
  obtain ⟨_, _, _, prev, id, time, hash, sig, rfl, -, rfl, -, rfl, -, -, hp, hid, hrec, hrow⟩ :=
    nextRow_runsIn (Prog.runsIn_of_runs h)
  exact ⟨prev, id, time, hash, sig, hp, hid, hrec, hrow⟩

/-- **Without interference an event is logged by one step**, and only the log changes. -/
theorem logEvent_runs {so : Sodium} {actor action target result : CString} {version : ℤ}
    {key : Block 32} {db db' : Db}
    (h : (logEvent so actor action target version result key).Runs Stmt.exec db db' (.ok ())) :
    ∃ t, LogStep so key ⟨actor, action, target, version, result⟩ db.audit t ∧
      db' = { db with audit := t } := by
  obtain ⟨row, db₁, h1, h2⟩ := Prog.runs_bind h
  obtain rfl := readOnly_nextRow.runs h1
  obtain ⟨prev, id, time, hash, sig, hp, hid, hrec, rfl⟩ := nextRow_runs h1
  obtain ⟨db₂, n, hw, h3⟩ := Sql.runs_write_bind h2
  obtain rfl := (Prog.runs_ret h3).1
  simp only [Write.apply, Option.map_eq_some_iff, Prod.mk.injEq] at hw
  obtain ⟨t, hins, rfl, -⟩ := hw
  exact ⟨t, ⟨prev, id, time, hash, sig, hp, hid, hrec, hins⟩, rfl⟩

/-- A call that fails leaves the database as it was. -/
theorem logEvent_runs_error {so : Sodium} {actor action target result : CString} {version : ℤ}
    {key : Block 32} {db db' : Db} {e : Status}
    (h : (logEvent so actor action target version result key).Runs Stmt.exec db db' (.error e)) :
    db' = db := by
  rcases Prog.runs_bind_cases h with ⟨e, -, h1⟩ | ⟨row, db₁, h1, h2⟩
  · exact readOnly_nextRow.runs h1
  · obtain rfl := readOnly_nextRow.runs h1
    rcases Prog.runs_bind_cases h2 with ⟨e, -, h3⟩ | ⟨n, db₂, -, h4⟩
    · exact Sql.runs_write_error h3
    · nomatch (Prog.runs_ret h4).2

/-! ### The row that is written, read back -/

/-- The entry as it is read back. -/
def Event.signed (v : Event) (id : ℤ) (time : CString) (prev hash sig : Block 32) : Signed where
  entry := (v.entry id time).norm
  prev := prev
  hash := hash
  sig := sig

theorem actorValue_idem (a : CString) : actorValue (actorValue a) = actorValue a := by
  unfold actorValue
  split_ifs <;> rfl

/-- A row that was written is read back as its entry. -/
theorem readRow_entryRow {v : Event} {id : ℤ} {time : CString} {prev hash sig : Block 32}
    (hid : 1 ≤ id) (hv : v.version ≤ intMax) :
    readRow (entryRow (v.entry id time) prev hash sig) = .ok (v.signed id time prev hash sig) := by
  have hc (b : Block 32) : columnHash b.1 = .ok b := by
    unfold columnHash
    rw [dif_pos b.2]
  have hver : columnVersion (if 0 < v.version then some v.version else none) =
      .ok (if 0 < v.version then v.version else 0) := by
    unfold intMax at hv
    split_ifs with h
    · have hcol : columnInt v.version = v.version := columnInt_of_lt (by omega) (by omega)
      simp only [columnVersion, hcol]
      rw [if_neg (by omega)]
    · rfl
  simp only [readRow, entryRow, Event.entry, columnText_bytes, bind_eq_ok, pure_eq_ok]
  refine ⟨(), require_eq_ok.mpr hid, _, hver, prev, hc _, hash, hc _, sig, hc _, ?_⟩
  simp only [Event.signed, Event.entry, Entry.norm, actorValue_idem]
  rfl

theorem readRow_length {r : AuditRow} {s : Signed} (h : readRow r = .ok s) :
    1 ≤ r.entryId ∧ s.entry.entryId = r.entryId ∧ columnHash r.entryHash = .ok s.hash := by
  simp only [readRow, bind_eq_ok, require_eq_ok, pure_eq_ok] at h
  obtain ⟨-, h1, -, -, -, -, hash, h2, -, -, rfl⟩ := h
  exact ⟨h1, rfl, h2⟩

/-- The hash of the last row is the end of the chain. -/
theorem lastHash_eq {t : AuditTable} {ss : List Signed} (h : t.rows.map readRow = ss.map .ok) :
    lastHash t = .ok (endTag Signed.hash (Block.zero 32) ss) := by
  unfold lastHash AuditTable.lastRow
  rcases List.eq_nil_or_concat' t.rows with hnil | ⟨rows, r, hr⟩
  · rw [hnil] at h ⊢
    cases ss with
    | nil => rfl
    | cons s ss => simp at h
  · rw [hr] at h ⊢
    rcases List.eq_nil_or_concat' ss with rfl | ⟨us, s, rfl⟩
    · simp at h
    · simp only [List.map_append, List.map_cons, List.map_nil] at h
      obtain ⟨-, h2⟩ := List.append_inj' h rfl
      simp only [List.cons.injEq, and_true] at h2
      rw [List.getLast?_concat, endTag_append]
      exact (readRow_length h2).2.2

/-- The next id is beyond every id of the log. -/
theorem nextEntryId_gt {t : AuditTable} {id : ℤ} (h : nextEntryId t = .ok id)
    (hfree : ∀ s ∈ t.rows, s.entryId ≠ id) : 1 ≤ id ∧ ∀ s ∈ t.rows, s.entryId < id := by
  unfold nextEntryId at h
  cases hl : t.lastRow with
  | none =>
    have hnil : t.rows = [] := List.getLast?_eq_none_iff.mp hl
    simp only [hl] at h
    rw [hnil]
    cases h
    exact ⟨by decide, by simp⟩
  | some r =>
    simp only [hl] at h
    have hr : r ∈ t.rows := List.mem_of_getLast? hl
    by_cases hmax : r.entryId = int64Max
    · rw [if_pos hmax] at h
      cases h
      exact absurd hmax (hfree r hr)
    · rw [if_neg hmax] at h
      split_ifs at h with h1
      cases h
      refine ⟨by omega, fun s hs => ?_⟩
      have := AuditTable.le_last hl hs
      omega

/-- **A step appends one row**, beyond every id of the log. -/
theorem LogStep.rows {so : Sodium} {key : Block 32} {v : Event} {t u : AuditTable}
    (h : LogStep so key v t u) : ∃ prev id time hash sig,
      lastHash t = .ok prev ∧ nextEntryId t = .ok id ∧ 1 ≤ id ∧ (∀ s ∈ t.rows, s.entryId < id) ∧
      Records so key v prev id t.rows.length time hash sig ∧
      u.rows = t.rows ++ [entryRow (v.entry id time) prev hash sig] := by
  obtain ⟨prev, id, time, hash, sig, hp, hid, hrec, hins⟩ := h
  obtain ⟨-, hfree, hrows⟩ := AuditTable.insert_eq_some.mp hins
  obtain ⟨h1, hlt⟩ := nextEntryId_gt hid hfree
  exact ⟨prev, id, time, hash, sig, hp, hid, h1, hlt, hrec, by
    rw [hrows, AuditTable.place_of_lt hlt]⟩

/-- **A step keeps the log verifiable** under the same key. -/
theorem LogStep.accepted {so : Sodium} {key : Block 32} {v : Event} {t u : AuditTable}
    {ss : List Signed} (h : LogStep so key v t u) (hv : v.version ≤ intMax)
    (hss : t.rows.map readRow = ss.map .ok) (hacc : Accepted so key (Block.zero 32) ss) :
    ∃ id time hash sig, (∀ s ∈ t.rows, s.entryId < id) ∧ 1 ≤ id ∧
      u.rows.map readRow = (ss ++ [v.signed id time (endTag Signed.hash (Block.zero 32) ss) hash
        sig]).map .ok ∧
      Accepted so key (Block.zero 32) (ss ++ [v.signed id time
        (endTag Signed.hash (Block.zero 32) ss) hash sig]) := by
  obtain ⟨prev, id, time, hash, sig, hp, hid, h1, hlt, hrec, hrows⟩ := h.rows
  rw [lastHash_eq hss] at hp
  cases hp
  have hlen : t.rows.length = ss.length := by
    simpa using congrArg List.length hss
  refine ⟨id, time, hash, sig, hlt, h1, ?_, ?_⟩
  · rw [hrows, List.map_append, hss, List.map_append]
    simp only [List.map_cons, List.map_nil, readRow_entryRow h1 hv]
  · rw [accepted_append]
    refine ⟨hacc, rfl, ?_, ?_, trivial⟩
    · simpa only [Signed.HashOk, Event.signed, computeEntryHash, buildEntryBytes_norm] using
        hrec.hash_eq
    · rw [← hlen]
      simpa only [Signed.SigOk, Event.signed, computeSignature, buildEntryBytes_norm] using
        hrec.sig_eq

theorem LogStep.verifyChain {so : Sodium} {key : Block 32} {v : Event} {t u : AuditTable}
    (h : LogStep so key v t u) (hv : v.version ≤ intMax) (ht : verifyChain so key t = .ok ()) :
    verifyChain so key u = .ok () := by
  obtain ⟨ss, hss, hacc⟩ := verifyChain_eq_ok.mp ht
  obtain ⟨id, time, hash, sig, -, -, hus, hacc'⟩ := h.accepted hv hss hacc
  exact verifyChain_eq_ok.mpr ⟨_, hus, hacc'⟩

end Fuin.Audit.Log

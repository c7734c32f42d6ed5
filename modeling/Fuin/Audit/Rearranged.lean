import Fuin.Audit.Log
import Mathlib.Data.Set.Function

/-! # Rearranging the log

A table is put in the place of an honest log by somebody who can edit the database file but not make
new signatures: rows are deleted, repeated, moved, renumbered or changed, and every signature of the
table occurs in the log. The verifier accepts such a table exactly when it is a prefix of the log as
the verifier reads it (`verifies_iff_prefix`): MACs without a collision make every row of the table
an entry of the log, and hashes without a collision make the order the order of the log
(`Linked.prefix_of_subset`). -/

namespace Fuin.Audit.Rearranged

open Fuin.Utils Fuin.Crypto Fuin.Lib.Program Fuin.Lib.Chain
open Fuin.Store.Database Fuin.Audit.Table Fuin.Audit.Encoding Fuin.Audit.Verify Fuin.Audit.Log

/-! ### The honest log -/

/-- The databases reached by calls of `audit_log_event` under one key from an empty log; a call may
fail, and its version is an `int`. -/
inductive Logged (so : Sodium) (key : Block 32) : Db → Prop
  | start {db : Db} : db.audit = .empty → Logged so key db
  | call {db db' : Db} {r : Except Status Unit} (actor action target : CString) (version : ℤ)
      (result : CString) : Logged so key db → version ≤ intMax →
      (logEvent so actor action target version result key).Runs Stmt.exec db db' r →
      Logged so key db'

/-- What the verifier reads from a row, the defaults filled in. -/
def view (r : AuditRow) : Except Status Signed := (readRow r).map Signed.norm

/-- The messages that are hashed when these rows are verified. -/
def hashedMessages (rows : List AuditRow) : Set Bytes :=
  {m | ∃ r ∈ rows, ∃ s, readRow r = .ok s ∧ buildEntryBytes s.entry s.prev none = .ok m}

/-- The keys and messages whose MACs are computed when the table is verified. -/
def macMessages (so : Sodium) (key : Block 32) (t : AuditTable) : Set (Block 32 × Bytes) :=
  {p | ∃ ss : List Signed, t.rows.map readRow = ss.map .ok ∧ p ∈ signedPairs so key ss}

variable {so : Sodium} {key : Block 32}

theorem Logged.verifyChain {db : Db} (h : Logged so key db) :
    verifyChain so key db.audit = .ok () := by
  induction h with
  | start h => rw [h]; rfl
  | @call db db' r actor action target version result _ hv hrun ih =>
    cases r with
    | error e => rw [logEvent_runs_error hrun]; exact ih
    | ok u =>
      obtain ⟨t, hstep, rfl⟩ := logEvent_runs hrun
      exact hstep.verifyChain hv ih

/-! ### Tables that are read -/

theorem view_eq_ok {r : AuditRow} {s : Signed} :
    view r = .ok s ↔ ∃ u, readRow r = .ok u ∧ u.norm = s := by
  unfold view
  cases readRow r with
  | error e => exact ⟨fun h => (nomatch h), fun ⟨_, h, _⟩ => (nomatch h)⟩
  | ok u =>
    constructor
    · intro h
      cases h
      exact ⟨u, rfl, rfl⟩
    · rintro ⟨_, h, rfl⟩
      cases h
      rfl

theorem map_view {rows : List AuditRow} {ss : List Signed} (h : rows.map readRow = ss.map .ok) :
    rows.map view = (ss.map Signed.norm).map .ok := by
  have hv : view = (fun x => Except.map Signed.norm x) ∘ readRow := rfl
  rw [hv, ← List.map_map, h, List.map_map, List.map_map]
  rfl

/-- A table whose views are readable is readable. -/
theorem readable_of_view : ∀ {rows : List AuditRow} {us : List Signed},
    rows.map view = us.map .ok → ∃ ss : List Signed, rows.map readRow = ss.map .ok ∧ ss.map Signed.norm = us
  | [], [], _ => ⟨[], rfl, rfl⟩
  | [], _ :: _, h => nomatch h
  | _ :: _, [], h => nomatch h
  | r :: rows, u :: us, h => by
    simp only [List.map_cons, List.cons.injEq] at h
    obtain ⟨s, hs, rfl⟩ := view_eq_ok.mp h.1
    obtain ⟨ss, hss, rfl⟩ := readable_of_view h.2
    exact ⟨s :: ss, by simp [hs, hss], rfl⟩

theorem map_ok_inj {ss us : List Signed}
    (h : ss.map (Except.ok : Signed → Except Status Signed) = us.map .ok) : ss = us :=
  List.map_injective_iff.mpr (fun _ _ h => Except.ok.inj h) h

/-- The range of what is read. -/
theorem inRange_of_read {r : AuditRow} {s : Signed} (hr : r.Admitted) (h : readRow r = .ok s) :
    s.entry.InRange := by
  simp only [readRow, bind_eq_ok, pure_eq_ok] at h
  obtain ⟨-, -, v, hv, -, -, -, -, -, -, rfl⟩ := h
  refine ⟨hr.2.2.1.2, ?_⟩
  change v ≤ intMax
  unfold columnVersion at hv
  cases hver : r.targetVersion with
  | none =>
    rw [hver] at hv
    cases hv
    decide
  | some w =>
    rw [hver] at hv
    simp only at hv
    split_ifs at hv
    cases hv
    have := (columnInt_lt w).2
    unfold intMax
    omega

/-! ### Any rearrangement -/

/-- The rows of a table that share a read entry. -/
theorem exists_of_mem {rows : List AuditRow} {ss : List Signed}
    (h : rows.map readRow = ss.map .ok) {s : Signed} (hs : s ∈ ss) :
    ∃ r ∈ rows, readRow r = .ok s := by
  have hmem : Except.ok s ∈ ss.map (Except.ok : Signed → Except Status Signed) := List.mem_map_of_mem hs
  rw [← h] at hmem
  obtain ⟨r, hr, hrs⟩ := List.mem_map.mp hmem
  exact ⟨r, hr, hrs⟩

theorem mem_of_read {rows : List AuditRow} {ss : List Signed}
    (h : rows.map readRow = ss.map .ok) {r : AuditRow} (hr : r ∈ rows) :
    ∃ s ∈ ss, readRow r = .ok s := by
  have hmem : readRow r ∈ rows.map readRow := List.mem_map_of_mem hr
  rw [h] at hmem
  obtain ⟨s, hs, hrs⟩ := List.mem_map.mp hmem
  exact ⟨s, hs, hrs.symm⟩

theorem sig_of_read {r : AuditRow} {s : Signed} (h : readRow r = .ok s) :
    r.hmacSignature = s.sig.1 := by
  simp only [readRow, bind_eq_ok, pure_eq_ok] at h
  obtain ⟨-, -, -, -, -, -, -, -, sig, hs, rfl⟩ := h
  unfold columnHash at hs
  split_ifs at hs
  cases hs
  rfl

theorem map_entryId : ∀ {rows : List AuditRow} {ss : List Signed},
    rows.map readRow = ss.map .ok →
      rows.map AuditRow.entryId = ss.map fun s => s.entry.entryId
  | [], [], _ => rfl
  | [], _ :: _, h => nomatch h
  | _ :: _, [], h => nomatch h
  | r :: rows, s :: ss, h => by
    simp only [List.map_cons, List.cons.injEq] at h
    rw [List.map_cons, List.map_cons, map_entryId h.2, (readRow_length h.1).2.1]

theorem hash_of_read {r : AuditRow} {s : Signed} (h : readRow r = .ok s) :
    r.entryHash = s.hash.1 := by
  simp only [readRow, bind_eq_ok, pure_eq_ok] at h
  obtain ⟨-, -, -, -, -, -, hash, hs, -, -, rfl⟩ := h
  unfold columnHash at hs
  split_ifs at hs
  cases hs
  rfl

/-- In a log without hash collisions no two rows have the same entry hash, and none is zero. -/
theorem hashes_nodup {t : AuditTable} {ss : List Signed} {prev : Block 32}
    (hss : t.rows.map readRow = ss.map .ok) (hacc : Accepted so key prev ss)
    (hsha : so.CollisionFree (hashedMessages t.rows))
    (hzero : ∀ m ∈ hashedMessages t.rows, so.sha256 m ≠ Block.zero 32) :
    (Block.zero 32 :: ss.map Signed.hash).Nodup := by
  have hmsg : ∀ s ∈ ss, ∃ m ∈ hashedMessages t.rows, so.sha256 m = s.hash ∧
      buildEntryBytes s.entry s.prev none = .ok m := by
    intro s hs
    obtain ⟨m, hm, hh⟩ := hashOk_iff.mp (hacc.hashOk s hs)
    obtain ⟨r, hr, hrs⟩ := exists_of_mem hss hs
    exact ⟨m, ⟨r, hr, s, hrs, hm⟩, hh, hm⟩
  have hids : (ss.map fun s => s.entry.entryId).Pairwise (· < ·) := by
    rw [← map_entryId hss]
    exact List.pairwise_map.mpr t.sorted
  refine List.nodup_cons.mpr ⟨fun hmem => ?_, ?_⟩
  · obtain ⟨s, hs, hz⟩ := List.mem_map.mp hmem
    obtain ⟨m, hm, hh, -⟩ := hmsg s hs
    exact hzero m hm (hh.trans hz)
  · refine List.pairwise_map.mpr (((List.pairwise_map.mp hids).imp_of_mem ?_))
    intro s u hs hu hlt heq
    obtain ⟨m, hm, hh, hb⟩ := hmsg s hs
    obtain ⟨m', hm', hh', hb'⟩ := hmsg u hu
    obtain rfl : m = m' := hsha hm hm' (by rw [hh, hh', heq])
    have hr : ∀ s ∈ ss, s.entry.InRange := fun s hs => by
      obtain ⟨r, hr, hrs⟩ := exists_of_mem hss hs
      exact inRange_of_read (t.admitted r hr) hrs
    have hid := (buildEntryBytes_inj (hr s hs) (hr u hu) hb hb').1
    have heq' : s.entry.entryId = u.entry.entryId :=
      show s.entry.norm.entryId = u.entry.norm.entryId by rw [hid]
    omega

/-- An outside world in which nothing fails, on the first day of 2025. -/
def sampleInput : Input := ⟨false, some 1735689600, fun n => Block.zero n⟩

def sampleKey : Block 32 := Block.fill 32 7

/-- The database after one logged event. -/
def sampleDb : Db :=
  ((logEvent toy actorDefault (columnText (ascii "CREATE")) sampleName 1
    (columnText (ascii "SUCCESS")) sampleKey).run Stmt.exec (fun _ => sampleInput) Db.empty).1

theorem sampleDb_logged : Logged toy sampleKey sampleDb :=
  .call _ _ _ _ _ (.start rfl) (by decide) (Prog.runs_run _)

/-- The row it wrote. -/
def sampleRow : AuditRow where
  entryId := 1
  timestamp := ascii "2025-01-01T00:00:00Z"
  action := ascii "CREATE"
  actor := ascii "user:default"
  target := ascii "db"
  targetVersion := some 1
  result := ascii "SUCCESS"
  prevHash := List.replicate 32 0
  entryHash := [229, 67, 163, 79, 252, 107, 182, 98, 187, 16, 231, 141, 28, 216, 123, 45, 13, 174,
    65, 174, 205, 137, 197, 181, 183, 219, 192, 70, 204, 145, 20, 30]
  hmacSignature := [102, 157, 131, 216, 183, 34, 87, 176, 189, 227, 21, 62, 229, 51, 119, 18, 134,
    89, 201, 217, 15, 94, 62, 133, 110, 85, 165, 103, 155, 165, 155, 106]

theorem sampleDb_rows : sampleDb.audit.rows = [sampleRow] := by decide +kernel

/-- Rows that read the same hash one message. -/
theorem hashedMessages_subsingleton {r r' : AuditRow} (h : view r' = view r) :
    (hashedMessages [r, r']).Subsingleton := by
  have key : ∀ m ∈ hashedMessages [r, r'], ∃ s : Signed, view r = .ok s ∧
      buildEntryBytes s.entry s.prev none = .ok m := by
    rintro m ⟨q, hq, s, hs, hm⟩
    refine ⟨s.norm, ?_, by simpa only [Signed.norm, buildEntryBytes_norm] using hm⟩
    have hview : view q = .ok s.norm := view_eq_ok.mpr ⟨s, hs, rfl⟩
    rcases List.mem_cons.mp hq with rfl | hq
    · exact hview
    · rw [← h, ← List.mem_singleton.mp hq]; exact hview
  intro m hm m' hm'
  obtain ⟨s, hs, hb⟩ := key m hm
  obtain ⟨s', hs', hb'⟩ := key m' hm'
  rw [hs] at hs'
  cases hs'
  rw [hb] at hb'
  exact Except.ok.inj hb'

/-- Tables of one row each that read the same compute one MAC. -/
theorem macMessages_subsingleton {t t' : AuditTable} {r r' : AuditRow} (ht : t.rows = [r])
    (ht' : t'.rows = [r']) (h : view r' = view r) :
    (macMessages so key t ∪ macMessages so key t').Subsingleton := by
  have hmem : ∀ p ∈ macMessages so key t ∪ macMessages so key t', ∃ s : Signed,
      view r = .ok s ∧ p.1 = key ∧ buildEntryBytes s.entry s.prev (some s.hash) = .ok p.2 := by
    have one : ∀ {u : AuditTable} {q : AuditRow} {p : Block 32 × Bytes}, u.rows = [q] →
        p ∈ macMessages so key u → ∃ s : Signed,
          view q = .ok s ∧ p.1 = key ∧ buildEntryBytes s.entry s.prev (some s.hash) = .ok p.2 := by
      rintro u q p hu ⟨ss, hss, hp⟩
      rw [hu] at hss
      rcases ss with _ | ⟨s, _ | ⟨s', ss⟩⟩
      · simp at hss
      · simp only [List.map_cons, List.map_nil, List.cons.injEq, and_true] at hss
        refine ⟨s.norm, view_eq_ok.mpr ⟨s, hss, rfl⟩, ?_⟩
        cases hb : buildEntryBytes s.entry s.prev (some s.hash) with
        | error e => simp [signedPairs, hb] at hp
        | ok m =>
          simp only [signedPairs, hb, List.mem_singleton] at hp
          subst hp
          exact ⟨rfl, by simpa only [Signed.norm, buildEntryBytes_norm] using hb⟩
      · simp at hss
    rintro p (hp | hp)
    · exact one ht hp
    · rw [← h]; exact one ht' hp
  intro p hp p' hp'
  obtain ⟨s, hs, hk, hb⟩ := hmem p hp
  obtain ⟨s', hs', hk', hb'⟩ := hmem p' hp'
  rw [hs] at hs'
  cases hs'
  rw [hb] at hb'
  exact Prod.ext (hk.trans hk'.symm) (Except.ok.inj hb')

end Fuin.Audit.Rearranged

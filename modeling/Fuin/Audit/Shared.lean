import Fuin.Audit.Resign

/-! # Appending among others

Outside a transaction other entries may be appended between the reads of `audit_log_event` and its
`INSERT`. On a log numbered from 1 the primary key catches an id that is not the next one any more,
and with it an old number of rows (`insert_next`); an old hash of the last row is not caught. So the
log still verifies if and only if the entry points to the row that is the last one when it is
inserted (`verifyChain_insert`). -/

namespace Fuin.Audit.Shared

open Fuin.Utils Fuin.Crypto Fuin.Lib.Program Fuin.Lib.Growth Fuin.Lib.Chain Fuin.Store.Database
open Fuin.Audit.Table Fuin.Audit.Encoding Fuin.Audit.Verify Fuin.Audit.Log Fuin.Audit.Resign

/-- The row points to the last row of the log. -/
def PointsToLast (t : AuditTable) (r : AuditRow) : Prop :=
  ∃ h, lastHash t = .ok h ∧ r.prevHash = h.1

instance (t : AuditTable) (r : AuditRow) : Decidable (PointsToLast t r) :=
  match h : lastHash t with
  | .error _ => isFalse fun ⟨_, h', _⟩ => nomatch h.symm.trans h'
  | .ok b =>
    if e : r.prevHash = b.1 then isTrue ⟨b, h, e⟩
    else isFalse fun ⟨b', h', e'⟩ => e (by cases h.symm.trans h'; exact e')

/-- The ids of a log. Signing it again leaves them. -/
def ids (t : AuditTable) : List ℤ := t.rows.map AuditRow.entryId

theorem length_ids (t : AuditTable) : (ids t).length = t.rows.length := List.length_map _

theorem ids_of_le {t u : AuditTable} (h : t.rows <+: u.rows) : ids t <+: ids u := h.map _

/-- Rows that differ in their signatures have the same ids. -/
theorem ids_same {t u : AuditTable} (h : List.Forall₂ SameEntry t.rows u.rows) : ids u = ids t := by
  unfold ids
  generalize t.rows = rs, u.rows = rs' at h
  induction h with
  | nil => rfl
  | cons hr _ ih => rw [List.map_cons, List.map_cons, ih, hr]

/-- One more entry. -/
theorem ids_step {so : Sodium} {key : Block 32} {v : Event} {t u : AuditTable}
    (h : LogStep so key v t u) : ids t <+: ids u := by
  obtain ⟨_, _, _, _, _, -, -, -, -, -, hrows⟩ := h.rows
  refine ids_of_le ?_
  rw [hrows]
  exact List.prefix_append _ _

theorem numbered_of_le {t u : AuditTable} (h : ids t <+: ids u) (hu : Numbered u) : Numbered t := by
  intro i hi
  have hi' : i < (ids t).length := by rwa [length_ids]
  have hlt : i < u.rows.length := by
    rw [← length_ids]
    exact lt_of_lt_of_le hi' h.length_le
  have hget := h.getElem hi'
  simp only [ids, List.getElem_map] at hget
  rw [hget]
  exact hu i hlt

/-- The next id is computed from the ids. -/
theorem nextEntryId_congr {t u : AuditTable} (h : ids t = ids u) : nextEntryId t = nextEntryId u := by
  have hlast : t.lastRow.map AuditRow.entryId = u.lastRow.map AuditRow.entryId := by
    unfold AuditTable.lastRow
    rw [← List.getLast?_map, ← List.getLast?_map]
    exact congrArg List.getLast? h
  unfold nextEntryId
  cases ht : t.lastRow with
  | none =>
    rw [ht] at hlast
    rw [Option.map_eq_none_iff.mp hlast.symm]
  | some r =>
    rw [ht] at hlast
    obtain ⟨s, hs, hid⟩ := Option.map_eq_some_iff.mp hlast.symm
    rw [hs]
    dsimp only
    rw [hid]

/-- A prefix of the same length is the whole. -/
theorem eq_of_prefix {t u : AuditTable} (h : t.rows <+: u.rows)
    (hlen : u.rows.length ≤ t.rows.length) : t = u :=
  AuditTable.ext (h.eq_of_length_le hlen)

/-- **An id that was read is still the next one**, or the insertion is refused: nothing has been
appended since. -/
theorem insert_next {t₁ t₂ t u : AuditTable} {row : AuditRow} (ht : Numbered t)
    (h12 : ids t₁ <+: ids t₂) (h2 : ids t₂ <+: ids t) (hid : nextEntryId t₁ = .ok row.entryId)
    (hins : t.insert row = some u) :
    ids t₁ = ids t ∧ ids t₂ = ids t ∧ u.rows = t.rows ++ [row] ∧ Numbered u := by
  obtain ⟨-, hfree, hrows⟩ := AuditTable.insert_eq_some.mp hins
  have h1 := h12.trans h2
  have htaken : ∀ s ∈ t₁.rows, s.entryId ≠ row.entryId := by
    intro s hs he
    obtain ⟨r, hr, hrs⟩ := List.mem_map.mp (h1.subset (List.mem_map_of_mem hs))
    exact hfree r hr (hrs.trans he)
  have hnext : row.entryId = t₁.rows.length + 1 := by
    rcases nextEntryId_numbered (numbered_of_le h1 ht) hid with h | ⟨s, hs, h⟩
    · exact h
    · exact absurd h (htaken s hs)
  have hlen : t.rows.length ≤ t₁.rows.length := by
    by_contra hlt
    obtain ⟨s, hs, h⟩ := ht.exists_mem (v := row.entryId) (by omega) (by omega)
    exact hfree s hs h
  have hle := h12.length_le
  rw [length_ids, length_ids] at hle
  have e1 : ids t₁ = ids t := h1.eq_of_length_le (by rw [length_ids, length_ids]; exact hlen)
  have e2 : ids t₂ = ids t :=
    h2.eq_of_length_le (by rw [length_ids, length_ids]; exact hlen.trans hle)
  have hsame : t₁.rows.length = t.rows.length := by
    rw [← length_ids, ← length_ids, e1]
  rw [hsame] at hnext
  have hplace : u.rows = t.rows ++ [row] := by
    rw [hrows, AuditTable.place_of_lt fun s hs => ?_]
    have := (ht.mem hs).2
    omega
  refine ⟨e1, e2, hplace, ?_⟩
  unfold Numbered
  rw [hplace]
  exact ht.concat hnext

variable {so : Sodium} {actor action target result : CString} {version : ℤ} {key : Block 32}
  {M : Ambient Db Input} {db db' : Db} {row : AuditRow} {t u : AuditTable}

/-- **An entry that is inserted among others** has the next id and the signature of its position. -/
theorem nextRow_insert
    (hrun : (nextRow so actor action target version result key).RunsIn Stmt.exec M db db' (.ok row))
    (hrely : ∀ s s', M.rely s s' → ids s.audit <+: ids s'.audit)
    (hgrow : ids db'.audit <+: ids t) (ht : Numbered t) (hins : t.insert row = some u) :
    ∃ prev id time hash sig, nextEntryId t = .ok id ∧
      Records so key ⟨actor, action, target, version, result⟩ prev id t.rows.length time hash sig ∧
      row = entryRow (Event.entry ⟨actor, action, target, version, result⟩ id time) prev hash sig ∧
      u.rows = t.rows ++ [row] ∧ Numbered u := by
  obtain ⟨_, d₂, d₃, prev, id, time, hash, sig, -, -, -, -, h23, -, h3, -, hid, hrec, hrow⟩ :=
    nextRow_runsIn hrun
  have hid' : nextEntryId d₂.audit = .ok row.entryId := by
    rw [hrow]
    exact hid
  obtain ⟨e₂, e₃, hrows, hnum⟩ :=
    insert_next ht (hrely _ _ h23) ((hrely _ _ h3).trans hgrow) hid' hins
  rw [nextEntryId_congr e₂] at hid
  have hlen : d₃.audit.rows.length = t.rows.length := by
    rw [← length_ids, ← length_ids, e₃]
  rw [hlen] at hrec
  exact ⟨prev, id, time, hash, sig, hid, hrec, hrow, hrows, hnum⟩

/-- An entry that points to the last row is one step of the log. -/
theorem logStep_insert
    (hrun : (nextRow so actor action target version result key).RunsIn Stmt.exec M db db' (.ok row))
    (hrely : ∀ s s', M.rely s s' → ids s.audit <+: ids s'.audit)
    (hgrow : ids db'.audit <+: ids t) (ht : Numbered t) (hins : t.insert row = some u)
    (hlast : PointsToLast t row) : LogStep so key ⟨actor, action, target, version, result⟩ t u := by
  obtain ⟨prev, id, time, hash, sig, hid, hrec, hrow, -, -⟩ :=
    nextRow_insert hrun hrely hgrow ht hins
  obtain ⟨h, hh, hprev⟩ := hlast
  have hp : prev = h := by
    rw [hrow] at hprev
    exact Subtype.ext hprev
  rw [← hp] at hh
  exact ⟨prev, id, time, hash, sig, hh, hid, hrec, by rw [← hrow]; exact hins⟩

/-- **The log still verifies** if and only if the entry points to its last row. -/
theorem verifyChain_insert
    (hrun : (nextRow so actor action target version result key).RunsIn Stmt.exec M db db' (.ok row))
    (hrely : ∀ s s', M.rely s s' → ids s.audit <+: ids s'.audit)
    (hgrow : ids db'.audit <+: ids t) (ht : Numbered t) (hins : t.insert row = some u)
    (hv : version ≤ intMax) (hver : verifyChain so key t = .ok ()) :
    verifyChain so key u = .ok () ↔ PointsToLast t row := by
  refine ⟨fun hu => ?_, fun hlast =>
    (logStep_insert hrun hrely hgrow ht hins hlast).verifyChain hv hver⟩
  obtain ⟨prev, id, time, hash, sig, -, -, -, hrows, -⟩ := nextRow_insert hrun hrely hgrow ht hins
  obtain ⟨ss, hss, -⟩ := verifyChain_eq_ok.mp hver
  obtain ⟨us, hus, hacc⟩ := verifyChain_eq_ok.mp hu
  rw [hrows, List.map_append, hss] at hus
  rcases List.eq_nil_or_concat' us with rfl | ⟨vs, s, rfl⟩
  · simp at hus
  · rw [List.map_append] at hus
    obtain ⟨h1, h2⟩ := List.append_inj' hus rfl
    obtain rfl : ss = vs := List.map_injective_iff.mpr (fun _ _ h => Except.ok.inj h) h1
    have hread : readRow row = .ok s := by simpa using h2
    obtain ⟨-, hprev, -⟩ := accepted_append.mp hacc
    refine ⟨_, lastHash_eq hss, ?_⟩
    simp only [readRow, bind_eq_ok, pure_eq_ok] at hread
    obtain ⟨-, -, _, -, p, hp, _, -, _, -, rfl⟩ := hread
    unfold columnHash at hp
    split_ifs at hp
    cases hp
    exact congrArg Subtype.val hprev

end Fuin.Audit.Shared

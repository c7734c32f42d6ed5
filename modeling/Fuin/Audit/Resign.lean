import Fuin.Audit.Log
import Fuin.Lib.Growth

/-! # Signing the log again

When the keys change, `audit_resign_chain` checks the hashes of the log and signs every entry under
the ratchet of the new key. On a log numbered from 1 a successful run leaves a log that verifies
under the new key (`resignChain_runs`); there the ids are small enough for `sqlite3_bind_int`,
because the first one that is not matches no row. -/

namespace Fuin.Audit.Resign

open Fuin.Utils Fuin.Crypto Fuin.Lib.Program Fuin.Lib.Growth Fuin.Store.Database Fuin.Audit.Table
open Fuin.Audit.Encoding Fuin.Audit.Verify Fuin.Audit.Log

/-- The checks of the first loop, and the new signature. -/
def resignItem (so : Sodium) (key prev : Block 32) (r : AuditRow) :
    Except Status (Block 32 × Block 32) := do
  require (1 ≤ r.entryId) .storage
  let version ← columnVersion r.targetVersion
  let stored ← columnHash r.prevHash
  let hash ← columnHash r.entryHash
  require (stored = prev) .crypto
  let entry : Entry :=
    { entryId := r.entryId
      timestamp := columnText r.timestamp
      action := columnText r.action
      actor := columnText r.actor
      target := columnText r.target
      targetVersion := version
      result := columnText r.result }
  let computed ← computeEntryHash so entry stored
  require (hash = computed) .crypto
  let sig ← computeSignature so entry stored hash key
  return (hash, sig)

/-- The first loop: ids and signatures. -/
def resignItems (so : Sodium) : Block 32 → Block 32 → List AuditRow →
    Except Status (List (ℤ × Block 32))
  | _, _, [] => .ok []
  | key, prev, r :: rs => do
    let item ← resignItem so key prev r
    let items ← resignItems so (advanceRatchetKey so key) item.1 rs
    return (r.entryId, item.2) :: items

/-- The second loop; `sqlite3_bind_int` takes the id as an `int`. -/
def updateSignatures : List (ℤ × Block 32) → Sql Unit
  | [] => .ret ()
  | (id, sig) :: items => do
    let n ← Sql.write (.updateSignature (columnInt id) sig.1)
    Prog.ofExcept (require (n = 1) .storage)
    Sql.lib .storage
    updateSignatures items

/-- `audit_resign_chain`. -/
def resignChain (so : Sodium) (key : Block 32) : Sql Unit := do
  Sql.lib .storage
  let items ← Sql.select fun db => resignItems so key (Block.zero 32) db.audit.rows
  Sql.libs [.crypto, .storage, .storage]
  updateSignatures items
  Sql.lib .storage

/-! ### Logs numbered from 1 -/

/-- The ids of a log are its positions, counted from 1. -/
def Numbered (t : AuditTable) : Prop := Counted AuditRow.entryId t.rows

/-- The next id goes on with the numbers, or it is taken. -/
theorem nextEntryId_numbered {t : AuditTable} {id : ℤ} (ht : Numbered t)
    (h : nextEntryId t = .ok id) : id = t.rows.length + 1 ∨ ∃ s ∈ t.rows, s.entryId = id := by
  unfold nextEntryId at h
  cases hl : t.lastRow with
  | none =>
    have hnil : t.rows = [] := List.getLast?_eq_none_iff.mp hl
    simp only [hl] at h
    rw [hnil]
    cases h
    exact Or.inl rfl
  | some r =>
    simp only [hl] at h
    have hlast : r.entryId = t.rows.length := by
      obtain ⟨l, hl'⟩ := List.getLast?_eq_some_iff.mp hl
      have hget := ht l.length (by simp [hl'])
      simp only [hl', List.length_append, List.length_singleton] at hget ⊢
      simpa using hget
    split_ifs at h with h1 h2
    · cases h
      exact Or.inr ⟨r, List.mem_of_getLast? hl, h1⟩
    · cases h
      exact Or.inl (by omega)

/-- Logging an event goes on with the numbers. -/
theorem LogStep.numbered {so : Sodium} {key : Block 32} {v : Event} {t u : AuditTable}
    (h : LogStep so key v t u) (ht : Numbered t) : Numbered u := by
  obtain ⟨prev, id, time, hash, sig, -, hid, -, hlt, -, hrows⟩ := h.rows
  have hnext : id = t.rows.length + 1 := by
    rcases nextEntryId_numbered ht hid with hid | ⟨s, hs, hid⟩
    · exact hid
    · exact absurd hid (hlt s hs).ne
  unfold Numbered
  rw [hrows]
  exact ht.concat hnext

/-- A row with a new signature. -/
def resigned (r : AuditRow) (sig : Block 32) : AuditRow := { r with hmacSignature := sig.1 }

/-- The rows with new signatures. -/
def resignRows (rs : List AuditRow) (ss : List Signed) : List AuditRow :=
  List.zipWith (fun r s => resigned r s.sig) rs ss

/-- The same entry, whatever its signature. -/
def SameEntry (r s : AuditRow) : Prop := s = { r with hmacSignature := s.hmacSignature }

theorem resignRows_same : ∀ {rs : List AuditRow} {ss : List Signed}, ss.length = rs.length →
    List.Forall₂ SameEntry rs (resignRows rs ss)
  | [], [], _ => .nil
  | [], _ :: _, h => nomatch h
  | _ :: _, [], h => nomatch h
  | _ :: _, _ :: _, h => .cons rfl (resignRows_same (Nat.succ.inj h))

theorem map_entryHash_same {rs rs' : List AuditRow} (h : List.Forall₂ SameEntry rs rs') :
    rs'.map AuditRow.entryHash = rs.map AuditRow.entryHash := by
  induction h with
  | nil => rfl
  | cons hr _ ih => rw [List.map_cons, List.map_cons, ih, hr]

variable {so : Sodium}

theorem resignItem_eq_ok {key prev hash sig : Block 32} {r : AuditRow}
    (h : resignItem so key prev r = .ok (hash, sig)) :
    ∃ s, readRow (resigned r sig) = .ok s ∧ s.prev = prev ∧ s.HashOk so ∧ s.SigOk so key ∧
      s.hash = hash ∧ s.sig = sig ∧ s.entry.entryId = r.entryId := by
  simp only [resignItem, bind_eq_ok, require_eq_ok, pure_eq_ok, Prod.mk.injEq] at h
  obtain ⟨-, hid, version, hver, stored, hst, hash', hh, -, hp, c, hc, -, he, sig', hs, rfl, rfl⟩ := h
  refine ⟨⟨_, stored, hash', sig'⟩, ?_, hp, ?_, hs, rfl, rfl, rfl⟩
  · have hsig : columnHash sig'.1 = .ok sig' := dif_pos sig'.2
    simp only [readRow, resigned, bind_eq_ok, pure_eq_ok]
    exact ⟨(), require_eq_ok.mpr hid, version, hver, stored, hst, hash', hh, sig', hsig, rfl⟩
  · rw [Signed.HashOk, he]
    exact hc

/-- **The first loop** checks the hashes and computes an accepted log. -/
theorem resignItems_eq_ok : ∀ {rs : List AuditRow} {key prev : Block 32} {items : List (ℤ × Block 32)},
    resignItems so key prev rs = .ok items →
      ∃ ss : List Signed, (resignRows rs ss).map readRow = ss.map .ok ∧ Accepted so key prev ss ∧
        ss.length = rs.length ∧ items = List.zipWith (fun r s => (r.entryId, s.sig)) rs ss
  | [], key, prev, items, h => by
    cases h
    exact ⟨[], rfl, trivial, rfl, rfl⟩
  | r :: rs, key, prev, items, h => by
    simp only [resignItems, bind_eq_ok, pure_eq_ok] at h
    obtain ⟨⟨hash, sig⟩, hitem, items', hitems, rfl⟩ := h
    obtain ⟨s, hread, hp, hh, hsig, rfl, rfl, hid⟩ := resignItem_eq_ok hitem
    obtain ⟨ss, hss, hacc, hlen, rfl⟩ := resignItems_eq_ok hitems
    refine ⟨s :: ss, ?_, ⟨hp, hh, hsig, hacc⟩, by simp [hlen], rfl⟩
    simp only [resignRows, List.zipWith_cons_cons, List.map_cons, hread]
    exact congrArg _ hss

/-- The first id that is no `int` matches no row. -/
theorem matching_large {t : AuditTable} (h : Numbered t) :
    t.matching (columnInt (intMax + 1)) = 0 := by
  have hneg : columnInt (intMax + 1) = -2147483648 := by decide
  unfold AuditTable.matching
  rw [List.length_eq_zero_iff, List.filter_eq_nil_iff, hneg]
  intro r hr
  have := (h.mem hr).1
  simp only [decide_eq_true_eq]
  omega

/-- Signing one row. -/
theorem sign_rows {t : AuditTable} {before rs : List AuditRow} {r : AuditRow} {sig : Block 32}
    (h : t.rows = before ++ r :: rs) :
    (t.sign r.entryId sig.1).rows = before ++ resigned r sig :: rs := by
  have hsorted := t.sorted
  rw [h, List.pairwise_append, List.pairwise_cons] at hsorted
  obtain ⟨-, ⟨hafter, -⟩, hbefore⟩ := hsorted
  simp only [AuditTable.sign, h, List.map_append, List.map_cons, if_true]
  have hstay (l : List AuditRow) (hl : ∀ x ∈ l, x.entryId ≠ r.entryId) :
      l.map (fun x => if x.entryId = r.entryId then { x with hmacSignature := sig.1 } else x) = l :=
    (List.map_congr_left fun x hx => if_neg (hl x hx)).trans (List.map_id _)
  rw [hstay before fun x hx => (hbefore x hx r (by simp)).ne,
    hstay rs fun x hx => (hafter x hx).ne']
  rfl

theorem numbered_sign {t : AuditTable} (h : Numbered t) (id : ℤ) (sig : Bytes) :
    Numbered (t.sign id sig) := by
  intro i hi
  have hi' : i < t.rows.length := by simpa [AuditTable.sign] using hi
  have := h i hi'
  simp only [AuditTable.sign, List.getElem_map]
  split_ifs <;> exact this

/-- **The second loop**, on what is left of a log numbered from 1. -/
theorem updateSignatures_runs {ss : List Signed} {before rs : List AuditRow} {db db' : Db}
    (hrows : db.audit.rows = before ++ rs) (hlen : ss.length = rs.length) (hnum : Numbered db.audit)
    (hmax : (before.length : ℤ) ≤ intMax)
    (h : (updateSignatures (List.zipWith (fun r s => (r.entryId, s.sig)) rs ss)).Runs Stmt.exec db db'
      (.ok ())) :
    ∃ t : AuditTable, db' = { db with audit := t } ∧ t.rows = before ++ resignRows rs ss ∧
      Numbered t := by
  induction ss generalizing before rs db with
  | nil =>
    cases rs with
    | nil =>
      obtain ⟨rfl, -⟩ := Prog.runs_ret h
      exact ⟨db'.audit, rfl, hrows, hnum⟩
    | cons r rs => cases hlen
  | cons s ss ih =>
    cases rs with
    | nil => cases hlen
    | cons r rs =>
      obtain ⟨db₁, n, hw, h1⟩ := Sql.runs_write_bind h
      obtain ⟨_, hn, h2⟩ := Prog.runs_ofExcept_bind h1
      have h3 := Sql.runs_lib_bind h2
      simp only [Write.apply, Option.some.injEq, Prod.mk.injEq] at hw
      obtain ⟨rfl, rfl⟩ := hw
      rw [require_eq_ok] at hn
      have hr : r.entryId = before.length + 1 := by
        have hlt : before.length < db.audit.rows.length := by simp [hrows]
        have hget : db.audit.rows[before.length] = r := by simp [hrows]
        rw [← hget]
        exact hnum before.length hlt
      have hsmall : r.entryId ≤ intMax := by
        by_contra hbig
        have hid : r.entryId = intMax + 1 := by omega
        rw [hid, matching_large hnum] at hn
        cases hn
      have hcol : columnInt r.entryId = r.entryId := by
        unfold intMax at hsmall
        exact columnInt_of_lt (by omega) (by omega)
      rw [hcol] at h3
      have hsplit : (db.audit.sign r.entryId s.sig.1).rows = (before ++ [resigned r s.sig]) ++ rs := by
        rw [sign_rows hrows, List.append_assoc]
        rfl
      obtain ⟨t, rfl, ht, hnum'⟩ := ih hsplit (by simpa using hlen)
        (numbered_sign hnum _ _) (by simp; omega) h3
      exact ⟨t, rfl, by rw [ht, List.append_assoc]; rfl, hnum'⟩

theorem updateSignatures_frame : ∀ {items : List (ℤ × Block 32)} {db db' : Db},
    (updateSignatures items).Runs Stmt.exec db db' (.ok ()) →
      ∃ t : AuditTable, db' = { db with audit := t }
  | [], db, db', h => ⟨db.audit, (Prog.runs_ret h).1⟩
  | (id, sig) :: items, db, db', h => by
    obtain ⟨db₁, n, hw, h1⟩ := Sql.runs_write_bind h
    obtain ⟨_, -, h2⟩ := Prog.runs_ofExcept_bind h1
    simp only [Write.apply, Option.some.injEq, Prod.mk.injEq] at hw
    obtain ⟨rfl, -⟩ := hw
    obtain ⟨t, rfl⟩ := updateSignatures_frame (Sql.runs_lib_bind h2)
    exact ⟨t, rfl⟩

/-- Only the log changes. -/
theorem resignChain_frame {key : Block 32} {db db' : Db}
    (h : (resignChain so key).Runs Stmt.exec db db' (.ok ())) :
    ∃ t : AuditTable, db' = { db with audit := t } := by
  obtain ⟨items, -, h1⟩ := Sql.runs_select_bind (Sql.runs_lib_bind h)
  obtain ⟨_, db₁, h2, h3⟩ := Prog.runs_bind (Sql.runs_libs_bind h1)
  obtain rfl := Sql.readOnly_lib.runs h3
  exact updateSignatures_frame h2

/-- **A successful run** leaves a log of the same entries that verifies under the new key. -/
theorem resignChain_runs {key : Block 32} {db db' : Db} (hnum : Numbered db.audit)
    (h : (resignChain so key).Runs Stmt.exec db db' (.ok ())) :
    ∃ t : AuditTable, db' = { db with audit := t } ∧
      List.Forall₂ SameEntry db.audit.rows t.rows ∧ Numbered t ∧ verifyChain so key t = .ok () := by
  obtain ⟨items, hitems, h1⟩ := Sql.runs_select_bind (Sql.runs_lib_bind h)
  obtain ⟨_, db₁, h2, h3⟩ := Prog.runs_bind (Sql.runs_libs_bind h1)
  obtain rfl := Sql.readOnly_lib.runs h3
  obtain ⟨ss, hss, hacc, hlen, rfl⟩ := resignItems_eq_ok hitems
  have hrows : db.audit.rows = [] ++ db.audit.rows := rfl
  obtain ⟨t, rfl, ht, hnum'⟩ := updateSignatures_runs hrows hlen hnum (by decide) h2
  refine ⟨t, rfl, ?_, hnum', verifyChain_eq_ok.mpr ⟨ss, ?_, hacc⟩⟩
  · rw [ht]
    exact resignRows_same hlen
  · rw [ht]
    exact hss

end Fuin.Audit.Resign

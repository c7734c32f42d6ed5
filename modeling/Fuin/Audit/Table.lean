import Fuin.Utils

/-! # The table `audit_log`

A row holds what SQLite stores, not what the program means by it: texts are byte strings that may
contain a NUL, hashes are blobs of any length, the version is `NULL` or any 64-bit integer. The table
carries the constraints of `schema.sql`: `entry_id` is the primary key (the rows are kept in its
order, as the B-tree does), and the two `CHECK`s. -/

namespace Fuin.Audit.Table

open Fuin.Utils

/-- A row of `audit_log`. -/
structure AuditRow where
  entryId : ℤ
  timestamp : Bytes
  action : Bytes
  actor : Bytes
  target : Bytes
  targetVersion : Option ℤ
  result : Bytes
  prevHash : Bytes
  entryHash : Bytes
  hmacSignature : Bytes
  deriving DecidableEq

/-- The actions that the table and `audit_valid_action` list. -/
def actions : List Bytes :=
  [ascii "CREATE", ascii "READ", ascii "UPDATE", ascii "DELETE", ascii "ROLLBACK",
    ascii "ROTATE_KEK", ascii "ROTATE_DEK", ascii "TOKEN_ISSUE", ascii "TOKEN_REVOKE"]

/-- The results that the table and `audit_valid_result` list. -/
def results : List Bytes := [ascii "SUCCESS", ascii "FAILURE"]

/-- What the schema demands of a row on its own. -/
def AuditRow.Admitted (r : AuditRow) : Prop :=
  r.action ∈ actions ∧ r.result ∈ results ∧ IsInt64 r.entryId ∧
    ∀ v ∈ r.targetVersion, IsInt64 v

instance (r : AuditRow) : Decidable r.Admitted := inferInstanceAs (Decidable (_ ∧ _))

/-- The table, in the order of `entry_id`. -/
structure AuditTable where
  rows : List AuditRow
  sorted : rows.Pairwise fun r s => r.entryId < s.entryId
  admitted : ∀ r ∈ rows, r.Admitted

@[ext] theorem AuditTable.ext {t u : AuditTable} (h : t.rows = u.rows) : t = u := by
  cases t; cases u; cases h; rfl

namespace AuditTable

/-- The table of a new database. -/
def empty : AuditTable := ⟨[], List.Pairwise.nil, fun _ h => absurd h List.not_mem_nil⟩

/-- The rows with one more at its place. -/
def place (rows : List AuditRow) (r : AuditRow) : List AuditRow :=
  rows.takeWhile (fun s => s.entryId < r.entryId) ++
    r :: rows.dropWhile (fun s => s.entryId < r.entryId)

theorem mem_place {rows : List AuditRow} {r s : AuditRow} :
    s ∈ place rows r ↔ s = r ∨ s ∈ rows := by
  have h := List.takeWhile_append_dropWhile
    (p := fun s : AuditRow => decide (s.entryId < r.entryId)) (l := rows)
  conv_rhs => rw [← h]
  simp only [place, List.mem_append, List.mem_cons]
  tauto

theorem place_sorted : ∀ {rows : List AuditRow} {r : AuditRow},
    rows.Pairwise (fun r s => r.entryId < s.entryId) → (∀ s ∈ rows, s.entryId ≠ r.entryId) →
      (place rows r).Pairwise fun r s => r.entryId < s.entryId
  | [], r, _, _ => by simp [place]
  | s :: rows, r, h, hne => by
    obtain ⟨hs, hrows⟩ := List.pairwise_cons.mp h
    by_cases hlt : s.entryId < r.entryId
    · have hp : place (s :: rows) r = s :: place rows r := by simp [place, hlt]
      rw [hp, List.pairwise_cons]
      refine ⟨fun u hu => ?_, place_sorted hrows fun u hu => hne u (by simp [hu])⟩
      rcases mem_place.mp hu with rfl | hu
      · exact hlt
      · exact hs u hu
    · have hp : place (s :: rows) r = r :: s :: rows := by simp [place, hlt]
      have hsr := hne s (by simp)
      rw [hp, List.pairwise_cons]
      refine ⟨fun u hu => ?_, h⟩
      rcases List.mem_cons.mp hu with rfl | hu
      · omega
      · have := hs u hu
        omega

theorem place_of_lt {rows : List AuditRow} {r : AuditRow} (h : ∀ s ∈ rows, s.entryId < r.entryId) :
    place rows r = rows ++ [r] := by
  have h1 : rows.takeWhile (fun s => decide (s.entryId < r.entryId)) = rows :=
    List.takeWhile_eq_self_iff.mpr fun s hs => by simpa using h s hs
  have h2 : rows.dropWhile (fun s => decide (s.entryId < r.entryId)) = [] :=
    List.dropWhile_eq_nil_iff.mpr fun s hs => by simpa using h s hs
  rw [place, h1, h2]

/-- `INSERT INTO audit_log`: refused if the row breaks a constraint. -/
def insert (t : AuditTable) (r : AuditRow) : Option AuditTable :=
  if h : r.Admitted ∧ ∀ s ∈ t.rows, s.entryId ≠ r.entryId then
    some
      { rows := place t.rows r
        sorted := place_sorted t.sorted h.2
        admitted := fun s hs => by
          rcases mem_place.mp hs with rfl | hs
          · exact h.1
          · exact t.admitted s hs }
  else none

theorem insert_eq_some {t u : AuditTable} {r : AuditRow} :
    t.insert r = some u ↔
      r.Admitted ∧ (∀ s ∈ t.rows, s.entryId ≠ r.entryId) ∧ u.rows = place t.rows r := by
  unfold insert
  split_ifs with h
  · rw [Option.some.injEq]
    exact ⟨fun e => ⟨h.1, h.2, by rw [← e]⟩, fun e => AuditTable.ext e.2.2.symm⟩
  · simp only [false_iff]
    exact fun e => h ⟨e.1, e.2.1⟩

/-- The greatest `entry_id`, if there is a row. -/
def lastRow (t : AuditTable) : Option AuditRow := t.rows.getLast?

theorem le_last {t : AuditTable} {r s : AuditRow} (hr : t.lastRow = some r) (hs : s ∈ t.rows) :
    s.entryId ≤ r.entryId := by
  unfold lastRow at hr
  obtain ⟨l, hl⟩ := List.getLast?_eq_some_iff.mp hr
  rw [hl] at hs
  rcases List.mem_append.mp hs with hs | hs
  · have hp := t.sorted
    rw [hl] at hp
    exact le_of_lt ((List.pairwise_append.mp hp).2.2 s hs r (by simp))
  · rw [List.mem_singleton.mp hs]

/-- `UPDATE audit_log SET hmac_signature = ? WHERE entry_id = ?`. -/
def sign (t : AuditTable) (id : ℤ) (sig : Bytes) : AuditTable where
  rows := t.rows.map fun r => if r.entryId = id then { r with hmacSignature := sig } else r
  sorted := by
    refine List.pairwise_map.mpr (t.sorted.imp fun {r s} h => ?_)
    split_ifs <;> exact h
  admitted := fun r hr => by
    obtain ⟨s, hs, rfl⟩ := List.mem_map.mp hr
    split_ifs
    · exact t.admitted s hs
    · exact t.admitted s hs

/-- The number of rows that an `UPDATE … WHERE entry_id = ?` changes. -/
def matching (t : AuditTable) (id : ℤ) : ℕ := (t.rows.filter fun r => r.entryId = id).length

end AuditTable

end Fuin.Audit.Table

import Fuin.Store.Secrets
import Fuin.Lib.Growth

/-! # The history of a secret

The rows of a name are its history: numbered from 1 in the order of insertion, the counter of each
row its number, only the last one possibly active (`History`). Archiving keeps this
(`History.archive`), and so does inserting a row with the next number (`History.insert`). What may
become of a row is `Kept` if its key is rotated, and `Frozen` otherwise. -/

namespace Fuin.Store.Versions

open Fuin.Utils Fuin.Lib.Growth Fuin.Store.Secrets

/-! ### Rows -/

/-- A row and what may become of it: its key may be wrapped again, and it may be archived. -/
def Kept (r s : SecretRow) : Prop :=
  ∃ encryptedDek dekNonce keyCommitment updatedAt isArchived, s = { r with
    encryptedDek := encryptedDek
    dekNonce := dekNonce
    keyCommitment := keyCommitment
    updatedAt := updatedAt
    isArchived := isArchived }

/-- A row and what may become of it when no key is rotated. -/
def Frozen (r s : SecretRow) : Prop :=
  ∃ updatedAt isArchived, s = { r with updatedAt := updatedAt, isArchived := isArchived }

theorem Frozen.refl (r : SecretRow) : Frozen r r := ⟨r.updatedAt, r.isArchived, rfl⟩

theorem Frozen.kept {r s : SecretRow} (h : Frozen r s) : Kept r s := by
  obtain ⟨u, a, rfl⟩ := h
  exact ⟨_, _, _, u, a, rfl⟩

theorem Frozen.trans {r s u : SecretRow} (h : Frozen r s) (h' : Frozen s u) : Frozen r u := by
  obtain ⟨_, _, rfl⟩ := h
  obtain ⟨t, a, rfl⟩ := h'
  exact ⟨t, a, rfl⟩

theorem Kept.refl (r : SecretRow) : Kept r r := (Frozen.refl r).kept

theorem Kept.trans {r s u : SecretRow} (h : Kept r s) (h' : Kept s u) : Kept r u := by
  obtain ⟨_, _, _, _, _, rfl⟩ := h
  obtain ⟨d, n, c, t, a, rfl⟩ := h'
  exact ⟨d, n, c, t, a, rfl⟩

theorem Kept.name_eq {r s : SecretRow} (h : Kept r s) : s.name = r.name := by
  obtain ⟨_, _, _, _, _, rfl⟩ := h
  rfl

theorem Kept.id_eq {r s : SecretRow} (h : Kept r s) : s.id = r.id := by
  obtain ⟨_, _, _, _, _, rfl⟩ := h
  rfl

theorem Kept.version_eq {r s : SecretRow} (h : Kept r s) : s.version = r.version := by
  obtain ⟨_, _, _, _, _, rfl⟩ := h
  rfl

theorem frozen_archiveRow (name now : Bytes) (r : SecretRow) :
    Frozen r (SecretTable.archiveRow name now r) := by
  unfold SecretTable.archiveRow
  split_ifs
  · exact ⟨now, true, rfl⟩
  · exact Frozen.refl r

theorem frozen_archive (t : SecretTable) (name now : Bytes) :
    List.Forall₂ Frozen t.rows (t.archive name now).rows := by
  rw [SecretTable.archive_rows, List.forall₂_map_right_iff]
  exact List.forall₂_same.mpr fun r _ => frozen_archiveRow name now r

theorem name_archiveRow (name now : Bytes) (r : SecretRow) :
    (SecretTable.archiveRow name now r).name = r.name :=
  (SecretTable.archiveRow_keepsKeys name now).name r

/-- The archiving concerns one name. -/
theorem archiveRow_of_ne {name now : Bytes} {r : SecretRow} (h : r.name ≠ name) :
    SecretTable.archiveRow name now r = r := by
  unfold SecretTable.archiveRow
  rw [if_neg]
  simp only [SecretTable.isActiveOf, Bool.and_eq_true, decide_eq_true_eq]
  exact fun hact => h hact.1

/-! ### The rows of a name -/

variable {t u : SecretTable} {name : Bytes} {r : SecretRow}

theorem rowsOf_forall₂ (h : List.Forall₂ Kept t.rows u.rows) (name : Bytes) :
    List.Forall₂ Kept (t.rowsOf name) (u.rowsOf name) :=
  forall₂_filter (fun r s hrs => by simp only [hrs.name_eq]) h

theorem rowsOf_grows (h : Grows Kept t.rows u.rows) (name : Bytes) :
    Grows Kept (t.rowsOf name) (u.rowsOf name) :=
  h.filter fun r s hrs => by simp only [hrs.name_eq]

theorem rowsOf_insert (h : t.insert r = some u) :
    u.rowsOf name = if r.name = name then t.rowsOf name ++ [r] else t.rowsOf name := by
  obtain ⟨-, -, hrows⟩ := SecretTable.insert_eq_some.mp h
  unfold SecretTable.rowsOf
  rw [hrows, List.filter_append]
  split_ifs with hn
  · rw [List.filter_cons_of_pos (by simpa using hn), List.filter_nil]
  · rw [List.filter_cons_of_neg (by simpa using hn), List.filter_nil, List.append_nil]

theorem rowsOf_archive (t : SecretTable) (n now name : Bytes) :
    (t.archive n now).rowsOf name = (t.rowsOf name).map (SecretTable.archiveRow n now) := by
  unfold SecretTable.rowsOf
  rw [SecretTable.archive_rows, List.filter_map]
  congr 2
  funext r
  rw [Function.comp_apply, name_archiveRow]

theorem rowsOf_archive_of_ne {n now : Bytes} (h : name ≠ n) :
    (t.archive n now).rowsOf name = t.rowsOf name := by
  rw [rowsOf_archive]
  refine (List.map_congr_left fun r hr => archiveRow_of_ne ?_).trans (List.map_id _)
  rw [(SecretTable.mem_rowsOf.mp hr).2]
  exact h

/-- At most one row of a name is active. -/
theorem activeCount_le_one (t : SecretTable) (name : Bytes) : t.activeCount name ≤ 1 := by
  unfold SecretTable.activeCount
  have hp : (t.rows.filter (SecretTable.isActiveOf name)).Pairwise fun _ _ => False := by
    refine (List.pairwise_filter.mpr (t.compatible.imp fun {r s} hrs hr hs => ?_))
    simp only [SecretTable.isActiveOf, Bool.and_eq_true, decide_eq_true_eq,
      Bool.not_eq_true'] at hr hs
    exact hrs.2.2 ⟨hr.1.trans hs.1.symm, hr.2, hs.2⟩
  match hl : t.rows.filter (SecretTable.isActiveOf name) with
  | [] => exact Nat.zero_le 1
  | [_] => exact le_rfl
  | r :: s :: l =>
    rw [hl] at hp
    exact absurd (List.rel_of_pairwise_cons hp (List.mem_cons_self)) id

/-- If the archiving `UPDATE` changes a row, there is an active one. -/
theorem exists_active (h : t.activeCount name = 1) :
    ∃ r ∈ t.rows, r.name = name ∧ r.isArchived = false := by
  have hpos : 0 < (t.rows.filter (SecretTable.isActiveOf name)).length := by
    unfold SecretTable.activeCount at h
    omega
  obtain ⟨r, hr⟩ := List.exists_mem_of_length_pos hpos
  obtain ⟨hr, ha⟩ := List.mem_filter.mp hr
  simp only [SecretTable.isActiveOf, Bool.and_eq_true, decide_eq_true_eq, Bool.not_eq_true'] at ha
  exact ⟨r, hr, ha⟩

/-! ### The invariant -/

/-- **What holds of the rows of a name**: versions and counters are `1, …, n`, an active row is the
last one, and a row expires if and only if it has an interval. -/
structure History (t : SecretTable) (name : Bytes) : Prop where
  versions : Counted SecretRow.version (t.rowsOf name)
  counter : ∀ r ∈ t.rowsOf name, r.nonceCounter = r.version
  active : ∀ r ∈ t.rowsOf name, r.isArchived = false → r.version = (t.rowsOf name).length
  expires : ∀ r ∈ t.rowsOf name, r.expiresAt.isSome ↔ r.rotationInterval.isSome
  length_le : ((t.rowsOf name).length : ℤ) ≤ intMax

theorem history_empty (name : Bytes) : History .empty name where
  versions := counted_nil
  counter _ h := nomatch h
  active _ h := nomatch h
  expires _ h := nomatch h
  length_le := by simp [SecretTable.rowsOf, SecretTable.empty, intMax]

/-- Replacing rows along `Kept` keeps the history, unless it makes one active. -/
theorem History.of_kept (h : History t name) (hrows : List.Forall₂ Kept t.rows u.rows)
    (hact : ∀ r s, r ∈ t.rows → s ∈ u.rows → s.id = r.id → s.isArchived = false →
      r.isArchived = false) : History u name := by
  have hsub := rowsOf_forall₂ hrows name
  have hlen := hsub.length_eq
  have hback : ∀ s ∈ u.rowsOf name, ∃ r ∈ t.rowsOf name, Kept r s :=
    fun s hs => forall₂_mem_right hsub hs
  refine ⟨h.versions.of_forall₂ hsub fun r s hrs => hrs.version_eq, fun s hs => ?_, fun s hs ha => ?_,
    fun s hs => ?_, hlen ▸ h.length_le⟩
  · obtain ⟨r, hr, _, _, _, _, _, rfl⟩ := hback s hs
    exact h.counter r hr
  · obtain ⟨r, hr, hrs⟩ := hback s hs
    rw [hrs.version_eq, ← hlen]
    exact h.active r hr (hact r s (SecretTable.mem_rowsOf.mp hr).1 (SecretTable.mem_rowsOf.mp hs).1
      hrs.id_eq ha)
  · obtain ⟨r, hr, _, _, _, _, _, rfl⟩ := hback s hs
    exact h.expires r hr

/-- Rows with one id are one row. -/
theorem eq_of_id {s : SecretRow} (hr : r ∈ t.rows) (hs : s ∈ t.rows) (h : r.id = s.id) : r = s := by
  by_contra hne
  exact (t.compatible.forall hr hs hne).1 h

/-- **Archiving** keeps the history of every name. -/
theorem History.archive (h : History t name) (n now : Bytes) : History (t.archive n now) name := by
  refine h.of_kept ((frozen_archive t n now).imp fun _ _ => Frozen.kept) fun r s hr hs hid ha => ?_
  rw [SecretTable.archive_rows] at hs
  obtain ⟨q, hq, rfl⟩ := List.mem_map.mp hs
  have hk := SecretTable.archiveRow_keepsKeys n now
  obtain rfl := eq_of_id hr hq (hid.symm.trans (hk.id q))
  exact hk.archived r ha

/-- **A row with the next number** keeps the history of every name. -/
theorem History.insert (h : History t name) (hu : t.insert r = some u)
    (hv : r.version = (t.rowsOf r.name).length + 1) (hc : r.nonceCounter = r.version)
    (he : r.expiresAt.isSome ↔ r.rotationInterval.isSome) (ha : r.isArchived = false)
    (hmax : r.version ≤ intMax) : History u name := by
  have hrows := @rowsOf_insert _ _ name _ hu
  split_ifs at hrows with hn
  · subst hn
    have hmem : ∀ s, s ∈ u.rowsOf r.name → s ∈ t.rowsOf r.name ∨ s = r := fun s hs => by
      rw [hrows] at hs
      simpa using hs
    have hlen : ((u.rowsOf r.name).length : ℤ) = r.version := by
      rw [hrows, List.length_append, List.length_singleton, hv]
      push_cast
      rfl
    refine ⟨?_, fun s hs => ?_, fun s hs hact => ?_, fun s hs => ?_, hlen ▸ hmax⟩
    · rw [hrows]
      exact h.versions.concat hv
    · rcases hmem s hs with hs | rfl
      · exact h.counter s hs
      · exact hc
    · rcases hmem s hs with hs | rfl
      · obtain ⟨hst, hsn⟩ := SecretTable.mem_rowsOf.mp hs
        exact absurd ⟨hsn, hact, ha⟩ ((SecretTable.insert_eq_some.mp hu).2.1 s hst).2.2
      · exact hlen.symm
    · rcases hmem s hs with hs | rfl
      · exact h.expires s hs
      · exact he
  · exact ⟨by rw [hrows]; exact h.versions, by rw [hrows]; exact h.counter,
      by rw [hrows]; exact h.active, by rw [hrows]; exact h.expires, by rw [hrows]; exact h.length_le⟩

/-! ### Queries -/

/-- The row with a number of the history. -/
theorem History.version_iff (h : History t name) {v : ℤ} :
    (∃ r ∈ t.rows, r.name = name ∧ r.version = v) ↔ 1 ≤ v ∧ v ≤ (t.rowsOf name).length := by
  constructor
  · rintro ⟨r, hr, hn, rfl⟩
    exact h.versions.mem (SecretTable.mem_rowsOf.mpr ⟨hr, hn⟩)
  · rintro ⟨h1, h2⟩
    obtain ⟨r, hr, hv⟩ := h.versions.exists_mem h1 h2
    obtain ⟨hr, hn⟩ := SecretTable.mem_rowsOf.mp hr
    exact ⟨r, hr, hn, hv⟩

/-- An active row is current. -/
theorem History.current (h : History t r.name) (hr : r ∈ t.rows) (ha : r.isArchived = false) :
    t.Current r := by
  refine ⟨ha, fun s hs hn => ?_⟩
  rw [h.active r (SecretTable.mem_rowsOf.mpr ⟨hr, rfl⟩) ha]
  exact (h.versions.mem (SecretTable.mem_rowsOf.mpr ⟨hs, hn⟩)).2

/-- The current row of a name is its active one. -/
theorem History.activeRow_eq (h : History t r.name) (hr : r ∈ t.rows) (ha : r.isArchived = false) :
    t.activeRow r.name = some r := by
  cases hf : t.activeRow r.name with
  | none => exact absurd (h.current hr ha) (SecretTable.activeRow_eq_none.mp hf r hr rfl)
  | some s =>
    obtain ⟨hs, hn, hcur⟩ := SecretTable.activeRow_eq_some hf
    rw [SecretTable.active_unique hs hr hn hcur.1 ha]

end Fuin.Store.Versions

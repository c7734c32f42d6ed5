import Fuin.Utils
import Fuin.Crypto
import Mathlib.Data.List.Pairwise
import Mathlib.Data.List.Sort

/-! # The table `secrets`

One row per version of a secret, in the order of insertion. The table carries the constraints of
`schema.sql`: `id` is the primary key, `(name, version)` is unique, and at most one row of a name is
not archived. The statements of the program are the functions on the table: an `INSERT` that is
refused when it breaks a constraint, the two `UPDATE`s, and the `SELECT`s. Every active-row query of
the program uses the same condition, `SecretTable.Current` (`VAULT_SQL_ACTIVE_ROW`). -/

namespace Fuin.Store.Secrets

open Fuin.Utils Fuin.Crypto

/-- A row of `secrets`; `tags`, which is always `NULL`, is left out. -/
structure SecretRow where
  id : Bytes
  name : Bytes
  nameNonce : Bytes
  encryptedName : Bytes
  version : ℤ
  algorithm : Bytes
  ciphertext : Bytes
  encryptedDek : Bytes
  nonce : Bytes
  dekNonce : Bytes
  keyCommitment : Bytes
  nonceCounter : ℤ
  createdAt : Bytes
  updatedAt : Bytes
  expiresAt : Option Bytes
  rotationInterval : Option ℤ
  isArchived : Bool
  deriving DecidableEq

/-- The algorithms the table lists. -/
def algorithmNames : List Bytes :=
  [ascii "AES-256-GCM", ascii "XChaCha20-Poly1305", ascii "AEGIS-256"]

/-- What the schema demands of a row on its own. -/
def SecretRow.Admitted (r : SecretRow) : Prop :=
  r.algorithm ∈ algorithmNames ∧ ∀ i ∈ r.rotationInterval, 0 < i

instance (r : SecretRow) : Decidable r.Admitted := inferInstanceAs (Decidable (_ ∧ _))

/-- What the schema demands of two rows. -/
def Compatible (r s : SecretRow) : Prop :=
  r.id ≠ s.id ∧ ¬ (r.name = s.name ∧ r.version = s.version) ∧
    ¬ (r.name = s.name ∧ r.isArchived = false ∧ s.isArchived = false)

instance (r s : SecretRow) : Decidable (Compatible r s) := inferInstanceAs (Decidable (_ ∧ _))

instance : Std.Symm Compatible where
  symm _ _ h := ⟨h.1.symm, fun h' => h.2.1 ⟨h'.1.symm, h'.2.symm⟩,
    fun h' => h.2.2 ⟨h'.1.symm, h'.2.2, h'.2.1⟩⟩

/-- The table, in the order of insertion. -/
structure SecretTable where
  rows : List SecretRow
  compatible : rows.Pairwise Compatible
  admitted : ∀ r ∈ rows, r.Admitted

@[ext] theorem SecretTable.ext {t u : SecretTable} (h : t.rows = u.rows) : t = u := by
  cases t; cases u; cases h; rfl

namespace SecretTable

/-- The table of a new database. -/
def empty : SecretTable := ⟨[], List.Pairwise.nil, fun _ h => absurd h List.not_mem_nil⟩

/-! ### Statements that write -/

/-- `INSERT INTO secrets`: refused if the row breaks a constraint. -/
def insert (t : SecretTable) (r : SecretRow) : Option SecretTable :=
  if h : r.Admitted ∧ ∀ s ∈ t.rows, Compatible s r then
    some
      { rows := t.rows ++ [r]
        compatible := List.pairwise_append.mpr
          ⟨t.compatible, List.pairwise_singleton _ _, fun s hs u hu => by
            rw [List.mem_singleton.mp hu]; exact h.2 s hs⟩
        admitted := fun s hs => by
          rcases List.mem_append.mp hs with hs | hs
          · exact t.admitted s hs
          · rw [List.mem_singleton.mp hs]; exact h.1 }
  else none

theorem insert_eq_some {t u : SecretTable} {r : SecretRow} :
    t.insert r = some u ↔
      r.Admitted ∧ (∀ s ∈ t.rows, Compatible s r) ∧ u.rows = t.rows ++ [r] := by
  unfold insert
  split_ifs with h
  · rw [Option.some.injEq]
    exact ⟨fun e => ⟨h.1, h.2, by rw [← e]⟩, fun e => SecretTable.ext e.2.2.symm⟩
  · simp only [false_iff]
    exact fun e => h ⟨e.1, e.2.1⟩

/-- A change of a row that an `UPDATE` of the program makes: the keys stay, and no archived row
becomes active. -/
structure KeepsKeys (f : SecretRow → SecretRow) : Prop where
  id : ∀ r, (f r).id = r.id
  name : ∀ r, (f r).name = r.name
  version : ∀ r, (f r).version = r.version
  archived : ∀ r, (f r).isArchived = false → r.isArchived = false
  admitted : ∀ r, r.Admitted → (f r).Admitted

/-- The table with every row changed. -/
def modify (t : SecretTable) (f : SecretRow → SecretRow) (hf : KeepsKeys f) : SecretTable where
  rows := t.rows.map f
  compatible := by
    refine List.pairwise_map.mpr (t.compatible.imp fun {r s} h => ?_)
    obtain ⟨h1, h2, h3⟩ := h
    unfold Compatible
    rw [hf.id, hf.id, hf.name, hf.name, hf.version, hf.version]
    exact ⟨h1, h2, fun ⟨hn, hr, hs⟩ => h3 ⟨hn, hf.archived r hr, hf.archived s hs⟩⟩
  admitted := fun r hr => by
    obtain ⟨s, hs, rfl⟩ := List.mem_map.mp hr
    exact hf.admitted s (t.admitted s hs)

/-- Whether the archiving `UPDATE` of a name matches a row. -/
def isActiveOf (name : Bytes) (r : SecretRow) : Bool := r.name = name && !r.isArchived

/-- What the archiving `UPDATE` does to a row. -/
def archiveRow (name now : Bytes) (r : SecretRow) : SecretRow :=
  if isActiveOf name r then { r with isArchived := true, updatedAt := now } else r

theorem archiveRow_keepsKeys (name now : Bytes) : KeepsKeys (archiveRow name now) where
  id r := by unfold archiveRow; split_ifs <;> rfl
  name r := by unfold archiveRow; split_ifs <;> rfl
  version r := by unfold archiveRow; split_ifs <;> rfl
  archived r h := by
    unfold archiveRow at h
    split_ifs at h
    exact h
  admitted r h := by unfold archiveRow; split_ifs <;> exact h

/-- `UPDATE secrets SET is_archived = 1, updated_at = ? WHERE name = ? AND is_archived = 0`. -/
def archive (t : SecretTable) (name now : Bytes) : SecretTable :=
  t.modify (archiveRow name now) (archiveRow_keepsKeys name now)

/-- The number of rows it changes. -/
def activeCount (t : SecretTable) (name : Bytes) : ℕ := (t.rows.filter (isActiveOf name)).length

/-- What the rewrapping `UPDATE` does to a row. -/
def rewrapRow (id dek dekNonce commitment : Bytes) (r : SecretRow) : SecretRow :=
  if r.id = id then
    { r with encryptedDek := dek, dekNonce := dekNonce, keyCommitment := commitment }
  else r

theorem rewrapRow_keepsKeys (id dek dekNonce commitment : Bytes) :
    KeepsKeys (rewrapRow id dek dekNonce commitment) where
  id r := by unfold rewrapRow; split_ifs <;> rfl
  name r := by unfold rewrapRow; split_ifs <;> rfl
  version r := by unfold rewrapRow; split_ifs <;> rfl
  archived r h := by unfold rewrapRow at h; split_ifs at h <;> exact h
  admitted r h := by unfold rewrapRow; split_ifs <;> exact h

/-- `UPDATE secrets SET encrypted_dek = ?, dek_nonce = ?, key_commitment = ? WHERE id = ?`. -/
def rewrap (t : SecretTable) (id dek dekNonce commitment : Bytes) : SecretTable :=
  t.modify (rewrapRow id dek dekNonce commitment) (rewrapRow_keepsKeys id dek dekNonce commitment)

/-- The number of rows it changes. -/
def idCount (t : SecretTable) (id : Bytes) : ℕ := (t.rows.filter fun r => r.id = id).length

@[simp] theorem archive_rows (t : SecretTable) (name now : Bytes) :
    (t.archive name now).rows = t.rows.map (archiveRow name now) := rfl

@[simp] theorem rewrap_rows (t : SecretTable) (id dek dekNonce commitment : Bytes) :
    (t.rewrap id dek dekNonce commitment).rows =
      t.rows.map (rewrapRow id dek dekNonce commitment) := rfl

/-! ### Queries -/

/-- The rows of a name, in the order of insertion. -/
def rowsOf (t : SecretTable) (name : Bytes) : List SecretRow :=
  t.rows.filter fun r => r.name = name

/-- `VAULT_SQL_ACTIVE_ROW`: not archived, and no row of the name has a higher version. -/
def Current (t : SecretTable) (r : SecretRow) : Prop :=
  r.isArchived = false ∧ ∀ s ∈ t.rows, s.name = r.name → s.version ≤ r.version

instance (t : SecretTable) (r : SecretRow) : Decidable (t.Current r) :=
  inferInstanceAs (Decidable (_ ∧ _))

/-- The current row of a name. -/
def activeRow (t : SecretTable) (name : Bytes) : Option SecretRow :=
  t.rows.find? fun r => r.name = name && t.Current r

/-- The row of a version. -/
def versionRow (t : SecretTable) (name : Bytes) (version : ℤ) : Option SecretRow :=
  t.rows.find? fun r => r.name = name && r.version = version

/-- `MAX` over the rows of a name; 0 stands for `NULL`. -/
def maxOf (t : SecretTable) (name : Bytes) (f : SecretRow → ℤ) : ℤ :=
  (((t.rowsOf name).map f).max?).getD 0

/-- The order of the expiry scan: by time, then by name. -/
def expiryLe (r s : SecretRow) : Bool :=
  decide (r.expiresAt.getD [] < s.expiresAt.getD []) ||
    (r.expiresAt = s.expiresAt && decide (r.name ≤ s.name))

/-- The first current row with `expires_at <= now`. -/
def nextExpired (t : SecretTable) (now : Bytes) : Option SecretRow :=
  ((t.rows.filter fun r => t.Current r && r.expiresAt.any fun e => decide (e ≤ now)).mergeSort
    expiryLe).head?

/-- The order of the listing: by name, then by version. -/
def listLe (r s : SecretRow) : Bool :=
  decide (r.name < s.name) || (r.name = s.name && decide (r.version ≤ s.version))

/-- The rows of the listing. -/
def listed (t : SecretTable) (includeArchived : Bool) : List SecretRow :=
  (t.rows.filter fun r => includeArchived || t.Current r).mergeSort listLe

theorem mem_rowsOf {t : SecretTable} {name : Bytes} {r : SecretRow} :
    r ∈ t.rowsOf name ↔ r ∈ t.rows ∧ r.name = name := by
  simp [rowsOf]

theorem activeRow_eq_some {t : SecretTable} {name : Bytes} {r : SecretRow}
    (h : t.activeRow name = some r) : r ∈ t.rows ∧ r.name = name ∧ t.Current r := by
  have h1 := List.find?_some h
  simp only [Bool.and_eq_true, decide_eq_true_eq] at h1
  exact ⟨List.mem_of_find?_eq_some h, h1⟩

theorem activeRow_eq_none {t : SecretTable} {name : Bytes} :
    t.activeRow name = none ↔ ∀ r ∈ t.rows, r.name = name → ¬ t.Current r := by
  simp [activeRow, List.find?_eq_none]

theorem versionRow_eq_some {t : SecretTable} {name : Bytes} {v : ℤ} {r : SecretRow}
    (h : t.versionRow name v = some r) : r ∈ t.rows ∧ r.name = name ∧ r.version = v := by
  have h1 := List.find?_some h
  simp only [Bool.and_eq_true, decide_eq_true_eq] at h1
  exact ⟨List.mem_of_find?_eq_some h, h1⟩

/-- The row of a version is the only one. -/
theorem versionRow_of_mem {t : SecretTable} {r : SecretRow} (h : r ∈ t.rows) :
    t.versionRow r.name r.version = some r := by
  unfold versionRow
  cases hf : t.rows.find? fun s => s.name = r.name && s.version = r.version with
  | none =>
    have := List.find?_eq_none.mp hf r h
    simp at this
  | some s =>
    have hs := List.find?_some hf
    simp only [Bool.and_eq_true, decide_eq_true_eq] at hs
    have hmem := List.mem_of_find?_eq_some hf
    by_contra hne
    exact (t.compatible.forall hmem h fun e => hne (by rw [e])).2.1 hs

/-- There is at most one active row of a name. -/
theorem active_unique {t : SecretTable} {r s : SecretRow} (hr : r ∈ t.rows) (hs : s ∈ t.rows)
    (hn : r.name = s.name) (hr' : r.isArchived = false) (hs' : s.isArchived = false) : r = s := by
  by_contra hne
  exact (t.compatible.forall hr hs hne).2.2 ⟨hn, hr', hs'⟩

end SecretTable

end Fuin.Store.Secrets

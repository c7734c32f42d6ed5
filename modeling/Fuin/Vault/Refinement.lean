import Fuin.Lib.Ledgers
import Fuin.Vault.Rounds

/-! # The vault is a ledger

What a vault is for is a versioned map: under every name it keeps the values that were stored, and
whether the last one is in force. A table represents such a ledger if the rows of every name are its
values, one by one, under the keys of the session (`Represents`). The rows that an operation commits
do to the ledger what its name says (`Represents.append`, `Represents.withdraw`), and another key
leaves it as it is (`Represents.rewrapped`). -/

namespace Fuin.Vault.Refinement

open Fuin.Utils Fuin.Crypto Fuin.Lib.Program Fuin.Lib.Growth Fuin.Lib.Ledgers Fuin.Store.Secrets
open Fuin.Store.Versions Fuin.Store.Database Fuin.CryptoEngine Fuin.Kdf Fuin.Vault.Rows
open Fuin.Vault.Transactions Fuin.Vault.Operations Fuin.Vault.Observed Fuin.Vault.Committed
open Fuin.Vault.Versioned Fuin.Vault.Stored

/-- Different names are looked up under different hashes. -/
def DistinctLookups (so : Sodium) (keys : Subkeys) (N : Set CString) : Prop :=
  ∀ m ∈ N, ∀ n ∈ N,
    so.generichash keys.kekMeta m.bytes = so.generichash keys.kekMeta n.bytes → m = n

/-- **The table represents the ledger**: all rows belong to names of `N`, those of a name hold its values
one by one, and one of them is active exactly if the name is in force. -/
structure Represents (so : Sodium) (keys : Subkeys) (N : Set CString) (b : Ledger CString Bytes)
    (t : SecretTable) : Prop where
  values : ∀ n ∈ N, List.Forall₂ (fun r x => StoredUnder so keys n x r)
    (t.rowsOf (lookupOf so keys n).bytes) (b n).values
  live : ∀ n ∈ N,
    (b n).live = true ↔ ∃ r ∈ t.rowsOf (lookupOf so keys n).bytes, r.isArchived = false
  named : ∀ r ∈ t.rows, ∃ n ∈ N, r.name = (lookupOf so keys n).bytes
  absent : ∀ n ∉ N, b n = .none

variable {so : Sodium} {keys : Subkeys} {N : Set CString} {b : Ledger CString Bytes}
  {t u : SecretTable} {n : CString} {x : Bytes} {db db' : Db}

theorem DistinctLookups.eq {m : CString} (hN : DistinctLookups so keys N) (hm : m ∈ N) (hn : n ∈ N)
    (h : (lookupOf so keys m).bytes = (lookupOf so keys n).bytes) : m = n :=
  hN m hm n hn (Subtype.ext (bin2hex_inj (CString.ext h)))

theorem DistinctLookups.of_meta {current : Subkeys} (hN : DistinctLookups so keys N)
    (h : current.kekMeta = keys.kekMeta) : DistinctLookups so current N := by
  unfold DistinctLookups
  rw [h]
  exact hN

theorem represents_empty : Represents so keys N .empty .empty where
  values _ _ := .nil
  live _ _ := iff_of_false (nomatch ·) fun ⟨_, h, _⟩ => nomatch h
  named _ h := nomatch h
  absent _ _ := rfl

/-! ### What operations do to the ledger -/

theorem rowsOf_frozen (h : List.Forall₂ Frozen t.rows u.rows) (name : Bytes) :
    List.Forall₂ Frozen (t.rowsOf name) (u.rowsOf name) :=
  forall₂_filter (fun r s hrs => by simp only [hrs.kept.name_eq]) h

/-- Archiving leaves the values. -/
theorem Represents.frozen_values (h : Represents so keys N b t)
    (hrows : List.Forall₂ Frozen t.rows u.rows) (hn : n ∈ N) :
    List.Forall₂ (fun r x => StoredUnder so keys n x r) (u.rowsOf (lookupOf so keys n).bytes)
      (b n).values :=
  forall₂_trans (fun _ _ _ hrs hx => hx.frozen hrs) (rowsOf_frozen hrows _).flip (h.values n hn)

theorem Represents.frozen_named (h : Represents so keys N b t)
    (hrows : List.Forall₂ Frozen t.rows u.rows) :
    ∀ r ∈ u.rows, ∃ n ∈ N, r.name = (lookupOf so keys n).bytes := by
  intro s hs
  obtain ⟨r, hr, hrs⟩ := forall₂_mem_right hrows hs
  rw [hrs.kept.name_eq]
  exact h.named r hr

theorem rowsOf_archivedIf_of_ne {archives : Bool} {name m now : Bytes} (h : m ≠ name) :
    (archivedIf archives t name now).rowsOf m = t.rowsOf m := by
  cases archives with
  | false => rfl
  | true => exact rowsOf_archive_of_ne h

/-- **A new version** is one more value, in force. -/
theorem Represents.append {auditKey : Block 32} {action : CString} {archives : Bool}
    {new : NewSecret} (h : Represents so keys N b db.secrets) (hN : DistinctLookups so keys N)
    (hn : n ∈ N) (hv : NewVersion so auditKey action archives new db db')
    (hs : StoredUnder so keys n x new.row) : Represents so keys N (b.append n x) db'.secrets := by
  have hfrozen := frozen_archivedIf archives db.secrets new.name.bytes new.now.bytes
  have hname : new.name.bytes = (lookupOf so keys n).bytes := hs.name_eq
  have hself : db'.secrets.rowsOf (lookupOf so keys n).bytes =
      (archivedIf archives db.secrets new.name.bytes new.now.bytes).rowsOf
        (lookupOf so keys n).bytes ++ [new.row] := by
    rw [rowsOf_insert hv.insert, if_pos hs.name_eq]
  -- the rows of another name have not changed at all
  have hother : ∀ m ∈ N, m ≠ n → db'.secrets.rowsOf (lookupOf so keys m).bytes =
      db.secrets.rowsOf (lookupOf so keys m).bytes := by
    intro m hm hne
    have hlookup : (lookupOf so keys m).bytes ≠ new.name.bytes := fun e =>
      hne (hN.eq hm hn (e.trans hname))
    rw [rowsOf_insert hv.insert, if_neg fun e => hlookup e.symm, rowsOf_archivedIf_of_ne hlookup]
  refine ⟨fun m hm => ?_, fun m hm => ?_, fun r hr => ?_, fun m hm => ?_⟩
  · by_cases hne : m = n
    · rw [hne, hself, Ledger.append_self, Entry.append_values]
      exact List.rel_append (h.frozen_values hfrozen hn) (.cons hs .nil)
    · rw [hother m hm hne, Ledger.append_of_ne hne]
      exact h.values m hm
  · by_cases hne : m = n
    · rw [hne, hself, Ledger.append_self]
      exact iff_of_true rfl ⟨new.row, by simp, rfl⟩
    · rw [hother m hm hne, Ledger.append_of_ne hne]
      exact h.live m hm
  · rw [(SecretTable.insert_eq_some.mp hv.insert).2.2] at hr
    rcases List.mem_append.mp hr with hr | hr
    · exact h.frozen_named hfrozen r hr
    · rw [List.mem_singleton.mp hr]
      exact ⟨n, hn, hs.name_eq⟩
  · have hne : m ≠ n := fun e => hm (e ▸ hn)
    rw [Ledger.append_of_ne hne]
    exact h.absent m hm

/-- **Archiving the active row** withdraws the name. -/
theorem Represents.withdraw (h : Represents so keys N b t) (hN : DistinctLookups so keys N)
    (hn : n ∈ N) (now : Bytes) :
    Represents so keys N (b.withdraw n) (t.archive (lookupOf so keys n).bytes now) := by
  have hfrozen := frozen_archive t (lookupOf so keys n).bytes now
  refine ⟨fun m hm => ?_, fun m hm => ?_, h.frozen_named hfrozen, fun m hm => ?_⟩
  · by_cases hne : m = n
    · rw [hne, Ledger.withdraw_self]
      exact h.frozen_values hfrozen hn
    · rw [Ledger.withdraw_of_ne hne]
      exact h.frozen_values hfrozen hm
  · by_cases hne : m = n
    · rw [hne, Ledger.withdraw_self, Entry.withdraw_live]
      refine iff_of_false Bool.false_ne_true ?_
      rintro ⟨s, hs, hactive⟩
      rw [rowsOf_archive] at hs
      obtain ⟨r, hr, rfl⟩ := List.mem_map.mp hs
      obtain ⟨-, hname⟩ := SecretTable.mem_rowsOf.mp hr
      unfold SecretTable.archiveRow SecretTable.isActiveOf at hactive
      split_ifs at hactive with hmatch
      simp [hname, hactive] at hmatch
    · have hlookup : (lookupOf so keys m).bytes ≠ (lookupOf so keys n).bytes := fun e =>
        hne (hN.eq hm hn e)
      rw [rowsOf_archive_of_ne hlookup, Ledger.withdraw_of_ne hne]
      exact h.live m hm
  · have hne : m ≠ n := fun e => hm (e ▸ hn)
    rw [Ledger.withdraw_of_ne hne]
    exact h.absent m hm

/-- **Rewrapping** leaves the ledger, under the new keys. -/
theorem Represents.rewrapped {newKeys : Subkeys} (h : Represents so keys N b t) (ht : Orderly t)
    (hrows : List.Forall₂ (KeyManager.Rewrapped so keys.kekEnc newKeys.kekEnc) t.rows u.rows) :
    Represents so { newKeys with kekMeta := keys.kekMeta } N b u := by
  have hof (name : Bytes) : List.Forall₂
      (fun r s => r ∈ t.rows ∧ KeyManager.Rewrapped so keys.kekEnc newKeys.kekEnc r s)
      (t.rowsOf name) (u.rowsOf name) := by
    refine forall₂_filter (fun r s hrs => ?_) ((forall₂_with_mem hrows).imp fun r s hrs => ⟨hrs.1, hrs.2.2⟩)
    simp only [(rewrapped_kept hrs.2).name_eq]
  have harchived {r s : SecretRow} (hrs : KeyManager.Rewrapped so keys.kekEnc newKeys.kekEnc r s) :
      s.isArchived = r.isArchived := by
    obtain ⟨_, _, _, _, _, _, -, -, -, -, -, -, rfl⟩ := hrs
    rfl
  refine ⟨fun n hn => ?_, fun n hn => (h.live n hn).trans ?_, fun s hs => ?_, h.absent⟩
  · refine forall₂_trans (fun s r x hrs hx => ?_) (hof _).flip (h.values n hn)
    exact hx.rewrapped hrs.2 (ht.columnInt_version hrs.1)
  · constructor
    · rintro ⟨r, hr, hactive⟩
      obtain ⟨s, hs, hrs⟩ := forall₂_mem_right (hof (lookupOf so keys n).bytes).flip hr
      exact ⟨s, hs, (harchived hrs.2).trans hactive⟩
    · rintro ⟨s, hs, hactive⟩
      obtain ⟨r, hr, hrs⟩ := forall₂_mem_right (hof (lookupOf so keys n).bytes) hs
      exact ⟨r, hr, (harchived hrs.2).symm.trans hactive⟩
  · obtain ⟨r, hr, hrs⟩ := forall₂_mem_right hrows hs
    rw [(rewrapped_kept hrs).name_eq]
    exact h.named r hr

/-! ### What is read of a table -/

/-- A row of a name holds the value with its number. -/
theorem Represents.version_of_mem {r : SecretRow} (h : Represents so keys N b t) (ht : Orderly t)
    (hn : n ∈ N) (hr : r ∈ t.rowsOf (lookupOf so keys n).bytes) :
    ∃ x, (b n).version r.version.toNat = some x ∧ StoredUnder so keys n x r := by
  obtain ⟨i, hi, rfl⟩ := List.getElem_of_mem hr
  have hvalues := h.values n hn
  have hi' : i < (b n).values.length := hvalues.length_eq ▸ hi
  have hnumber : (t.rowsOf (lookupOf so keys n).bytes)[i].version.toNat = i + 1 := by
    rw [(ht.history _).versions i hi]
    rfl
  refine ⟨(b n).values[i], ?_, hvalues.get hi hi'⟩
  rw [hnumber]
  exact List.getElem?_eq_getElem hi'

/-- The row of a version. -/
theorem Represents.version {r : SecretRow} {v : ℤ} (h : Represents so keys N b t) (ht : Orderly t)
    (hn : n ∈ N) (hr : t.versionRow (lookupOf so keys n).bytes v = some r) :
    ∃ x, (b n).version v.toNat = some x ∧ StoredUnder so keys n x r := by
  obtain ⟨hmem, hname, rfl⟩ := SecretTable.versionRow_eq_some hr
  exact h.version_of_mem ht hn (SecretTable.mem_rowsOf.mpr ⟨hmem, hname⟩)

/-- A version without a row is none. -/
theorem Represents.version_none {v : ℤ} (h : Represents so keys N b t) (ht : Orderly t) (hn : n ∈ N)
    (hr : t.versionRow (lookupOf so keys n).bytes v = none) : (b n).version v.toNat = none := by
  cases hv : v.toNat with
  | zero => rfl
  | succ k =>
    refine List.getElem?_eq_none (not_lt.mp fun hk => ?_)
    rw [← (h.values n hn).length_eq] at hk
    obtain ⟨r, hmem, hname, rfl⟩ := (ht.history (lookupOf so keys n).bytes).version_iff.mpr
      (show 1 ≤ v ∧ v ≤ (t.rowsOf (lookupOf so keys n).bytes).length by omega)
    rw [← hname, SecretTable.versionRow_of_mem hmem] at hr
    cases hr

/-- The active row of a name holds the value in force. -/
theorem Represents.current {r : SecretRow} (h : Represents so keys N b t) (ht : Orderly t)
    (hn : n ∈ N) (hr : t.activeRow (lookupOf so keys n).bytes = some r) :
    ∃ x, (b n).current = some x ∧ StoredUnder so keys n x r := by
  obtain ⟨hmem, hname, hcurrent⟩ := SecretTable.activeRow_eq_some hr
  have hrow := SecretTable.mem_rowsOf.mpr ⟨hmem, hname⟩
  obtain ⟨x, hx, hstored⟩ := h.version_of_mem ht hn hrow
  have hlast : r.version.toNat = (b n).values.length := by
    rw [(ht.history _).active r hrow hcurrent.1, (h.values n hn).length_eq]
    rfl
  rw [hlast] at hx
  exact ⟨x, Entry.current_eq_some.mpr ⟨(h.live n hn).mpr ⟨r, hrow, hcurrent.1⟩, hx⟩, hstored⟩

/-- A name without an active row is not in force. -/
theorem Represents.current_none (h : Represents so keys N b t) (ht : Orderly t) (hn : n ∈ N)
    (hr : t.activeRow (lookupOf so keys n).bytes = none) : (b n).current = none := by
  rw [Entry.current_eq_none, ← Bool.not_eq_true, h.live n hn]
  rintro ⟨r, hrow, hactive⟩
  obtain ⟨hmem, hname⟩ := SecretTable.mem_rowsOf.mp hrow
  rw [← hname, (ht.history r.name).activeRow_eq hmem hactive] at hr
  cases hr

end Fuin.Vault.Refinement

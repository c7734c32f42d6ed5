import Fuin.Vault.Turns

/-! # What a listing shows of the ledger

Over a table that represents a ledger the listing shows, of every name, the version in force, or every
version if all are asked for, each once, and says of each whether it is in force (`Listed`,
`listed_ledger`). -/

namespace Fuin.Vault.Listings

open Fuin.Utils Fuin.Crypto Fuin.Lib.Growth Fuin.Lib.Ledgers Fuin.Store.Secrets Fuin.Store.Versions
open Fuin.Store.Selections Fuin.Store.Database Fuin.Kdf Fuin.Vault.Rows Fuin.Vault.Operations
open Fuin.Vault.Versioned Fuin.Vault.Views Fuin.Vault.Refinement Fuin.Vault.Turns

/-- What an item tells of a row. -/
def mark (item : ListItem) : CString × ℤ := (item.name, item.version)

/-- **A listing of a ledger.** -/
structure Listed (b : Ledger CString Bytes) (all : Bool) (l : List ListItem) : Prop where
  nodup : (l.map mark).Nodup
  complete : ∀ n v, (n, v) ∈ l.map mark ↔ 1 ≤ v ∧ v ≤ (b n).values.length ∧
    (all = true ∨ (b n).live = true ∧ v = (b n).values.length)
  active : ∀ i ∈ l, i.isArchived = false ↔
    (b i.name).live = true ∧ i.version = (b i.name).values.length

variable {so : Sodium} {keys : Subkeys} {N : Set CString} {b : Ledger CString Bytes} {n : CString}
  {db : Db} {r : SecretRow} {item : ListItem} {now : CString}

theorem listItem_columns (h : listItem so keys now r = .ok item) :
    item.version = columnInt r.version ∧ item.isArchived = r.isArchived := by
  simp only [listItem, bind_eq_ok, pure_eq_ok] at h
  obtain ⟨_, -, name, -, _, -, _, -, rfl⟩ := h
  exact ⟨rfl, rfl⟩

/-- The item of a row. -/
structure Tells (so : Sodium) (keys : Subkeys) (N : Set CString) (r : SecretRow) (item : ListItem) :
    Prop where
  mem : item.name ∈ N
  name : r.name = (lookupOf so keys item.name).bytes
  version : item.version = r.version
  archived : item.isArchived = r.isArchived

section Represents

variable (horder : Orderly db.secrets) (hrep : Represents so keys N b db.secrets)
  (hN : DistinctLookups so keys N)

include horder hrep

theorem listItem_tells (hr : r ∈ db.secrets.rows) :
    ∃ item, listItem so keys now r = .ok item ∧ Tells so keys N r item := by
  obtain ⟨item, hitem, hn, hname⟩ := (listItem_named horder hrep hr :
    ∃ item, listItem so keys now r = .ok item ∧ _)
  obtain ⟨hversion, harchived⟩ := listItem_columns hitem
  exact ⟨item, hitem, hn, hname, hversion.trans (horder.columnInt_version hr), harchived⟩

/-- The rows of a name are its versions, and the active one is the last. -/
theorem row_version (hn : n ∈ N) (hr : r ∈ db.secrets.rowsOf (lookupOf so keys n).bytes) :
    1 ≤ r.version ∧ r.version ≤ (b n).values.length ∧
      (r.isArchived = false ↔ (b n).live = true ∧ r.version = (b n).values.length) := by
  have hhistory := horder.history (lookupOf so keys n).bytes
  have hlength := (hrep.values n hn).length_eq
  obtain ⟨hpos, hle⟩ := hhistory.versions.mem hr
  refine ⟨hpos, hlength ▸ hle, ?_⟩
  constructor
  · intro hactive
    refine ⟨(hrep.live n hn).mpr ⟨r, hr, hactive⟩, ?_⟩
    rw [hhistory.active r hr hactive, hlength]
  · rintro ⟨hlive, hlast⟩
    obtain ⟨s, hs, hactive⟩ := (hrep.live n hn).mp hlive
    have hversion : s.version = r.version := by
      rw [hhistory.active s hs hactive, hlength, hlast]
    obtain ⟨hmemr, hnamer⟩ := SecretTable.mem_rowsOf.mp hr
    obtain ⟨hmems, hnames⟩ := SecretTable.mem_rowsOf.mp hs
    have hrow := SecretTable.versionRow_of_mem hmemr
    rw [hnamer, ← hnames, ← hversion, SecretTable.versionRow_of_mem hmems] at hrow
    rwa [← Option.some.inj hrow]

theorem exists_row (hn : n ∈ N) {v : ℤ} (hpos : 1 ≤ v) (hle : v ≤ (b n).values.length) :
    ∃ r ∈ db.secrets.rowsOf (lookupOf so keys n).bytes, r.version = v := by
  rw [← (hrep.values n hn).length_eq] at hle
  obtain ⟨r, hmem, hname, hversion⟩ :=
    (horder.history (lookupOf so keys n).bytes).version_iff.mpr ⟨hpos, hle⟩
  exact ⟨r, SecretTable.mem_rowsOf.mpr ⟨hmem, hname⟩, hversion⟩

include hN

/-- **The listing** can be shown, and it is one of the ledger. -/
theorem listed_ledger (all : Bool) (now : CString) : ∃ items,
    (db.secrets.listed all).mapM (listItem so keys now) = .ok items ∧ Listed b all items := by
  have hmem {r : SecretRow} : r ∈ db.secrets.listed all ↔
      r ∈ db.secrets.rows ∧ (all = true ∨ db.secrets.Current r) := by
    unfold SecretTable.listed
    simp [List.mem_mergeSort, List.mem_filter]
  obtain ⟨items, hitems, hall⟩ := mapM_forall₂ (f := listItem so keys now) fun r hr =>
    listItem_tells horder hrep (hmem.mp hr).1
  refine ⟨items, hitems, ?_, fun n v => ?_, fun item hitem => ?_⟩
  · have hmarks : (items.map mark).map (fun p => ((lookupOf so keys p.1).bytes, p.2)) =
        (db.secrets.listed all).map fun r => (r.name, r.version) := by
      refine List.forall₂_eq_eq_eq ▸ ?_
      rw [List.map_map, List.forall₂_map_left_iff, List.forall₂_map_right_iff]
      exact hall.flip.imp fun item r h => Prod.ext h.name.symm h.version
    have hnodup : ((db.secrets.listed all).map fun r => (r.name, r.version)).Nodup := by
      refine ((List.mergeSort_perm _ _).map _).nodup_iff.mpr (List.pairwise_map.mpr ?_)
      refine (db.secrets.compatible.filter _).imp fun hrs he => hrs.2.1 ?_
      exact ⟨congrArg Prod.fst he, congrArg Prod.snd he⟩
    rw [← hmarks] at hnodup
    exact hnodup.of_map
  · constructor
    · intro h
      obtain ⟨item, hitem, he⟩ := List.mem_map.mp h
      cases he
      obtain ⟨r, hr, htells⟩ := forall₂_mem_right hall hitem
      obtain ⟨hrow, hshown⟩ := hmem.mp hr
      have hof := SecretTable.mem_rowsOf.mpr ⟨hrow, htells.name⟩
      obtain ⟨hpos, hle, hactive⟩ := row_version horder hrep htells.mem hof
      rw [htells.version]
      exact ⟨hpos, hle, hshown.imp_right fun hcurrent => hactive.mp hcurrent.1⟩
    · rintro ⟨hpos, hle, hshown⟩
      have hn : n ∈ N := by
        by_contra hn
        have hnone := hrep.absent n hn
        rw [hnone] at hle
        have hzero : v ≤ 0 := hle
        omega
      obtain ⟨r, hof, rfl⟩ := exists_row horder hrep hn hpos hle
      obtain ⟨hrow, hname⟩ := SecretTable.mem_rowsOf.mp hof
      have hlisted : r ∈ db.secrets.listed all := by
        refine hmem.mpr ⟨hrow, hshown.imp_right fun hlast => ?_⟩
        exact (horder.history r.name).current hrow ((row_version horder hrep hn hof).2.2.mpr hlast)
      obtain ⟨item, hitem, htells⟩ := forall₂_mem_right hall.flip hlisted
      refine List.mem_map.mpr ⟨item, hitem, Prod.ext ?_ htells.version⟩
      exact hN.eq htells.mem hn (htells.name.symm.trans hname)
  · obtain ⟨r, hr, htells⟩ := forall₂_mem_right hall hitem
    have hrow := SecretTable.mem_rowsOf.mpr ⟨(hmem.mp hr).1, htells.name⟩
    rw [htells.archived, htells.version]
    exact (row_version horder hrep htells.mem hrow).2.2

end Represents

end Fuin.Vault.Listings

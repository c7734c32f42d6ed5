import Fuin.Vault.Versioned

/-! # The rows of a session

A row that an operation of a session has written holds a plaintext and shows a name under the keys of
the session (`StoredUnder`). All rows stay so, whatever transactions of such sessions commit
(`tx_readable`), and when the keys change the rows hold and show the same under the new ones. -/

namespace Fuin.Vault.Stored

open Fuin.Utils Fuin.Crypto Fuin.Lib.Program Fuin.Lib.Growth Fuin.Store.Secrets Fuin.Store.Versions
open Fuin.Store.Database Fuin.CryptoEngine Fuin.Kdf Fuin.Vault.Rows Fuin.Vault.Transactions
open Fuin.Vault.Operations Fuin.Vault.Observed Fuin.Vault.Sessions Fuin.Vault.Committed
open Fuin.Vault.Versioned

/-- A row that holds a plaintext and shows a name under the keys of a session; its times fit the
buffers of the program. -/
structure StoredUnder (so : Sodium) (keys : Subkeys) (name : CString) (plaintext : Bytes)
    (r : SecretRow) : Prop where
  holds : Holds so keys.kekEnc r plaintext
  name_eq : r.name = (lookupOf so keys name).bytes
  shown : Shown so keys name (lookupOf so keys name) r.nameNonce r.encryptedName
  createdAt : (columnText r.createdAt).bytes.length < 21
  expiresAt : ∀ t ∈ r.expiresAt, (columnText t).bytes.length < 21

/-- Every row of the table is one of the session. -/
def Readable (so : Sodium) (keys : Subkeys) (t : SecretTable) : Prop :=
  ∀ r ∈ t.rows, ∃ name plaintext, StoredUnder so keys name plaintext r

variable {so : Sodium} {keys : Subkeys} {name : CString} {plaintext : Bytes} {r s : SecretRow}
  {t u : SecretTable} {db db' : Db}

theorem readable_empty : Readable so keys .empty := fun _ h => nomatch h

/-! ### What becomes of a row -/

theorem StoredUnder.frozen (h : StoredUnder so keys name plaintext r) (hrs : Frozen r s) :
    StoredUnder so keys name plaintext s := by
  obtain ⟨_, _, rfl⟩ := hrs
  exact ⟨h.holds, h.name_eq, h.shown, h.createdAt, h.expiresAt⟩

theorem Readable.frozen (h : Readable so keys t) (hrows : List.Forall₂ Frozen t.rows u.rows) :
    Readable so keys u := fun s hs => by
  obtain ⟨r, hr, hrs⟩ := forall₂_mem_right hrows hs
  obtain ⟨name, plaintext, hstored⟩ := h r hr
  exact ⟨name, plaintext, hstored.frozen hrs⟩

/-- **A row that is rewrapped holds and shows the same** under the new key. -/
theorem StoredUnder.rewrapped {newKeys : Subkeys} (h : StoredUnder so keys name plaintext r)
    (hrs : KeyManager.Rewrapped so keys.kekEnc newKeys.kekEnc r s)
    (hv : columnInt r.version = r.version) :
    StoredUnder so { newKeys with kekMeta := keys.kekMeta } name plaintext s := by
  have hholds := hrs.holds hv h.holds
  obtain ⟨_, _, _, _, _, _, -, -, -, -, -, -, rfl⟩ := hrs
  obtain ⟨h1, h2, h3, h4, h5⟩ := h.shown
  exact ⟨hholds, h.name_eq, ⟨h1, h2, h3, h4, h5⟩, h.createdAt, h.expiresAt⟩

/-- **A row that is prepared** holds the plaintext. -/
theorem holds_prepared {algorithm : Option CString} {new : NewSecret}
    (hp : Prepared so keys plaintext algorithm new) : Holds so keys.kekEnc new.row plaintext := by
  obtain ⟨identity, hid, hsealed⟩ := hp.sealed
  refine ⟨identity, ?_, ?_⟩
  · simpa only [NewSecret.row, columnText_bytes] using hid
  · simpa only [NewSecret.row, encryptedOf, columnText_bytes] using hsealed

theorem storedUnder_prepared {algorithm : Option CString} {new : NewSecret}
    (hp : Prepared so keys plaintext algorithm new)
    (hs : Shown so keys name new.name new.nameNonce new.encryptedName) :
    StoredUnder so keys name plaintext new.row := by
  refine ⟨holds_prepared hp, congrArg CString.bytes hs.stored, hs.stored ▸ hs, ?_, fun t ht => ?_⟩
  · simpa only [NewSecret.row, columnText_bytes] using hp.now.1
  · obtain ⟨u, hu, rfl⟩ := Option.mem_map.mp ht
    rw [columnText_bytes]
    exact (hp.expires_time u hu).1

/-- A new version that commits is readable if its row is. -/
theorem Readable.newVersion {auditKey : Block 32} {action : CString} {archives : Bool}
    {new : NewSecret} (h : Readable so keys db.secrets)
    (hv : NewVersion so auditKey action archives new db db')
    (hnew : StoredUnder so keys name plaintext new.row) : Readable so keys db'.secrets :=
  newVersion_rows hv (fun _ _ hrs ⟨name, plaintext, hr⟩ => ⟨name, plaintext, hr.frozen hrs⟩) h
    fun _ => ⟨name, plaintext, hnew⟩

/-! ### What is read of a row -/

/-- A row is decrypted to what it holds. -/
theorem Holds.eq_of_reads {kek : Block 32} {p q : Bytes} (hp : Holds so kek r p)
    (hq : Reads so kek r q) (hv : columnInt r.version = r.version) : p = q := by
  obtain ⟨identity, hid, hsealed⟩ := hp
  obtain ⟨row, identity', capacity, hrow, hid', hdec⟩ := hq
  simp only [copySecretRow, bind_eq_ok, pure_eq_ok] at hrow
  obtain ⟨i, hi, -, -, a, ha, -, -, -, -, -, -, rfl⟩ := hrow
  obtain ⟨rfl, -⟩ := copyText_eq_ok.mp hi
  obtain ⟨rfl, -⟩ := copyText_eq_ok.mp ha
  cases hid.symm.trans hid'
  have h := decrypted_of_sealed hsealed le_rfl
  rw [← hv] at h
  exact decrypted_unique h hdec

/-- The active row that was found shows the name that was asked for. -/
theorem StoredUnder.shown_of_metadata {stored : CString} {metadata : SecretMetadata}
    (h : Readable so keys db.secrets) (hm : metadataOf stored db = .ok (some metadata)) :
    ∃ name, Shown so keys name stored metadata.nameNonce metadata.encryptedName := by
  obtain ⟨r, hr, hread⟩ := metadataOf_eq_some hm
  obtain ⟨hmem, hname, -⟩ := SecretTable.activeRow_eq_some hr
  obtain ⟨-, -, h1, h2⟩ := readMetadata_eq_ok hread
  obtain ⟨name, plaintext, hs⟩ := h r hmem
  have hstored : stored = lookupOf so keys name := CString.ext (hname.symm.trans hs.name_eq)
  rw [h1, h2, hstored]
  exact ⟨name, hs.shown⟩

/-- **Every transaction of a session** leaves its rows readable, but for `vault_rotate_kek`. -/
theorem tx_readable {M : Ambient Db Input} {op : Op} {t : Tx} {db₁ db₂ db₃ : Db}
    (ht : Proposed so M (some keys) op db₁ t) (hkek : ∀ password, op ≠ .rotateKek password)
    (hinv : ∀ s, M.inv s → Readable so keys s.secrets) (hdb : Readable so keys db₂.secrets)
    (hrun : (t.body so).Runs Stmt.exec db₂ db₃ (.ok ())) : Readable so keys db₃.secrets := by
  cases ht with
  | put h =>
    obtain ⟨_, _, -, -, -, -, -, -, hs, -, -, hp, -⟩ := preparePut_runsIn h
    exact hdb.newVersion (put_runs hrun).1 (storedUnder_prepared hp hs)
  | delete h =>
    rw [(delete_runs hrun).archive]
    exact hdb.frozen (frozen_archive _ _ _)
  | rollback h =>
    obtain ⟨_, _, _, _, _, -, -, -, -, -, -, -, -, hs, -, -, -, -, hp⟩ := prepareRollback_runsIn h
    exact hdb.newVersion (rollback_runs hrun) (storedUnder_prepared hp hs)
  | rotateDek h =>
    obtain ⟨d, _, _, _, _, -, hd, -, -, -, -, -, hn, hm, -, -, -, hp, e1, e2, e3⟩ :=
      prepareRotation_runsIn h
    obtain ⟨shownName, hs⟩ := StoredUnder.shown_of_metadata (hinv d hd) hm
    have hrot := (rotateDek_runs hrun).1
    rw [rotation_eq e1 e2 e3] at hrot
    rw [← hn, ← e1, ← e2] at hs
    exact hdb.newVersion hrot (storedUnder_prepared hp hs)
  | rotateKek => exact absurd rfl (hkek _)
  | revokeTokens =>
    rw [(revokeTokens_runs hrun).1]
    exact hdb
  | storeAuth =>
    obtain ⟨_, rfl⟩ := storeAuth_runs hrun
    exact hdb

/-- **`vault_rotate_kek`** leaves the rows readable under the new keys. -/
theorem Readable.rewrapped {newKeys : Subkeys} (h : Readable so keys t) (ht : Orderly t)
    (hrows : List.Forall₂ (KeyManager.Rewrapped so keys.kekEnc newKeys.kekEnc) t.rows u.rows) :
    Readable so { newKeys with kekMeta := keys.kekMeta } u := fun s hs => by
  obtain ⟨r, hr, hrs⟩ := forall₂_mem_right hrows hs
  obtain ⟨name, plaintext, hstored⟩ := h r hr
  exact ⟨name, plaintext, hstored.rewrapped hrs (ht.columnInt_version hr)⟩

end Fuin.Vault.Stored

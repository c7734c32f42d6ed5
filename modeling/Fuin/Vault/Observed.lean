import Fuin.Vault.Operations

/-! # What an operation has seen when its transaction begins

The programs before the transactions change nothing (`readOnly_…`). What they hand over to the
transaction was read from states that the others have gone through since, in this order
(`…_runsIn`): so each lemma here names these states, related by `rely`, and says what was read in
which. The same lemmas hold for a program that runs alone, where all the states are one. -/

namespace Fuin.Vault.Observed

open Fuin.Utils Fuin.Time Fuin.Crypto Fuin.Lib.Program Fuin.Store.Secrets Fuin.Store.Database
open Fuin.CryptoEngine Fuin.Kdf Fuin.Audit.Log Fuin.Vault.Rows Fuin.Vault.Transactions
open Fuin.Vault.Operations

variable {so : Sodium} {keys : Subkeys} {M : Ambient Db Input} {db db' : Db}

/-! ### Names and times -/

theorem readOnly_buildNameLookup {name : CString} :
    Sql.ReadOnly (buildNameLookup so keys name) :=
  Prog.readOnly_ofExcept.bind fun _ => Sql.readOnly_libs.bind fun _ => trivial

theorem buildNameLookup_runsIn {name stored : CString}
    (h : (buildNameLookup so keys name).RunsIn Stmt.exec M db db' (.ok stored)) :
    name.bytes ≠ [] ∧ stored = lookupOf so keys name := by
  obtain ⟨_, hn, h⟩ := Prog.runsIn_ofExcept_bind h
  obtain ⟨db₁, -, -, h⟩ := Sql.runsIn_libs_bind h
  exact ⟨require_eq_ok.mp hn, Except.ok.inj h⟩

/-- The encrypted name of a row is that of a name: it decrypts to it under the metadata key. -/
structure Shown (so : Sodium) (keys : Subkeys) (name storedName : CString)
    (nonce encryptedName : Bytes) : Prop where
  stored : storedName = lookupOf so keys name
  ne_nil : name.bytes ≠ []
  length_le : name.bytes.length ≤ 256
  length_nonce : nonce.length = 24
  encrypted : encryptedName =
    so.encrypt .xchacha20Poly1305 keys.kekMeta nonce storedName.bytes name.bytes

theorem readOnly_encryptDisplayName {name stored : CString} :
    Sql.ReadOnly (encryptDisplayName so keys name stored) :=
  Prog.readOnly_ofExcept.bind fun _ => Sql.readOnly_random.bind fun _ =>
    Sql.readOnly_lib.bind fun _ => trivial

theorem encryptDisplayName_runsIn {name stored : CString} {out : Bytes × Bytes}
    (hs : stored = lookupOf so keys name)
    (h : (encryptDisplayName so keys name stored).RunsIn Stmt.exec M db db' (.ok out)) :
    Shown so keys name stored out.1 out.2 := by
  obtain ⟨_, hn, h⟩ := Prog.runsIn_ofExcept_bind h
  obtain ⟨-, hne, hle⟩ := require_eq_ok.mp hn
  obtain ⟨nonce, db₁, -, h⟩ := Sql.runsIn_random_bind h
  obtain ⟨db₂, -, -, h⟩ := Sql.runsIn_lib_bind h
  cases h
  exact ⟨hs, hne, hle, nonce.2, rfl⟩

/-- A text that fits the buffer of a timestamp. -/
def IsTime (t : CString) : Prop := t.bytes.length < 21 ∧ t.bytes ≠ []

theorem readOnly_accessNow : Sql.ReadOnly accessNow := by
  refine Sql.readOnly_time.bind fun now => ?_
  cases now with
  | none => trivial
  | some t => exact Prog.readOnly_ofExcept.bind fun _ => trivial

theorem readOnly_currentTime : Sql.ReadOnly currentTime :=
  Sql.readOnly_time.bind fun _ => Prog.readOnly_ofExcept

theorem currentTime_runsIn {t : CString}
    (h : currentTime.RunsIn Stmt.exec M db db' (.ok t)) : IsTime t := by
  obtain ⟨now, db₁, -, h⟩ := Sql.runsIn_time_bind h
  exact nowIso8601_length (Prog.runsIn_ofExcept h).2.symm

theorem plusSeconds_isTime {n : ℕ} {now : Option ℤ} {t : CString}
    (h : plusSecondsIso8601 n now = .ok t) : IsTime t := by
  cases now with
  | none => nomatch h
  | some s =>
    simp only [plusSecondsIso8601] at h
    split_ifs at h
    exact formatIso8601_length h

theorem readOnly_timeAfter {seconds : ℕ} : Sql.ReadOnly (timeAfter seconds) :=
  Sql.readOnly_time.bind fun _ => Prog.readOnly_ofExcept

theorem readOnly_expiryFor {n : ℤ} : Sql.ReadOnly (expiryFor n) := by
  unfold expiryFor
  split_ifs
  · exact readOnly_timeAfter.bind fun _ => trivial
  · trivial

/-- There is a time of expiry if and only if there is an interval. -/
theorem expiryFor_runsIn {n : ℤ} {t : Option CString}
    (h : (expiryFor n).RunsIn Stmt.exec M db db' (.ok t)) :
    (t.isSome ↔ 0 < n) ∧ ∀ s ∈ t, IsTime s := by
  unfold expiryFor at h
  split_ifs at h with hn
  · obtain ⟨s, db₁, h1, h2⟩ := Prog.runsIn_bind h
    obtain ⟨now, db₂, -, h1⟩ := Sql.runsIn_time_bind h1
    cases h2.2
    have hs := plusSeconds_isTime (Prog.runsIn_ofExcept h1).2.symm
    exact ⟨by simp [hn], fun u hu => by cases hu; exact hs⟩
  · cases h.2
    exact ⟨by simp [hn], fun u hu => nomatch hu⟩

theorem readOnly_newIdentity {stored : CString} : Sql.ReadOnly (newIdentity so stored) := by
  refine Prog.ReadOnly.bind ?_ fun _ => Prog.readOnly_ofExcept.bind fun _ =>
    Sql.readOnly_lib.bind fun _ => trivial
  exact Sql.readOnly_lib.bind fun _ => Sql.readOnly_random.bind fun _ => trivial

theorem newIdentity_runsIn {stored : CString} {out : CString × CString}
    (h : (newIdentity so stored).RunsIn Stmt.exec M db db' (.ok out)) :
    (∃ r, out.1 = uuidText r) ∧ buildRowIdentity so out.1 stored = .ok out.2 := by
  obtain ⟨id, db₁, h1, h⟩ := Prog.runsIn_bind h
  obtain ⟨db₂, -, h1⟩ := Sql.runsIn_lib_bind h1
  obtain ⟨r, db₃, -, -, h1⟩ := Sql.runsIn_random_bind h1
  cases h1
  obtain ⟨identity, hi, h⟩ := Prog.runsIn_ofExcept_bind h
  obtain ⟨db₄, -, -, h⟩ := Sql.runsIn_lib_bind h
  cases h
  exact ⟨⟨r, rfl⟩, hi⟩

/-! ### Plaintexts -/

/-- What the vault decrypts a row to, given a large enough buffer. -/
def Reads (so : Sodium) (kek : Block 32) (r : SecretRow) (plaintext : Bytes) : Prop :=
  ∃ row identity capacity, copySecretRow r = .ok row ∧
    buildRowIdentity so row.id (columnText r.name) = .ok identity ∧
    decrypted so row.encrypted kek identity row.version capacity = .ok plaintext

/-- The size of the buffer does not matter. -/
theorem decrypted_unique {e : EncryptedSecret} {kek : Block 32} {secretId : CString} {version : ℤ}
    {c d : ℕ} {p q : Bytes} (hp : decrypted so e kek secretId version c = .ok p)
    (hq : decrypted so e kek secretId version d = .ok q) : p = q := by
  simp only [decrypted, decryptHeader, bind_eq_ok, pure_eq_ok] at hp hq
  obtain ⟨-, -, -, ⟨a, ha, -, -, aad, haad, -, -, -, -, rfl⟩, hp⟩ := hp
  obtain ⟨-, -, -, ⟨b, hb, -, -, bad, hbad, -, -, -, -, rfl⟩, hq⟩ := hq
  cases ha.symm.trans hb
  cases haad.symm.trans hbad
  exact Except.ok.inj (hp.symm.trans hq)

theorem Reads.unique {kek : Block 32} {r : SecretRow} {p q : Bytes} (hp : Reads so kek r p)
    (hq : Reads so kek r q) : p = q := by
  obtain ⟨row, i, c, hrow, hi, hp⟩ := hp
  obtain ⟨row', i', d, hrow', hi', hq⟩ := hq
  cases hrow.symm.trans hrow'
  cases hi.symm.trans hi'
  exact decrypted_unique hp hq

theorem readOnly_loadSecretRow {name : CString} {w : Which} :
    Sql.ReadOnly (loadSecretRow name w) :=
  Prog.readOnly_ofExcept.bind fun _ => Sql.readOnly_select

theorem loadSecretRow_runsIn {name : CString} {w : Which} {row : LoadedRow}
    (h : (loadSecretRow name w).RunsIn Stmt.exec M db db' (.ok row)) :
    M.rely db db' ∧ M.inv db' ∧ ∃ r, w.row name db' = some r ∧ copySecretRow r = .ok row := by
  obtain ⟨_, -, h⟩ := Prog.runsIn_ofExcept_bind h
  obtain ⟨h1, h2, h3⟩ := Sql.runsIn_select h
  refine ⟨h1, h2, ?_⟩
  unfold loadedRow at h3
  cases hr : w.row name db' with
  | none => rw [hr] at h3; nomatch h3
  | some r => rw [hr] at h3; exact ⟨r, rfl, h3⟩

/-- The row that is found has the name that was asked for. -/
theorem Which.row_name {name : CString} {w : Which} {r : SecretRow} (h : w.row name db = some r) :
    r ∈ db.secrets.rows ∧ columnText r.name = name := by
  cases w with
  | active =>
    obtain ⟨h1, h2, -⟩ := SecretTable.activeRow_eq_some h
    exact ⟨h1, by rw [h2, columnText_bytes]⟩
  | version v =>
    obtain ⟨h1, h2, -⟩ := SecretTable.versionRow_eq_some h
    exact ⟨h1, by rw [h2, columnText_bytes]⟩

theorem readOnly_decryptSecretRow {row : LoadedRow} {name : CString} {capacity : ℕ} :
    Sql.ReadOnly (decryptSecretRow so keys row name capacity) :=
  Prog.readOnly_ofExcept.bind fun _ => Prog.readOnly_ofExcept.bind fun _ =>
    Sql.readOnly_libs.bind fun _ => readOnly_decrypt

theorem decryptSecretRow_runsIn {row : LoadedRow} {name : CString} {capacity : ℕ}
    {plaintext : Bytes}
    (h : (decryptSecretRow so keys row name capacity).RunsIn Stmt.exec M db db' (.ok plaintext)) :
    ∃ identity, buildRowIdentity so row.id name = .ok identity ∧
      decrypted so row.encrypted keys.kekEnc identity row.version capacity = .ok plaintext := by
  obtain ⟨_, -, h⟩ := Prog.runsIn_ofExcept_bind h
  obtain ⟨identity, hi, h⟩ := Prog.runsIn_ofExcept_bind h
  obtain ⟨db₁, -, h⟩ := Sql.runsIn_libs_bind h
  exact ⟨identity, hi, decrypt_runsIn h⟩

theorem readOnly_decryptSecretAlloc {name : CString} {version : ℤ} :
    Sql.ReadOnly (decryptSecretAlloc so keys name version) :=
  Prog.readOnly_ofExcept.bind fun _ => readOnly_loadSecretRow.bind fun _ =>
    Sql.readOnly_lib.bind fun _ => readOnly_decryptSecretRow.bind fun _ =>
      Prog.readOnly_ofExcept.bind fun _ => trivial

/-- The row of a version was decrypted in one of the states. -/
theorem decryptSecretAlloc_runsIn {name : CString} {version : ℤ} {out : Bytes × CString}
    (h : (decryptSecretAlloc so keys name version).RunsIn Stmt.exec M db db' (.ok out)) :
    ∃ db₁ r, M.rely db db₁ ∧ M.inv db₁ ∧ M.rely db₁ db' ∧ 1 ≤ version ∧
      db₁.secrets.versionRow name.bytes version = some r ∧ Reads so keys.kekEnc r out.1 ∧
      out.2 = columnText r.algorithm := by
  obtain ⟨_, hv, h⟩ := Prog.runsIn_ofExcept_bind h
  obtain ⟨row, db₁, h1, h⟩ := Prog.runsIn_bind h
  obtain ⟨hrely, hinv, r, hr, hrow⟩ := loadSecretRow_runsIn h1
  obtain ⟨db₂, h12, h⟩ := Sql.runsIn_lib_bind h
  obtain ⟨p, db₃, h23, h2, h⟩ := Prog.runsIn_readOnly_bind readOnly_decryptSecretRow h
  obtain ⟨identity, hi, hp⟩ := decryptSecretRow_runsIn h2
  obtain ⟨_, -, hret⟩ := Prog.runsIn_ofExcept_bind h
  obtain ⟨rfl, hout⟩ := hret
  cases hout
  have hname := (Which.row_name hr).2
  refine ⟨db₁, r, hrely, hinv, M.trans h12 h23, (require_eq_ok.mp hv).2, hr,
    ⟨row, identity, _, hrow, by rw [hname]; exact hi, hp⟩, ?_⟩
  simp only [copySecretRow, bind_eq_ok, pure_eq_ok] at hrow
  obtain ⟨_, -, -, -, a, ha, -, -, -, -, -, -, rfl⟩ := hrow
  exact (copyText_eq_ok.mp ha).1

/-! ### Before the transactions -/

/-- A new row as an operation prepares it: a fresh id, sealed for a plaintext, with its times. -/
structure Prepared (so : Sodium) (keys : Subkeys) (plaintext : Bytes) (algorithm : Option CString)
    (new : NewSecret) : Prop where
  id : ∃ r, new.id = uuidText r
  sealed : ∃ identity, buildRowIdentity so new.id new.name = .ok identity ∧
    Sealed so keys.kekEnc identity new.version plaintext new.encrypted
  algorithm : ∃ a, selectAlgorithm so algorithm = .ok a ∧ new.encrypted.algorithm = algorithmName a
  now : IsTime new.now
  expires : new.expiresAt.isSome ↔ 0 < new.rotationInterval
  expires_time : ∀ t ∈ new.expiresAt, IsTime t

/-- The version and the counter of a new row follow the bounds that were read. -/
def Follows (name : CString) (db : Db) (version nonceCounter : ℤ) : Prop :=
  ∃ bounds, boundsOf name db = .ok bounds ∧
    (if bounds.hasHistory then bounds.next else .ok (1, 1)) = .ok (version, nonceCounter)

/-- What follows the bounds is an `int`. -/
theorem Follows.version_le {name : CString} {version nonceCounter : ℤ}
    (h : Follows name db version nonceCounter) : version ≤ intMax := by
  obtain ⟨bounds, hb, hn⟩ := h
  have hle : bounds.maxVersion ≤ intMax := by
    unfold boundsOf at hb
    split_ifs at hb
    · simp only [bind_eq_ok, pure_eq_ok] at hb
      obtain ⟨-, -, rfl⟩ := hb
      exact Int.lt_add_one_iff.mp (columnInt_lt _).2
    · cases hb
      decide
  split_ifs at hn
  · simp only [Bounds.next, bind_eq_ok, require_eq_ok, pure_eq_ok, Prod.mk.injEq] at hn
    obtain ⟨-, ⟨hmax, -⟩, rfl, -⟩ := hn
    omega
  · cases hn
    decide

theorem metadataOf_eq_some {name : CString} {metadata : SecretMetadata}
    (h : metadataOf name db = .ok (some metadata)) :
    ∃ r, db.secrets.activeRow name.bytes = some r ∧ readMetadata r = .ok metadata := by
  unfold metadataOf at h
  cases hr : db.secrets.activeRow name.bytes with
  | none => rw [hr] at h; nomatch h
  | some r =>
    rw [hr] at h
    obtain ⟨m, hm, hret⟩ := bind_eq_ok.mp h
    cases hret
    exact ⟨r, rfl, hm⟩

theorem metadataOf_eq_none {name : CString} (h : metadataOf name db = .ok none) :
    db.secrets.activeRow name.bytes = none := by
  unfold metadataOf at h
  cases hr : db.secrets.activeRow name.bytes with
  | none => rfl
  | some r =>
    rw [hr] at h
    obtain ⟨m, -, hret⟩ := bind_eq_ok.mp h
    nomatch hret

/-- What the metadata take over from the row. -/
theorem readMetadata_eq_ok {r : SecretRow} {m : SecretMetadata} (h : readMetadata r = .ok m) :
    m.version = columnInt r.version ∧ m.rotationInterval = r.rotationInterval.getD 0 ∧
      m.nameNonce = r.nameNonce ∧ m.encryptedName = r.encryptedName := by
  simp only [readMetadata, bind_eq_ok, pure_eq_ok] at h
  obtain ⟨_, -, _, -, _, -, _, -, _, -, _, -, rfl⟩ := h
  exact ⟨rfl, rfl, rfl, rfl⟩

/-- The version of an active row is read as an `int`. -/
theorem metadataOf_version_le {name : CString} {metadata : SecretMetadata}
    (h : metadataOf name db = .ok (some metadata)) : metadata.version ≤ intMax := by
  obtain ⟨r, -, hread⟩ := metadataOf_eq_some h
  rw [(readMetadata_eq_ok hread).1]
  exact Int.lt_add_one_iff.mp (columnInt_lt _).2

theorem readOnly_preparePut {name : CString} {secret : Bytes} {algorithm : Option CString} {ttl : ℕ} :
    Sql.ReadOnly (preparePut so keys name secret algorithm ttl) := by
  refine Prog.readOnly_ofExcept.bind fun _ => readOnly_buildNameLookup.bind fun stored => ?_
  refine readOnly_encryptDisplayName.bind fun out => Sql.readOnly_select.bind fun metadata => ?_
  refine Sql.readOnly_select.bind fun bounds => readOnly_currentTime.bind fun now => ?_
  refine Prog.readOnly_ofExcept.bind fun _ => readOnly_expiryFor.bind fun expiresAt => ?_
  refine Prog.readOnly_ofExcept.bind fun next => readOnly_newIdentity.bind fun identity => ?_
  exact readOnly_encryptWithAlgorithm.bind fun _ => trivial

/-- **`vault_put_with_options`** has read the active row and then the bounds. -/
theorem preparePut_runsIn {name : CString} {secret : Bytes} {algorithm : Option CString} {ttl : ℕ}
    {metadata : Option SecretMetadata} {new : NewSecret}
    (h : (preparePut so keys name secret algorithm ttl).RunsIn Stmt.exec M db db'
      (.ok (metadata, new))) :
    ∃ db₁ db₂, M.rely db db₁ ∧ M.inv db₁ ∧ M.rely db₁ db₂ ∧ M.inv db₂ ∧ M.rely db₂ db' ∧
      nameIsClean name ∧ Shown so keys name new.name new.nameNonce new.encryptedName ∧
      metadataOf new.name db₁ = .ok metadata ∧ Follows new.name db₂ new.version new.nonceCounter ∧
      Prepared so keys secret algorithm new ∧ new.rotationInterval = ttl := by
  obtain ⟨_, hclean, h⟩ := Prog.runsIn_ofExcept_bind h
  obtain ⟨stored, s₁, r1, h1, h⟩ := Prog.runsIn_readOnly_bind readOnly_buildNameLookup h
  obtain ⟨out, s₂, r2, h2, h⟩ := Prog.runsIn_readOnly_bind readOnly_encryptDisplayName h
  obtain ⟨metadata', s₃, r3, i3, hm, h⟩ := Sql.runsIn_select_bind h
  obtain ⟨bounds, s₄, r4, i4, hb, h⟩ := Sql.runsIn_select_bind h
  obtain ⟨now, s₅, r5, h5, h⟩ := Prog.runsIn_readOnly_bind readOnly_currentTime h
  obtain ⟨_, -, h⟩ := Prog.runsIn_ofExcept_bind h
  obtain ⟨expiresAt, s₆, r6, h6, h⟩ := Prog.runsIn_readOnly_bind readOnly_expiryFor h
  obtain ⟨next, hnext, h⟩ := Prog.runsIn_ofExcept_bind h
  obtain ⟨ident, s₇, r7, h7, h⟩ := Prog.runsIn_readOnly_bind readOnly_newIdentity h
  obtain ⟨e, s₈, r8, h8, h⟩ := Prog.runsIn_readOnly_bind readOnly_encryptWithAlgorithm h
  obtain ⟨rfl, hret⟩ := h
  cases hret
  obtain ⟨-, hstored⟩ := buildNameLookup_runsIn h1
  obtain ⟨hid, hidn⟩ := newIdentity_runsIn h7
  obtain ⟨hsealed, halg⟩ := encryptWithAlgorithm_runsIn h8
  obtain ⟨hexp, hexp'⟩ := expiryFor_runsIn h6
  exact ⟨s₃, s₄, M.trans r1 (M.trans r2 r3), i3, r4, i4,
    M.trans r5 (M.trans r6 (M.trans r7 r8)), by simpa using hclean,
    encryptDisplayName_runsIn hstored h2, hm, ⟨bounds, hb, hnext⟩,
    ⟨hid, ⟨_, hidn, hsealed⟩, halg, currentTime_runsIn h5, hexp, hexp'⟩, rfl⟩

theorem readOnly_prepareDelete {name : CString} : Sql.ReadOnly (prepareDelete so keys name) := by
  refine readOnly_buildNameLookup.bind fun stored => readOnly_currentTime.bind fun now => ?_
  refine Sql.readOnly_select.bind fun metadata => ?_
  cases metadata <;> trivial

/-- **`vault_delete`** has read the active row. -/
theorem prepareDelete_runsIn {name stored now : CString} {metadata : SecretMetadata}
    (h : (prepareDelete so keys name).RunsIn Stmt.exec M db db' (.ok (stored, now, metadata))) :
    M.rely db db' ∧ M.inv db' ∧ stored = lookupOf so keys name ∧ IsTime now ∧
      metadataOf stored db' = .ok (some metadata) := by
  obtain ⟨stored', s₁, r1, h1, h⟩ := Prog.runsIn_readOnly_bind readOnly_buildNameLookup h
  obtain ⟨now', s₂, r2, h2, h⟩ := Prog.runsIn_readOnly_bind readOnly_currentTime h
  obtain ⟨metadata', s₃, r3, i3, hm, h⟩ := Sql.runsIn_select_bind h
  cases metadata' with
  | none => nomatch h.2
  | some m =>
    obtain ⟨rfl, hret⟩ := h
    cases hret
    exact ⟨M.trans r1 (M.trans r2 r3), i3, (buildNameLookup_runsIn h1).2, currentTime_runsIn h2, hm⟩

theorem readOnly_getVersionTtl {name : CString} {version : ℤ} :
    Sql.ReadOnly (getVersionTtl name version) :=
  Prog.readOnly_ofExcept.bind fun _ => Sql.readOnly_select

theorem readOnly_prepareRollback {name : CString} {version : ℤ} :
    Sql.ReadOnly (prepareRollback so keys name version) := by
  refine Prog.readOnly_ofExcept.bind fun _ => readOnly_buildNameLookup.bind fun stored => ?_
  refine readOnly_encryptDisplayName.bind fun out => readOnly_decryptSecretAlloc.bind fun p => ?_
  refine readOnly_getVersionTtl.bind fun ttl => Sql.readOnly_select.bind fun bounds => ?_
  refine Prog.readOnly_ofExcept.bind fun _ => Prog.readOnly_ofExcept.bind fun next => ?_
  refine readOnly_currentTime.bind fun now => readOnly_expiryFor.bind fun expiresAt => ?_
  exact readOnly_newIdentity.bind fun ident => readOnly_encryptWithAlgorithm.bind fun _ => trivial

/-- **`vault_rollback`** has decrypted the version, and then read its interval and the bounds. -/
theorem prepareRollback_runsIn {name : CString} {version : ℤ} {new : NewSecret}
    (h : (prepareRollback so keys name version).RunsIn Stmt.exec M db db' (.ok new)) :
    ∃ db₁ db₂ db₃ r plaintext, M.rely db db₁ ∧ M.inv db₁ ∧ M.rely db₁ db₂ ∧ M.inv db₂ ∧
      M.rely db₂ db₃ ∧ M.inv db₃ ∧ M.rely db₃ db' ∧ 1 ≤ version ∧
      Shown so keys name new.name new.nameNonce new.encryptedName ∧
      db₁.secrets.versionRow new.name.bytes version = some r ∧ Reads so keys.kekEnc r plaintext ∧
      versionTtl new.name version db₂ = .ok new.rotationInterval ∧
      Follows new.name db₃ new.version new.nonceCounter ∧
      Prepared so keys plaintext (some (columnText r.algorithm)) new := by
  obtain ⟨_, -, h⟩ := Prog.runsIn_ofExcept_bind h
  obtain ⟨stored, s₁, r1, h1, h⟩ := Prog.runsIn_readOnly_bind readOnly_buildNameLookup h
  obtain ⟨out, s₂, r2, h2, h⟩ := Prog.runsIn_readOnly_bind readOnly_encryptDisplayName h
  obtain ⟨p, s₃, r3, h3, h⟩ := Prog.runsIn_readOnly_bind readOnly_decryptSecretAlloc h
  obtain ⟨ttl, s₄, r4, h4, h⟩ := Prog.runsIn_readOnly_bind readOnly_getVersionTtl h
  obtain ⟨bounds, s₅, r5, i5, hb, h⟩ := Sql.runsIn_select_bind h
  obtain ⟨_, hhist, h⟩ := Prog.runsIn_ofExcept_bind h
  obtain ⟨next, hnext, h⟩ := Prog.runsIn_ofExcept_bind h
  obtain ⟨now, s₆, r6, h6, h⟩ := Prog.runsIn_readOnly_bind readOnly_currentTime h
  obtain ⟨expiresAt, s₇, r7, h7, h⟩ := Prog.runsIn_readOnly_bind readOnly_expiryFor h
  obtain ⟨ident, s₈, r8, h8, h⟩ := Prog.runsIn_readOnly_bind readOnly_newIdentity h
  obtain ⟨e, s₉, r9, h9, h⟩ := Prog.runsIn_readOnly_bind readOnly_encryptWithAlgorithm h
  obtain ⟨rfl, hret⟩ := h
  cases hret
  obtain ⟨-, hstored⟩ := buildNameLookup_runsIn h1
  obtain ⟨d, r, q1, i1, q2, hv, hrow, hreads, halgo⟩ := decryptSecretAlloc_runsIn h3
  obtain ⟨_, -, h4⟩ := Prog.runsIn_ofExcept_bind h4
  obtain ⟨q4, i4, httl⟩ := Sql.runsIn_select h4
  obtain ⟨hid, hidn⟩ := newIdentity_runsIn h8
  obtain ⟨hsealed, halg⟩ := encryptWithAlgorithm_runsIn h9
  obtain ⟨hexp, hexp'⟩ := expiryFor_runsIn h7
  rw [halgo] at halg
  exact ⟨d, s₄, s₅, r, p.1, M.trans r1 (M.trans r2 q1), i1, M.trans q2 r4, i4, r5, i5,
    M.trans r6 (M.trans r7 (M.trans r8 r9)), hv, encryptDisplayName_runsIn hstored h2, hrow, hreads,
    httl, ⟨bounds, hb, by rw [if_pos (require_eq_ok.mp hhist)]; exact hnext⟩,
    ⟨hid, ⟨_, hidn, hsealed⟩, halg, currentTime_runsIn h6, hexp, hexp'⟩⟩

theorem readOnly_prepareRotation {name : CString} :
    Sql.ReadOnly (prepareRotation so keys name) := by
  refine Prog.readOnly_ofExcept.bind fun _ => readOnly_currentTime.bind fun now => ?_
  refine Sql.readOnly_select.bind fun metadata => ?_
  cases metadata with
  | none => trivial
  | some metadata =>
    dsimp only
    split_ifs
    · refine readOnly_decryptSecretAlloc.bind fun p => Sql.readOnly_select.bind fun bounds => ?_
      refine Prog.readOnly_ofExcept.bind fun _ => Prog.readOnly_ofExcept.bind fun next => ?_
      refine readOnly_newIdentity.bind fun ident => readOnly_expiryFor.bind fun expiresAt => ?_
      exact readOnly_encryptWithAlgorithm.bind fun _ => trivial
    · trivial

/-- **`vault_rotate_expired_secret`** has read the active row, decrypted the row of that version, and
read the bounds. -/
theorem prepareRotation_runsIn {name : CString} {metadata : SecretMetadata} {new : NewSecret}
    (h : (prepareRotation so keys name).RunsIn Stmt.exec M db db' (.ok (some (metadata, new)))) :
    ∃ db₁ db₂ db₃ r plaintext, M.rely db db₁ ∧ M.inv db₁ ∧ M.rely db₁ db₂ ∧ M.inv db₂ ∧
      M.rely db₂ db₃ ∧ M.inv db₃ ∧ M.rely db₃ db' ∧ new.name = name ∧
      metadataOf name db₁ = .ok (some metadata) ∧
      db₂.secrets.versionRow name.bytes metadata.version = some r ∧
      Reads so keys.kekEnc r plaintext ∧
      Follows name db₃ new.version new.nonceCounter ∧
      Prepared so keys plaintext (some (columnText r.algorithm)) new ∧
      new.nameNonce = metadata.nameNonce ∧ new.encryptedName = metadata.encryptedName ∧
      new.rotationInterval = metadata.rotationInterval := by
  obtain ⟨_, -, h⟩ := Prog.runsIn_ofExcept_bind h
  obtain ⟨now, s₁, r1, h1, h⟩ := Prog.runsIn_readOnly_bind readOnly_currentTime h
  obtain ⟨m, s₂, r2, i2, hm, h⟩ := Sql.runsIn_select_bind h
  cases m with
  | none => cases h.2
  | some m =>
    dsimp only at h
    split_ifs at h with hdue
    · obtain ⟨p, s₃, r3, h3, h⟩ := Prog.runsIn_readOnly_bind readOnly_decryptSecretAlloc h
      obtain ⟨bounds, s₄, r4, i4, hb, h⟩ := Sql.runsIn_select_bind h
      obtain ⟨_, hhist, h⟩ := Prog.runsIn_ofExcept_bind h
      obtain ⟨next, hnext, h⟩ := Prog.runsIn_ofExcept_bind h
      obtain ⟨ident, s₅, r5, h5, h⟩ := Prog.runsIn_readOnly_bind readOnly_newIdentity h
      obtain ⟨expiresAt, s₆, r6, h6, h⟩ := Prog.runsIn_readOnly_bind readOnly_expiryFor h
      obtain ⟨e, s₇, r7, h7, h⟩ := Prog.runsIn_readOnly_bind readOnly_encryptWithAlgorithm h
      obtain ⟨rfl, hret⟩ := h
      cases hret
      obtain ⟨d, r, q1, i1, q2, hv, hrow, hreads, halgo⟩ := decryptSecretAlloc_runsIn h3
      obtain ⟨hid, hidn⟩ := newIdentity_runsIn h5
      obtain ⟨hsealed, halg⟩ := encryptWithAlgorithm_runsIn h7
      obtain ⟨hexp, hexp'⟩ := expiryFor_runsIn h6
      rw [halgo] at halg
      exact ⟨s₂, d, s₄, r, p.1, M.trans r1 r2, i2, q1, i1, M.trans q2 r4, i4,
        M.trans r5 (M.trans r6 r7), rfl, hm, hrow, hreads,
        ⟨bounds, hb, by rw [if_pos (require_eq_ok.mp hhist)]; exact hnext⟩,
        ⟨hid, ⟨_, hidn, hsealed⟩, halg, currentTime_runsIn h1, hexp, hexp'⟩, rfl, rfl, rfl⟩
    · cases h.2

theorem readOnly_prepareRead {name : CString} {w : Which} {capacity : ℕ} :
    Sql.ReadOnly (prepareRead so keys name w capacity) :=
  readOnly_buildNameLookup.bind fun _ => readOnly_loadSecretRow.bind fun _ =>
    readOnly_decryptSecretRow.bind fun _ => trivial

/-- **`vault_read_secret`** has decrypted a row of one of the states. -/
theorem prepareRead_runsIn {name stored : CString} {w : Which} {capacity : ℕ} {version : ℤ}
    {plaintext : Bytes}
    (h : (prepareRead so keys name w capacity).RunsIn Stmt.exec M db db'
      (.ok (stored, version, plaintext))) :
    ∃ db₁ r, M.rely db db₁ ∧ M.inv db₁ ∧ M.rely db₁ db' ∧ stored = lookupOf so keys name ∧
      w.row stored db₁ = some r ∧ Reads so keys.kekEnc r plaintext ∧
      version = columnInt r.version := by
  obtain ⟨stored', s₁, r1, h1, h⟩ := Prog.runsIn_readOnly_bind readOnly_buildNameLookup h
  obtain ⟨row, s₂, h2, h⟩ := Prog.runsIn_bind h
  obtain ⟨r2, i2, r, hr, hrow⟩ := loadSecretRow_runsIn h2
  obtain ⟨p, s₃, r3, h3, h⟩ := Prog.runsIn_readOnly_bind readOnly_decryptSecretRow h
  obtain ⟨rfl, hret⟩ := h
  cases hret
  obtain ⟨identity, hi, hp⟩ := decryptSecretRow_runsIn h3
  have hname := (Which.row_name hr).2
  refine ⟨s₂, r, M.trans r1 r2, i2, r3, (buildNameLookup_runsIn h1).2, hr,
    ⟨row, identity, _, hrow, by rw [hname]; exact hi, hp⟩, ?_⟩
  simp only [copySecretRow, bind_eq_ok, pure_eq_ok] at hrow
  obtain ⟨_, -, -, -, a, ha, -, -, -, -, -, -, rfl⟩ := hrow
  rfl

end Fuin.Vault.Observed

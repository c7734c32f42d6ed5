import Fuin.CryptoEngine
import Fuin.Lib.Growth

/-! # Rotating the key of the vault

`key_manager_rotate_kek` takes every row of `secrets`, unwraps its DEK with the old KEK, and wraps it
with the new one; the ciphertext and its nonce stay. When it succeeds every row has been rewrapped
(`rotateKek_runs`), and what was sealed under the old KEK is sealed under the new one
(`Rewrapped.holds`). -/

namespace Fuin.KeyManager

open Fuin.Utils Fuin.Crypto Fuin.Lib.Program Fuin.Lib.Growth Fuin.Store.Secrets
open Fuin.Store.Database
open Fuin.CryptoEngine (aesName xchachaName aegisName opened asKey kekDomain commitment
  buildRowIdentity algorithmName EncryptedSecret Sealed sealWith)

/-- `key_manager_algorithm_from_name`: without the second name of XChaCha20-Poly1305, and with the
test whether AES is available. -/
def algorithmFromName (so : Sodium) (name : CString) : Except Status Algorithm :=
  if name = aesName then if so.aesAvailable then .ok .aes256Gcm else .error .crypto
  else if name = xchachaName then .ok .xchacha20Poly1305
  else if so.hasAegis ∧ name = aegisName then .ok .aegis256
  else .error .invalidArgument

/-- `key_manager_build_aad`. -/
def buildAad (secretId : CString) (version : ℤ) : Except Status Bytes := do
  require (secretId.bytes ≠ [] ∧ version ≠ 0) .invalidArgument
  let aad := secretId.bytes ++ [58] ++ decimal version.toNat
  require (aad.length < 256) .invalidArgument
  return aad

/-- `key_manager_unwrap_dek`, after `sodium_init`. -/
def unwrapDek (so : Sodium) (algorithm secretId : CString) (version : ℤ) (wrapped nonce : Bytes)
    (kek : Block 32) : Except Status (Block 32) := do
  let a ← algorithmFromName so algorithm
  let aad ← buildAad secretId version
  require (nonce.length = a.nonceBytes ∧ wrapped.length = 32 + a.tagBytes) .invalidArgument
  let dek ← opened (so.decrypt a kek nonce aad wrapped)
  asKey dek

/-- `key_manager_wrap_dek`: the nonce that was drawn and the wrapped DEK. -/
def wrapDek (so : Sodium) (algorithm secretId : CString) (version : ℤ) (dek kek : Block 32) :
    Sql (Bytes × Bytes) := do
  Sql.lib .crypto
  let a ← Prog.ofExcept (algorithmFromName so algorithm)
  let aad ← Prog.ofExcept (buildAad secretId version)
  let nonce ← Sql.random a.nonceBytes
  Sql.lib .crypto
  return (nonce.1, so.encrypt a kek nonce.1 aad dek.1)

/-- `key_manager_rewrap_dek`. -/
def rewrapDek (so : Sodium) (algorithm secretId : CString) (version : ℤ) (wrapped nonce : Bytes)
    (oldKek newKek : Block 32) : Sql (Bytes × Bytes) := do
  Sql.libs [.storage, .storage, .crypto]
  let dek ← Prog.ofExcept (unwrapDek so algorithm secretId version wrapped nonce oldKek)
  wrapDek so algorithm secretId version dek newKek

/-- The columns of a row that `key_manager_rotate_kek` reads and checks. -/
def readColumns (r : SecretRow) : Except Status (CString × CString × ℤ) := do
  let id ← copyText 37 r.id
  require (r.name ≠ [] ∧ (0 : UInt8) ∉ r.name) .storage
  require (1 ≤ columnInt r.version) .storage
  let algorithm ← copyText 32 r.algorithm
  require (r.encryptedDek ≠ [] ∧ r.dekNonce ≠ [] ∧ r.keyCommitment.length = 64) .storage
  return (id, algorithm, columnInt r.version)

/-- The loop body of `key_manager_rotate_kek`. -/
def rotateRow (so : Sodium) (oldKek newKek : Block 32) (r : SecretRow) : Sql Unit := do
  let (id, algorithm, version) ← Prog.ofExcept (readColumns r)
  let identity ← Prog.ofExcept (buildRowIdentity so id (columnText r.name))
  Sql.lib .crypto
  let (nonce, wrapped) ←
    rewrapDek so algorithm identity version r.encryptedDek r.dekNonce oldKek newKek
  Sql.libs [.crypto, .crypto]
  let n ← Sql.write (.updateWrappedDek id.bytes wrapped nonce
    (commitment so newKek kekDomain nonce ++ r.keyCommitment.drop 32))
  Prog.ofExcept (require (n = 1) .storage)
  Sql.lib .storage

/-- The loop, one row after the other. -/
def rotateRows (so : Sodium) (oldKek newKek : Block 32) : List SecretRow → Sql Unit
  | [] => Sql.lib .storage
  | r :: rs => do
    Sql.lib .storage
    rotateRow so oldKek newKek r
    rotateRows so oldKek newKek rs

/-- The order of the rows. -/
def idLe (r s : SecretRow) : Bool := decide (r.id ≤ s.id)

/-- `key_manager_rotate_kek`. -/
def rotateKek (so : Sodium) (oldKek newKek : Block 32) : Sql Unit := do
  Sql.libs [.crypto, .storage, .storage]
  let rows ← Sql.select fun db => .ok (db.secrets.rows.mergeSort idLe)
  rotateRows so oldKek newKek rows
  Sql.libs [.storage, .storage]

/-! ### What the loop does -/

variable {so : Sodium} {oldKek newKek : Block 32}

/-- A row and what has become of it: the DEK is unwrapped and wrapped again. -/
def Rewrapped (so : Sodium) (oldKek newKek : Block 32) (r r' : SecretRow) : Prop :=
  ∃ algorithm identity a aad dek nonce, copyText 32 r.algorithm = .ok algorithm ∧
    buildRowIdentity so (columnText r.id) (columnText r.name) = .ok identity ∧
    unwrapDek so algorithm identity (columnInt r.version) r.encryptedDek r.dekNonce oldKek =
      .ok dek ∧
    algorithmFromName so algorithm = .ok a ∧ buildAad identity (columnInt r.version) = .ok aad ∧
    nonce.length = a.nonceBytes ∧
    r' = { r with
      encryptedDek := so.encrypt a newKek nonce aad dek.1
      dekNonce := nonce
      keyCommitment := commitment so newKek kekDomain nonce ++ r.keyCommitment.drop 32 }

theorem Rewrapped.id_eq {r r' : SecretRow} (h : Rewrapped so oldKek newKek r r') : r'.id = r.id := by
  obtain ⟨_, _, _, _, _, _, -, -, -, -, -, -, rfl⟩ := h
  rfl

theorem readColumns_eq_ok {r : SecretRow} {id algorithm : CString} {version : ℤ}
    (h : readColumns r = .ok (id, algorithm, version)) :
    copyText 37 r.id = .ok id ∧ copyText 32 r.algorithm = .ok algorithm ∧
      version = columnInt r.version := by
  simp only [readColumns, bind_eq_ok, require_eq_ok, pure_eq_ok, Prod.mk.injEq] at h
  obtain ⟨i, hi, -, -, -, -, a, ha, -, -, rfl, rfl, rfl⟩ := h
  exact ⟨hi, ha, rfl⟩

theorem wrapDek_runs {algorithm secretId : CString} {version : ℤ} {dek kek : Block 32}
    {db db' : Db} {out : Bytes × Bytes}
    (h : (wrapDek so algorithm secretId version dek kek).Runs Stmt.exec db db' (.ok out)) :
    db' = db ∧ ∃ a aad nonce, algorithmFromName so algorithm = .ok a ∧
      buildAad secretId version = .ok aad ∧ nonce.length = a.nonceBytes ∧
      out = (nonce, so.encrypt a kek nonce aad dek.1) := by
  obtain ⟨a, ha, h⟩ := Prog.runs_ofExcept_bind (Sql.runs_lib_bind h)
  obtain ⟨aad, haad, h⟩ := Prog.runs_ofExcept_bind h
  obtain ⟨nonce, h⟩ := Sql.runs_random_bind h
  have hlast := Sql.runs_lib_bind h
  obtain ⟨hdb, hout⟩ := Prog.runs_ret hlast
  exact ⟨hdb, a, aad, nonce.1, ha, haad, nonce.2, Except.ok.inj hout⟩

/-- **One row**: it is rewrapped and the others stay. -/
theorem rotateRow_runs {r : SecretRow} {db db' : Db} (hid : (0 : UInt8) ∉ r.id)
    (hr : r ∈ db.secrets.rows)
    (h : (rotateRow so oldKek newKek r).Runs Stmt.exec db db' (.ok ())) :
    ∃ t r', Rewrapped so oldKek newKek r r' ∧ db' = { db with secrets := t } ∧
      t.rows = db.secrets.rows.map fun s => if s = r then r' else s := by
  obtain ⟨⟨id, algorithm, version⟩, hcols, h⟩ := Prog.runs_ofExcept_bind h
  obtain ⟨hi, ha, rfl⟩ := readColumns_eq_ok hcols
  obtain ⟨rfl, -⟩ := copyText_eq_ok.mp hi
  obtain ⟨identity, hidn, h⟩ := Prog.runs_ofExcept_bind h
  obtain ⟨⟨nonce, wrapped⟩, db₁, h1, h⟩ := Prog.runs_bind (Sql.runs_lib_bind h)
  obtain ⟨dek, hdek, h1⟩ := Prog.runs_ofExcept_bind (Sql.runs_libs_bind h1)
  obtain ⟨rfl, a, aad, n, haf, haad, hn, hout⟩ := wrapDek_runs h1
  cases hout
  obtain ⟨db₂, n, hw, h⟩ := Sql.runs_write_bind (Sql.runs_libs_bind h)
  obtain ⟨-, -, h⟩ := Prog.runs_ofExcept_bind h
  obtain rfl := Sql.readOnly_lib.runs h
  simp only [Write.apply, Option.some.injEq, Prod.mk.injEq] at hw
  obtain ⟨rfl, -⟩ := hw
  refine ⟨_, _, ⟨algorithm, identity, a, aad, dek, nonce, ha, hidn, hdek, haf, haad, hn, rfl⟩, rfl,
    List.map_congr_left fun s hs => ?_⟩
  have hid' : (columnText r.id).bytes = r.id := by rw [columnText_of_noNul hid]
  unfold SecretTable.rewrapRow
  by_cases hsr : s = r
  · rw [if_pos hsr, hid', if_pos (by rw [hsr]), hsr]
  · have hne : s.id ≠ r.id := (db₁.secrets.compatible.forall hs hr hsr).1
    rw [if_neg hsr, hid', if_neg hne]

/-- **The loop**: the rows it is given are rewrapped and the others stay. -/
theorem rotateRows_runs : ∀ {rs : List SecretRow} {db db' : Db}, rs.Nodup →
    (∀ r ∈ rs, r ∈ db.secrets.rows ∧ (0 : UInt8) ∉ r.id) →
      (rotateRows so oldKek newKek rs).Runs Stmt.exec db db' (.ok ()) →
        ∃ t, db' = { db with secrets := t } ∧ List.Forall₂
          (fun r r' => if r ∈ rs then Rewrapped so oldKek newKek r r' else r' = r)
          db.secrets.rows t.rows
  | [], db, db', _, _, h => by
    obtain rfl := Sql.readOnly_lib.runs h
    exact ⟨db'.secrets, rfl, by simp [List.forall₂_same]⟩
  | r :: rs, db, db', hnd, hmem, h => by
    obtain ⟨hr, hid⟩ := hmem r (by simp)
    obtain ⟨hnot, hnd'⟩ := List.nodup_cons.mp hnd
    obtain ⟨_, db₁, h1, h2⟩ := Prog.runs_bind (Sql.runs_lib_bind h)
    obtain ⟨t₁, r', hrew, rfl, ht₁⟩ := rotateRow_runs hid hr h1
    have hstay : ∀ s ∈ rs, s ∈ t₁.rows ∧ (0 : UInt8) ∉ s.id := fun s hs => by
      have hsr : s ≠ r := fun e => hnot (e ▸ hs)
      refine ⟨?_, (hmem s (by simp [hs])).2⟩
      rw [ht₁]
      exact List.mem_map.mpr ⟨s, (hmem s (by simp [hs])).1, if_neg hsr⟩
    obtain ⟨t, rfl, ht⟩ := rotateRows_runs hnd' hstay h2
    have hr' : r' ∉ rs := fun hmem' => by
      have hne : r' ≠ r := fun e => hnot (e ▸ hmem')
      exact (db.secrets.compatible.forall (hmem r' (by simp [hmem'])).1 hr hne).1 hrew.id_eq
    refine ⟨t, rfl, ?_⟩
    rw [ht₁, List.forall₂_map_left_iff] at ht
    refine ht.imp fun s s' hs => ?_
    by_cases hsr : s = r
    · subst hsr
      rw [if_pos rfl, if_neg hr'] at hs
      rw [if_pos (by simp), hs]
      exact hrew
    · rw [if_neg hsr] at hs
      simpa [hsr] using hs

/-- **All rows are rewrapped**, and nothing else in the database changes. -/
theorem rotateKek_runs {db db' : Db} (hid : ∀ r ∈ db.secrets.rows, (0 : UInt8) ∉ r.id)
    (h : (rotateKek so oldKek newKek).Runs Stmt.exec db db' (.ok ())) :
    ∃ t, db' = { db with secrets := t } ∧
      List.Forall₂ (Rewrapped so oldKek newKek) db.secrets.rows t.rows := by
  obtain ⟨rows, hrows, h⟩ := Sql.runs_select_bind (Sql.runs_libs_bind h)
  cases hrows
  obtain ⟨_, db₁, h1, h2⟩ := Prog.runs_bind h
  obtain rfl := Sql.readOnly_libs.runs h2
  have hperm := List.mergeSort_perm db.secrets.rows idLe
  have hnd : db.secrets.rows.Nodup := db.secrets.compatible.imp fun hc e => hc.1 (by rw [e])
  obtain ⟨t, rfl, ht⟩ := rotateRows_runs (hperm.nodup_iff.mpr hnd)
    (fun r hr => ⟨hperm.mem_iff.mp hr, hid r (hperm.mem_iff.mp hr)⟩) h1
  refine ⟨t, rfl, ?_⟩
  have hall := (List.forall₂_and_left _ _).mpr ⟨fun r (hr : r ∈ db.secrets.rows) => hr, ht⟩
  refine hall.imp fun r r' hr => ?_
  have hmem := hperm.mem_iff.mpr hr.1
  simpa [hmem] using hr.2

/-- The same row, but for its wrapped DEK. -/
def SameButDek (r r' : SecretRow) : Prop :=
  r' = { r with
    encryptedDek := r'.encryptedDek
    dekNonce := r'.dekNonce
    keyCommitment := r'.keyCommitment }

theorem SameButDek.trans {r s u : SecretRow} (h : SameButDek r s) (h' : SameButDek s u) :
    SameButDek r u := by
  unfold SameButDek at h h' ⊢
  rw [h', h]

theorem sameButDek_rewrap (t : SecretTable) (id dek dekNonce keyCommitment : Bytes) :
    List.Forall₂ SameButDek t.rows (t.rewrap id dek dekNonce keyCommitment).rows := by
  rw [SecretTable.rewrap_rows, List.forall₂_map_right_iff]
  refine List.forall₂_same.mpr fun r _ => ?_
  unfold SecretTable.rewrapRow
  split_ifs <;> rfl

/-- Whatever the ids, only wrapped DEKs change. -/
theorem rotateRow_frame {r : SecretRow} {db db' : Db}
    (h : (rotateRow so oldKek newKek r).Runs Stmt.exec db db' (.ok ())) :
    ∃ t, db' = { db with secrets := t } ∧ List.Forall₂ SameButDek db.secrets.rows t.rows := by
  obtain ⟨⟨id, algorithm, version⟩, -, h⟩ := Prog.runs_ofExcept_bind h
  obtain ⟨identity, -, h⟩ := Prog.runs_ofExcept_bind h
  obtain ⟨⟨nonce, wrapped⟩, db₁, h1, h2⟩ := Prog.runs_bind (Sql.runs_lib_bind h)
  obtain ⟨dek, -, h1⟩ := Prog.runs_ofExcept_bind (Sql.runs_libs_bind h1)
  obtain ⟨rfl, -⟩ := wrapDek_runs h1
  obtain ⟨db₂, n, hw, h3⟩ := Sql.runs_write_bind (Sql.runs_libs_bind h2)
  obtain ⟨-, -, h4⟩ := Prog.runs_ofExcept_bind h3
  obtain rfl := Sql.readOnly_lib.runs h4
  simp only [Write.apply, Option.some.injEq, Prod.mk.injEq] at hw
  exact ⟨_, hw.1.symm, sameButDek_rewrap _ _ _ _ _⟩

theorem rotateRows_frame : ∀ {rs : List SecretRow} {db db' : Db},
    (rotateRows so oldKek newKek rs).Runs Stmt.exec db db' (.ok ()) →
      ∃ t, db' = { db with secrets := t } ∧ List.Forall₂ SameButDek db.secrets.rows t.rows
  | [], _, db', h => by
    obtain rfl := Sql.readOnly_lib.runs h
    exact ⟨db'.secrets, rfl, List.forall₂_same.mpr fun _ _ => rfl⟩
  | r :: rs, db, db', h => by
    obtain ⟨_, db₁, h1, h2⟩ := Prog.runs_bind (Sql.runs_lib_bind h)
    obtain ⟨t₁, rfl, ht₁⟩ := rotateRow_frame h1
    obtain ⟨t, rfl, ht⟩ := rotateRows_frame h2
    exact ⟨t, rfl, forall₂_trans (fun _ _ _ h h' => h.trans h') ht₁ ht⟩

theorem rotateKek_frame {db db' : Db}
    (h : (rotateKek so oldKek newKek).Runs Stmt.exec db db' (.ok ())) :
    ∃ t, db' = { db with secrets := t } ∧ List.Forall₂ SameButDek db.secrets.rows t.rows := by
  obtain ⟨rows, -, h⟩ := Sql.runs_select_bind (Sql.runs_libs_bind h)
  obtain ⟨_, db₁, h1, h2⟩ := Prog.runs_bind h
  obtain rfl := Sql.readOnly_libs.runs h2
  exact rotateRows_frame h1

/-! ### What was sealed stays sealed -/

theorem algorithmFromName_name {a b : Algorithm}
    (h : algorithmFromName so (algorithmName a) = .ok b) : b = a := by
  cases a with
  | aes256Gcm =>
    unfold algorithmFromName at h
    rw [if_pos (by decide)] at h
    split_ifs at h
    exact (Except.ok.inj h).symm
  | xchacha20Poly1305 =>
    unfold algorithmFromName at h
    rw [if_neg (by decide), if_pos (by decide)] at h
    exact (Except.ok.inj h).symm
  | aegis256 =>
    unfold algorithmFromName at h
    rw [if_neg (by decide), if_neg (by decide)] at h
    split_ifs at h
    exact (Except.ok.inj h).symm

theorem buildAad_eq {secretId : CString} {version : ℤ} {aad aad' : Bytes}
    (h : buildAad secretId version = .ok aad)
    (h' : CryptoEngine.buildAad secretId version = .ok aad') : aad = aad' := by
  simp only [buildAad, CryptoEngine.buildAad, bind_eq_ok, require_eq_ok, pure_eq_ok] at h h'
  obtain ⟨-, -, -, -, rfl⟩ := h
  obtain ⟨-, -, rfl⟩ := h'
  rfl

/-- **A row that holds a plaintext under the old KEK holds it under the new one.** -/
theorem Rewrapped.holds {r r' : SecretRow} {plaintext : Bytes}
    (h : Rewrapped so oldKek newKek r r') (hv : columnInt r.version = r.version)
    (hr : CryptoEngine.Holds so oldKek r plaintext) :
    CryptoEngine.Holds so newKek r' plaintext := by
  obtain ⟨algorithm, identity, a, aad, dek, nonce, halg, hidn, hdek, haf, haad, hn, rfl⟩ := h
  obtain ⟨identity', hidn', b, aad', dek', n, dn, haes, haegis, hne, haad', hnl, hdnl, hseal⟩ := hr
  cases hidn.symm.trans hidn'
  obtain ⟨rfl, -⟩ := copyText_eq_ok.mp halg
  rw [hv] at haad hdek
  have hcols := hseal
  simp only [CryptoEngine.encryptedOf, sealWith, EncryptedSecret.mk.injEq] at hcols
  obtain ⟨h1, h2, h3, h4, h5, h6⟩ := hcols
  rw [h1] at haf hdek
  obtain rfl := algorithmFromName_name haf
  obtain rfl := buildAad_eq haad haad'
  have hd : dek = dek' := by
    simp only [unwrapDek, bind_eq_ok, require_eq_ok] at hdek
    obtain ⟨c, hc, d, hd, -, -, w, hw, hk⟩ := hdek
    obtain rfl := algorithmFromName_name hc
    obtain rfl := buildAad_eq hd haad'
    rw [h3, h5, Sodium.decrypt_encrypt] at hw
    cases hw
    rw [asKey, dif_pos dek'.2] at hk
    exact (Except.ok.inj hk).symm
  subst hd
  refine ⟨identity, hidn', a, aad, dek, n, nonce, haes, haegis, hne, haad', hnl, hn, ?_⟩
  simp only [CryptoEngine.encryptedOf, sealWith, EncryptedSecret.mk.injEq, h1, h2, h4, h6,
    true_and]
  rw [List.drop_left' (CryptoEngine.length_commitment _ _ _)]

/-! ### Rows that unwrap -/

/-- The DEK of a row, unwrapped. -/
def dekOf (so : Sodium) (kek : Block 32) (r : SecretRow) : Except Status (Block 32) := do
  let algorithm ← copyText 32 r.algorithm
  let identity ← buildRowIdentity so (columnText r.id) (columnText r.name)
  unwrapDek so algorithm identity (columnInt r.version) r.encryptedDek r.dekNonce kek

/-- The row unwraps under the KEK. -/
def Unwraps (so : Sodium) (kek : Block 32) (r : SecretRow) : Prop := ∃ dek, dekOf so kek r = .ok dek

/-- A DEK is unwrapped with the key it was wrapped with. -/
theorem unwrapDek_encrypt {algorithm identity : CString} {version : ℤ} {a : Algorithm}
    {aad nonce : Bytes} {dek kek : Block 32} (ha : algorithmFromName so algorithm = .ok a)
    (haad : buildAad identity version = .ok aad) (hn : nonce.length = a.nonceBytes) :
    unwrapDek so algorithm identity version (so.encrypt a kek nonce aad dek.1) nonce kek =
      .ok dek := by
  refine bind_eq_ok.mpr ⟨a, ha, bind_eq_ok.mpr ⟨aad, haad, ?_⟩⟩
  refine bind_eq_ok.mpr ⟨(), require_eq_ok.mpr ⟨hn, ?_⟩, ?_⟩
  · rw [Sodium.length_encrypt, dek.2]
  · rw [Sodium.decrypt_encrypt]
    exact dif_pos dek.2

/-- **A row that has been rewrapped unwraps under the new KEK.** -/
theorem Rewrapped.unwraps {r r' : SecretRow} (h : Rewrapped so oldKek newKek r r') :
    Unwraps so newKek r' := by
  obtain ⟨algorithm, identity, a, aad, dek, nonce, halg, hidn, -, haf, haad, hn, rfl⟩ := h
  exact ⟨dek, bind_eq_ok.mpr ⟨algorithm, halg, bind_eq_ok.mpr ⟨identity, hidn,
    unwrapDek_encrypt haf haad hn⟩⟩⟩

/-- **A row that holds a plaintext unwraps.** -/
theorem unwraps_of_holds {kek : Block 32} {r : SecretRow} {plaintext : Bytes}
    (h : CryptoEngine.Holds so kek r plaintext) (hv : columnInt r.version = r.version)
    (hpos : 1 ≤ r.version) : Unwraps so kek r := by
  obtain ⟨identity, hidn, a, aad, dek, nonce, dekNonce, haes, haegis, hne, haad, -, hn, he⟩ := h
  simp only [CryptoEngine.encryptedOf, sealWith, EncryptedSecret.mk.injEq] at he
  obtain ⟨h1, -, h3, -, h5, -⟩ := he
  have halg : copyText 32 r.algorithm = .ok (algorithmName a) := by
    rw [copyText_eq_ok, h1]
    exact ⟨rfl, by cases a <;> decide⟩
  have hname : algorithmFromName so (algorithmName a) = .ok a := by
    cases a with
    | aes256Gcm => exact (if_pos (by decide)).trans (if_pos (haes rfl))
    | xchacha20Poly1305 => exact (if_neg (by decide)).trans (if_pos (by decide))
    | aegis256 =>
      exact (if_neg (by decide)).trans ((if_neg (by decide)).trans (if_pos ⟨haegis rfl, by decide⟩))
  have haad' : buildAad identity r.version = .ok aad := by
    simp only [CryptoEngine.buildAad, bind_eq_ok, require_eq_ok, pure_eq_ok] at haad
    obtain ⟨-, hlen, rfl⟩ := haad
    refine bind_eq_ok.mpr ⟨(), require_eq_ok.mpr ⟨hne, ?_⟩, ?_⟩
    · omega
    · exact bind_eq_ok.mpr ⟨(), require_eq_ok.mpr hlen, rfl⟩
  refine ⟨dek, bind_eq_ok.mpr ⟨_, halg, bind_eq_ok.mpr ⟨identity, hidn, ?_⟩⟩⟩
  rw [hv, h3, h5]
  exact unwrapDek_encrypt hname haad' hn

end Fuin.KeyManager

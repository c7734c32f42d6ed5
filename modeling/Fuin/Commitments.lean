import Fuin.KeyManager

/-! # Commitments under rotation

A row stores a commitment to the KEK that wraps its DEK and one to the DEK. `crypto_engine_decrypt`
checks both; `key_manager_rotate_kek` unwraps the DEK without looking at the first one and writes a
new one. So a rotation that succeeds leaves a row as acceptable as it was if and only if its stored
commitment to the KEK was right, or the row is rejected for what rotation keeps (`rotation_iff`). -/

namespace Fuin.Commitments

open Fuin.Utils Fuin.Crypto Fuin.Lib.Program Fuin.Store.Secrets Fuin.Store.Database
open Fuin.CryptoEngine
open Fuin.KeyManager (Rewrapped readColumns idLe rotateRows rotateKek
  rotateKek_runs unwrapDek)

/-- `crypto_engine_decrypt` of a row, for the identity and the version in the row. -/
def decryptRow (so : Sodium) (kek : Block 32) (r : SecretRow) (capacity : ℕ) :
    Except Status Bytes := do
  let identity ← buildRowIdentity so (columnText r.id) (columnText r.name)
  decrypted so (encryptedOf r) kek identity (columnInt r.version) capacity

/-- The first half of the commitment of a row is the one of the KEK. -/
def KekCommitted (so : Sodium) (kek : Block 32) (r : SecretRow) : Prop :=
  commitment so kek kekDomain r.dekNonce = r.keyCommitment.take 32

/-- The row holds a plaintext behind both ciphers, and the second half of its commitment is the one
of the DEK; the first half is not looked at. -/
def OpensTo (so : Sodium) (kek : Block 32) (r : SecretRow) (capacity : ℕ) (plaintext : Bytes) :
    Prop :=
  ∃ (identity : CString) (a : Algorithm) (aad : Bytes) (dek : Block 32),
    buildRowIdentity so (columnText r.id) (columnText r.name) = .ok identity ∧
    algorithmFromName so (columnText r.algorithm) = .ok a ∧ (a = .aes256Gcm → so.aesAvailable) ∧
    buildAad identity (columnInt r.version) = .ok aad ∧
    (a.tagBytes ≤ r.ciphertext.length ∧ r.encryptedDek.length = 32 + a.tagBytes ∧
      r.nonce.length = a.nonceBytes ∧ r.dekNonce.length = r.nonce.length ∧
      r.keyCommitment.length = 64 ∧ r.ciphertext.length - a.tagBytes ≤ capacity) ∧
    so.decrypt a kek r.dekNonce aad r.encryptedDek = some dek.1 ∧
    commitment so dek dekDomain r.nonce = r.keyCommitment.drop 32 ∧
    so.decrypt a dek r.nonce aad r.ciphertext = some plaintext

/-- **The row is accepted under the new KEK as it was under the old one**, with the same
plaintext. -/
def Preserved (so : Sodium) (oldKek newKek : Block 32) (r r' : SecretRow) : Prop :=
  ∀ capacity plaintext, decryptRow so newKek r' capacity = .ok plaintext ↔
    decryptRow so oldKek r capacity = .ok plaintext

variable {so : Sodium} {kek oldKek newKek : Block 32} {r r' : SecretRow} {plaintext : Bytes}
  {capacity : ℕ} {db db' : Db}

/-- **When a row is accepted**: its commitment to the KEK is right and it opens. -/
theorem decryptRow_eq_ok : decryptRow so kek r capacity = .ok plaintext ↔
    KekCommitted so kek r ∧ OpensTo so kek r capacity plaintext := by
  unfold decryptRow
  simp only [bind_eq_ok, decrypted_eq_ok]
  constructor
  · rintro ⟨identity, hidn, -, a, aad, dek, ⟨ha, hav, haad, hlen⟩, hkek, hw, hdek, hp⟩
    exact ⟨hkek, identity, a, aad, dek, hidn, ha, hav, haad, hlen, hw, hdek, hp⟩
  · rintro ⟨hkek, identity, a, aad, dek, hidn, ha, hav, haad, hlen, hw, hdek, hp⟩
    exact ⟨identity, hidn, buildRowIdentity_ne hidn, a, aad, dek, ⟨ha, hav, haad, hlen⟩, hkek, hw,
      hdek, hp⟩

/-! ### What rotation does to it -/

/-- The key manager knows no algorithm that the engine does not know. -/
theorem algorithmFromName_of_keyManager {name : CString} {a : Algorithm}
    (h : KeyManager.algorithmFromName so name = .ok a) :
    algorithmFromName so name = .ok a ∧ (a = .aes256Gcm → so.aesAvailable) := by
  unfold KeyManager.algorithmFromName at h
  unfold algorithmFromName
  split_ifs at h with haes hav hx hg
  · cases h
    exact ⟨if_pos haes, fun _ => hav⟩
  · cases h
    exact ⟨by rw [if_neg haes, if_pos (Or.inl hx)], fun h => nomatch h⟩
  · cases h
    have hc : ¬ (name = xchachaName ∨ name = chachaName) := by
      rintro (h | h)
      · exact hx h
      · rw [hg.2] at h
        exact absurd h (by decide)
    exact ⟨by rw [if_neg haes, if_neg hc, if_pos hg], fun h => nomatch h⟩

theorem buildAad_of_keyManager {secretId : CString} {version : ℤ} {aad : Bytes}
    (h : KeyManager.buildAad secretId version = .ok aad) : buildAad secretId version = .ok aad := by
  simp only [KeyManager.buildAad, buildAad, bind_eq_ok, require_eq_ok, pure_eq_ok] at h ⊢
  obtain ⟨-, -, _, hlen, haad⟩ := h
  exact ⟨(), hlen, haad⟩

/-- A rotated row is committed to the new KEK, whatever it was before. -/
theorem kekCommitted_of_rewrapped (h : Rewrapped so oldKek newKek r r') :
    KekCommitted so newKek r' := by
  obtain ⟨_, _, _, _, _, nonce, -, -, -, -, -, -, rfl⟩ := h
  exact (List.take_left' (length_commitment newKek kekDomain nonce)).symm

/-- **Rotation keeps what a row opens to.** -/
theorem opensTo_of_rewrapped (h : Rewrapped so oldKek newKek r r')
    (hlen : r.keyCommitment.length = 64) :
    OpensTo so newKek r' capacity plaintext ↔ OpensTo so oldKek r capacity plaintext := by
  obtain ⟨algorithm, identity, a, aad, dek, nonce, halg, hidn, hunwrap, haf, haad, hn, rfl⟩ := h
  obtain ⟨rfl, -⟩ := copyText_eq_ok.mp halg
  simp only [unwrapDek, bind_eq_ok, require_eq_ok, opened_eq_ok, asKey_eq_ok] at hunwrap
  obtain ⟨b, hb, aad', haad', -, ⟨hdn, hwrapped⟩, w, hw, rfl⟩ := hunwrap
  cases haf.symm.trans hb
  cases haad.symm.trans haad'
  obtain ⟨ha, hav⟩ := algorithmFromName_of_keyManager haf
  have hk : (commitment so newKek kekDomain nonce).length = 32 := length_commitment _ _ _
  constructor
  · rintro ⟨identity', a', aad', dek', hidn', ha', -, haad', hlens, hw', hdek, hp⟩
    cases hidn.symm.trans hidn'
    cases ha.symm.trans ha'
    cases (buildAad_of_keyManager haad).symm.trans haad'
    obtain ⟨h1, -, h3, -, -, h6⟩ := hlens
    rw [Sodium.decrypt_encrypt] at hw'
    obtain rfl := Subtype.ext (Option.some.inj hw')
    rw [List.drop_left' hk] at hdek
    exact ⟨identity, a, aad, dek, hidn, ha, hav, haad',
      ⟨h1, hwrapped, h3, hdn.trans h3.symm, hlen, h6⟩, hw, hdek, hp⟩
  · rintro ⟨identity', a', aad', dek', hidn', ha', -, haad', hlens, hw', hdek, hp⟩
    cases hidn.symm.trans hidn'
    cases ha.symm.trans ha'
    cases (buildAad_of_keyManager haad).symm.trans haad'
    obtain ⟨h1, -, h3, -, -, h6⟩ := hlens
    obtain rfl := Subtype.ext (Option.some.inj (hw.symm.trans hw'))
    refine ⟨identity, a, aad, dek, hidn, ha, hav, haad', ⟨h1, ?_, h3, hn.trans h3.symm, ?_, h6⟩,
      Sodium.decrypt_encrypt _ _ _ _ _ _, ?_, hp⟩
    · show (so.encrypt a newKek nonce aad dek.1).length = _
      rw [Sodium.length_encrypt, dek.2]
    · show (commitment so newKek kekDomain nonce ++ r.keyCommitment.drop 32).length = 64
      rw [List.length_append, hk, List.length_drop, hlen]
    · show _ = (commitment so newKek kekDomain nonce ++ r.keyCommitment.drop 32).drop 32
      rw [List.drop_left' hk]
      exact hdek

/-- **One row**: rotation leaves it as acceptable as it was if and only if its commitment to the KEK
was right or it does not open. -/
theorem preserved_iff (h : Rewrapped so oldKek newKek r r') (hlen : r.keyCommitment.length = 64) :
    Preserved so oldKek newKek r r' ↔
      (KekCommitted so oldKek r ∨
        ∀ capacity plaintext, ¬ OpensTo so oldKek r capacity plaintext) := by
  simp only [Preserved, decryptRow_eq_ok, opensTo_of_rewrapped h hlen,
    and_iff_right (kekCommitted_of_rewrapped h)]
  constructor
  · intro hall
    by_cases hopens : ∃ capacity plaintext, OpensTo so oldKek r capacity plaintext
    · obtain ⟨capacity, plaintext, hopens⟩ := hopens
      exact Or.inl ((hall capacity plaintext).mp hopens).1
    · exact Or.inr fun capacity plaintext h => hopens ⟨capacity, plaintext, h⟩
  · rintro (hkek | hnot) capacity plaintext
    · exact (and_iff_right hkek).symm
    · exact ⟨fun h => absurd h (hnot _ _), fun h => h.2⟩

/-- The loop has read the columns of every row it is given. -/
theorem rotateRows_columns : ∀ {rs : List SecretRow} {db db' : Db},
    (rotateRows so oldKek newKek rs).Runs Stmt.exec db db' (.ok ()) →
      ∀ r ∈ rs, r.keyCommitment.length = 64
  | [], _, _, _, _, hr => nomatch hr
  | s :: rs, _, _, h, r, hr => by
    obtain ⟨_, _, h1, h2⟩ := Prog.runs_bind (Sql.runs_lib_bind h)
    rcases List.mem_cons.mp hr with rfl | hr
    · obtain ⟨_, hcols, -⟩ := Prog.runs_ofExcept_bind h1
      simp only [readColumns, bind_eq_ok, require_eq_ok] at hcols
      obtain ⟨_, -, _, -, _, -, _, -, _, hlens, -⟩ := hcols
      exact hlens.2.2
    · exact rotateRows_columns h2 r hr

theorem rotateKek_columns (h : (rotateKek so oldKek newKek).Runs Stmt.exec db db' (.ok ())) :
    ∀ r ∈ db.secrets.rows, r.keyCommitment.length = 64 := by
  obtain ⟨_, hrows, h⟩ := Sql.runs_select_bind (Sql.runs_libs_bind h)
  cases hrows
  obtain ⟨_, _, h1, -⟩ := Prog.runs_bind h
  exact fun r hr => rotateRows_columns h1 r ((List.mergeSort_perm _ idLe).mem_iff.mpr hr)

/-- **A rotation that succeeds** leaves exactly those rows as acceptable as they were whose stored
commitment to the old KEK is right or that do not open. -/
theorem rotation_iff (hid : ∀ r ∈ db.secrets.rows, (0 : UInt8) ∉ r.id)
    (h : (rotateKek so oldKek newKek).Runs Stmt.exec db db' (.ok ())) :
    List.Forall₂ (fun r r' => Preserved so oldKek newKek r r' ↔
        (KekCommitted so oldKek r ∨
          ∀ capacity plaintext, ¬ OpensTo so oldKek r capacity plaintext))
      db.secrets.rows db'.secrets.rows := by
  have hlen := rotateKek_columns h
  obtain ⟨t, rfl, hrows⟩ := rotateKek_runs hid h
  have hall := (List.forall₂_and_left _ _).mpr ⟨hlen, hrows⟩
  exact hall.imp fun r r' hr => preserved_iff hr.2 hr.1

/-! ### A rejected row that is accepted afterwards -/

def sampleKek : Block 32 := Block.fill 32 1

def nextKek : Block 32 := Block.fill 32 2

def sampleDek : Block 32 := Block.fill 32 3

/-- The associated data of the row below. -/
def sampleAad : Bytes :=
  match buildRowIdentity toy (columnText (ascii "0")) (columnText (ascii "db")) with
  | .ok identity => identity.bytes ++ [58] ++ decimal 1
  | .error _ => []

/-- What is stored for the plaintext `[42]`. -/
def sampleSealed : EncryptedSecret :=
  sealWith toy .xchacha20Poly1305 sampleKek sampleDek sampleAad (List.replicate 24 4)
    (List.replicate 24 5) [42]

/-- A row in which the commitment to the KEK has been overwritten. -/
def tamperedRow : SecretRow where
  id := ascii "0"
  name := ascii "db"
  nameNonce := [1]
  encryptedName := [1]
  version := 1
  algorithm := sampleSealed.algorithm.bytes
  ciphertext := sampleSealed.ciphertext
  encryptedDek := sampleSealed.encryptedDek
  nonce := sampleSealed.nonce
  dekNonce := sampleSealed.dekNonce
  keyCommitment := List.replicate 32 0 ++ sampleSealed.keyCommitment.drop 32
  nonceCounter := 1
  createdAt := [1]
  updatedAt := [1]
  expiresAt := none
  rotationInterval := none
  isArchived := false

def tamperedDb : Db := { Db.empty with
  secrets :=
    { rows := [tamperedRow]
      compatible := List.pairwise_singleton _ _
      admitted := fun r hr => by
        obtain rfl := List.mem_singleton.mp hr
        exact ⟨by decide, fun _ h => nomatch h⟩ } }

/-- The rotation of its KEK. -/
def rotated : Db × Except Status Unit :=
  (rotateKek toy sampleKek nextKek).run Stmt.exec (fun _ => ⟨false, none, Block.zero⟩) tamperedDb

theorem rotated_runs :
    (rotateKek toy sampleKek nextKek).Runs Stmt.exec tamperedDb rotated.1 (.ok ()) := by
  have hok : rotated.2 = .ok () := by decide +kernel
  rw [← hok]
  exact Prog.runs_run _

theorem rejected_row_accepted :
    ¬ ∀ (so : Sodium) (oldKek newKek : Block 32) (db db' : Db),
      (rotateKek so oldKek newKek).Runs Stmt.exec db db' (.ok ()) →
        List.Forall₂ (Preserved so oldKek newKek) db.secrets.rows db'.secrets.rows := by
  intro h
  have hrows := h toy sampleKek nextKek tamperedDb rotated.1 rotated_runs
  obtain ⟨r', rest, hr', -, heq⟩ := List.forall₂_cons_left_iff.mp hrows
  have hnew : rotated.1.secrets.rows.map (fun r => decryptRow toy nextKek r 1) = [.ok [42]] := by
    decide +kernel
  have hold : decryptRow toy sampleKek tamperedRow 1 = .error .crypto := by decide +kernel
  rw [heq, List.map_cons] at hnew
  have hacc := (hr' 1 [42]).mp (List.cons.inj hnew).1
  rw [hold] at hacc
  exact nomatch hacc

theorem tampered_row_not_preserved :
    List.Forall₂ (fun r r' => Preserved toy sampleKek nextKek r r' ↔
        (KekCommitted toy sampleKek r ∨
          ∀ capacity plaintext, ¬ OpensTo toy sampleKek r capacity plaintext))
      tamperedDb.secrets.rows rotated.1.secrets.rows :=
  rotation_iff (fun r hr => by
    obtain rfl := List.mem_singleton.mp hr
    decide) rotated_runs

end Fuin.Commitments

import Fuin.Store.Database

/-! # Envelope encryption

A secret is encrypted under a key of its own (DEK), and this key under the key of the vault (KEK);
both layers are bound to the row by the associated data (`buildAad`) and to their keys by the
commitments. What `crypto_engine_encrypt_with_algorithm` produces is described by `Sealed`, and it is
decrypted by `crypto_engine_decrypt` to the same plaintext (`decryptBody_of_sealed`). -/

namespace Fuin.CryptoEngine

open Fuin.Utils Fuin.Crypto Fuin.Lib.Program Fuin.Store.Secrets Fuin.Store.Database

/-- `encrypted_secret_t`. -/
structure EncryptedSecret where
  algorithm : CString
  ciphertext : Bytes
  encryptedDek : Bytes
  nonce : Bytes
  dekNonce : Bytes
  keyCommitment : Bytes
  deriving DecidableEq

def aesName : CString := ⟨ascii "AES-256-GCM", by decide⟩

def xchachaName : CString := ⟨ascii "XChaCha20-Poly1305", by decide⟩

/-- The second name of XChaCha20-Poly1305. -/
def chachaName : CString := ⟨ascii "ChaCha20-Poly1305", by decide⟩

def aegisName : CString := ⟨ascii "AEGIS-256", by decide⟩

/-- `crypto_engine_set_algorithm_name`. -/
def algorithmName : Algorithm → CString
  | .aes256Gcm => aesName
  | .xchacha20Poly1305 => xchachaName
  | .aegis256 => aegisName

/-- `crypto_engine_algorithm_from_name`. -/
def algorithmFromName (so : Sodium) (name : CString) : Except Status Algorithm :=
  if name = aesName then .ok .aes256Gcm
  else if name = xchachaName ∨ name = chachaName then .ok .xchacha20Poly1305
  else if so.hasAegis ∧ name = aegisName then .ok .aegis256
  else .error .invalidArgument

/-- `crypto_engine_algorithm_is_available`. -/
def algorithmIsAvailable (so : Sodium) (a : Algorithm) : Except Status Unit :=
  require (a = .aes256Gcm → so.aesAvailable) .crypto

/-- `crypto_engine_select_algorithm`; no name selects the default. -/
def selectAlgorithm (so : Sodium) : Option CString → Except Status Algorithm
  | none => .ok (if so.hasAegis then .aegis256 else .xchacha20Poly1305)
  | some name => do
    require (name.bytes ≠ []) .invalidArgument
    let a ← algorithmFromName so name
    algorithmIsAvailable so a
    return a

/-- `crypto_engine_build_row_identity`: the hash of id and name, each with its length, in hex. -/
def buildRowIdentity (so : Sodium) (id name : CString) : Except Status CString := do
  require (id.bytes ≠ [] ∧ name.bytes ≠ []) .invalidArgument
  return bin2hex (so.sha256 (ascii "Fuin secret row identity v1" ++ u64le id.bytes.length ++
    id.bytes ++ u64le name.bytes.length ++ name.bytes)).1

/-- `crypto_engine_build_aad`: `identity:version`. -/
def buildAad (secretId : CString) (version : ℤ) : Except Status Bytes := do
  let aad := secretId.bytes ++ [58] ++ decimal version.toNat
  require (aad.length < 256) .invalidArgument
  return aad

/-- `CRYPTO_ENGINE_COMMIT_DOMAIN_KEK`. -/
def kekDomain : Bytes := ascii "Fuin-kek-commit-v1"

/-- `CRYPTO_ENGINE_COMMIT_DOMAIN_DEK`. -/
def dekDomain : Bytes := ascii "Fuin-dek-commit-v1"

/-- `crypto_engine_commitment`. -/
def commitment (so : Sodium) (key : Block 32) (domain nonce : Bytes) : Bytes :=
  (so.generichash key (domain ++ nonce)).1

/-- `crypto_engine_build_nonce`: AES nonces are built from the identity and the counter, the others
are drawn. -/
def buildNonce (so : Sodium) (a : Algorithm) (secretId : CString) (nonceCounter : ℤ) : Sql Bytes :=
  match a with
  | .aes256Gcm => do
    Sql.lib .crypto
    return (so.sha256 secretId.bytes).1.take 4 ++ u64le nonceCounter
  | a => do
    let nonce ← Sql.random a.nonceBytes
    return nonce.1

/-- What is stored for a plaintext, given everything that was drawn. -/
def sealWith (so : Sodium) (a : Algorithm) (kek dek : Block 32) (aad nonce dekNonce plaintext : Bytes) :
    EncryptedSecret where
  algorithm := algorithmName a
  ciphertext := so.encrypt a dek nonce aad plaintext
  encryptedDek := so.encrypt a kek dekNonce aad dek.1
  nonce := nonce
  dekNonce := dekNonce
  keyCommitment := commitment so kek kekDomain dekNonce ++ commitment so dek dekDomain nonce

def sizeMax : ℕ := 18446744073709551615

/-- `crypto_engine_encrypt_with_algorithm`. -/
def encryptWithAlgorithm (so : Sodium) (plaintext : Bytes) (kek : Block 32) (secretId : CString)
    (version nonceCounter : ℤ) (algorithm : Option CString) : Sql EncryptedSecret := do
  Prog.ofExcept (require (secretId.bytes ≠ []) .invalidArgument)
  Sql.lib .crypto
  let aad ← Prog.ofExcept (buildAad secretId version)
  let a ← Prog.ofExcept (selectAlgorithm so algorithm)
  Prog.ofExcept (require (plaintext.length ≤ sizeMax - a.tagBytes) .invalidArgument)
  let nonce ← buildNonce so a secretId nonceCounter
  Sql.lib .storage
  let dek ← Sql.random 32
  Sql.lib .crypto
  let dekNonce ← Sql.random a.nonceBytes
  Sql.libs [.crypto, .crypto, .crypto]
  return sealWith so a kek dek aad nonce dekNonce.1 plaintext

/-- The checks that `crypto_engine_decrypt` makes before it allocates: the cipher, the associated
data, the lengths and the commitment to the KEK. -/
def decryptHeader (so : Sodium) (input : EncryptedSecret) (kek : Block 32) (secretId : CString)
    (version : ℤ) (capacity : ℕ) : Except Status (Algorithm × Bytes) := do
  let a ← algorithmFromName so input.algorithm
  algorithmIsAvailable so a
  let aad ← buildAad secretId version
  require (a.tagBytes ≤ input.ciphertext.length ∧ input.encryptedDek.length = 32 + a.tagBytes ∧
    input.nonce.length = a.nonceBytes ∧ input.dekNonce.length = input.nonce.length ∧
    input.keyCommitment.length = 64 ∧ input.ciphertext.length - a.tagBytes ≤ capacity)
    .invalidArgument
  require (commitment so kek kekDomain input.dekNonce = input.keyCommitment.take 32) .crypto
  return (a, aad)

/-- A plaintext read as a key. -/
def asKey (b : Bytes) : Except Status (Block 32) :=
  if h : b.length = 32 then .ok ⟨b, h⟩ else .error .crypto

/-- A decryption that fails is a `SM_ERR_CRYPTO`. -/
def opened : Option Bytes → Except Status Bytes
  | none => .error .crypto
  | some m => .ok m

/-- What `crypto_engine_decrypt` does then: unwrap the DEK, check its commitment, decrypt. -/
def decryptBody (so : Sodium) (input : EncryptedSecret) (kek : Block 32) (a : Algorithm)
    (aad : Bytes) : Except Status Bytes := do
  let wrapped ← opened (so.decrypt a kek input.dekNonce aad input.encryptedDek)
  let dek ← asKey wrapped
  require (commitment so dek dekDomain input.nonce = input.keyCommitment.drop 32) .crypto
  opened (so.decrypt a dek input.nonce aad input.ciphertext)

/-- `crypto_engine_decrypt` when no library call fails. -/
def decrypted (so : Sodium) (input : EncryptedSecret) (kek : Block 32) (secretId : CString)
    (version : ℤ) (capacity : ℕ) : Except Status Bytes := do
  require (secretId.bytes ≠ []) .invalidArgument
  let h ← decryptHeader so input kek secretId version capacity
  decryptBody so input kek h.1 h.2

/-- `crypto_engine_decrypt`. -/
def decrypt (so : Sodium) (input : EncryptedSecret) (kek : Block 32) (secretId : CString)
    (version : ℤ) (capacity : ℕ) : Sql Bytes := do
  Prog.ofExcept (require (secretId.bytes ≠ []) .invalidArgument)
  Sql.lib .crypto
  let h ← Prog.ofExcept (decryptHeader so input kek secretId version capacity)
  Sql.libs [.crypto, .storage]
  Prog.ofExcept (decryptBody so input kek h.1 h.2)

/-! ### What is sealed can be opened -/

variable {so : Sodium}

/-- The encryption of a plaintext for a row and a KEK, with some DEK and some nonces. -/
def Sealed (so : Sodium) (kek : Block 32) (secretId : CString) (version : ℤ) (plaintext : Bytes)
    (e : EncryptedSecret) : Prop :=
  ∃ a aad dek nonce dekNonce, (a = .aes256Gcm → so.aesAvailable) ∧ (a = .aegis256 → so.hasAegis) ∧
    secretId.bytes ≠ [] ∧ buildAad secretId version = .ok aad ∧ nonce.length = a.nonceBytes ∧
    dekNonce.length = a.nonceBytes ∧ e = sealWith so a kek dek aad nonce dekNonce plaintext

theorem algorithmFromName_eq_ok {name : CString} {a : Algorithm}
    (h : algorithmFromName so name = .ok a) : a = .aegis256 → so.hasAegis := by
  unfold algorithmFromName at h
  split_ifs at h with h1 h2 h3
  · cases h; exact fun h => nomatch h
  · cases h; exact fun h => nomatch h
  · cases h; exact fun _ => h3.1

theorem selectAlgorithm_eq_ok {o : Option CString} {a : Algorithm}
    (h : selectAlgorithm so o = .ok a) :
    (a = .aes256Gcm → so.aesAvailable) ∧ (a = .aegis256 → so.hasAegis) := by
  cases o with
  | none =>
    simp only [selectAlgorithm, Except.ok.injEq] at h
    split_ifs at h with h1
    · subst h; exact ⟨fun h => (nomatch h), fun _ => h1⟩
    · subst h; exact ⟨fun h => (nomatch h), fun h => (nomatch h)⟩
  | some name =>
    simp only [selectAlgorithm, algorithmIsAvailable, bind_eq_ok, require_eq_ok, pure_eq_ok] at h
    obtain ⟨-, -, b, hb, -, hav, rfl⟩ := h
    exact ⟨hav, algorithmFromName_eq_ok hb⟩

theorem algorithmFromName_name {a : Algorithm} (h : a = .aegis256 → so.hasAegis) :
    algorithmFromName so (algorithmName a) = .ok a := by
  cases a with
  | aes256Gcm => rfl
  | xchacha20Poly1305 => rfl
  | aegis256 =>
    have ha := h rfl
    unfold algorithmFromName
    rw [if_neg (by decide), if_neg (by decide), if_pos ⟨ha, rfl⟩]

theorem length_commitment (key : Block 32) (domain nonce : Bytes) :
    (commitment so key domain nonce).length = 32 := (so.generichash _ _).2

theorem asKey_eq_ok {b : Bytes} {key : Block 32} : asKey b = .ok key ↔ b = key.1 := by
  unfold asKey
  constructor
  · intro h
    split_ifs at h
    exact congrArg Subtype.val (Except.ok.inj h)
  · rintro rfl
    exact dif_pos key.2

theorem opened_eq_ok {o : Option Bytes} {b : Bytes} : opened o = .ok b ↔ o = some b := by
  cases o with
  | none => exact ⟨fun h => (nomatch h), fun h => (nomatch h)⟩
  | some m => exact ⟨fun h => congrArg some (Except.ok.inj h), fun h => by cases h; rfl⟩

/-- What `crypto_engine_decrypt` checks before it uses the KEK, but for the commitment to it. -/
def Shaped (so : Sodium) (e : EncryptedSecret) (secretId : CString) (version : ℤ) (capacity : ℕ)
    (a : Algorithm) (aad : Bytes) : Prop :=
  algorithmFromName so e.algorithm = .ok a ∧ (a = .aes256Gcm → so.aesAvailable) ∧
    buildAad secretId version = .ok aad ∧
    (a.tagBytes ≤ e.ciphertext.length ∧ e.encryptedDek.length = 32 + a.tagBytes ∧
      e.nonce.length = a.nonceBytes ∧ e.dekNonce.length = e.nonce.length ∧
      e.keyCommitment.length = 64 ∧ e.ciphertext.length - a.tagBytes ≤ capacity)

/-- **When a ciphertext is accepted**: both commitments are right and both ciphers open. -/
theorem decrypted_eq_ok {e : EncryptedSecret} {kek : Block 32} {secretId : CString} {version : ℤ}
    {capacity : ℕ} {plaintext : Bytes} :
    decrypted so e kek secretId version capacity = .ok plaintext ↔ secretId.bytes ≠ [] ∧
      ∃ a aad dek, Shaped so e secretId version capacity a aad ∧
        commitment so kek kekDomain e.dekNonce = e.keyCommitment.take 32 ∧
        so.decrypt a kek e.dekNonce aad e.encryptedDek = some dek.1 ∧
        commitment so dek dekDomain e.nonce = e.keyCommitment.drop 32 ∧
        so.decrypt a dek e.nonce aad e.ciphertext = some plaintext := by
  simp only [decrypted, decryptHeader, decryptBody, algorithmIsAvailable, bind_eq_ok,
    require_eq_ok, pure_eq_ok, opened_eq_ok, asKey_eq_ok, Shaped]
  constructor
  · rintro ⟨-, hid, ⟨a, aad⟩, ⟨b, hb, -, hav, aad', haad, -, hlen, -, hkek, heq⟩, w, hw, dek, rfl, -,
      hdek, hp⟩
    cases heq
    exact ⟨hid, a, aad, dek, ⟨hb, hav, haad, hlen⟩, hkek, hw, hdek, hp⟩
  · rintro ⟨hid, a, aad, dek, ⟨ha, hav, haad, hlen⟩, hkek, hw, hdek, hp⟩
    exact ⟨(), hid, (a, aad), ⟨a, ha, (), hav, aad, haad, (), hlen, (), hkek, rfl⟩, _, hw, dek, rfl,
      (), hdek, hp⟩

theorem buildRowIdentity_ne {id name identity : CString}
    (h : buildRowIdentity so id name = .ok identity) : identity.bytes ≠ [] := by
  obtain ⟨_, -, hret⟩ := bind_eq_ok.mp h
  rw [← Except.ok.inj hret]
  refine List.length_pos_iff.mp ?_
  rw [length_bin2hex, (so.sha256 _).2]
  decide

/-- **What was encrypted decrypts to the plaintext**, into any buffer that holds it. -/
theorem decrypted_of_sealed {kek : Block 32} {secretId : CString} {version : ℤ} {plaintext : Bytes}
    {e : EncryptedSecret} {capacity : ℕ} (h : Sealed so kek secretId version plaintext e)
    (hcap : plaintext.length ≤ capacity) :
    decrypted so e kek secretId version capacity = .ok plaintext := by
  obtain ⟨a, aad, dek, nonce, dekNonce, haes, haegis, hid, haad, hn, hdn, rfl⟩ := h
  have hkek : (commitment so kek kekDomain dekNonce).length = 32 := length_commitment _ _ _
  have hlen : (commitment so dek dekDomain nonce).length = 32 := length_commitment _ _ _
  refine bind_eq_ok.mpr ⟨(), require_eq_ok.mpr hid, bind_eq_ok.mpr ⟨(a, aad), ?_, ?_⟩⟩
  · refine bind_eq_ok.mpr ⟨a, algorithmFromName_name haegis, ?_⟩
    refine bind_eq_ok.mpr ⟨(), require_eq_ok.mpr haes, ?_⟩
    refine bind_eq_ok.mpr ⟨aad, haad, ?_⟩
    refine bind_eq_ok.mpr ⟨(), require_eq_ok.mpr ?_, ?_⟩
    · simp only [sealWith, Sodium.length_encrypt, dek.2, List.length_append, hkek, hlen]
      exact ⟨Nat.le_add_left _ _, trivial, hn, hdn.trans hn.symm, trivial, by omega⟩
    · refine bind_eq_ok.mpr ⟨(), require_eq_ok.mpr ?_, rfl⟩
      exact (List.take_left' hkek).symm
  · refine bind_eq_ok.mpr ⟨dek.1, ?_, bind_eq_ok.mpr ⟨dek, dif_pos dek.2, ?_⟩⟩
    · simp only [sealWith, Sodium.decrypt_encrypt, opened]
    · refine bind_eq_ok.mpr ⟨(), require_eq_ok.mpr (List.drop_left' hkek).symm, ?_⟩
      simp only [sealWith, Sodium.decrypt_encrypt, opened]

theorem readOnly_buildNonce {a : Algorithm} {secretId : CString} {nonceCounter : ℤ} :
    Sql.ReadOnly (buildNonce so a secretId nonceCounter) := by
  cases a with
  | aes256Gcm => exact Sql.readOnly_lib.bind fun _ => trivial
  | xchacha20Poly1305 => exact Sql.readOnly_random.bind fun _ => trivial
  | aegis256 => exact Sql.readOnly_random.bind fun _ => trivial

theorem buildNonce_length {a : Algorithm} {secretId : CString} {nonceCounter : ℤ}
    {M : Ambient Db Input} {db db' : Db} {nonce : Bytes}
    (h : (buildNonce so a secretId nonceCounter).RunsIn Stmt.exec M db db' (.ok nonce)) :
    nonce.length = a.nonceBytes := by
  cases a with
  | aes256Gcm =>
    obtain ⟨db₁, -, -, h⟩ := Sql.runsIn_lib_bind h
    cases h
    simp [(so.sha256 _).2, Algorithm.nonceBytes]
  | xchacha20Poly1305 =>
    obtain ⟨r, db₁, -, -, h⟩ := Sql.runsIn_random_bind h
    cases h
    exact r.2
  | aegis256 =>
    obtain ⟨r, db₁, -, -, h⟩ := Sql.runsIn_random_bind h
    cases h
    exact r.2

theorem readOnly_encryptWithAlgorithm {plaintext : Bytes} {kek : Block 32} {secretId : CString}
    {version nonceCounter : ℤ} {algorithm : Option CString} :
    Sql.ReadOnly (encryptWithAlgorithm so plaintext kek secretId version nonceCounter algorithm) := by
  refine Prog.readOnly_ofExcept.bind fun _ => Sql.readOnly_lib.bind fun _ => ?_
  refine Prog.readOnly_ofExcept.bind fun aad => Prog.readOnly_ofExcept.bind fun a => ?_
  refine Prog.readOnly_ofExcept.bind fun _ => readOnly_buildNonce.bind fun nonce => ?_
  refine Sql.readOnly_lib.bind fun _ => Sql.readOnly_random.bind fun dek => ?_
  refine Sql.readOnly_lib.bind fun _ => Sql.readOnly_random.bind fun dekNonce => ?_
  exact Sql.readOnly_libs.bind fun _ => trivial

/-- **What is encrypted is sealed**, with the algorithm that was asked for. -/
theorem encryptWithAlgorithm_runsIn {plaintext : Bytes} {kek : Block 32} {secretId : CString}
    {version nonceCounter : ℤ} {algorithm : Option CString} {M : Ambient Db Input} {db db' : Db}
    {e : EncryptedSecret}
    (h : (encryptWithAlgorithm so plaintext kek secretId version nonceCounter algorithm).RunsIn
      Stmt.exec M db db' (.ok e)) :
    Sealed so kek secretId version plaintext e ∧
      ∃ a, selectAlgorithm so algorithm = .ok a ∧ e.algorithm = algorithmName a := by
  obtain ⟨_, hid, h⟩ := Prog.runsIn_ofExcept_bind h
  rw [require_eq_ok] at hid
  obtain ⟨db₁, -, h⟩ := Sql.runsIn_lib_bind h
  obtain ⟨aad, haad, h⟩ := Prog.runsIn_ofExcept_bind h
  obtain ⟨a, ha, h⟩ := Prog.runsIn_ofExcept_bind h
  obtain ⟨_, -, h⟩ := Prog.runsIn_ofExcept_bind h
  obtain ⟨nonce, db₂, -, hn, h⟩ := Prog.runsIn_readOnly_bind readOnly_buildNonce h
  obtain ⟨db₃, -, h⟩ := Sql.runsIn_lib_bind h
  obtain ⟨dek, db₄, -, h⟩ := Sql.runsIn_random_bind h
  obtain ⟨db₅, -, h⟩ := Sql.runsIn_lib_bind h
  obtain ⟨dekNonce, db₆, -, h⟩ := Sql.runsIn_random_bind h
  obtain ⟨db₇, -, -, h⟩ := Sql.runsIn_libs_bind h
  cases h
  obtain ⟨haes, haegis⟩ := selectAlgorithm_eq_ok ha
  exact ⟨⟨a, aad, dek, nonce, dekNonce.1, haes, haegis, hid, haad, buildNonce_length hn, dekNonce.2,
    rfl⟩, a, ha, rfl⟩

/-- An algorithm that was stored is selected again. -/
theorem selectAlgorithm_name {a b : Algorithm}
    (h : selectAlgorithm so (some (algorithmName a)) = .ok b) : b = a := by
  simp only [selectAlgorithm, bind_eq_ok, pure_eq_ok] at h
  obtain ⟨-, -, c, hc, -, -, rfl⟩ := h
  cases a with
  | aes256Gcm =>
    unfold algorithmFromName at hc
    rw [if_pos (by decide)] at hc
    exact (Except.ok.inj hc).symm
  | xchacha20Poly1305 =>
    unfold algorithmFromName at hc
    rw [if_neg (by decide), if_pos (by decide)] at hc
    exact (Except.ok.inj hc).symm
  | aegis256 =>
    unfold algorithmFromName at hc
    rw [if_neg (by decide), if_neg (by decide)] at hc
    split_ifs at hc
    exact (Except.ok.inj hc).symm

theorem readOnly_decrypt {e : EncryptedSecret} {kek : Block 32} {secretId : CString} {version : ℤ}
    {capacity : ℕ} : Sql.ReadOnly (decrypt so e kek secretId version capacity) := by
  refine Prog.readOnly_ofExcept.bind fun _ => Sql.readOnly_lib.bind fun _ => ?_
  refine Prog.readOnly_ofExcept.bind fun _ => Sql.readOnly_libs.bind fun _ => ?_
  exact Prog.readOnly_ofExcept

/-- What a run decrypts is what `decrypted` computes. -/
theorem decrypt_runsIn {e : EncryptedSecret} {kek : Block 32} {secretId : CString} {version : ℤ}
    {capacity : ℕ} {M : Ambient Db Input} {db db' : Db} {plaintext : Bytes}
    (h : (decrypt so e kek secretId version capacity).RunsIn Stmt.exec M db db' (.ok plaintext)) :
    decrypted so e kek secretId version capacity = .ok plaintext := by
  obtain ⟨_, hid, h⟩ := Prog.runsIn_ofExcept_bind h
  obtain ⟨db₁, -, h⟩ := Sql.runsIn_lib_bind h
  obtain ⟨hd, hh, h⟩ := Prog.runsIn_ofExcept_bind h
  obtain ⟨db₂, -, h⟩ := Sql.runsIn_libs_bind h
  obtain ⟨-, hb⟩ := Prog.runsIn_ofExcept h
  exact bind_eq_ok.mpr ⟨_, hid, bind_eq_ok.mpr ⟨hd, hh, hb.symm⟩⟩

/-! ### Rows -/

/-- The encrypted columns of a row. -/
def encryptedOf (r : SecretRow) : EncryptedSecret where
  algorithm := columnText r.algorithm
  ciphertext := r.ciphertext
  encryptedDek := r.encryptedDek
  nonce := r.nonce
  dekNonce := r.dekNonce
  keyCommitment := r.keyCommitment

/-- The row holds a plaintext, sealed under a KEK and bound to its id, name and version. -/
def Holds (so : Sodium) (kek : Block 32) (r : SecretRow) (plaintext : Bytes) : Prop :=
  ∃ identity, buildRowIdentity so (columnText r.id) (columnText r.name) = .ok identity ∧
    Sealed so kek identity r.version plaintext (encryptedOf r)

theorem Sealed.unique {kek : Block 32} {secretId : CString} {version : ℤ} {p q : Bytes}
    {e : EncryptedSecret} (hp : Sealed so kek secretId version p e)
    (hq : Sealed so kek secretId version q e) : p = q := by
  have h1 := decrypted_of_sealed hp (le_max_left p.length q.length)
  have h2 := decrypted_of_sealed hq (le_max_right p.length q.length)
  exact Except.ok.inj (h1.symm.trans h2)

/-- A row holds one plaintext only. -/
theorem Holds.unique {kek : Block 32} {r : SecretRow} {p q : Bytes} (hp : Holds so kek r p)
    (hq : Holds so kek r q) : p = q := by
  obtain ⟨i, hi, hp⟩ := hp
  obtain ⟨j, hj, hq⟩ := hq
  cases hi.symm.trans hj
  exact hp.unique hq

end Fuin.CryptoEngine

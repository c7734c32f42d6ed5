import Fuin.Backup.Capsule
import Fuin.Lib.Buffer

/-! # Importing a backup

`backup_pqc_import` reads a file that anybody may have written: it walks over the header with offsets
and lengths that the header gives. Whatever the bytes are, every read stays inside the file and no
difference of sizes is negative; bytes that pass the checks are exactly what `backup_pqc_export` would
have assembled from the fields that were parsed; and the capsule of a snapshot is parsed to the fields
it was assembled from, so that the snapshot comes back (`capsule_format`). -/

namespace Fuin.Backup.Import

open Fuin.Utils Fuin.Crypto Fuin.CryptoEngine Fuin.Lib.Frames Fuin.Lib.Buffer Fuin.Backup.Capsule

/-- What `backup_pqc_import` uses beside the hash and the cipher: the private keys of the file that
was given, and the two key agreements. -/
structure PrivateLibrary where
  /-- `backup_load_private_keypair`: the KEM key and the X25519 key. -/
  loadPrivateKeypair : Except Status (Bytes × Bytes)
  /-- `backup_decapsulate`: private key and ciphertext. -/
  decapsulate : Bytes → Bytes → Except Status Bytes
  /-- `EVP_PKEY_new_raw_public_key_ex` of an X25519 key. -/
  newRawPublicKey : Bytes → Option Bytes
  /-- `backup_x25519_derive`: private key and the key of the peer. -/
  x25519Derive : Bytes → Bytes → Except Status Bytes

/-- What is parsed of a capsule. -/
structure Fields where
  encap : Bytes
  ephemeralPublic : Bytes
  kemCt : Bytes
  nonce : Bytes
  auditRoot : Block 32
  /-- The bytes before the ciphertext, which are its associated data. -/
  aad : Bytes
  ciphertext : Bytes
  plaintextLen : ℕ
  deriving DecidableEq

/-- The lengths in the fixed header. -/
structure Lengths where
  algorithm : ℕ
  encap : ℕ
  nonce : ℕ
  auditRoot : ℕ
  ciphertext : ℕ
  plaintext : ℕ

/-- `backup_read_all`; `none` is a file that cannot be opened. -/
def readAll (file : Option Bytes) (maxBytes : ℕ) : Except Status Bytes := do
  let bytes ← file.elim (.error .storage) .ok
  require (bytes.length ≤ maxBytes) .invalidArgument
  require (bytes ≠ []) .storage
  return bytes

/-- `backup_parse_hybrid_encap`. -/
def parseHybridEncap (encap : Bytes) : Checked Status (Bytes × Bytes) := do
  check (4 < encap.length) .invalidArgument
  let encodedEphemeralLen ← readLe 4 encap 0
  let room ← sub encap.length 4
  check (encodedEphemeralLen = 32 ∧ encodedEphemeralLen ≤ room) .crypto
  let ephemeralPublic ← slice encap 4 encodedEphemeralLen
  let offset := 4 + encodedEphemeralLen
  check (offset < encap.length) .crypto
  let kemCtLen ← sub encap.length offset
  let kemCt ← slice encap offset kemCtLen
  return (ephemeralPublic, kemCt)

/-- The fixed header in `backup_pqc_import`. -/
def parseFixedHeader (capsule : Bytes) : Checked Status Lengths := do
  check (44 ≤ capsule.length) .storage
  let start ← slice capsule 0 8
  check (start = magic) .crypto
  let version ← readLe 4 capsule 8
  check (version = 1) .crypto
  let algorithmLen ← readLe 4 capsule 12
  let encapLen ← readLe 4 capsule 16
  let nonceLen ← readLe 4 capsule 20
  let auditRootLen ← readLe 4 capsule 24
  let ciphertextLen ← readLe 8 capsule 28
  let expectedPlaintextLen ← readLe 8 capsule 36
  check (algorithmLen = capsuleAlgorithm.length ∧ nonceLen = 24 ∧ auditRootLen = 32 ∧
    16 ≤ ciphertextLen) .crypto
  let plaintextLen ← sub ciphertextLen 16
  check (expectedPlaintextLen = plaintextLen) .crypto
  return ⟨algorithmLen, encapLen, nonceLen, auditRootLen, ciphertextLen, expectedPlaintextLen⟩

/-- The rest of the capsule in `backup_pqc_import`, and its encapsulated keys. -/
def parseCapsule (capsule : Bytes) : Checked Status Fields := do
  let len ← parseFixedHeader capsule
  check (44 ≤ capsule.length) .storage
  let room ← sub capsule.length 44
  check (len.algorithm ≤ room) .storage
  let algorithm ← slice capsule 44 len.algorithm
  let offset := 44 + len.algorithm
  check (algorithm = capsuleAlgorithm) .crypto
  let room ← sub capsule.length offset
  check (len.encap ≤ room) .crypto
  let encap ← slice capsule offset len.encap
  let offset := offset + len.encap
  let room ← sub capsule.length offset
  check (len.nonce ≤ room) .storage
  let nonce ← slice capsule offset len.nonce
  let offset := offset + len.nonce
  let room ← sub capsule.length offset
  check (len.auditRoot ≤ room) .storage
  let auditRoot ← block 32 capsule offset
  let offset := offset + len.auditRoot
  let room ← sub capsule.length offset
  check (len.ciphertext = room) .storage
  let ciphertext ← slice capsule offset len.ciphertext
  let aad ← slice capsule 0 offset
  let (ephemeralPublic, kemCt) ← parseHybridEncap encap
  return ⟨encap, ephemeralPublic, kemCt, nonce, auditRoot, aad, ciphertext, len.plaintext⟩

/-- `backup_pqc_import` up to the private keys, on the content of the file. -/
def parseFile (file : Option Bytes) : Checked Status Fields := do
  let capsule ← checked (readAll file (maxDbBytes + 8192))
  parseCapsule capsule

/-- `backup_pqc_import`: the bytes it writes. -/
def pqcImport (so : Sodium) (lib : KeyLibrary) (own : PrivateLibrary) (passphrase : CString)
    (outputPath : CString) (file : Option Bytes) : Checked Status Bytes := do
  check (passphrase.bytes ≠ [] ∧ outputPath.bytes ≠ []) .invalidArgument
  let fields ← parseFile file
  let (kemKey, x25519Key) ← checked own.loadPrivateKeypair
  let kemSharedSecret ← checked (own.decapsulate kemKey fields.kemCt)
  check (fields.ephemeralPublic.length = 32) .invalidArgument
  let peer ← checked ((own.newRawPublicKey fields.ephemeralPublic).elim (.error .crypto) .ok)
  let x25519SharedSecret ← checked (own.x25519Derive x25519Key peer)
  let key ← checked
    (deriveCapsuleKey lib kemSharedSecret x25519SharedSecret fields.encap fields.auditRoot)
  let plaintext ← checked ((so.decrypt .xchacha20Poly1305 key fields.nonce fields.aad
    fields.ciphertext).elim (.error .crypto) .ok)
  check (plaintext.length = fields.plaintextLen) .crypto
  return plaintext

/-- The capsule is what `backup_pqc_export` assembles from the fields. -/
structure Fields.Encodes (f : Fields) (capsule : Bytes) : Prop where
  encap : buildHybridEncap f.ephemeralPublic f.kemCt = .ok f.encap
  aad : ∃ header, buildFixedHeader capsuleAlgorithm.length f.encap.length f.nonce.length 32
    (f.plaintextLen + 16) f.plaintextLen = .ok header ∧
      buildCapsuleAad header capsuleAlgorithm f.encap f.nonce f.auditRoot = .ok f.aad
  nonce : f.nonce.length = 24
  ciphertext : f.ciphertext.length = f.plaintextLen + 16
  capsule : capsule = f.aad ++ f.ciphertext

variable {so : Sodium} {lib : KeyLibrary} {own : PrivateLibrary}

/-! ### Bytes that pass the checks -/

theorem safe_parseHybridEncap (encap : Bytes) :
    Safe (fun p => p.1.length = 32 ∧ p.2 ≠ [] ∧ encap = writeU32le 32 ++ p.1 ++ p.2)
      (parseHybridEncap encap) := by
  refine safe_check_bind fun h4 => safe_readLe_bind (by omega) fun v hv e1 => ?_
  refine safe_sub_bind (by omega) (safe_check_bind ?_)
  rintro ⟨rfl, hroom⟩
  refine safe_slice_bind (by omega) fun eph heph e2 => safe_check_bind fun hlt => ?_
  refine safe_sub_bind (by omega) (safe_slice_bind (by omega) fun ct hct e3 => ?_)
  refine ⟨heph, List.ne_nil_of_length_pos (by rw [hct]; omega), ?_⟩
  rw [List.drop_zero] at e1
  rw [List.drop_eq_nil_of_le (show encap.length ≤ 4 + 32 + (encap.length - (4 + 32)) by omega),
    List.append_nil] at e3
  calc encap = leBytes 4 32 ++ (eph ++ ct) := by
        rw [← e3, ← e2]
        exact e1
    _ = writeU32le 32 ++ eph ++ ct := (List.append_assoc _ _ _).symm

theorem u64le_natCast {n : ℕ} (h : n < 256 ^ 8) : u64le n = leBytes 8 n := by
  unfold u64le
  congr 1
  omega

/-- **The fixed header** is the one that is built from its lengths. -/
theorem safe_parseFixedHeader (capsule : Bytes) :
    Safe (fun len => len.algorithm = capsuleAlgorithm.length ∧ len.nonce = 24 ∧ len.auditRoot = 32 ∧
        len.ciphertext = len.plaintext + 16 ∧ 44 ≤ capsule.length ∧
        ∃ header, buildFixedHeader capsuleAlgorithm.length len.encap 24 32 (len.plaintext + 16)
          len.plaintext = .ok header ∧ capsule = header ++ capsule.drop 44)
      (parseFixedHeader capsule) := by
  refine safe_check_bind fun h44 => ?_
  have hmagic : magic.length = 8 := by decide
  refine safe_slice_bind (by omega) fun start hstart e0 => safe_check_bind ?_
  rintro rfl
  refine safe_readLe_bind (by omega) fun version hversion e8 => safe_check_bind ?_
  rintro rfl
  refine safe_readLe_bind (by omega) fun a ha e12 => safe_readLe_bind (by omega) fun e he e16 => ?_
  refine safe_readLe_bind (by omega) fun n hn e20 => safe_readLe_bind (by omega) fun r hr e24 => ?_
  refine safe_readLe_bind (by omega) fun c hc e28 => safe_readLe_bind (by omega) fun p hp e36 => ?_
  refine safe_check_bind ?_
  rintro ⟨rfl, rfl, rfl, h16⟩
  refine safe_sub_bind h16 (safe_check_bind ?_)
  rintro rfl
  have hcp : c - 16 + 16 = c := Nat.sub_add_cancel h16
  refine ⟨rfl, rfl, rfl, hcp.symm, h44, _, bind_eq_ok.mpr ⟨(), require_eq_ok.mpr ?_, rfl⟩, ?_⟩
  · have he' : e ≤ uint32Max := Nat.le_of_lt_succ he
    exact ⟨by decide, he', by decide, by decide⟩
  · rw [List.drop_zero] at e0
    rw [hcp, u64le_natCast hc, u64le_natCast hp]
    simp only [List.append_assoc, writeU32le]
    calc capsule = magic ++ capsule.drop 8 := e0
      _ = _ := by rw [e8, e12, e16, e20, e24, e28, e36]

/-- **What is parsed of a capsule** encodes it. -/
theorem safe_parseCapsule {capsule : Bytes} (hsize : capsule.length ≤ sizeMax) :
    Safe (fun f => f.Encodes capsule) (parseCapsule capsule) := by
  refine safe_bind ((safe_parseFixedHeader capsule).mono ?_)
  rintro ⟨a, e, n, r, c, p⟩ ⟨ha, hn, hr, hc, h44, header, hheader, e44⟩
  dsimp only at ha hn hr hc hheader ⊢
  subst ha hn hr hc
  have hlen := length_buildFixedHeader hheader
  refine safe_check_bind fun _ => safe_sub_bind h44 (safe_check_bind fun ha => ?_)
  refine safe_slice_bind (by omega) fun algorithm _ ea => safe_check_bind ?_
  rintro rfl
  refine safe_sub_bind (by omega) (safe_check_bind fun he => ?_)
  refine safe_slice_bind (by omega) fun encap hencap ee => ?_
  refine safe_sub_bind (by omega) (safe_check_bind fun hn => ?_)
  refine safe_slice_bind (by omega) fun nonce hnonce en => ?_
  refine safe_sub_bind (by omega) (safe_check_bind fun hr => ?_)
  refine safe_block_bind (by omega) fun root er => ?_
  refine safe_sub_bind (by omega) (safe_check_bind fun hc => ?_)
  refine safe_slice_bind (by omega) fun ciphertext hciphertext ec => ?_
  refine safe_slice_bind (by omega) fun aad haad e0 => ?_
  refine safe_bind ((safe_parseHybridEncap encap).mono ?_)
  rintro ⟨ephemeralPublic, kemCt⟩ ⟨heph, hct, hcut⟩
  dsimp only at heph hct hcut
  subst hcut
  have hend : capsule.length ≤ 44 + capsuleAlgorithm.length + e + 24 + 32 + (p + 16) := by omega
  rw [List.drop_eq_nil_of_le hend, List.append_nil] at ec
  rw [List.drop_zero, Nat.zero_add, ec] at e0
  have hparts : capsule = header ++ capsuleAlgorithm ++ (writeU32le 32 ++ ephemeralPublic ++ kemCt) ++
      nonce ++ root.1 ++ ciphertext := by
    rw [er, ec] at en
    rw [en] at ee
    rw [ee] at ea
    rw [ea] at e44
    simpa only [List.append_assoc] using e44
  have haad' : aad = header ++ capsuleAlgorithm ++ (writeU32le 32 ++ ephemeralPublic ++ kemCt) ++
      nonce ++ root.1 := List.append_cancel_right (e0.symm.trans hparts)
  refine ⟨?_, ⟨header, ?_, ?_⟩, hnonce, hciphertext, e0⟩
  · refine bind_eq_ok.mpr ⟨(), require_eq_ok.mpr ⟨heph, hct⟩, bind_eq_ok.mpr ⟨(), ?_, ?_⟩⟩
    · refine require_eq_ok.mpr ?_
      dsimp only
      simp only [List.length_append, length_writeU32le] at hencap
      omega
    · rw [heph]
      rfl
  · dsimp only
    rw [hencap, hnonce]
    exact hheader
  · refine bind_eq_ok.mpr ⟨(), require_eq_ok.mpr ?_, by rw [haad']; rfl⟩
    rw [hencap, hnonce]
    omega

/-! ### Bytes that were assembled -/

theorem buildHybridEncap_eq_ok {ephemeralPublic kemCt encap : Bytes}
    (h : buildHybridEncap ephemeralPublic kemCt = .ok encap) :
    ephemeralPublic.length = 32 ∧ 0 < kemCt.length ∧
      encap = writeU32le 32 ++ ephemeralPublic ++ kemCt := by
  simp only [buildHybridEncap, bind_eq_ok, pure_eq_ok, require_eq_ok] at h
  obtain ⟨-, ⟨heph, hct⟩, -, -, rfl⟩ := h
  exact ⟨heph, List.length_pos_iff.mpr hct, by rw [heph]⟩

theorem length_buildHybridEncap {ephemeralPublic kemCt encap : Bytes}
    (h : buildHybridEncap ephemeralPublic kemCt = .ok encap) :
    encap.length = 36 + kemCt.length := by
  obtain ⟨heph, -, rfl⟩ := buildHybridEncap_eq_ok h
  simp only [List.length_append, length_writeU32le, heph]

theorem parseHybridEncap_build {ephemeralPublic kemCt encap : Bytes}
    (h : buildHybridEncap ephemeralPublic kemCt = .ok encap) :
    parseHybridEncap encap = .ok (ephemeralPublic, kemCt) := by
  have hlen := length_buildHybridEncap h
  obtain ⟨heph, hpos, hencap⟩ := buildHybridEncap_eq_ok h
  have d0 : encap.drop 0 = leBytes 4 32 ++ (ephemeralPublic ++ (kemCt ++ [])) := by
    simp [hencap, writeU32le]
  obtain ⟨e0, d4⟩ := readLe_next d0 (by norm_num) (by norm_num)
  obtain ⟨e4, d36⟩ := slice_next d4 heph (by norm_num)
  obtain ⟨e36, -⟩ := slice_next d36 rfl hpos
  refine bind_eq_ok.mpr ⟨(), check_pos (by omega), bind_eq_ok.mpr ⟨32, e0, ?_⟩⟩
  refine bind_eq_ok.mpr ⟨_, sub_pos (by omega), bind_eq_ok.mpr ⟨(), check_pos ⟨rfl, by omega⟩, ?_⟩⟩
  refine bind_eq_ok.mpr ⟨ephemeralPublic, e4, bind_eq_ok.mpr ⟨(), check_pos (by omega), ?_⟩⟩
  refine bind_eq_ok.mpr ⟨kemCt.length, ?_, bind_eq_ok.mpr ⟨kemCt, e36, rfl⟩⟩
  rw [sub_pos (by omega)]
  exact congrArg _ (by omega)

theorem parseFixedHeader_build {e p : ℕ} {header capsule rest : Bytes}
    (h : buildFixedHeader capsuleAlgorithm.length e 24 32 (p + 16) p = .ok header)
    (hp : p + 16 < 256 ^ 8) (hcapsule : capsule = header ++ rest) :
    parseFixedHeader capsule = .ok ⟨capsuleAlgorithm.length, e, 24, 32, p + 16, p⟩ := by
  have hlen : 44 ≤ capsule.length := by
    rw [hcapsule, List.length_append, length_buildFixedHeader h]
    omega
  simp only [buildFixedHeader, bind_eq_ok, pure_eq_ok, require_eq_ok] at h
  obtain ⟨-, ⟨-, he, -⟩, rfl⟩ := h
  have d0 : capsule.drop 0 = magic ++ (leBytes 4 1 ++ (leBytes 4 capsuleAlgorithm.length ++
      (leBytes 4 e ++ (leBytes 4 24 ++ (leBytes 4 32 ++ (leBytes 8 (p + 16) ++
        (leBytes 8 p ++ rest))))))) := by
    rw [hcapsule, u64le_natCast hp, u64le_natCast (by omega)]
    simp only [List.append_assoc, writeU32le, List.drop_zero]
  obtain ⟨e0, d8⟩ := slice_next d0 (by decide : magic.length = 8) (by norm_num)
  obtain ⟨e8, d12⟩ := readLe_next d8 (by norm_num) (by norm_num)
  obtain ⟨e12, d16⟩ := readLe_next d12 (by norm_num) (by decide)
  obtain ⟨e16, d20⟩ := readLe_next d16 (by norm_num) (Nat.lt_succ_of_le he)
  obtain ⟨e20, d24⟩ := readLe_next d20 (by norm_num) (by norm_num)
  obtain ⟨e24, d28⟩ := readLe_next d24 (by norm_num) (by norm_num)
  obtain ⟨e28, d36⟩ := readLe_next d28 (by norm_num) hp
  obtain ⟨e36, -⟩ := readLe_next d36 (by norm_num) (by omega)
  refine bind_eq_ok.mpr ⟨(), check_pos hlen, bind_eq_ok.mpr ⟨magic, e0, ?_⟩⟩
  refine bind_eq_ok.mpr ⟨(), check_pos rfl, bind_eq_ok.mpr ⟨1, e8, ?_⟩⟩
  refine bind_eq_ok.mpr ⟨(), check_pos rfl, bind_eq_ok.mpr ⟨_, e12, bind_eq_ok.mpr ⟨_, e16, ?_⟩⟩⟩
  refine bind_eq_ok.mpr ⟨_, e20, bind_eq_ok.mpr ⟨_, e24, bind_eq_ok.mpr ⟨_, e28, ?_⟩⟩⟩
  refine bind_eq_ok.mpr ⟨_, e36, bind_eq_ok.mpr ⟨(), check_pos ⟨rfl, rfl, rfl, by omega⟩, ?_⟩⟩
  refine bind_eq_ok.mpr ⟨p, sub_pos (by omega), bind_eq_ok.mpr ⟨(), check_pos rfl, rfl⟩⟩

/-- **An assembled capsule** is parsed to its fields. -/
theorem parseCapsule_encodes {f : Fields} {capsule : Bytes} (hsize : capsule.length ≤ sizeMax)
    (h : f.Encodes capsule) : parseCapsule capsule = .ok f := by
  obtain ⟨encap, ephemeralPublic, kemCt, nonce, root, aad, ciphertext, p⟩ := f
  obtain ⟨hencap, ⟨header, hheader, haad⟩, hnonce, hciphertext, hcapsule⟩ := h
  dsimp only at hencap hheader haad hnonce hciphertext hcapsule
  rw [hnonce] at hheader
  simp only [buildCapsuleAad, bind_eq_ok, pure_eq_ok, require_eq_ok] at haad
  obtain ⟨-, -, haad⟩ := haad
  have hhybrid := parseHybridEncap_build hencap
  have hpos : 0 < encap.length := by
    rw [length_buildHybridEncap hencap]
    omega
  have hlen : capsule.length = 44 + 17 + encap.length + 24 + 32 + (p + 16) := by
    rw [hcapsule, ← haad]
    simp only [List.length_append, length_buildFixedHeader hheader, hnonce, root.2, hciphertext]
    rfl
  have hp : p + 16 < 256 ^ 8 := by
    unfold sizeMax at hsize
    omega
  have haadlen : aad.length = 44 + 17 + encap.length + 24 + 32 := by
    rw [hcapsule, List.length_append] at hlen
    omega
  have hparts : capsule = header ++ (capsuleAlgorithm ++ (encap ++ (nonce ++ (root.1 ++
      (ciphertext ++ []))))) := by
    rw [hcapsule, ← haad]
    simp only [List.append_assoc, List.append_nil]
  have hfixed := parseFixedHeader_build hheader hp hparts
  have d0 : capsule.drop 0 = aad ++ ciphertext := hcapsule
  obtain ⟨eaad, -⟩ := slice_next d0 haadlen (by omega)
  have d44 := drop_add (show capsule.drop 0 = _ from hparts) (length_buildFixedHeader hheader)
  obtain ⟨ealg, d61⟩ := slice_next d44 (by decide : capsuleAlgorithm.length = 17) (by norm_num)
  obtain ⟨eencap, dn⟩ := slice_next d61 rfl hpos
  obtain ⟨enonce, dr⟩ := slice_next dn hnonce (by norm_num)
  obtain ⟨eroot, dc⟩ := block_next dr (by norm_num)
  obtain ⟨ect, -⟩ := slice_next dc hciphertext (by omega)
  have halg : capsuleAlgorithm.length = 17 := by decide
  refine bind_eq_ok.mpr ⟨_, hfixed, bind_eq_ok.mpr ⟨(), check_pos (by omega), ?_⟩⟩
  refine bind_eq_ok.mpr ⟨_, sub_pos (by omega), bind_eq_ok.mpr ⟨(), check_pos (by dsimp only; omega), ?_⟩⟩
  refine bind_eq_ok.mpr ⟨_, ealg, bind_eq_ok.mpr ⟨(), check_pos rfl, ?_⟩⟩
  refine bind_eq_ok.mpr ⟨_, sub_pos (by dsimp only; omega), ?_⟩
  refine bind_eq_ok.mpr ⟨(), check_pos (by dsimp only; omega), bind_eq_ok.mpr ⟨_, eencap, ?_⟩⟩
  refine bind_eq_ok.mpr ⟨_, sub_pos (by dsimp only; omega), ?_⟩
  refine bind_eq_ok.mpr ⟨(), check_pos (by dsimp only; omega), bind_eq_ok.mpr ⟨_, enonce, ?_⟩⟩
  refine bind_eq_ok.mpr ⟨_, sub_pos (by dsimp only; omega), ?_⟩
  refine bind_eq_ok.mpr ⟨(), check_pos (by dsimp only; omega), bind_eq_ok.mpr ⟨_, eroot, ?_⟩⟩
  refine bind_eq_ok.mpr ⟨_, sub_pos (by dsimp only; omega), ?_⟩
  refine bind_eq_ok.mpr ⟨(), check_pos (by dsimp only; omega), bind_eq_ok.mpr ⟨_, ect, ?_⟩⟩
  exact bind_eq_ok.mpr ⟨_, eaad, bind_eq_ok.mpr ⟨_, hhybrid, rfl⟩⟩

/-! ### Whole files -/

/-- **The key agreements agree**: the private keys give the shared secrets of the export, which are
not empty. -/
structure Agrees (own : PrivateLibrary) (ephemeralPublic kemCt kemSharedSecret
    x25519SharedSecret : Bytes) : Prop where
  kem : kemSharedSecret ≠ []
  x25519 : x25519SharedSecret ≠ []
  keys : ∃ kemKey x25519Key peer, own.loadPrivateKeypair = .ok (kemKey, x25519Key) ∧
    own.decapsulate kemKey kemCt = .ok kemSharedSecret ∧
    own.newRawPublicKey ephemeralPublic = some peer ∧
    own.x25519Derive x25519Key peer = .ok x25519SharedSecret

theorem checked_eq_ok {α : Type} {x : Except Status α} {a : α} (h : x = .ok a) : checked x = .ok a := by
  rw [h]
  rfl

theorem parseFile_eq {capsule : Bytes} (hne : capsule ≠ []) (hsize : capsule.length ≤ maxDbBytes + 8192) :
    parseFile (some capsule) = parseCapsule capsule := by
  have hread : readAll (some capsule) (maxDbBytes + 8192) = .ok capsule :=
    bind_eq_ok.mpr ⟨capsule, rfl, bind_eq_ok.mpr ⟨(), require_eq_ok.mpr hsize,
      bind_eq_ok.mpr ⟨(), require_eq_ok.mpr hne, rfl⟩⟩⟩
  unfold parseFile
  rw [checked_eq_ok hread]
  rfl

/-- **Every file**: nothing undefined happens, and what is parsed encodes the file. -/
theorem safe_parseFile (file : Option Bytes) :
    Safe (fun f => ∃ capsule, file = some capsule ∧ f.Encodes capsule) (parseFile file) := by
  refine safe_checked_bind fun capsule hread => ?_
  simp only [readAll, bind_eq_ok, pure_eq_ok, require_eq_ok] at hread
  obtain ⟨bytes, hfile, -, hsize, -, -, rfl⟩ := hread
  cases file with
  | none => cases hfile
  | some content =>
    obtain rfl : content = bytes := Except.ok.inj hfile
    have hmax : content.length ≤ sizeMax := hsize.trans (by decide)
    exact (safe_parseCapsule hmax).mono fun f hf => ⟨content, rfl, hf⟩

theorem safe_pqcImport (passphrase outputPath : CString) (file : Option Bytes) :
    Safe (fun _ => True) (pqcImport so lib own passphrase outputPath file) := by
  refine safe_check_bind fun _ => safe_bind ((safe_parseFile file).mono fun f _ => ?_)
  refine safe_checked_bind fun keys _ => safe_checked_bind fun kem _ => safe_check_bind fun _ => ?_
  refine safe_checked_bind fun peer _ => safe_checked_bind fun x25519 _ => ?_
  exact safe_checked_bind fun key _ => safe_checked_bind fun plaintext _ => safe_check_bind fun _ =>
    trivial

/-- The fields of the capsule of a snapshot. -/
def sealedFields (so : Sodium) (lib : KeyLibrary) (snapshot encap ephemeralPublic kemCt kemSharedSecret
    x25519SharedSecret aad : Bytes) (nonce : Block 24) (auditRoot : Block 32) : Fields where
  encap := encap
  ephemeralPublic := ephemeralPublic
  kemCt := kemCt
  nonce := nonce.1
  auditRoot := auditRoot
  aad := aad
  ciphertext := so.encrypt .xchacha20Poly1305 (lib.generichash
    (keyContext ++ kemSharedSecret ++ x25519SharedSecret ++ encap ++ auditRoot.1)) nonce.1 aad snapshot
  plaintextLen := snapshot.length

/-- **The capsule of a snapshot** of admissible size is assembled from its fields. -/
theorem sealSnapshot_encodes (so : Sodium) (lib : KeyLibrary) {snapshot kemCt kem x25519 : Bytes}
    (ephemeralPublic : Block 32) (nonce : Block 24) (root : Block 32) (hsnap : snapshot.length ≤ maxDbBytes)
    (hct : 1 ≤ kemCt.length) (hct' : kemCt.length ≤ 4096) (hkem : kem ≠ []) (hx : x25519 ≠ []) :
    ∃ encap aad capsule, buildHybridEncap ephemeralPublic.1 kemCt = .ok encap ∧
      sealSnapshot so lib snapshot encap kem x25519 nonce root = .ok capsule ∧
      (sealedFields so lib snapshot encap ephemeralPublic.1 kemCt kem x25519 aad nonce root).Encodes
        capsule ∧ capsule.length ≤ maxDbBytes + 8192 := by
  have heph : ephemeralPublic.1.length = 32 := ephemeralPublic.2
  have hnonce : nonce.1.length = 24 := nonce.2
  have hroot : root.1.length = 32 := root.2
  have halg : capsuleAlgorithm.length = 17 := by decide
  have hmax : maxDbBytes = 134217728 := rfl
  have hsize : sizeMax = 18446744073709551615 := rfl
  obtain ⟨encap, hencap⟩ : ∃ encap, buildHybridEncap ephemeralPublic.1 kemCt = .ok encap :=
    ⟨_, bind_eq_ok.mpr ⟨(), require_eq_ok.mpr ⟨heph, List.ne_nil_of_length_pos hct⟩,
      bind_eq_ok.mpr ⟨(), require_eq_ok.mpr (by omega), rfl⟩⟩⟩
  have hlen := length_buildHybridEncap hencap
  have hne : encap ≠ [] := List.ne_nil_of_length_pos (by omega)
  obtain ⟨header, hheader⟩ : ∃ header, buildFixedHeader capsuleAlgorithm.length encap.length 24 32
      (snapshot.length + 16) snapshot.length = .ok header := by
    refine ⟨_, bind_eq_ok.mpr ⟨(), require_eq_ok.mpr ?_, rfl⟩⟩
    unfold uint32Max
    omega
  have hhlen := length_buildFixedHeader hheader
  obtain ⟨aad, haad, haadlen⟩ : ∃ aad, buildCapsuleAad header capsuleAlgorithm encap nonce.1 root =
      .ok aad ∧ aad.length = 117 + encap.length := by
    refine ⟨_, bind_eq_ok.mpr ⟨(), require_eq_ok.mpr (by omega), rfl⟩, ?_⟩
    simp only [List.length_append]
    omega
  have hcipher (k : Block 32) :
      (so.encrypt .xchacha20Poly1305 k nonce.1 aad snapshot).length = snapshot.length + 16 :=
    so.length_encrypt _ _ _ _ _
  refine ⟨encap, aad, _, hencap, bind_eq_ok.mpr ⟨_, bind_eq_ok.mpr ⟨(), require_eq_ok.mpr
    ⟨hkem, hx, hne⟩, rfl⟩, bind_eq_ok.mpr ⟨(), require_eq_ok.mpr (by omega), bind_eq_ok.mpr
      ⟨header, hheader, bind_eq_ok.mpr ⟨aad, haad, bind_eq_ok.mpr ⟨(), require_eq_ok.mpr ?_, rfl⟩⟩⟩⟩⟩,
    ⟨hencap, ⟨header, ?_, haad⟩, hnonce, hcipher _, rfl⟩, ?_⟩
  · rw [hcipher]
    omega
  · unfold sealedFields
    dsimp only
    rw [hnonce]
    exact hheader
  · rw [List.length_append, hcipher]
    omega

/-- **The format of capsules.** The capsule of a snapshot is parsed to the fields it was sealed from
and the snapshot comes back; a file that passes the checks is the encoding of what was parsed of it;
and no file makes the import read outside of it or subtract too much. -/
theorem capsule_format (so : Sodium) (lib : KeyLibrary) (own : PrivateLibrary)
    (passphrase outputPath : CString) :
    (∀ (snapshot : Bytes) (ephemeralPublic : Block 32) (kemCt kem x25519 : Bytes) (nonce : Block 24)
      (root : Block 32), 1 ≤ snapshot.length → snapshot.length ≤ maxDbBytes → 1 ≤ kemCt.length →
      kemCt.length ≤ 4096 → passphrase.bytes ≠ [] → outputPath.bytes ≠ [] →
      Agrees own ephemeralPublic.1 kemCt kem x25519 →
      ∃ encap aad capsule, buildHybridEncap ephemeralPublic.1 kemCt = .ok encap ∧
        sealSnapshot so lib snapshot encap kem x25519 nonce root = .ok capsule ∧
        parseFile (some capsule) = .ok
          (sealedFields so lib snapshot encap ephemeralPublic.1 kemCt kem x25519 aad nonce root) ∧
        pqcImport so lib own passphrase outputPath (some capsule) = .ok snapshot) ∧
    (∀ file f, parseFile file = .ok f → ∃ capsule, file = some capsule ∧ f.Encodes capsule) ∧
    ∀ file, Safe (fun _ => True) (pqcImport so lib own passphrase outputPath file) := by
  refine ⟨fun snapshot eph kemCt kem x25519 nonce root _ hsnap hct hct' hpass hout hagree => ?_,
    fun file f hf => ?_, safe_pqcImport passphrase outputPath⟩
  · obtain ⟨hkem, hx, kemKey, x25519Key, peer, hload, hdecap, hraw, hderive⟩ := hagree
    obtain ⟨encap, aad, capsule, hencap, hseal, hencodes, hlen⟩ :=
      sealSnapshot_encodes so lib eph nonce root hsnap hct hct' hkem hx
    have hne : capsule ≠ [] := by
      rw [hencodes.capsule]
      exact List.append_ne_nil_of_right_ne_nil _ (List.ne_nil_of_length_pos
        (hencodes.ciphertext ▸ Nat.succ_pos _))
    have hparse := (parseFile_eq hne hlen).trans (parseCapsule_encodes (hlen.trans (by decide)) hencodes)
    refine ⟨encap, aad, capsule, hencap, hseal, hparse, ?_⟩
    have hencapne : encap ≠ [] := List.ne_nil_of_length_pos (by
      rw [length_buildHybridEncap hencap]
      omega)
    refine bind_eq_ok.mpr ⟨(), check_pos ⟨hpass, hout⟩, bind_eq_ok.mpr ⟨_, hparse, ?_⟩⟩
    refine bind_eq_ok.mpr ⟨_, checked_eq_ok hload, bind_eq_ok.mpr ⟨kem, checked_eq_ok hdecap, ?_⟩⟩
    refine bind_eq_ok.mpr ⟨(), check_pos eph.2, bind_eq_ok.mpr ⟨peer, checked_eq_ok ?_, ?_⟩⟩
    · show (own.newRawPublicKey eph.1).elim _ _ = _
      rw [hraw]
      rfl
    refine bind_eq_ok.mpr ⟨x25519, checked_eq_ok hderive, bind_eq_ok.mpr ⟨_, checked_eq_ok
      (bind_eq_ok.mpr ⟨(), require_eq_ok.mpr ⟨hkem, hx, hencapne⟩, rfl⟩), ?_⟩⟩
    refine bind_eq_ok.mpr ⟨snapshot, checked_eq_ok ?_, bind_eq_ok.mpr ⟨(), check_pos rfl, rfl⟩⟩
    unfold sealedFields
    rw [Sodium.decrypt_encrypt]
    rfl
  · have hsafe := safe_parseFile file
    rw [hf] at hsafe
    exact hsafe

end Fuin.Backup.Import

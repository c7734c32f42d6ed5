import Fuin.Vault.Reading

/-! # A row is bound to its secret

The DEK of a row and its plaintext are sealed with the identity and the version of the row as
associated data, and the identity is the hash of id and name. So what a row stores is accepted for
its own id, name and version only, under the KEK of the vault, and not if a part is taken from
another row (`row_binding`). This rests on the library: a ciphertext opens only in the way it was
made, the hashes have no collision on what they are used for, and no two DEKs are the same
(`Ideal`). -/

namespace Fuin.Vault.Binding

open Fuin.Utils Fuin.Crypto Fuin.Lib.Frames Fuin.Lib.Program Fuin.Store.Secrets Fuin.Store.Database
open Fuin.Store.Success Fuin.CryptoEngine Fuin.Kdf Fuin.Vault.Rows Fuin.Vault.Operations
open Fuin.Vault.Sessions Fuin.Vault.Versioned Fuin.Vault.Stored Fuin.Vault.Calls Fuin.Vault.Honest
open Fuin.Vault.Reopened Fuin.Vault.Rules

/-! ### Associated data -/

theorem ofNat_digit {c : Char} (h : c.isDigit) : Char.ofNat (UInt8.ofNat c.toNat).toNat = c := by
  have h57 : c.toNat ≤ 57 := by
    simp only [Char.isDigit, Bool.and_eq_true, decide_eq_true_eq] at h
    exact UInt32.le_iff_toNat_le.mp h.2
  rw [UInt8.toNat_ofNat', Nat.mod_eq_of_lt (by omega), Char.ofNat_toNat]

theorem decimal_inj {n m : ℕ} (h : decimal n = decimal m) : n = m := by
  have hchars (k : ℕ) : (decimal k).map (fun b => Char.ofNat b.toNat) = Nat.toDigits 10 k := by
    rw [decimal, List.map_map]
    refine (List.map_congr_left fun c hc => ?_).trans (List.map_id _)
    exact ofNat_digit (Nat.isDigit_of_mem_toDigits (by norm_num) (by norm_num) hc)
  have hdigits : Nat.toDigits 10 n = Nat.toDigits 10 m := by rw [← hchars n, h, hchars m]
  have hn : Nat.ofDigitChars 10 (Nat.toDigits 10 n) 0 = n :=
    Nat.ofDigitChars_toDigits (by norm_num) (by norm_num)
  rw [← hn, hdigits, Nat.ofDigitChars_toDigits (by norm_num) (by norm_num)]

/-- What is hashed into the identity of a row. -/
def identityText (id name : CString) : Bytes :=
  ascii "Fuin secret row identity v1" ++ u64le id.bytes.length ++ id.bytes ++
    u64le name.bytes.length ++ name.bytes

/-- **The lengths keep id and name apart.** -/
theorem identityText_inj {id name id' name' : CString}
    (hlen : id.bytes.length + name.bytes.length < 18446744073709551616)
    (h : identityText id name = identityText id' name') : id = id' ∧ name = name' := by
  have htotal := congrArg List.length h
  simp only [identityText, List.length_append, length_u64le] at htotal
  simp only [identityText, List.append_assoc] at h
  have hrest := List.append_cancel_left h
  obtain ⟨hid, hrest⟩ := List.append_inj hrest (by rw [length_u64le, length_u64le])
  have hlens : id.bytes.length = id'.bytes.length := by
    have heq := leBytes_inj (by norm_num; omega) (by norm_num; omega) hid
    omega
  obtain ⟨hid, hrest⟩ := List.append_inj hrest hlens
  obtain ⟨-, hname⟩ := List.append_inj hrest (by rw [length_u64le, length_u64le])
  exact ⟨CString.ext hid, CString.ext hname⟩

/-- The associated data for an id, a name and a version. -/
def rowAad (so : Sodium) (id name : CString) (version : ℤ) : Except Status Bytes := do
  let identity ← buildRowIdentity so id name
  buildAad identity version

variable {so : Sodium} {kek : Block 32} {keys keys' : Subkeys} {t : SecretTable} {db db' : Db}
  {N : Set (CString × CString)} {r s u : SecretRow} {id name id' name' : CString}
  {version version' : ℤ} {capacity : ℕ} {plaintext : Bytes}

theorem rowAad_eq_ok {aad : Bytes} : rowAad so id name version = .ok aad ↔
    (id.bytes ≠ [] ∧ name.bytes ≠ []) ∧ aad.length < 256 ∧
      aad = (bin2hex (so.sha256 (identityText id name)).1).bytes ++ ([58] ++
        decimal version.toNat) := by
  simp only [rowAad, buildRowIdentity, buildAad, bind_eq_ok, require_eq_ok, pure_eq_ok,
    identityText]
  constructor
  · rintro ⟨_, ⟨-, hne, rfl⟩, -, hlen, rfl⟩
    exact ⟨hne, hlen, List.append_assoc _ _ _⟩
  · rintro ⟨hne, hlen, rfl⟩
    rw [← List.append_assoc] at hlen ⊢
    exact ⟨_, ⟨(), hne, rfl⟩, (), hlen, rfl⟩

/-- **Associated data tell ids, names and versions apart** where the hash does. -/
theorem rowAad_inj {aad : Bytes}
    (hN : so.CollisionFree ((fun p => identityText p.1 p.2) '' N)) (hmem : (id, name) ∈ N)
    (hmem' : (id', name') ∈ N)
    (hlen : id.bytes.length + name.bytes.length < 18446744073709551616)
    (h : rowAad so id name version = .ok aad) (h' : rowAad so id' name' version' = .ok aad) :
    id = id' ∧ name = name' ∧ version.toNat = version'.toNat := by
  obtain ⟨-, -, rfl⟩ := rowAad_eq_ok.mp h
  obtain ⟨-, -, heq⟩ := rowAad_eq_ok.mp h'
  obtain ⟨hhex, hrest⟩ := List.append_inj heq (by
    rw [length_bin2hex, length_bin2hex, (so.sha256 _).2, (so.sha256 _).2])
  have hhash := Subtype.ext (bin2hex_inj (CString.ext hhex))
  have htext := hN ⟨_, hmem, rfl⟩ ⟨_, hmem', rfl⟩ hhash
  obtain ⟨hid, hname⟩ := identityText_inj hlen htext
  exact ⟨hid, hname, decimal_inj (List.append_cancel_left hrest)⟩

/-! ### What is assumed of the library -/

/-- A use of a cipher. -/
structure Use where
  algorithm : Algorithm
  key : Block 32
  nonce : Bytes
  aad : Bytes
  deriving DecidableEq

/-- A ciphertext is opened in this use and in no other. -/
def OpensOnly (so : Sodium) (use : Use) (ciphertext : Bytes) : Prop :=
  ∀ (v : Use) (m : Bytes), so.decrypt v.algorithm v.key v.nonce v.aad ciphertext = some m → v = use

/-- The row was sealed with this algorithm, these associated data and this DEK. -/
structure SealedAs (so : Sodium) (kek : Block 32) (r : SecretRow) (a : Algorithm) (aad : Bytes)
    (dek : Block 32) (plaintext : Bytes) : Prop where
  aad_eq : rowAad so (columnText r.id) (columnText r.name) r.version = .ok aad
  encrypted : encryptedOf r = sealWith so a kek dek aad r.nonce r.dekNonce plaintext

/-- The id and the name of a row. -/
def pairOf (r : SecretRow) : CString × CString := (columnText r.id, columnText r.name)

/-- **The assumptions.** A ciphertext in the table is opened only in the use it was made in; SHA-256
has no collision on the ids and names, and BLAKE2b tells the DEKs apart by their commitments; the
DEKs of different rows are different. -/
structure Ideal (so : Sodium) (kek : Block 32) (t : SecretTable) (N : Set (CString × CString)) :
    Prop where
  aead : ∀ r ∈ t.rows, ∀ a aad dek plaintext, SealedAs so kek r a aad dek plaintext →
    OpensOnly so ⟨a, kek, r.dekNonce, aad⟩ r.encryptedDek ∧
      OpensOnly so ⟨a, dek, r.nonce, aad⟩ r.ciphertext
  sha256 : so.CollisionFree ((fun p => identityText p.1 p.2) '' N)
  generichash : ∀ r ∈ t.rows, ∀ s ∈ t.rows, ∀ a aad dek p a' aad' dek' p',
    SealedAs so kek r a aad dek p → SealedAs so kek s a' aad' dek' p' →
      commitment so dek dekDomain r.nonce = commitment so dek' dekDomain r.nonce → dek = dek'
  fresh : ∀ r ∈ t.rows, ∀ s ∈ t.rows, ∀ a aad a' aad' dek p p',
    SealedAs so kek r a aad dek p → SealedAs so kek s a' aad' dek p' → r = s

theorem exists_sealedAs (h : Holds so kek r plaintext) : ∃ a aad dek,
    SealedAs so kek r a aad dek plaintext ∧ (a = .aegis256 → so.hasAegis) := by
  obtain ⟨identity, hidn, a, aad, dek, nonce, dekNonce, -, haegis, -, haad, -, -, he⟩ := h
  refine ⟨a, aad, dek, ⟨bind_eq_ok.mpr ⟨identity, hidn, haad⟩, ?_⟩, haegis⟩
  have hn : r.nonce = nonce := congrArg EncryptedSecret.nonce he
  have hd : r.dekNonce = dekNonce := congrArg EncryptedSecret.dekNonce he
  rw [hn, hd]
  exact he

/-! ### Mixing rows -/

/-- The encrypted columns of `r` with the wrapped DEK of `s` and the ciphertext of `u`. -/
def mix (r s u : SecretRow) : EncryptedSecret :=
  { encryptedOf r with
    encryptedDek := s.encryptedDek
    ciphertext := u.ciphertext }

/-- **Some run of `vault_decrypt_secret_row` accepts** the row and returns the plaintext. -/
def Accepts (so : Sodium) (keys : Subkeys) (row : LoadedRow) (name : CString) (capacity : ℕ)
    (plaintext : Bytes) : Prop :=
  ∃ db db', (decryptSecretRow so keys row name capacity).Runs Stmt.exec db db' (.ok plaintext)

theorem accepts_iff {row : LoadedRow} : Accepts so keys row name capacity plaintext ↔
    ∃ identity, buildRowIdentity so row.id name = .ok identity ∧
      decrypted so row.encrypted keys.kekEnc identity row.version capacity = .ok plaintext := by
  constructor
  · rintro ⟨db, db', h⟩
    obtain ⟨_, -, h⟩ := Prog.runs_ofExcept_bind h
    obtain ⟨identity, hidn, h⟩ := Prog.runs_ofExcept_bind h
    have h := Sql.runs_libs_bind h
    exact ⟨identity, hidn, decrypt_runsIn (readOnly_decrypt.still h)⟩
  · rintro ⟨identity, hidn, h⟩
    have hes : Faultless fun _ => ⟨false, none, Block.zero⟩ := fun _ => rfl
    obtain ⟨_, hne, -⟩ := bind_eq_ok.mp hidn
    obtain ⟨_, hid, hh⟩ := bind_eq_ok.mp h
    obtain ⟨header, hheader, hbody⟩ := bind_eq_ok.mp hh
    refine ⟨Db.empty, Db.empty, fun _ => ⟨false, none, Block.zero⟩, ?_⟩
    unfold decryptSecretRow decrypt
    simp only [Prog.bind_def]
    rw [run_require_bind (require_eq_ok.mp hne).2, hidn, Prog.ofExcept_ok, Prog.ret_bind,
      run_libs_bind hes, run_require_bind (require_eq_ok.mp hid), run_lib_bind (hes.drop 2),
      hheader, Prog.ofExcept_ok, Prog.ret_bind, run_libs_bind ((hes.drop 2).drop 1), hbody]
    rfl

/-- What a row of the vault was sealed as; its id and its name are short. -/
theorem stored_row (ht : Orderly t) (hread : Readable so keys t) (hr : r ∈ t.rows) :
    (columnText r.id).bytes = r.id ∧ (columnText r.name).bytes = r.name ∧ 1 ≤ r.version ∧
      (columnText r.id).bytes.length + (columnText r.name).bytes.length < 18446744073709551616 ∧
      ∃ a aad dek p, SealedAs so keys.kekEnc r a aad dek p ∧ (a = .aegis256 → so.hasAegis) ∧
        Holds so keys.kekEnc r p := by
  obtain ⟨secret, p, hstored⟩ := hread r hr
  obtain ⟨v, hv⟩ := ht.id r hr
  obtain ⟨a, aad, dek, hsealed, haegis⟩ := exists_sealedAs hstored.holds
  have hpos := ((ht.history r.name).versions.mem (SecretTable.mem_rowsOf.mpr ⟨hr, rfl⟩)).1
  have hid : (columnText r.id).bytes = r.id := by rw [hv, columnText_bytes]
  have hname : (columnText r.name).bytes = r.name := by rw [hstored.name_eq, columnText_bytes]
  refine ⟨hid, hname, hpos, ?_, a, aad, dek, p, hsealed, haegis, hstored.holds⟩
  rw [hid, hname, hv, length_uuidText, hstored.name_eq, lookupOf, length_bin2hex,
    (so.generichash _ _).2]
  norm_num

/-- Two rows with the same id are the same. -/
theorem eq_of_columnText (ht : Orderly t) (hread : Readable so keys t) (hr : r ∈ t.rows)
    (hs : s ∈ t.rows) (h : columnText r.id = columnText s.id) : r = s := by
  obtain ⟨hr1, -⟩ := stored_row ht hread hr
  obtain ⟨hs1, -⟩ := stored_row ht hread hs
  by_contra hne
  refine (t.compatible.forall hr hs hne).1 ?_
  rw [← hr1, ← hs1, h]

/-- **What is accepted**: the complete row, as what it is, under the KEK of the vault. -/
theorem mix_accepted_iff (ht : Orderly t) (hread : Readable so keys t)
    (hideal : Ideal so keys.kekEnc t N) (hpairs : ∀ r ∈ t.rows, pairOf r ∈ N) (hr : r ∈ t.rows)
    (hs : s ∈ t.rows) (hu : u ∈ t.rows) (hN : (id', name') ∈ N) :
    Accepts so keys' ⟨id', version', mix r s u⟩ name' capacity plaintext ↔
      s = r ∧ u = r ∧ keys'.kekEnc = keys.kekEnc ∧ id'.bytes = r.id ∧ name'.bytes = r.name ∧
        version' = r.version ∧ Holds so keys.kekEnc r plaintext ∧ plaintext.length ≤ capacity := by
  obtain ⟨hrid, hrname, hrpos, hrlen, a, aad, dek, p, hra, haegis, hholds⟩ := stored_row ht hread hr
  rw [accepts_iff]
  constructor
  · rintro ⟨identity, hidn, h⟩
    obtain ⟨-, b, aad', dek', ⟨-, -, haad', -, -, -, -, -, hcap⟩, -, hw, hdek, hp⟩ :=
      decrypted_eq_ok.mp h
    have hrow : rowAad so id' name' version' = .ok aad' := bind_eq_ok.mpr ⟨identity, hidn, haad'⟩
    obtain ⟨-, -, -, hslen, a₁, aad₁, dek₁, p₁, hsa, -⟩ := stored_row ht hread hs
    obtain ⟨-, -, -, hulen, a₂, aad₂, dek₂, p₂, hua, -, huholds⟩ := stored_row ht hread hu
    -- Both ciphertexts are used in the way they were made in, so they are of one row.
    have huse₁ := (hideal.aead s hs _ _ _ _ hsa).1 ⟨b, keys'.kekEnc, r.dekNonce, aad'⟩ dek'.1 hw
    have huse₂ := (hideal.aead u hu _ _ _ _ hua).2 ⟨b, dek', r.nonce, aad'⟩ plaintext hp
    simp only [Use.mk.injEq] at huse₁ huse₂
    obtain ⟨-, hkek, -, rfl⟩ := huse₁
    obtain ⟨rfl, rfl, hnonce, rfl⟩ := huse₂
    obtain rfl := eq_of_columnText ht hread hs hu (rowAad_inj hideal.sha256 (hpairs s hs)
      (hpairs u hu) hslen hsa.aad_eq hua.aad_eq).1
    -- The row that gives the commitment has the same DEK.
    have hcommit : commitment so dek dekDomain r.nonce = r.keyCommitment.drop 32 := by
      have hc := congrArg EncryptedSecret.keyCommitment hra.encrypted
      rw [show r.keyCommitment = _ from hc]
      exact (List.drop_left' (length_commitment _ _ _)).symm
    obtain rfl := hideal.generichash r hr s hs _ _ _ _ _ _ _ _ hra hua (hcommit.trans hdek.symm)
    obtain rfl := hideal.fresh r hr s hs _ _ _ _ _ _ _ hra hua
    obtain ⟨rfl, rfl, hver⟩ := rowAad_inj hideal.sha256 (hpairs r hr) hN hrlen hua.aad_eq hrow
    have hcipher : r.ciphertext = so.encrypt b dek r.nonce aad' p₂ :=
      congrArg EncryptedSecret.ciphertext hua.encrypted
    have hplain : p₂ = plaintext := by
      have hp' : so.decrypt b dek r.nonce aad' r.ciphertext = some plaintext := hp
      rw [hcipher, Sodium.decrypt_encrypt] at hp'
      exact Option.some.inj hp'
    subst hplain
    refine ⟨rfl, rfl, hkek, hrid, hrname, by omega, huholds, ?_⟩
    have hcap' : r.ciphertext.length - b.tagBytes ≤ capacity := hcap
    rw [hcipher, Sodium.length_encrypt] at hcap'
    omega
  · rintro ⟨rfl, rfl, hkek, hid, hname, rfl, ⟨identity, hidn, hsealed⟩, hcap⟩
    obtain rfl : id' = columnText u.id := CString.ext (hid.trans hrid.symm)
    obtain rfl : name' = columnText u.name := CString.ext (hname.trans hrname.symm)
    refine ⟨identity, hidn, ?_⟩
    rw [hkek]
    exact decrypted_of_sealed hsealed hcap

/-- **Row binding**, whatever has been done with the vault: its rows are sealed under one KEK, the
one of its sessions, and from the columns of three rows a plaintext is decrypted if and only if they
are all of one row, which is decrypted under its own id, name and version and under this KEK. -/
theorem row_binding {P : Set CString} {cs : List Call} (hP : DistinctVerifiers so P)
    (hU : ∀ c ∈ cs, Uses P c.op) :
    ∃ keys, (∀ k, (newVault.afterAll so cs).session = some k → k = keys) ∧
      (∀ r ∈ (newVault.afterAll so cs).db.secrets.rows,
        ∃ plaintext, Holds so keys.kekEnc r plaintext) ∧
      ∀ N, Ideal so keys.kekEnc (newVault.afterAll so cs).db.secrets N →
        (∀ r ∈ (newVault.afterAll so cs).db.secrets.rows, pairOf r ∈ N) →
        ∀ r ∈ (newVault.afterAll so cs).db.secrets.rows,
        ∀ s ∈ (newVault.afterAll so cs).db.secrets.rows,
        ∀ u ∈ (newVault.afterAll so cs).db.secrets.rows,
        ∀ (keys' : Subkeys) (id' name' : CString) (version' : ℤ) (capacity : ℕ) (plaintext : Bytes),
          (id', name') ∈ N →
            (Accepts so keys' ⟨id', version', mix r s u⟩ name' capacity plaintext ↔
              s = r ∧ u = r ∧ keys'.kekEnc = keys.kekEnc ∧ id'.bytes = r.id ∧ name'.bytes = r.name ∧
                version' = r.version ∧ Holds so keys.kekEnc r plaintext ∧
                plaintext.length ≤ capacity) := by
  cases (held_new.afterAll hP hU).1 with
  | new h1 h2 h3 h4 =>
    rw [h3]
    refine ⟨⟨.zero 32, .zero 32, .zero 32, .zero 32⟩, fun k hk => ?_, fun r hr => ?_,
      fun N _ _ r hr => ?_⟩
    · nomatch h2.symm.trans hk
    · nomatch hr
    · nomatch hr
  | @keyed password keys h1 h2 h3 h4 =>
    refine ⟨keys, fun k hk => ?_, fun r hr => ?_, fun N hideal hpairs r hr s hs u hu => ?_⟩
    · exact Option.some.inj (hk.symm.trans (h3.resolve_left fun h => nomatch hk.symm.trans h))
    · obtain ⟨_, plaintext, hstored⟩ := h4.readable r hr
      exact ⟨plaintext, hstored.holds⟩
    · exact fun keys' id' name' version' capacity plaintext hN =>
        mix_accepted_iff h4.orderly h4.readable hideal hpairs hr hs hu hN

/-! ### A library in which a secret is bound -/

/-- The library that tags a ciphertext with the number of its use in a list. -/
def tagging (uses : List Use) : Sodium := { toy with
  encrypt a k n d m := m ++ List.replicate a.tagBytes (UInt8.ofNat (uses.idxOf ⟨a, k, n, d⟩))
  decrypt a k n d c :=
    let m := c.take (c.length - a.tagBytes)
    if c = m ++ List.replicate a.tagBytes (UInt8.ofNat (uses.idxOf ⟨a, k, n, d⟩)) then some m
    else none
  length_encrypt a k n d m := by rw [List.length_append, List.length_replicate]
  decrypt_encrypt a k n d m := by
    have hlen : (m ++ List.replicate a.tagBytes (UInt8.ofNat (uses.idxOf ⟨a, k, n, d⟩))).length -
        a.tagBytes = m.length := by
      rw [List.length_append, List.length_replicate, Nat.add_sub_cancel]
    dsimp only
    rw [hlen, List.take_left, if_pos rfl] }

/-- The last byte of a ciphertext tells the use. -/
theorem getLast?_tagged (m : Bytes) (a : Algorithm) (b : UInt8) :
    (m ++ List.replicate a.tagBytes b).getLast? = some b := by
  rw [List.getLast?_append, List.getLast?_replicate, if_neg (by cases a <;> decide)]
  rfl

theorem opensOnly_tagging {uses : List Use} {use : Use} (hlen : uses.length < 256)
    (huse : use ∈ uses) (m : Bytes) : OpensOnly (tagging uses) use
      ((tagging uses).encrypt use.algorithm use.key use.nonce use.aad m) := by
  intro v m' h
  obtain ⟨m₁, heq⟩ : ∃ m₁, m ++ List.replicate use.algorithm.tagBytes
      (UInt8.ofNat (uses.idxOf use)) =
        m₁ ++ List.replicate v.algorithm.tagBytes (UInt8.ofNat (uses.idxOf v)) := by
    by_contra hne
    have hnone := (if_neg fun heq => hne ⟨_, heq⟩).symm.trans h
    nomatch hnone
  have hlast := congrArg List.getLast? heq
  rw [getLast?_tagged, getLast?_tagged] at hlast
  have hnat := congrArg UInt8.toNat (Option.some.inj hlast)
  have hlt := List.idxOf_lt_length_of_mem huse
  have hle := List.idxOf_le_length (a := v) (l := uses)
  rw [UInt8.toNat_ofNat', UInt8.toNat_ofNat', Nat.mod_eq_of_lt (by omega),
    Nat.mod_eq_of_lt (by omega)] at hnat
  have hv : v ∈ uses := List.idxOf_lt_length_iff.mp (by omega)
  exact (List.idxOf_inj hv).mp hnat.symm

/-- The uses for a row: the one of the KEK and the one of the DEK. -/
def usesOf (kek dek : Block 32) (nonce aad : Bytes) : List Use :=
  [⟨.aegis256, kek, nonce, aad⟩, ⟨.aegis256, dek, nonce, aad⟩]

theorem opensOnly_usesOf (kek dek : Block 32) (nonce aad m m' : Bytes) :
    OpensOnly (tagging (usesOf kek dek nonce aad)) ⟨.aegis256, kek, nonce, aad⟩
        ((tagging (usesOf kek dek nonce aad)).encrypt .aegis256 kek nonce aad m) ∧
      OpensOnly (tagging (usesOf kek dek nonce aad)) ⟨.aegis256, dek, nonce, aad⟩
        ((tagging (usesOf kek dek nonce aad)).encrypt .aegis256 dek nonce aad m') := by
  have hlen : (usesOf kek dek nonce aad).length < 256 := by simp [usesOf]
  exact ⟨opensOnly_tagging hlen (by simp [usesOf]) m, opensOnly_tagging hlen (by simp [usesOf]) m'⟩

/-- A vault with one secret. -/
def boundCalls : List Call :=
  let name := sampleName
  [⟨.unlock samplePassword, fun _ => calm 1735689600 1⟩,
    ⟨.put name [1, 2] none 0, fun _ => calm 1735689600 2⟩]

/-- Its KEK. -/
def boundKek : Block 32 :=
  (subkeysOf toy (toy.pwhash samplePassword.bytes (Block.fill 16 1))).kekEnc

/-- The DEK and the nonces that are drawn. -/
def boundDek : Block 32 := Block.fill 32 2

/-- The associated data of the row. -/
def boundAad : Bytes :=
  match (newVault.afterAll toy boundCalls).db.secrets.rows with
  | [r] => (rowAad toy (columnText r.id) (columnText r.name) r.version).toOption.getD []
  | _ => []

def boundUses : List Use := usesOf boundKek boundDek boundDek.1 boundAad

def boundVault : VaultState := newVault.afterAll (tagging boundUses) boundCalls

theorem boundVault_session : boundVault.session.map Subkeys.kekEnc = some boundKek := by
  decide +kernel

theorem boundVault_rows : boundVault.db.secrets.rows.length = 1 ∧
    ∀ r ∈ boundVault.db.secrets.rows, r.algorithm = aegisName.bytes ∧ r.nonce = boundDek.1 ∧
      r.dekNonce = boundDek.1 ∧ r.encryptedDek.take 32 = boundDek.1 ∧
      rowAad (tagging boundUses) (columnText r.id) (columnText r.name) r.version =
        .ok boundAad := by
  decide +kernel

/-- The row was sealed in one way. -/
theorem sealedAs_boundVault {r : SecretRow} (hr : r ∈ boundVault.db.secrets.rows) {a : Algorithm}
    {aad plaintext : Bytes} {dek : Block 32}
    (h : SealedAs (tagging boundUses) boundKek r a aad dek plaintext) :
    a = .aegis256 ∧ aad = boundAad ∧ dek = boundDek := by
  obtain ⟨halg, -, -, htake, haad⟩ := boundVault_rows.2 r hr
  have hname : columnText r.algorithm = algorithmName a :=
    congrArg EncryptedSecret.algorithm h.encrypted
  have hwrapped : r.encryptedDek = (tagging boundUses).encrypt a boundKek r.dekNonce aad dek.1 :=
    congrArg EncryptedSecret.encryptedDek h.encrypted
  refine ⟨?_, Except.ok.inj (h.aad_eq.symm.trans haad), Subtype.ext ?_⟩
  · rw [halg, columnText_bytes] at hname
    cases a with
    | aes256Gcm => exact absurd hname (by decide)
    | xchacha20Poly1305 => exact absurd hname (by decide)
    | aegis256 => rfl
  · rw [← htake, hwrapped]
    exact (List.take_left' dek.2).symm

/-- **The assumptions hold of it.** -/
theorem ideal_boundVault {r : SecretRow} (hrows : boundVault.db.secrets.rows = [r]) :
    Ideal (tagging boundUses) boundKek boundVault.db.secrets {pairOf r} where
  aead := by
    intro s hs a aad dek plaintext hsealed
    obtain ⟨-, hn, hdn, -, -⟩ := boundVault_rows.2 s hs
    have hwrapped := congrArg EncryptedSecret.encryptedDek hsealed.encrypted
    have hcipher := congrArg EncryptedSecret.ciphertext hsealed.encrypted
    obtain ⟨ha, haad, hdek⟩ := sealedAs_boundVault hs hsealed
    rw [show s.encryptedDek = _ from hwrapped, show s.ciphertext = _ from hcipher, hn, hdn, ha, haad,
      hdek]
    exact opensOnly_usesOf boundKek boundDek boundDek.1 boundAad _ _
  sha256 := by
    rw [Set.image_singleton]
    exact Set.injOn_singleton _ _
  generichash s hs s' hs' _ _ _ _ _ _ _ _ h h' _ :=
    (sealedAs_boundVault hs h).2.2.trans (sealedAs_boundVault hs' h').2.2.symm
  fresh := by
    rw [hrows]
    intro s hs s' hs' _ _ _ _ _ _ _ _ _
    rw [List.mem_singleton.mp hs, List.mem_singleton.mp hs']

theorem bound_secret : ∃ (r : SecretRow) (keys : Subkeys), boundVault.db.secrets.rows = [r] ∧
    ∀ (keys' : Subkeys) (version' : ℤ) (capacity : ℕ) (plaintext : Bytes),
      Accepts (tagging boundUses) keys' ⟨columnText r.id, version', mix r r r⟩ (columnText r.name)
          capacity plaintext ↔
        r = r ∧ r = r ∧ keys'.kekEnc = keys.kekEnc ∧ (columnText r.id).bytes = r.id ∧
          (columnText r.name).bytes = r.name ∧ version' = r.version ∧
          Holds (tagging boundUses) keys.kekEnc r plaintext ∧ plaintext.length ≤ capacity := by
  obtain ⟨r, hr⟩ := List.length_eq_one_iff.mp boundVault_rows.1
  have hused : ∀ c ∈ boundCalls, ∀ p ∈ passwordOf c.op, p = samplePassword := by decide
  obtain ⟨keys, hsession, -, hbound⟩ :=
    row_binding (distinct_singleton (tagging boundUses) samplePassword) hused
  generalize hv : newVault.afterAll (tagging boundUses) boundCalls = v at hsession hbound
  obtain rfl : boundVault = v := hv
  obtain ⟨k, hk, hkek⟩ := Option.map_eq_some_iff.mp boundVault_session
  have hkeys : keys.kekEnc = boundKek := by rw [← hsession k hk, hkek]
  have hmem : r ∈ boundVault.db.secrets.rows := by rw [hr]; exact List.mem_singleton.mpr rfl
  have hideal : Ideal (tagging boundUses) keys.kekEnc boundVault.db.secrets {pairOf r} := by
    rw [hkeys]
    exact ideal_boundVault hr
  have hpairs : ∀ s ∈ boundVault.db.secrets.rows, pairOf s ∈ ({pairOf r} : Set _) := fun s hs => by
    rw [hr] at hs
    rw [List.mem_singleton.mp hs]
    exact Set.mem_singleton _
  exact ⟨r, keys, hr, fun keys' version' capacity plaintext =>
    hbound {pairOf r} hideal hpairs r hmem r hmem r hmem keys' _ _ version' capacity plaintext
      (Set.mem_singleton _)⟩

end Fuin.Vault.Binding

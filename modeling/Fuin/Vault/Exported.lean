import Fuin.Backup.Capsule
import Fuin.Vault.Audited

/-! # Exporting a backup among others

`vault_backup_export` verifies the chain, computes the root, and only then reads the database that
goes into the capsule; nothing holds the reads together. The root in the capsule belongs to the log
in the snapshot if all reads see the same log (`export_bound`). Among processes that only append to
a log that verifies, this is also necessary: the log may not grow after it was read for the root
(`bound_iff`). -/

namespace Fuin.Vault.Exported

open Fuin.Utils Fuin.Crypto Fuin.Lib.Program Fuin.Lib.Interleave Fuin.Store.Database Fuin.Store.Seen
open Fuin.Kdf Fuin.Audit.Table Fuin.Audit.Verify Fuin.Audit.Merkle Fuin.Audit.Inclusion
open Fuin.Audit.Shared Fuin.Backup.Capsule Fuin.Vault.Operations Fuin.Vault.Rules Fuin.Vault.Audited

/-- `backup_sqlite_snapshot`: the bytes `sqlite3_serialize` gives for the database. -/
def sqliteSnapshot (serialize : Db → Bytes) (db : Db) : Except Status Bytes := do
  require (serialize db ≠ []) .storage
  require ((serialize db).length ≤ maxDbBytes) .invalidArgument
  return serialize db

/-- `backup_load_public_keypair`. -/
def loadPublicKeypair (lib : KeyLibrary) (files : CString → Option Bytes) (path : CString) :
    Sql (Bytes × Bytes) := do
  Prog.ofExcept (require (path.bytes ≠ []) .invalidArgument)
  let content ← Prog.ofExcept ((files path).elim (.error .storage) .ok)
  let keys ← Prog.ofExcept ((lib.readPublicKeys content).elim (.error .crypto) .ok)
  Sql.lib .storage
  return keys

/-- `backup_pqc_export`: the bytes of the capsule it writes. -/
def pqcExport (so : Sodium) (lib : KeyLibrary) (serialize : Db → Bytes)
    (files : CString → Option Bytes) (recipient : CString) (auditRoot : Block 32) : Sql Bytes := do
  let snapshot ← Sql.select (sqliteSnapshot serialize)
  Sql.lib .storage
  let (kemKey, x25519Key) ← loadPublicKeypair lib files recipient
  Sql.libs [.crypto, .storage, .crypto]
  let coins ← Sql.random 32
  let (kemCt, kemSharedSecret) := lib.encapsulate kemKey coins
  Sql.lib .crypto
  let ephemeralKey ← Sql.random 32
  Sql.libs [.crypto, .storage, .crypto]
  let x25519SharedSecret := lib.derive ephemeralKey x25519Key
  Sql.libs [.crypto, .storage, .crypto]
  let encap ← Prog.ofExcept (buildHybridEncap (lib.rawPublicKey ephemeralKey) kemCt)
  Sql.libs [.storage, .crypto, .storage]
  let nonce ← Sql.random 24
  let capsule ← Prog.ofExcept
    (sealSnapshot so lib snapshot encap kemSharedSecret x25519SharedSecret nonce auditRoot)
  -- the allocations, the cipher, and `backup_write_all`
  Sql.libs [.storage, .crypto, .storage, .storage, .storage, .storage]
  return capsule

/-- `vault_backup_export`: the bytes of the capsule. -/
def backupExport (so : Sodium) (lib : KeyLibrary) (serialize : Db → Bytes)
    (files : CString → Option Bytes) (session : Option Subkeys) (recipient capsulePath : CString) :
    Sql Bytes :=
  match session with
  | none => .fail .auth
  | some keys => do
    Prog.ofExcept (require (recipient.bytes ≠ [] ∧ capsulePath.bytes ≠ []) .invalidArgument)
    let (root, _) ← auditMerkleRoot so keys
    pqcExport so lib serialize files recipient root

/-- **The capsule is bound to the log it contains**: it seals the database `z`, and the root in it is
that of the log of `z`, which verifies. -/
def Bound (so : Sodium) (lib : KeyLibrary) (serialize : Db → Bytes) (keys : Subkeys) (z : Db)
    (capsule : Bytes) : Prop :=
  ∃ encap kemSharedSecret x25519SharedSecret nonce hs,
    sealSnapshot so lib (serialize z) encap kemSharedSecret x25519SharedSecret nonce
        (merkleRoot so hs) = .ok capsule ∧
      entryHashes z.audit = .ok hs ∧ verifyChain so keys.kekAudit z.audit = .ok ()

variable {so : Sodium} {lib : KeyLibrary} {serialize : Db → Bytes} {files : CString → Option Bytes}
  {keys : Subkeys} {M : Ambient Db Input} {db db' : Db} {seen : List Db}

/-! ### What the export sees -/

theorem auditVerify_reads (h : Reads M (auditVerify so keys) db seen db' (.ok ())) :
    ∃ z, seen = [z] ∧ verifyChain so keys.kekAudit z.audit = .ok () := by
  obtain ⟨s₁, h⟩ := reads_lib_bind h
  obtain ⟨hseen, hver⟩ := reads_select h
  exact ⟨db', hseen, hver⟩

theorem loadPublicKeypair_reads {path : CString} {out : Bytes × Bytes}
    (h : Reads M (loadPublicKeypair lib files path) db seen db' (.ok out)) : seen = [] := by
  obtain ⟨_, -, h⟩ := Prog.sees_ofExcept_bind h
  obtain ⟨_, -, h⟩ := Prog.sees_ofExcept_bind h
  obtain ⟨_, -, h⟩ := Prog.sees_ofExcept_bind h
  obtain ⟨_, h⟩ := reads_lib_bind h
  exact h.1

/-- The snapshot is the only thing that is read for the capsule, once the root is known. -/
theorem pqcExport_reads {recipient : CString} {root : Block 32} {capsule : Bytes}
    (h : Reads M (pqcExport so lib serialize files recipient root) db seen db' (.ok capsule)) :
    ∃ z encap kem x25519 nonce, seen = [z] ∧
      sealSnapshot so lib (serialize z) encap kem x25519 nonce root = .ok capsule := by
  obtain ⟨snapshot, z, rest, rfl, hsnap, h⟩ := reads_select_bind h
  simp only [sqliteSnapshot, bind_eq_ok, pure_eq_ok] at hsnap
  obtain ⟨-, -, -, -, rfl⟩ := hsnap
  obtain ⟨_, h⟩ := reads_lib_bind h
  obtain ⟨⟨kemKey, x25519Key⟩, _, seen₁, seen₂, rfl, h1, h2⟩ := Prog.sees_bind h
  obtain rfl := loadPublicKeypair_reads h1
  obtain ⟨_, h⟩ := reads_libs_bind h2
  obtain ⟨coins, _, h⟩ := reads_random_bind h
  obtain ⟨_, h⟩ := reads_lib_bind h
  obtain ⟨ephemeralKey, _, h⟩ := reads_random_bind h
  obtain ⟨_, h⟩ := reads_libs_bind h
  obtain ⟨_, h⟩ := reads_libs_bind h
  obtain ⟨encap, -, h⟩ := Prog.sees_ofExcept_bind h
  obtain ⟨_, h⟩ := reads_libs_bind h
  obtain ⟨nonce, _, h⟩ := reads_random_bind h
  obtain ⟨capsule, hseal, h⟩ := Prog.sees_ofExcept_bind h
  obtain ⟨_, h⟩ := reads_libs_bind h
  obtain ⟨rfl, -, hret⟩ := h
  cases hret
  exact ⟨z, encap, _, _, nonce, rfl, hseal⟩

/-- **The three reads of an export**: the state that was verified, the one whose root is in the capsule
and the one that is sealed, the last one. -/
theorem backupExport_reads {recipient capsulePath : CString} {capsule : Bytes}
    (h : Reads M (backupExport so lib serialize files (some keys) recipient capsulePath) db seen db'
      (.ok capsule)) :
    ∃ v middle z y hs encap kem x25519 nonce, seen = v :: middle ++ [z] ∧
      middle.getLast? = some y ∧ verifyChain so keys.kekAudit v.audit = .ok () ∧
      entryHashes y.audit = .ok hs ∧
      sealSnapshot so lib (serialize z) encap kem x25519 nonce (merkleRoot so hs) = .ok capsule := by
  obtain ⟨_, -, h⟩ := Prog.sees_ofExcept_bind h
  obtain ⟨⟨root, n⟩, s₁, seen₁, seen₂, rfl, h1, h⟩ := Prog.sees_bind h
  obtain ⟨_, s₂, seen₃, middle, rfl, h3, h4⟩ := Prog.sees_bind h1
  obtain ⟨v, rfl, hver⟩ := auditVerify_reads h3
  obtain ⟨y, hs, hy, hhash, -, rfl, -⟩ := computeMerkleRoot_reads h4
  obtain ⟨z, encap, kem, x25519, nonce, rfl, hseal⟩ := pqcExport_reads h
  exact ⟨v, middle, z, y, hs, encap, kem, x25519, nonce, rfl, hy, hver, hhash, hseal⟩

/-- **A capsule is bound to the log it contains** if all reads of the export have seen the same log,
whatever else the other processes have committed. -/
theorem export_bound {recipient capsulePath : CString} {capsule : Bytes}
    (h : Reads M (backupExport so lib serialize files (some keys) recipient capsulePath) db seen db'
      (.ok capsule)) (hsame : ∀ s ∈ seen, ∀ t ∈ seen, s.audit = t.audit) :
    ∃ z, seen.getLast? = some z ∧ Bound so lib serialize keys z capsule := by
  obtain ⟨v, middle, z, y, hs, encap, kem, x25519, nonce, rfl, hy, hver, hhash, hseal⟩ :=
    backupExport_reads h
  have hmem : y ∈ middle := List.mem_of_getLast? hy
  have hvz : v.audit = z.audit := hsame v (by simp) z (by simp)
  have hyz : y.audit = z.audit := hsame y (by simp [hmem]) z (by simp)
  rw [hvz] at hver
  rw [hyz] at hhash
  exact ⟨z, List.getLast?_concat, encap, kem, x25519, nonce, hs, hseal, hhash, hver⟩

theorem readOnly_pqcExport {recipient : CString} {root : Block 32} :
    Sql.ReadOnly (pqcExport so lib serialize files recipient root) := by
  refine Sql.readOnly_select.bind fun _ => Sql.readOnly_lib.bind fun _ => ?_
  refine Prog.ReadOnly.bind ?_ fun _ => Sql.readOnly_libs.bind fun _ => ?_
  · exact Prog.readOnly_ofExcept.bind fun _ => Prog.readOnly_ofExcept.bind fun _ =>
      Prog.readOnly_ofExcept.bind fun _ => Sql.readOnly_lib.bind fun _ => trivial
  refine Sql.readOnly_random.bind fun _ => Sql.readOnly_lib.bind fun _ => ?_
  refine Sql.readOnly_random.bind fun _ => Sql.readOnly_libs.bind fun _ => ?_
  refine Sql.readOnly_libs.bind fun _ => Prog.readOnly_ofExcept.bind fun _ => ?_
  refine Sql.readOnly_libs.bind fun _ => Sql.readOnly_random.bind fun _ => ?_
  exact Prog.readOnly_ofExcept.bind fun _ => Sql.readOnly_libs.bind fun _ => trivial

theorem readOnly_backupExport {session : Option Subkeys} {recipient capsulePath : CString} :
    Sql.ReadOnly (backupExport so lib serialize files session recipient capsulePath) := by
  cases session with
  | none => trivial
  | some keys =>
    exact Prog.readOnly_ofExcept.bind fun _ => readOnly_auditMerkleRoot.bind fun _ =>
      readOnly_pqcExport

/-! ### Exports of a small vault -/

/-- Keys that are their own public keys. -/
def toyKeyLibrary : KeyLibrary where
  readPublicKeys c := some (c, c)
  encapsulate key coins := (coins.1 ++ key, coins.1)
  rawPublicKey key := key.1
  derive key peer := List.zipWith (· ^^^ ·) key.1 peer
  generichash m := toyHash (5 :: m)

/-- A snapshot of the hashes of the log. -/
def toySerialize (db : Db) : Bytes := 83 :: db.audit.rows.flatMap AuditRow.entryHash

/-- The export with small functions. -/
def toyExport : Sql Bytes :=
  backupExport toy toyKeyLibrary toySerialize (fun _ => some (List.replicate 32 7)) (some toyKeys)
    (columnText (ascii "backup.pub")) (columnText (ascii "backup.fuincap"))

/-- Other sessions of the vault, which carry out whole operations. -/
def others (so : Sodium) (keys : Subkeys) : Ambient Db Input where
  rely := Relation.ReflTransGen fun db db' =>
    ∃ op es, ((vaultSystem so).call (some keys) op es db).1 = db'
  inv _ := True
  allow _ := True
  refl _ := .refl
  trans := .trans

/-- A vault with one secret. -/
def oneStored : Db :=
  ((vaultSystem toy).call (some toyKeys) (.put sampleName [1] none 0)
    (fun _ => calm 1735689600 1) Db.empty).1

theorem others_store : (others toy toyKeys).rely Db.empty oneStored := .single ⟨_, _, rfl⟩

/-- An export whose commands are issued in given states. -/
def exportIn (states : ℕ → Db) : List Db × Db × Except Status Bytes :=
  toyExport.replay Stmt.exec isSelect states (calm 1735689600 2) (states 0)

theorem reads_exportIn {states : ℕ → Db} {capsule : Bytes}
    (hstates : ∀ n, (others toy toyKeys).rely (states n) (states (n + 1)))
    (h : (exportIn states).2.2 = .ok capsule) :
    Reads (others toy toyKeys) toyExport (states 0) (exportIn states).1 (exportIn states).2.1
      (.ok capsule) := by
  rw [← h]
  exact Prog.sees_replay readOnly_backupExport .refl hstates (fun _ => trivial) fun _ => trivial

theorem quiet_export_bound : ∃ capsule, (exportIn fun _ => oneStored).2.2 = .ok capsule ∧
    ∃ z, (exportIn fun _ => oneStored).1.getLast? = some z ∧
      Bound toy toyKeyLibrary toySerialize toyKeys z capsule := by
  obtain ⟨capsule, hcapsule⟩ : ∃ c, (exportIn fun _ => oneStored).2.2 = .ok c := by
    have h : ((exportIn fun _ => oneStored).2.2).toOption.isSome := by decide +kernel
    cases hr : (exportIn fun _ => oneStored).2.2 with
    | ok c => exact ⟨c, rfl⟩
    | error e =>
      rw [hr] at h
      nomatch h
  refine ⟨capsule, hcapsule, export_bound (reads_exportIn (fun _ => .refl) hcapsule) ?_⟩
  have hstill : ∀ s ∈ (exportIn fun _ => oneStored).1, s = oneStored := fun s hs =>
    (Prog.mem_replay hs).elim fun _ h => h
  intro s hs t ht
  rw [hstill s hs, hstill t ht]

/-- The other session stores its secret after the root was computed. -/
def overtaken (n : ℕ) : Db := if n < 5 then Db.empty else oneStored

/-- **Not every capsule is bound to the log it contains.** -/
theorem capsule_not_bound :
    ¬ ∀ (so : Sodium) (lib : KeyLibrary) (serialize : Db → Bytes) (files : CString → Option Bytes)
      (keys : Subkeys) (recipient capsulePath : CString) (db db' : Db) (seen : List Db)
      (capsule : Bytes),
      Reads (others so keys) (backupExport so lib serialize files (some keys) recipient capsulePath)
        db seen db' (.ok capsule) →
      ∃ z, seen.getLast? = some z ∧ Bound so lib serialize keys z capsule := by
  intro h
  have hstates (n : ℕ) : (others toy toyKeys).rely (overtaken n) (overtaken (n + 1)) := by
    unfold overtaken
    split_ifs with h1 h2
    · exact .refl
    · exact others_store
    · omega
    · exact .refl
  have hroot : ((exportIn overtaken).2.2).toOption.map headerRoot = some (Block.zero 32).1 := by
    decide +kernel
  cases hr : (exportIn overtaken).2.2 with
  | error e =>
    rw [hr] at hroot
    nomatch hroot
  | ok capsule =>
    rw [hr] at hroot
    obtain ⟨z, hz, _, _, _, _, hs, hseal, hhash, -⟩ :=
      h _ _ _ _ _ _ _ _ _ _ _ (reads_exportIn hstates hr)
    have hlast : (exportIn overtaken).1.getLast?.bind (fun z =>
        (entryHashes z.audit).toOption.map fun hs => (merkleRoot toy hs).1) ≠
        some (Block.zero 32).1 := by decide +kernel
    rw [hz] at hlast
    simp only [Option.bind_some, hhash] at hlast
    have hsame := headerRoot_sealSnapshot hseal
    exact hlast (congrArg some (hsame.symm.trans (Option.some.inj hroot)))

/-! ### Among processes that append -/

/-- **Among processes that only append to a log that verifies** a capsule is bound to the log it
contains if and only if no entry was appended after the log was read for the root. -/
theorem bound_iff {recipient capsulePath : CString} {capsule : Bytes} {before : List Db} {y z : Db}
    (h : Reads M (backupExport so lib serialize files (some keys) recipient capsulePath) db
      (before ++ [y, z]) db' (.ok capsule))
    (hrely : ∀ s s', M.rely s s' → s.audit.rows <+: s'.audit.rows)
    (hinv : ∀ s, M.inv s → verifyChain so keys.kekAudit s.audit = .ok ())
    (hfree : so.CollisionFree (logMessages so y.audit ∪ logMessages so z.audit))
    (hzero : ∀ m ∈ logMessages so y.audit ∪ logMessages so z.audit, so.sha256 m ≠ Block.zero 32) :
    Bound so lib serialize keys z capsule ↔ y.audit = z.audit := by
  have hpair := (List.pairwise_append.mp (h.pairwise readOnly_backupExport)).2.1
  have hyz : y.audit.rows <+: z.audit.rows := hrely _ _ (List.rel_of_pairwise_cons hpair (by simp))
  have hvery := hinv y (h.mem readOnly_backupExport (by simp)).2.1
  have hverz := hinv z (h.mem readOnly_backupExport (by simp)).2.1
  obtain ⟨v, middle, z', y', hs, encap, kem, x25519, nonce, hseen, hy, -, hhash, hseal⟩ :=
    backupExport_reads h
  obtain ⟨hfront, hlast⟩ : before ++ [y] = v :: middle ∧ [z] = [z'] :=
    List.append_inj' (by simpa using hseen) rfl
  obtain rfl : z = z' := by simpa using hlast
  obtain rfl : y = y' := by
    have hlast' := congrArg List.getLast? hfront
    rw [List.getLast?_concat, List.getLast?_cons, hy] at hlast'
    simpa using hlast'
  constructor
  · rintro ⟨_, _, _, _, hs', hseal', hhash', -⟩
    have hroot : merkleRoot so hs = merkleRoot so hs' := Subtype.ext
      ((headerRoot_sealSnapshot hseal).symm.trans (headerRoot_sealSnapshot hseal'))
    have hsame := hashes_of_verified hvery hverz hhash hhash' hfree hzero hroot
    refine eq_of_prefix hyz ?_
    rw [← entryHashes_length hhash, ← entryHashes_length hhash', hsame]
  · intro he
    rw [he] at hhash
    exact ⟨encap, kem, x25519, nonce, hs, hseal, hhash, hverz⟩

end Fuin.Vault.Exported

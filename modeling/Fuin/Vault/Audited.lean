import Fuin.Audit.Inclusion
import Fuin.Store.Success
import Fuin.Vault.Reopened

/-! # Roots and proofs of an open vault

`vault_audit_merkle_root`, `vault_audit_merkle_proof` and `vault_audit_verify_merkle_proof` verify the
chain first. For every entry of an honest log a proof is made and accepted, and it is accepted after
any later calls as well, since they leave the hashes of the entries (`merkle_proof_stays`). -/

namespace Fuin.Vault.Audited

open Fuin.Utils Fuin.Crypto Fuin.Lib.Program Fuin.Lib.Merkle Fuin.Lib.Growth Fuin.Store.Database
open Fuin.Store.Success Fuin.Kdf Fuin.Audit.Table Fuin.Audit.Encoding Fuin.Audit.Verify
open Fuin.Audit.Resign Fuin.Audit.Merkle Fuin.Audit.Inclusion Fuin.Vault.Operations Fuin.Vault.Rules
open Fuin.Vault.Calls Fuin.Vault.Honest Fuin.Vault.Reopened

/-- `audit_verify_chain` under the key of the session. -/
def auditVerify (so : Sodium) (keys : Subkeys) : Sql Unit := do
  Sql.lib .crypto
  Sql.select fun db => verifyChain so keys.kekAudit db.audit

/-- `vault_audit_merkle_root`. -/
def auditMerkleRoot (so : Sodium) (keys : Subkeys) : Sql (Block 32 × ℕ) := do
  auditVerify so keys
  computeMerkleRoot so

/-- What `vault_audit_merkle_proof` returns. -/
structure MerkleProof where
  entryHash : Block 32
  root : Block 32
  proof : Bytes
  leafIndex : ℕ
  leafCount : ℕ

/-- `vault_audit_merkle_proof`. -/
def auditMerkleProof (so : Sodium) (keys : Subkeys) (entryId : ℤ) (capacity : ℕ) :
    Sql MerkleProof := do
  Prog.ofExcept (require (1 ≤ entryId) .invalidArgument)
  auditVerify so keys
  let entryHash ← getEntryHash entryId
  let (root, rootLeafCount) ← computeMerkleRoot so
  let (proof, leafIndex, leafCount) ← buildMerkleProof so entryId capacity
  Prog.ofExcept (require (rootLeafCount = leafCount) .storage)
  return ⟨entryHash, root, proof, leafIndex, leafCount⟩

/-- `vault_audit_verify_merkle_proof`. -/
def auditVerifyMerkleProof (so : Sodium) (keys : Subkeys) (entryId : ℤ) (root : Block 32)
    (proof : Bytes) (leafIndex leafCount : ℕ) : Sql Unit := do
  Prog.ofExcept (require (1 ≤ entryId) .invalidArgument)
  auditVerify so keys
  let entryHash ← getEntryHash entryId
  Sql.lib .crypto
  Prog.ofExcept (verifyMerkleProof so entryHash leafIndex leafCount proof root)

variable {so : Sodium} {keys : Subkeys} {db : Db} {α : Type} {Q : α → Db → Prop}

theorem readOnly_auditVerify : Sql.ReadOnly (auditVerify so keys) :=
  Sql.readOnly_lib.bind fun _ => Sql.readOnly_select

theorem readOnly_auditMerkleRoot : Sql.ReadOnly (auditMerkleRoot so keys) :=
  readOnly_auditVerify.bind fun _ => readOnly_computeMerkleRoot

theorem readOnly_auditMerkleProof {entryId : ℤ} {capacity : ℕ} :
    Sql.ReadOnly (auditMerkleProof so keys entryId capacity) := by
  refine Prog.readOnly_ofExcept.bind fun _ => readOnly_auditVerify.bind fun _ => ?_
  refine readOnly_getEntryHash.bind fun _ => readOnly_computeMerkleRoot.bind fun _ => ?_
  exact readOnly_buildMerkleProof.bind fun _ => Prog.readOnly_ofExcept.bind fun _ => trivial

theorem readOnly_auditVerifyMerkleProof {entryId : ℤ} {root : Block 32} {proof : Bytes}
    {leafIndex leafCount : ℕ} :
    Sql.ReadOnly (auditVerifyMerkleProof so keys entryId root proof leafIndex leafCount) :=
  Prog.readOnly_ofExcept.bind fun _ => readOnly_auditVerify.bind fun _ =>
    readOnly_getEntryHash.bind fun _ => Sql.readOnly_lib.bind fun _ => Prog.readOnly_ofExcept

/-! ### When nothing fails -/

theorem succeeds_auditVerify_bind {f : Unit → Sql α}
    (hver : verifyChain so keys.kekAudit db.audit = .ok ()) (h : Succeeds Q (f ()) db) :
    Succeeds Q ((auditVerify so keys).bind f) db := by
  unfold auditVerify
  simp only [Prog.bind_def, Prog.bind_assoc]
  exact ends_lib_bind (ends_select_bind hver h)

/-- The first row with an id is the row at its position. -/
theorem find_numbered {t : AuditTable} (ht : Numbered t) {i : ℕ} {r : AuditRow}
    (hr : t.rows[i]? = some r) : t.rows.find? (fun s => s.entryId = r.entryId) = some r := by
  obtain ⟨hi, rfl⟩ := List.getElem?_eq_some_iff.mp hr
  refine List.find?_eq_some_iff_getElem.mpr ⟨by simp, i, hi, rfl, fun j hj => ?_⟩
  have hi' := ht i hi
  have hj' := ht j (hj.trans hi)
  simp only [hi', hj']
  simp
  omega

theorem succeeds_getEntryHash_bind {i : ℕ} {r : AuditRow} {h : Block 32} {f : Block 32 → Sql α}
    (hnum : Numbered db.audit) (hr : db.audit.rows[i]? = some r) (hh : r.entryHash = h.1)
    (hf : Succeeds Q (f h) db) : Succeeds Q ((getEntryHash r.entryId).bind f) db := by
  have hid : 1 ≤ r.entryId := by
    obtain ⟨hi, rfl⟩ := List.getElem?_eq_some_iff.mp hr
    have := hnum i hi
    omega
  unfold getEntryHash
  simp only [Prog.bind_def, Prog.bind_assoc]
  refine ends_require_bind hid (ends_select_bind ?_ hf)
  rw [find_numbered hnum hr]
  exact columnHash_eq_ok.mpr hh

theorem succeeds_loadMerkleLeaves_bind {target : ℤ} {hs : List (Block 32)}
    {f : List (Block 32) × Option ℕ → Sql α} (hhs : entryHashes db.audit = .ok hs) (hne : hs ≠ [])
    (hlen : hs.length ≤ sizeMax / 32)
    (hfound : target ≤ 0 ∨ (foundIn target 0 db.audit.rows).isSome)
    (hf : Succeeds Q (f (leaves so hs, foundIn target 0 db.audit.rows)) db) :
    Succeeds Q ((loadMerkleLeaves so target).bind f) db := by
  have hcount := entryHashes_length hhs
  have hpos : ¬ db.audit.rows.length = 0 := by
    rw [← hcount, List.length_eq_zero_iff]
    exact hne
  have hread : readLeaves so target db.audit.rows.length 0 db.audit.rows =
      .ok (leaves so hs, foundIn target 0 db.audit.rows) :=
    readLeaves_eq_ok.mpr ⟨by omega, rfl, hs, entryHashes_eq_ok.mp hhs, rfl⟩
  unfold loadMerkleLeaves
  simp only [Prog.bind_def, Prog.bind_assoc]
  refine ends_select_bind rfl ?_
  rw [if_neg hpos]
  simp only [Prog.bind_assoc]
  refine ends_require_bind (by omega) (ends_libs_bind (ends_select_bind hread ?_))
  exact ends_require_bind hfound hf

theorem succeeds_computeMerkleRoot_bind {hs : List (Block 32)} {f : Block 32 × ℕ → Sql α}
    (hhs : entryHashes db.audit = .ok hs) (hne : hs ≠ []) (hlen : hs.length ≤ sizeMax / 32)
    (hf : Succeeds Q (f (merkleRoot so hs, hs.length)) db) :
    Succeeds Q ((computeMerkleRoot so).bind f) db := by
  unfold computeMerkleRoot
  simp only [Prog.bind_def, Prog.bind_assoc]
  refine succeeds_loadMerkleLeaves_bind hhs hne hlen (Or.inl le_rfl) (ends_libs_bind ?_)
  have hl : (leaves so hs).length = hs.length := List.length_map _
  rw [hl]
  exact hf

/-- The path of the entry with an id, of as many hashes as there are levels. -/
theorem succeeds_buildMerkleProof_bind {hs : List (Block 32)} {i capacity : ℕ} {r : AuditRow}
    {f : Bytes × ℕ × ℕ → Sql α} (hnum : Numbered db.audit) (hr : db.audit.rows[i]? = some r)
    (hhs : entryHashes db.audit = .ok hs) (hlen : hs.length ≤ sizeMax / 32)
    (hcap : 32 * Nat.clog 2 hs.length ≤ capacity)
    (hf : Succeeds Q (f ((path (hashMerkleInternal so) (leaves so hs) i).flatMap Subtype.val, i,
      hs.length)) db) :
    Succeeds Q ((buildMerkleProof so r.entryId capacity).bind f) db := by
  obtain ⟨hi, hget⟩ := List.getElem?_eq_some_iff.mp hr
  have hid : 1 ≤ r.entryId := by
    have := hnum i hi
    rw [hget] at this
    omega
  have hcount := entryHashes_length hhs
  have hl : (leaves so hs).length = hs.length := List.length_map _
  have hfound : foundIn r.entryId 0 db.audit.rows = some i := by
    rw [foundIn_getElem (by omega) db.audit.sorted hr rfl, Nat.zero_add]
  have hpath := length_path (hashMerkleInternal so) (leaves so hs) i (by omega)
  unfold buildMerkleProof
  simp only [Prog.bind_def, Prog.bind_assoc]
  refine ends_require_bind hid (succeeds_loadMerkleLeaves_bind hhs ?_ hlen ?_ ?_)
  · exact List.ne_nil_of_length_pos (by omega)
  · exact Or.inr (by rw [hfound]; rfl)
  · simp only [hfound, Option.getD_some]
    refine ends_libs_bind (ends_require_bind ?_ ?_)
    · rw [hpath, hl]
      exact hcap
    · rw [hl]
      exact hf

/-- **A proof is made** for every entry of a log that verifies, with the hash and the root of the
log. -/
theorem succeeds_auditMerkleProof {hs : List (Block 32)} {i capacity : ℕ} {r : AuditRow}
    {h : Block 32} (hnum : Numbered db.audit) (hver : verifyChain so keys.kekAudit db.audit = .ok ())
    (hr : db.audit.rows[i]? = some r) (hh : r.entryHash = h.1)
    (hhs : entryHashes db.audit = .ok hs) (hlen : hs.length ≤ sizeMax / 32)
    (hcap : 32 * Nat.clog 2 hs.length ≤ capacity) :
    Succeeds (fun p db' => db' = db ∧ p = ⟨h, merkleRoot so hs,
      (path (hashMerkleInternal so) (leaves so hs) i).flatMap Subtype.val, i, hs.length⟩)
      (auditMerkleProof so keys r.entryId capacity) db := by
  have hi : i < db.audit.rows.length := (List.getElem?_eq_some_iff.mp hr).1
  have hid : 1 ≤ r.entryId := by
    obtain ⟨hi, rfl⟩ := List.getElem?_eq_some_iff.mp hr
    have := hnum i hi
    omega
  have hcount := entryHashes_length hhs
  refine ends_require_bind hid (succeeds_auditVerify_bind hver ?_)
  refine succeeds_getEntryHash_bind hnum hr hh ?_
  refine succeeds_computeMerkleRoot_bind hhs (List.ne_nil_of_length_pos (by omega)) hlen ?_
  refine succeeds_buildMerkleProof_bind hnum hr hhs hlen hcap ?_
  exact ends_require_bind rfl ⟨rfl, rfl⟩

/-- **A proof is accepted** as long as the entry at its position has the same hash. -/
theorem succeeds_auditVerifyMerkleProof {i leafIndex leafCount : ℕ} {r : AuditRow}
    {h root : Block 32} {proof : Bytes} (hnum : Numbered db.audit)
    (hver : verifyChain so keys.kekAudit db.audit = .ok ()) (hr : db.audit.rows[i]? = some r)
    (hh : r.entryHash = h.1)
    (hproof : verifyMerkleProof so h leafIndex leafCount proof root = .ok ()) :
    Succeeds (fun _ db' => db' = db)
      (auditVerifyMerkleProof so keys r.entryId root proof leafIndex leafCount) db := by
  have hid : 1 ≤ r.entryId := by
    obtain ⟨hi, rfl⟩ := List.getElem?_eq_some_iff.mp hr
    have := hnum i hi
    omega
  refine ends_require_bind hid (succeeds_auditVerify_bind hver ?_)
  refine succeeds_getEntryHash_bind hnum hr hh (ends_lib_bind ?_)
  exact Prog.yields_ofExcept hproof rfl

/-! ### Over the runs of a vault -/

/-- The entry at a position keeps its id and its hash. -/
theorem row_stays {t u : AuditTable} {i : ℕ} {r : AuditRow} (h : LogGrows t u) (ht : Numbered t)
    (hu : Numbered u) (hr : t.rows[i]? = some r) :
    ∃ s, u.rows[i]? = some s ∧ s.entryHash = r.entryHash ∧ s.entryId = r.entryId := by
  obtain ⟨l, hl⟩ := h
  have hi : i < t.rows.length := (List.getElem?_eq_some_iff.mp hr).1
  have hget : (u.rows.map AuditRow.entryHash)[i]? = some r.entryHash := by
    rw [← hl, List.getElem?_append_left (by simpa using hi), List.getElem?_map, hr]
    rfl
  rw [List.getElem?_map, Option.map_eq_some_iff] at hget
  obtain ⟨s, hs, he⟩ := hget
  refine ⟨s, hs, he, ?_⟩
  obtain ⟨hi', rfl⟩ := List.getElem?_eq_some_iff.mp hs
  obtain ⟨-, rfl⟩ := List.getElem?_eq_some_iff.mp hr
  rw [hu i hi', ht i hi]

/-- **Merkle proofs are complete and stay valid.** In every state that calls lead to from a new
vault, a proof is made for every entry of the log, of as many hashes as the levels of the tree, and
it is accepted there and after any later calls. -/
theorem merkle_proof_stays {P : Set CString} {cs : List Call} {i : ℕ} {r : AuditRow}
    {es : ℕ → Input} (hP : DistinctVerifiers so P) (hcs : ∀ c ∈ cs, Uses P c.op)
    (hs : (newVault.afterAll so cs).session = some keys)
    (hr : (newVault.afterAll so cs).db.audit.rows[i]? = some r)
    (hlen : (newVault.afterAll so cs).db.audit.rows.length < 2 ^ 31) (hes : ∀ n, Calm (es n)) :
    ∃ p, (auditMerkleProof so keys r.entryId (64 * 32)).run Stmt.exec es
          (newVault.afterAll so cs).db = ((newVault.afterAll so cs).db, .ok p) ∧
      p.proof.length = 32 * Nat.clog 2 (newVault.afterAll so cs).db.audit.rows.length ∧
      ∀ cs' keys' es', (∀ c ∈ cs', Uses P c.op) → (∀ n, Calm (es' n)) →
        ((newVault.afterAll so cs).afterAll so cs').session = some keys' →
          ((auditVerifyMerkleProof so keys' r.entryId p.root p.proof p.leafIndex p.leafCount).run
            Stmt.exec es' ((newVault.afterAll so cs).afterAll so cs').db).2 = .ok () := by
  have hheld := (held_new.afterAll hP hcs).1
  generalize newVault.afterAll so cs = u at hs hr hlen hheld
  have hsound := hheld.sound hs
  obtain ⟨ss, hss, -⟩ := verifyChain_eq_ok.mp hsound.verified
  have hmap := map_hash_of_read hss
  have hhs : entryHashes u.db.audit = .ok (ss.map Signed.hash) := entryHashes_eq_ok.mpr hmap
  have hcount := entryHashes_length hhs
  have hi : i < u.db.audit.rows.length := (List.getElem?_eq_some_iff.mp hr).1
  have hget := congrArg (·[i]?) hmap
  simp only [List.getElem?_map, hr, Option.map_some] at hget
  obtain ⟨h, hh, he⟩ := Option.map_eq_some_iff.mp hget.symm
  have hh' : (ss.map Signed.hash)[i]? = some h := by
    rw [List.getElem?_map]
    exact hh
  have hclog : Nat.clog 2 u.db.audit.rows.length ≤ 31 :=
    Nat.clog_le_of_le_pow (by omega)
  have hmade : Succeeds _ (auditMerkleProof so keys r.entryId (64 * 32)) u.db :=
    succeeds_auditMerkleProof hsound.numbered hsound.verified hr he.symm hhs
      (by unfold sizeMax; omega) (by rw [hcount]; omega)
  obtain ⟨p, db', hrun, hdb, hp⟩ := hmade.run hes
  subst hdb hp
  refine ⟨_, hrun, ?_, fun cs' keys' es' hcs' hes' hs' => ?_⟩
  · rw [length_flatMap_val, length_path]
    · rw [leaves, List.length_map, hcount]
    · rw [leaves, List.length_map, hcount]
      exact hi
  · obtain ⟨hheld', hgrow⟩ := hheld.afterAll hP hcs'
    have hsound' := hheld'.sound hs'
    obtain ⟨s, hsrow, hsh, hsid⟩ := row_stays hgrow hsound.numbered hsound'.numbered hr
    rw [← hsid]
    obtain ⟨_, _, hrun', -⟩ := (succeeds_auditVerifyMerkleProof hsound'.numbered hsound'.verified
      hsrow (hsh.trans he.symm) (verifyMerkleProof_path (by unfold sizeMax; omega) hh')).run hes'
    rw [hrun']

/-- A secret is stored in a new vault and read. -/
def storedRead : List Call :=
  let name := sampleName
  [⟨.unlock samplePassword, fun _ => calm 1735689600 1⟩,
    ⟨.put name [1, 2] none 0, fun _ => calm 1735689600 2⟩,
    ⟨.get name 16, fun _ => calm 1735689600 3⟩]

/-- The vault is opened again and the password changes. -/
def openedAgain : List Call :=
  [⟨.unlockExisting samplePassword, fun _ => calm 1735689600 4⟩,
    ⟨.rotateKek samplePassword, fun _ => calm 1735689600 5⟩]

theorem calm_calm (b : UInt8) (n : ℕ) : Calm (calm 1735689600 b n) := ⟨rfl, _, rfl⟩

theorem second_proof_stays : ∃ r p keys keys',
    (newVault.afterAll toy storedRead).db.audit.rows[1]? = some r ∧
      ((auditMerkleProof toy keys r.entryId (64 * 32)).run Stmt.exec (calm 1735689600 6)
        (newVault.afterAll toy storedRead).db).2 = .ok p ∧
      ((auditVerifyMerkleProof toy keys' r.entryId p.root p.proof p.leafIndex p.leafCount).run Stmt.exec
        (calm 1735689600 7) ((newVault.afterAll toy storedRead).afterAll toy openedAgain).db).2 =
          .ok () := by
  have hP := distinct_singleton toy samplePassword
  have hrow : 1 < (newVault.afterAll toy storedRead).db.audit.rows.length := by decide +kernel
  obtain ⟨keys, hkeys⟩ : ∃ k, (newVault.afterAll toy storedRead).session = some k :=
    Option.isSome_iff_exists.mp (by decide +kernel)
  obtain ⟨keys', hkeys'⟩ :
      ∃ k, ((newVault.afterAll toy storedRead).afterAll toy openedAgain).session = some k :=
    Option.isSome_iff_exists.mp (by decide +kernel)
  have hused {cs : List Call} (h : ∀ c ∈ cs, ∀ p ∈ passwordOf c.op, p = samplePassword) :
      ∀ c ∈ cs, Uses {samplePassword} c.op := h
  obtain ⟨p, hmade, -, hstays⟩ := merkle_proof_stays hP (hused (by decide)) hkeys
    (List.getElem?_eq_getElem hrow) (by decide +kernel) (calm_calm 6)
  exact ⟨_, p, keys, keys', List.getElem?_eq_getElem hrow, congrArg Prod.snd hmade,
    hstays openedAgain keys' _ (hused (by decide)) (calm_calm 7) hkeys'⟩

end Fuin.Vault.Audited

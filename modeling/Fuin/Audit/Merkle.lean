import Fuin.Audit.Rearranged
import Fuin.Lib.Merkle
import Fuin.Store.Seen

/-! # The Merkle tree of the log

The leaves of the tree are the hashes of the entry hashes, in the order of the ids. The root and a
proof are computed from two queries (the number of rows, then the rows); a proof is checked with the
entry hash, a position, a number of leaves and the siblings, all of which may come from anybody.

As far as SHA-256 has no collision on what is hashed, a proof that is accepted is about an entry of
the log, and at a position of the log about the entry there (`verifyMerkleProof_sound`); and the root
determines the entry hashes of a log that verifies (`root_identifies`). -/

namespace Fuin.Audit.Merkle

open Fuin.Utils Fuin.Crypto Fuin.Lib.Program Fuin.Lib.Merkle Fuin.Store.Database Fuin.Store.Seen
open Fuin.Audit.Table Fuin.Audit.Encoding Fuin.Audit.Verify Fuin.Audit.Log Fuin.Audit.Rearranged

/-- The message of a leaf, in its domain. -/
def leafBytes (h : Block 32) : Bytes := 0 :: h.1

/-- The message of an inner node, in its domain. -/
def internalBytes (l r : Block 32) : Bytes := 1 :: (l.1 ++ r.1)

/-- `audit_hash_merkle_leaf`. -/
def hashMerkleLeaf (so : Sodium) (h : Block 32) : Block 32 := so.sha256 (leafBytes h)

/-- `audit_hash_merkle_internal`. -/
def hashMerkleInternal (so : Sodium) (l r : Block 32) : Block 32 := so.sha256 (internalBytes l r)

/-- The loop of `audit_load_merkle_leaves`: the leaves, and the index of the row with the id
`target` if one is asked for. -/
def readLeaves (so : Sodium) (target : ℤ) (count : ℕ) : ℕ → List AuditRow →
    Except Status (List (Block 32) × Option ℕ)
  | index, [] => do
    require (index = count) .storage
    return ([], none)
  | index, r :: rs => do
    require (index < count) .storage
    let hash ← columnHash r.entryHash
    let (leaves, found) ← readLeaves so target count (index + 1) rs
    return (hashMerkleLeaf so hash :: leaves,
      if found.isNone ∧ 0 < target ∧ r.entryId = target then some index else found)

/-- `audit_load_merkle_leaves`, after `audit_count_entries`. -/
def loadMerkleLeaves (so : Sodium) (target : ℤ) : Sql (List (Block 32) × Option ℕ) := do
  let count ← Sql.select fun db => .ok db.audit.rows.length
  if count = 0 then
    Prog.ofExcept (require (target ≤ 0) .notFound)
    return ([], none)
  else
    Prog.ofExcept (require (count ≤ sizeMax / 32) .storage)
    Sql.libs [.storage, .crypto]
    let (leaves, found) ← Sql.select fun db => readLeaves so target count 0 db.audit.rows
    Prog.ofExcept (require (target ≤ 0 ∨ found.isSome) .notFound)
    return (leaves, found)

/-- `audit_compute_merkle_root`: zeros for the empty log, and the number of leaves. -/
def computeMerkleRoot (so : Sodium) : Sql (Block 32 × ℕ) := do
  let (leaves, _) ← loadMerkleLeaves so 0
  Sql.libs [.storage, .crypto]
  return ((root (hashMerkleInternal so) leaves).getD (Block.zero 32), leaves.length)

/-- `audit_build_merkle_proof`: the siblings, the index of the entry and the number of leaves. -/
def buildMerkleProof (so : Sodium) (entryId : ℤ) (capacity : ℕ) : Sql (Bytes × ℕ × ℕ) := do
  Prog.ofExcept (require (1 ≤ entryId) .invalidArgument)
  let (leaves, found) ← loadMerkleLeaves so entryId
  let index := found.getD 0
  let siblings := path (hashMerkleInternal so) leaves index
  Sql.libs [.storage, .crypto]
  Prog.ofExcept (require (32 * siblings.length ≤ capacity) .invalidArgument)
  return (siblings.flatMap Subtype.val, index, leaves.length)

/-- The loop of `audit_verify_merkle_proof`; `count + 1` is a `size_t`. -/
def climb (so : Sodium) (current : Block 32) (index count : ℕ) (proof : Bytes) :
    Except Status (Block 32) :=
  if 1 < count then
    if h : 32 ≤ proof.length then
      climb so (join (hashMerkleInternal so) index current
        ⟨proof.take 32, by rw [List.length_take]; omega⟩) (index / 2)
        ((count + 1) % (sizeMax + 1) / 2) (proof.drop 32)
    else .error .invalidArgument
  else if proof = [] then .ok current
  else .error .invalidArgument
termination_by proof.length
decreasing_by
  simp only [List.length_drop]
  omega

/-- `audit_verify_merkle_proof`. -/
def verifyMerkleProof (so : Sodium) (entryHash : Block 32) (leafIndex leafCount : ℕ) (proof : Bytes)
    (rootHash : Block 32) : Except Status Unit := do
  require (leafCount ≠ 0 ∧ leafIndex < leafCount ∧ proof.length % 32 = 0) .invalidArgument
  let top ← climb so (hashMerkleLeaf so entryHash) leafIndex leafCount proof
  require (top = rootHash) .crypto

/-- `audit_get_entry_hash`. -/
def getEntryHash (entryId : ℤ) : Sql (Block 32) := do
  Prog.ofExcept (require (1 ≤ entryId) .invalidArgument)
  Sql.select fun db =>
    match db.audit.rows.find? fun r => r.entryId = entryId with
    | none => .error .notFound
    | some r => columnHash r.entryHash

/-! ### The tree of a log -/

variable {so : Sodium}

/-- The entry hashes of a log, if they can be read. -/
def entryHashes (t : AuditTable) : Except Status (List (Block 32)) :=
  t.rows.mapM fun r => columnHash r.entryHash

/-- The leaves over entry hashes. -/
def leaves (so : Sodium) (hs : List (Block 32)) : List (Block 32) := hs.map (hashMerkleLeaf so)

/-- The root over entry hashes. -/
def merkleRoot (so : Sodium) (hs : List (Block 32)) : Block 32 :=
  (root (hashMerkleInternal so) (leaves so hs)).getD (Block.zero 32)

@[simp] theorem merkleRoot_nil : merkleRoot so [] = Block.zero 32 := by
  simp [merkleRoot, leaves, root]

/-- The rows and their hashes. -/
theorem mapM_columnHash {rs : List AuditRow} {hs : List (Block 32)} :
    rs.mapM (fun r => columnHash r.entryHash) = .ok hs ↔
      rs.map AuditRow.entryHash = hs.map Subtype.val := by
  induction rs generalizing hs with
  | nil =>
    cases hs with
    | nil => exact iff_of_true rfl rfl
    | cons h hs => exact iff_of_false (by simp) (by simp)
  | cons r rs ih =>
    simp only [List.mapM_cons, bind_eq_ok, pure_eq_ok, columnHash_eq_ok, ih]
    constructor
    · rintro ⟨h, hh, hs, hhs, rfl⟩
      rw [List.map_cons, List.map_cons, hh, hhs]
    · intro e
      cases hs with
      | nil => cases e
      | cons h hs =>
        obtain ⟨h1, h2⟩ := List.cons.inj e
        exact ⟨h, h1, hs, h2, rfl⟩

theorem entryHashes_eq_ok {t : AuditTable} {hs : List (Block 32)} :
    entryHashes t = .ok hs ↔ t.rows.map AuditRow.entryHash = hs.map Subtype.val := mapM_columnHash

theorem entryHashes_length {t : AuditTable} {hs : List (Block 32)} (h : entryHashes t = .ok hs) :
    hs.length = t.rows.length := by
  simpa using (congrArg List.length (entryHashes_eq_ok.mp h)).symm

/-- The index that the loop finds: that of the last row with the id. -/
def foundIn (target : ℤ) : ℕ → List AuditRow → Option ℕ
  | _, [] => none
  | index, r :: rs =>
    if (foundIn target (index + 1) rs).isNone ∧ 0 < target ∧ r.entryId = target then some index
    else foundIn target (index + 1) rs

theorem readLeaves_eq_ok {target : ℤ} {count : ℕ} : ∀ {rs : List AuditRow} {index : ℕ}
    {ls : List (Block 32)} {found : Option ℕ},
    readLeaves so target count index rs = .ok (ls, found) ↔
      index + rs.length = count ∧ found = foundIn target index rs ∧
        ∃ hs, rs.map AuditRow.entryHash = hs.map Subtype.val ∧ ls = leaves so hs
  | [], index, ls, found => by
    simp only [readLeaves, bind_eq_ok, require_eq_ok, pure_eq_ok, Prod.mk.injEq, foundIn,
      List.length_nil, Nat.add_zero]
    constructor
    · rintro ⟨-, rfl, rfl, rfl⟩
      exact ⟨rfl, rfl, [], rfl, rfl⟩
    · rintro ⟨rfl, rfl, hs, h, rfl⟩
      obtain rfl : hs = [] := List.map_eq_nil_iff.mp h.symm
      exact ⟨(), rfl, rfl, rfl⟩
  | r :: rs, index, ls, found => by
    simp only [readLeaves, bind_eq_ok, require_eq_ok, pure_eq_ok, columnHash_eq_ok, Prod.exists,
      readLeaves_eq_ok, Prod.mk.injEq, foundIn, List.length_cons]
    constructor
    · rintro ⟨-, hlt, h, hh, ls, found, ⟨hlen, rfl, hs, hhs, rfl⟩, rfl, rfl⟩
      exact ⟨by omega, rfl, h :: hs, by rw [List.map_cons, hh, hhs]; rfl, rfl⟩
    · rintro ⟨hlen, rfl, hs, hhs, rfl⟩
      obtain ⟨h, hs, rfl⟩ := List.exists_cons_of_length_pos (l := hs)
        (by have := congrArg List.length hhs; simp at this; omega)
      obtain ⟨h1, h2⟩ := List.cons.inj hhs
      exact ⟨(), by omega, h, h1, _, _, ⟨by omega, rfl, hs, h2, rfl⟩, rfl, rfl⟩

/-- Ids that differ: the index found is the one of the row. -/
theorem foundIn_getElem {target : ℤ} (ht : 0 < target) : ∀ {rs : List AuditRow} {i index : ℕ}
    {r : AuditRow}, rs.Pairwise (fun r s => r.entryId < s.entryId) → rs[i]? = some r →
      r.entryId = target → foundIn target index rs = some (index + i)
  | [], _, _, _, _, h, _ => by simp at h
  | s :: rs, 0, index, r, hs, h, hr => by
    obtain rfl : s = r := by simpa using h
    have hnone : ∀ {rs : List AuditRow} {index : ℕ}, (∀ u ∈ rs, target < u.entryId) →
        foundIn target index rs = none := by
      intro rs
      induction rs with
      | nil => exact fun _ => rfl
      | cons u rs ih =>
        intro index hu
        have := hu u (by simp)
        have hrs : foundIn target (index + 1) rs = none := ih fun v hv => hu v (by simp [hv])
        simp only [foundIn, hrs]
        rw [if_neg fun h => by omega]
    have hrs : foundIn target (index + 1) rs = none :=
      hnone fun u hu => hr ▸ List.rel_of_pairwise_cons hs hu
    simp [foundIn, hrs, ht, hr]
  | s :: rs, i + 1, index, r, hs, h, hr => by
    have ih : foundIn target (index + 1) rs = some (index + 1 + i) :=
      foundIn_getElem ht (List.pairwise_cons.mp hs).2 (by simpa using h) hr
    simp only [foundIn, ih]
    rw [if_neg (by simp)]
    congr 1
    omega

section Runs

variable {M : Ambient Db Input} {db db' : Db}

theorem readOnly_loadMerkleLeaves {target : ℤ} : Sql.ReadOnly (loadMerkleLeaves so target) := by
  refine Sql.readOnly_select.bind fun count => ?_
  split_ifs
  · exact Prog.readOnly_ofExcept.bind fun _ => trivial
  · refine Prog.readOnly_ofExcept.bind fun _ => Sql.readOnly_libs.bind fun _ => ?_
    exact Sql.readOnly_select.bind fun _ => Prog.readOnly_ofExcept.bind fun _ => trivial

/-- **The leaves** are those of the state that was read last: if a commit falls between the two
queries, the number of rows read is another one. -/
theorem loadMerkleLeaves_reads {target : ℤ} {seen : List Db} {ls : List (Block 32)}
    {found : Option ℕ} (h : Reads M (loadMerkleLeaves so target) db seen db' (.ok (ls, found))) :
    ∃ z hs, seen.getLast? = some z ∧ entryHashes z.audit = .ok hs ∧ hs.length ≤ sizeMax / 32 ∧
      ls = leaves so hs ∧ found = foundIn target 0 z.audit.rows := by
  obtain ⟨count, z₁, rest, rfl, hc, h⟩ := reads_select_bind h
  obtain rfl := Except.ok.inj hc
  by_cases h0 : z₁.audit.rows.length = 0
  · rw [if_pos h0] at h
    obtain ⟨_, -, h⟩ := Prog.sees_ofExcept_bind h
    obtain ⟨rfl, -, hret⟩ := h
    cases hret
    have hnil := List.length_eq_zero_iff.mp h0
    refine ⟨z₁, [], rfl, ?_, by simp, rfl, ?_⟩
    · rw [entryHashes, hnil]
      rfl
    · rw [hnil]
      rfl
  · rw [if_neg h0] at h
    obtain ⟨_, hle, h⟩ := Prog.sees_ofExcept_bind h
    obtain ⟨s₂, h⟩ := reads_libs_bind h
    obtain ⟨out, z, rest, rfl, hread, h⟩ := reads_select_bind h
    obtain ⟨_, -, h⟩ := Prog.sees_ofExcept_bind h
    obtain ⟨rfl, -, hret⟩ := h
    cases hret
    obtain ⟨hlen, hfound, hs, hhs, hls⟩ := readLeaves_eq_ok.mp hread
    have hhash := entryHashes_eq_ok.mpr hhs
    refine ⟨z, hs, rfl, hhash, ?_, hls, hfound⟩
    rw [entryHashes_length hhash]
    have := require_eq_ok.mp hle
    omega

theorem readOnly_computeMerkleRoot : Sql.ReadOnly (computeMerkleRoot so) :=
  readOnly_loadMerkleLeaves.bind fun _ => Sql.readOnly_libs.bind fun _ => trivial

theorem readOnly_buildMerkleProof {entryId : ℤ} {capacity : ℕ} :
    Sql.ReadOnly (buildMerkleProof so entryId capacity) :=
  Prog.readOnly_ofExcept.bind fun _ => readOnly_loadMerkleLeaves.bind fun _ =>
    Sql.readOnly_libs.bind fun _ => Prog.readOnly_ofExcept.bind fun _ => trivial

theorem readOnly_getEntryHash {entryId : ℤ} : Sql.ReadOnly (getEntryHash entryId) :=
  Prog.readOnly_ofExcept.bind fun _ => Sql.readOnly_select

/-- **The root** is that of the state that was read last. -/
theorem computeMerkleRoot_reads {seen : List Db} {r : Block 32} {n : ℕ}
    (h : Reads M (computeMerkleRoot so) db seen db' (.ok (r, n))) :
    ∃ z hs, seen.getLast? = some z ∧ entryHashes z.audit = .ok hs ∧ hs.length ≤ sizeMax / 32 ∧
      r = merkleRoot so hs ∧ n = hs.length := by
  obtain ⟨⟨ls, found⟩, s₁, seen₁, seen₂, rfl, h1, h⟩ := Prog.sees_bind h
  obtain ⟨s₂, h⟩ := reads_libs_bind h
  obtain ⟨rfl, -, hret⟩ := h
  cases hret
  obtain ⟨z, hs, hz, hhash, hlen, rfl, -⟩ := loadMerkleLeaves_reads h1
  exact ⟨z, hs, by rw [List.append_nil, hz], hhash, hlen, rfl, by simp [leaves]⟩

theorem computeMerkleRoot_runsIn {r : Block 32} {n : ℕ}
    (h : (computeMerkleRoot so).RunsIn Stmt.exec M db db' (.ok (r, n))) :
    ∃ db₁ hs, M.rely db db₁ ∧ M.inv db₁ ∧ M.rely db₁ db' ∧ entryHashes db₁.audit = .ok hs ∧
      hs.length ≤ sizeMax / 32 ∧ r = merkleRoot so hs ∧ n = hs.length := by
  obtain ⟨seen, h⟩ := h.sees (w := isSelect)
  obtain ⟨z, hs, hz, hall⟩ := computeMerkleRoot_reads h
  obtain ⟨h1, h2, h3⟩ := h.mem readOnly_computeMerkleRoot (List.mem_of_getLast? hz)
  exact ⟨z, hs, h1, h2, h3, hall⟩

/-- Without interference the root is that of the log as it is. -/
theorem computeMerkleRoot_runs {r : Block 32} {n : ℕ}
    (h : (computeMerkleRoot so).Runs Stmt.exec db db' (.ok (r, n))) :
    ∃ hs, entryHashes db.audit = .ok hs ∧ hs.length ≤ sizeMax / 32 ∧ r = merkleRoot so hs ∧
      n = hs.length := by
  obtain ⟨_, hs, rfl, -, -, hhash, hlen, hr, hn⟩ :=
    computeMerkleRoot_runsIn (Prog.runsIn_of_runs h)
  exact ⟨hs, hhash, hlen, hr, hn⟩

end Runs

/-! ### Checking a proof -/

/-- The hashes a proof consists of. -/
def blocks (proof : Bytes) : List (Block 32) :=
  if h : 32 ≤ proof.length then
    ⟨proof.take 32, by rw [List.length_take]; omega⟩ :: blocks (proof.drop 32)
  else []
termination_by proof.length
decreasing_by
  simp only [List.length_drop]
  omega

theorem length_flatMap_val : ∀ siblings : List (Block 32),
    (siblings.flatMap Subtype.val).length = 32 * siblings.length
  | [] => rfl
  | s :: siblings => by
    rw [List.flatMap_cons, List.length_append, s.2, length_flatMap_val siblings, List.length_cons]
    omega

theorem blocks_flatMap : ∀ siblings : List (Block 32),
    blocks (siblings.flatMap Subtype.val) = siblings
  | [] => by rw [blocks]; rfl
  | s :: siblings => by
    have hs : s.1.length = 32 := s.2
    rw [List.flatMap_cons, blocks, dif_pos (by rw [List.length_append]; omega)]
    have htake : (s.1 ++ siblings.flatMap Subtype.val).take 32 = s.1 := List.take_left' hs
    have hdrop : (s.1 ++ siblings.flatMap Subtype.val).drop 32 = siblings.flatMap Subtype.val :=
      List.drop_left' hs
    simp only [htake, hdrop, blocks_flatMap siblings]

/-- A proof that is not refused consists of hashes, along which it is walked. -/
theorem climb_eq_ok : ∀ {proof : Bytes} {x top : Block 32} {i c : ℕ},
    climb so x i c proof = .ok top →
      (blocks proof).flatMap Subtype.val = proof ∧
        top = walk (hashMerkleInternal so) x i (blocks proof)
  | proof, x, top, i, c, h => by
    rw [climb] at h
    rw [blocks]
    split_ifs at h with hc hlen hnil
    · obtain ⟨h1, h2⟩ := climb_eq_ok h
      rw [dif_pos hlen]
      refine ⟨?_, h2⟩
      rw [List.flatMap_cons, h1, List.take_append_drop]
    · subst hnil
      cases h
      exact ⟨rfl, rfl⟩
termination_by proof => proof.length
decreasing_by
  simp only [List.length_drop]
  omega

/-- A proof of the right length is walked. -/
theorem climb_flatMap : ∀ {siblings : List (Block 32)} {x : Block 32} {i c : ℕ}, c ≠ 0 →
    c ≤ sizeMax / 32 → siblings.length = Nat.clog 2 c →
      climb so x i c (siblings.flatMap Subtype.val) =
        .ok (walk (hashMerkleInternal so) x i siblings)
  | [], x, i, c, h0, hc, hlen => by
    have hone : ¬ 1 < c := fun h => by
      rw [clog_length h] at hlen
      simp at hlen
    rw [climb, if_neg hone]
    rfl
  | s :: siblings, x, i, c, h0, hc, hlen => by
    have hone : 1 < c := by
      by_contra h
      obtain rfl : c = 1 := by omega
      simp at hlen
    rw [clog_length hone, List.length_cons, Nat.add_right_cancel_iff] at hlen
    have hs : s.1.length = 32 := s.2
    unfold sizeMax at hc
    have hmod : (c + 1) % (sizeMax + 1) / 2 = (c + 1) / 2 := by
      unfold sizeMax
      omega
    rw [climb, if_pos hone, List.flatMap_cons, dif_pos (by rw [List.length_append]; omega)]
    have htake : (s.1 ++ siblings.flatMap Subtype.val).take 32 = s.1 := List.take_left' hs
    have hdrop : (s.1 ++ siblings.flatMap Subtype.val).drop 32 = siblings.flatMap Subtype.val :=
      List.drop_left' hs
    simp only [htake, hdrop, hmod]
    exact climb_flatMap (by omega) (by unfold sizeMax; omega) hlen

theorem flatMap_val_length (siblings : List (Block 32)) :
    (siblings.flatMap Subtype.val).length = 32 * siblings.length := by
  induction siblings with
  | nil => rfl
  | cons s siblings ih =>
    have hs : s.1.length = 32 := s.2
    rw [List.flatMap_cons, List.length_append, ih, List.length_cons]
    omega

/-- **What is accepted**: the proof is the hashes of a walk that ends in the root. -/
theorem verifyMerkleProof_eq_ok {h rootHash : Block 32} {i c : ℕ} {proof : Bytes}
    (hv : verifyMerkleProof so h i c proof rootHash = .ok ()) :
    i < c ∧ (blocks proof).flatMap Subtype.val = proof ∧
      rootHash = walk (hashMerkleInternal so) (hashMerkleLeaf so h) i (blocks proof) := by
  simp only [verifyMerkleProof, bind_eq_ok, require_eq_ok] at hv
  obtain ⟨-, ⟨-, hi, -⟩, top, hclimb, rfl⟩ := hv
  obtain ⟨h1, h2⟩ := climb_eq_ok hclimb
  exact ⟨hi, h1, h2⟩

/-- **The path of an entry is accepted** with its position and the number of entries. -/
theorem verifyMerkleProof_path {hs : List (Block 32)} {h : Block 32} {i : ℕ}
    (hlen : hs.length ≤ sizeMax / 32) (hh : hs[i]? = some h) :
    verifyMerkleProof so h i hs.length
      ((path (hashMerkleInternal so) (leaves so hs) i).flatMap Subtype.val) (merkleRoot so hs) =
        .ok () := by
  have hi : i < hs.length := (List.getElem?_eq_some_iff.mp hh).1
  have hleaf : (leaves so hs)[i]? = some (hashMerkleLeaf so h) := by
    rw [leaves, List.getElem?_map, hh]
    rfl
  have hl : (leaves so hs).length = hs.length := List.length_map _
  have hpath := length_path (hashMerkleInternal so) (leaves so hs) i (by rw [hl]; exact hi)
  rw [hl] at hpath
  have hroot : merkleRoot so hs = walk (hashMerkleInternal so) (hashMerkleLeaf so h) i
      (path (hashMerkleInternal so) (leaves so hs) i) := by
    rw [merkleRoot, walk_path _ _ _ _ hleaf]
    rfl
  simp only [verifyMerkleProof, bind_eq_ok, require_eq_ok]
  refine ⟨(), ⟨by omega, hi, ?_⟩, _, climb_flatMap (by omega) hlen hpath, hroot.symm⟩
  rw [flatMap_val_length]
  omega

/-! ### Without collisions -/

/-- The messages that are hashed for the root over entry hashes. -/
def treeMessages (so : Sodium) (hs : List (Block 32)) : List Bytes :=
  hs.map leafBytes ++
    (internals (hashMerkleInternal so) (leaves so hs)).map fun p => internalBytes p.1 p.2

/-- The messages that are hashed for the root of a log. -/
def rootMessages (so : Sodium) (t : AuditTable) : Set Bytes :=
  {m | ∃ hs, entryHashes t = .ok hs ∧ m ∈ treeMessages so hs}

theorem rootMessages_eq {t : AuditTable} {hs : List (Block 32)} (h : entryHashes t = .ok hs) :
    rootMessages so t = {m | m ∈ treeMessages so hs} := by
  ext m
  constructor
  · rintro ⟨hs', h', hm⟩
    cases h.symm.trans h'
    exact hm
  · exact fun hm => ⟨hs, h, hm⟩

/-- The messages that are hashed when a proof is checked. -/
def proofMessages (so : Sodium) (h : Block 32) (i : ℕ) (proof : Bytes) : Set Bytes :=
  {m | m ∈ leafBytes h :: (walked (hashMerkleInternal so) (hashMerkleLeaf so h) i (blocks proof)).map
    fun p => internalBytes p.1 p.2}

theorem leafBytes_inj {h h' : Block 32} (e : leafBytes h = leafBytes h') : h = h' :=
  Subtype.ext (List.cons.inj e).2

theorem internalBytes_inj {p q : Block 32 × Block 32}
    (e : internalBytes p.1 p.2 = internalBytes q.1 q.2) : p = q := by
  obtain ⟨h1, h2⟩ := List.append_inj (List.cons.inj e).2 (by rw [p.1.2, q.1.2])
  exact Prod.ext (Subtype.ext h1) (Subtype.ext h2)

theorem leafBytes_ne_internalBytes (h l r : Block 32) : leafBytes h ≠ internalBytes l r :=
  fun e => absurd (List.cons.inj e).1 (by decide)

/-- Without collisions inner nodes are told from each other and from the leaves. -/
theorem separated {S : Set Bytes} (hS : so.CollisionFree S) :
    Separated (hashMerkleInternal so) {x | ∃ h, leafBytes h ∈ S ∧ x = hashMerkleLeaf so h}
      {p | internalBytes p.1 p.2 ∈ S} where
  inj _ hp _ hq e := internalBytes_inj (hS hp hq e)
  apart p hp := by
    rintro ⟨h, hh, e⟩
    exact leafBytes_ne_internalBytes h p.1 p.2 (hS hh hp e.symm)

theorem leaf_of_messages {S : Set Bytes} {hs : List (Block 32)} (h : ∀ m ∈ treeMessages so hs, m ∈ S) :
    ∀ x ∈ leaves so hs, x ∈ {x | ∃ h, leafBytes h ∈ S ∧ x = hashMerkleLeaf so h} := by
  intro x hx
  obtain ⟨b, hb, rfl⟩ := List.mem_map.mp hx
  exact ⟨b, h _ (List.mem_append_left _ (List.mem_map_of_mem hb)), rfl⟩

theorem internals_of_messages {S : Set Bytes} {hs : List (Block 32)}
    (h : ∀ m ∈ treeMessages so hs, m ∈ S) :
    ∀ p ∈ internals (hashMerkleInternal so) (leaves so hs), internalBytes p.1 p.2 ∈ S :=
  fun _ hp => h _ (List.mem_append_right _ (List.mem_map_of_mem hp))

/-- A proof that is accepted against the root of entry hashes is about one of them, at its position
about the one there, with the siblings of its path. -/
theorem accepted_mem {hs : List (Block 32)} {h : Block 32} {i c : ℕ} {proof : Bytes}
    (hn : hs ≠ []) (hfree : so.CollisionFree ({m | m ∈ treeMessages so hs} ∪ proofMessages so h i proof))
    (hv : verifyMerkleProof so h i c proof (merkleRoot so hs) = .ok ()) :
    h ∈ hs ∧ (i < hs.length → hs[i]? = some h ∧
      proof = (path (hashMerkleInternal so) (leaves so hs) i).flatMap Subtype.val) := by
  obtain ⟨-, hproof, htop⟩ := verifyMerkleProof_eq_ok hv
  have hsep := separated hfree
  have hint := internals_of_messages (S := {m | m ∈ treeMessages so hs} ∪ proofMessages so h i proof)
    fun m hm => Or.inl hm
  have hw : ∀ q ∈ walked (hashMerkleInternal so) (hashMerkleLeaf so h) i (blocks proof),
      internalBytes q.1 q.2 ∈ {m | m ∈ treeMessages so hs} ∪ proofMessages so h i proof :=
    fun q hq => Or.inr (List.mem_cons_of_mem _ (List.mem_map_of_mem hq))
  have hleafmem : leafBytes h ∈ {m | m ∈ treeMessages so hs} ∪ proofMessages so h i proof :=
    Or.inr (List.mem_cons_self)
  have hne : leaves so hs ≠ [] := by simpa [leaves] using hn
  have hroot : root (hashMerkleInternal so) (leaves so hs) =
      some (walk (hashMerkleInternal so) (hashMerkleLeaf so h) i (blocks proof)) := by
    obtain ⟨r, hr⟩ := Option.isSome_iff_exists.mp (root_isSome (hashMerkleInternal so) hne)
    rw [merkleRoot, hr, Option.getD_some] at htop
    rw [hr, htop]
  have hdepth := walk_depth hsep (leaf_of_messages fun m hm => Or.inl hm) ⟨h, hleafmem, rfl⟩ hint hw hroot
  obtain ⟨hmem, hpos⟩ := walk_root hsep hint hw hdepth hroot
  have hinj : ∀ b ∈ hs, hashMerkleLeaf so b = hashMerkleLeaf so h → b = h := fun b hb e =>
    leafBytes_inj (hfree (Or.inl (List.mem_append_left _ (List.mem_map_of_mem hb))) hleafmem e)
  refine ⟨?_, fun hi => ?_⟩
  · obtain ⟨b, hb, e⟩ := List.mem_map.mp hmem
    exact hinj b hb e ▸ hb
  · obtain ⟨hget, hpath⟩ := hpos (by simpa [leaves] using hi)
    rw [← hpath, hproof]
    refine ⟨?_, rfl⟩
    rw [leaves, List.getElem?_map, Option.map_eq_some_iff] at hget
    obtain ⟨b, hb, e⟩ := hget
    rw [hb, hinj b (List.mem_of_getElem? hb) e]

end Fuin.Audit.Merkle

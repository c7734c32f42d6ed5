import Fuin.Audit.Merkle

/-! # What a proof and a root show

A proof that is accepted against the root of a log shows that the entry is in the log, whatever
position, number of leaves and siblings come with it, and at a position of the log there is only one
entry and one proof that is accepted (`inclusion_sound`). The root of a log that verifies shows the
whole log: the ids make its entry hashes differ, so that a node paired with itself is told from two
equal neighbours (`root_identifies`). -/

namespace Fuin.Audit.Inclusion

open Fuin.Utils Fuin.Crypto Fuin.Lib.Program Fuin.Lib.Merkle Fuin.Store.Database
open Fuin.Audit.Table Fuin.Audit.Encoding Fuin.Audit.Verify Fuin.Audit.Log Fuin.Audit.Rearranged
open Fuin.Audit.Merkle

variable {so : Sodium} {db db' : Db}

/-- The rows have the entry hashes of the list. -/
theorem exists_row {t : AuditTable} {hs : List (Block 32)} (hhs : entryHashes t = .ok hs) {i : ℕ}
    {h : Block 32} (hi : hs[i]? = some h) : ∃ r, t.rows[i]? = some r ∧ r.entryHash = h.1 := by
  have e := congrArg (·[i]?) (entryHashes_eq_ok.mp hhs)
  simp only [List.getElem?_map, hi, Option.map_some, Option.map_eq_some_iff] at e
  exact e

/-- **Proofs of inclusion are sound.** Against the root of a log of `n` entries a proof is accepted
only for an entry hash of the log, at a position below `n` only for the one there; and with the right
number of leaves exactly one entry hash and one proof are accepted for each position. -/
theorem inclusion_sound {r : Block 32} {n : ℕ}
    (hroot : (computeMerkleRoot so).Runs Stmt.exec db db' (.ok (r, n))) (hn : 1 ≤ n) :
    (∀ h i c proof, so.CollisionFree (rootMessages so db.audit ∪ proofMessages so h i proof) →
      verifyMerkleProof so h i c proof r = .ok () →
        (∃ row ∈ db.audit.rows, row.entryHash = h.1) ∧
          (i < n → ∃ row, db.audit.rows[i]? = some row ∧ row.entryHash = h.1)) ∧
    ∀ i < n, ∃ h proof, verifyMerkleProof so h i n proof r = .ok () ∧ ∀ h' proof',
      so.CollisionFree (rootMessages so db.audit ∪ proofMessages so h' i proof') →
        verifyMerkleProof so h' i n proof' r = .ok () → h' = h ∧ proof' = proof := by
  obtain ⟨hs, hhs, hlen, rfl, rfl⟩ := computeMerkleRoot_runs hroot
  have hne : hs ≠ [] := List.ne_nil_of_length_pos hn
  simp only [rootMessages_eq hhs]
  constructor
  · intro h i c proof hf hv
    obtain ⟨hmem, hpos⟩ := accepted_mem hne hf hv
    obtain ⟨j, hj, hget⟩ := List.getElem_of_mem hmem
    obtain ⟨row, hrow, hh⟩ := exists_row hhs (List.getElem?_eq_some_iff.mpr ⟨hj, hget⟩)
    exact ⟨⟨row, List.mem_of_getElem? hrow, hh⟩, fun hi => exists_row hhs (hpos hi).1⟩
  · intro i hi
    refine ⟨hs[i], _, verifyMerkleProof_path hlen (List.getElem?_eq_getElem hi), ?_⟩
    intro h' proof' hf hv
    obtain ⟨hget, hproof⟩ := (accepted_mem hne hf hv).2 hi
    rw [List.getElem?_eq_getElem hi, Option.some.injEq] at hget
    exact ⟨hget.symm, hproof⟩

/-! ### A log of two entries -/

/-- The database after a second event. -/
def twoEntries : Db :=
  ((logEvent toy actorDefault (columnText (ascii "READ")) sampleName 1
    (columnText (ascii "SUCCESS")) sampleKey).run Stmt.exec (fun _ => sampleInput) sampleDb).1

/-- Their root. -/
def twoRoot : Except Status (Block 32 × ℕ) :=
  ((computeMerkleRoot toy).run Stmt.exec (fun _ => sampleInput) twoEntries).2

def rootHash : Block 32 :=
  match twoRoot with
  | .ok (r, _) => r
  | .error _ => Block.zero 32

theorem twoEntries_root : (computeMerkleRoot toy).Runs Stmt.exec twoEntries
    ((computeMerkleRoot toy).run Stmt.exec (fun _ => sampleInput) twoEntries).1
    (.ok (rootHash, 2)) := by
  have h : twoRoot = .ok (rootHash, 2) := by decide +kernel
  rw [← h]
  exact Prog.runs_run _

/-- The entry hashes of the two rows. -/
def twoHashes : List (Block 32) :=
  match entryHashes twoEntries.audit with
  | .ok hs => hs
  | .error _ => []

theorem twoEntries_hashes : entryHashes twoEntries.audit = .ok twoHashes := by decide +kernel

/-- The second entry, with the first leaf as its proof. -/
def second : Block 32 := twoHashes.getD 1 (Block.zero 32)

def secondProof : Bytes := (hashMerkleLeaf toy (twoHashes.getD 0 (Block.zero 32))).1

theorem twoEntries_collisionFree : toy.CollisionFree
    (rootMessages toy twoEntries.audit ∪ proofMessages toy second 1 secondProof) := by
  rw [rootMessages_eq twoEntries_hashes]
  have h : ∀ a ∈ treeMessages toy twoHashes ++ (leafBytes second ::
      (walked (hashMerkleInternal toy) (hashMerkleLeaf toy second) 1 (blocks secondProof)).map
        fun p => internalBytes p.1 p.2),
      ∀ b ∈ treeMessages toy twoHashes ++ (leafBytes second ::
        (walked (hashMerkleInternal toy) (hashMerkleLeaf toy second) 1 (blocks secondProof)).map
          fun p => internalBytes p.1 p.2), toy.sha256 a = toy.sha256 b → a = b := by
    decide +kernel
  exact fun a ha b hb => h a (List.mem_append.mpr ha) b (List.mem_append.mpr hb)

theorem second_included : ∃ row, twoEntries.audit.rows[1]? = some row ∧ row.entryHash = second.1 :=
  ((inclusion_sound twoEntries_root (by decide)).1 second 1 2 secondProof twoEntries_collisionFree
    (by decide +kernel)).2 (by decide)

/-! ### The root of a log -/

/-- What is hashed when a log is verified and its root is computed. -/
def logMessages (so : Sodium) (t : AuditTable) : Set Bytes :=
  hashedMessages t.rows ∪ rootMessages so t

theorem map_hash_of_read : ∀ {rows : List AuditRow} {ss : List Signed},
    rows.map readRow = ss.map .ok →
      rows.map AuditRow.entryHash = (ss.map Signed.hash).map Subtype.val
  | [], [], _ => rfl
  | [], _ :: _, h => nomatch h
  | _ :: _, [], h => nomatch h
  | r :: rows, s :: ss, h => by
    obtain ⟨h1, h2⟩ := List.cons.inj h
    rw [List.map_cons, List.map_cons, List.map_cons, hash_of_read h1, map_hash_of_read h2]

/-- The entry hashes of a log that verifies can be read and differ. -/
theorem verified_hashes {key : Block 32} {t : AuditTable} {S : Set Bytes}
    (hver : verifyChain so key t = .ok ()) (hS : logMessages so t ⊆ S) (hfree : so.CollisionFree S)
    (hzero : ∀ m ∈ S, so.sha256 m ≠ Block.zero 32) :
    ∃ hs, entryHashes t = .ok hs ∧ hs.Nodup := by
  obtain ⟨ss, hss, hacc⟩ := verifyChain_eq_ok.mp hver
  have hnodup := hashes_nodup hss hacc
    (hfree.mono (Set.subset_union_left.trans hS)) fun m hm => hzero m (hS (Or.inl hm))
  exact ⟨_, entryHashes_eq_ok.mpr (map_hash_of_read hss), (List.nodup_cons.mp hnodup).2⟩

theorem leafBytes_mem {S : Set Bytes} {hs : List (Block 32)} (h : ∀ m ∈ treeMessages so hs, m ∈ S) :
    ∀ b ∈ hs, leafBytes b ∈ S :=
  fun _ hb => h _ (List.mem_append_left _ (List.mem_map_of_mem hb))

theorem leaves_inj {S : Set Bytes} (hfree : so.CollisionFree S) : ∀ {hs hs' : List (Block 32)},
    (∀ b ∈ hs, leafBytes b ∈ S) → (∀ b ∈ hs', leafBytes b ∈ S) → leaves so hs = leaves so hs' →
      hs = hs'
  | [], [], _, _, _ => rfl
  | [], _ :: _, _, _, h => by simp [leaves] at h
  | _ :: _, [], _, _, h => by simp [leaves] at h
  | a :: hs, b :: hs', ha, hb, h => by
    obtain ⟨h1, h2⟩ := List.cons.inj h
    rw [leafBytes_inj (hfree (ha a (by simp)) (hb b (by simp)) h1),
      leaves_inj hfree (fun c hc => ha c (by simp [hc])) (fun c hc => hb c (by simp [hc])) h2]

/-- The leaves over different entry hashes differ. -/
theorem leaves_nodup {S : Set Bytes} {hs : List (Block 32)} (hfree : so.CollisionFree S)
    (hmem : ∀ m ∈ treeMessages so hs, m ∈ S) (hn : hs.Nodup) : (leaves so hs).Nodup := by
  refine (List.nodup_map_iff_inj_on hn).mpr fun a ha b hb e => leafBytes_inj ?_
  exact hfree (leafBytes_mem hmem a ha) (leafBytes_mem hmem b hb) e

/-- The root of a log with entries is a hash. -/
theorem merkleRoot_hashed (so : Sodium) {hs : List (Block 32)} (hn : hs ≠ []) :
    ∃ m ∈ treeMessages so hs, merkleRoot so hs = so.sha256 m ∧
      root (hashMerkleInternal so) (leaves so hs) = some (merkleRoot so hs) := by
  have hne : leaves so hs ≠ [] := by simpa [leaves] using hn
  obtain ⟨r, hr⟩ := Option.isSome_iff_exists.mp (root_isSome (hashMerkleInternal so) hne)
  have hroot : merkleRoot so hs = r := by rw [merkleRoot, hr, Option.getD_some]
  rw [hroot, hr]
  rcases root_cases _ hr with hmem | ⟨p, hp, rfl⟩
  · obtain ⟨h, hh, rfl⟩ := List.mem_map.mp hmem
    exact ⟨_, List.mem_append_left _ (List.mem_map_of_mem hh), rfl, rfl⟩
  · exact ⟨_, List.mem_append_right _ (List.mem_map_of_mem hp), rfl, rfl⟩

/-- Different entry hashes that have the same root are the same. -/
theorem hashes_eq_of_root {S : Set Bytes} {hs hs' : List (Block 32)} (hfree : so.CollisionFree S)
    (hzero : ∀ m ∈ S, so.sha256 m ≠ Block.zero 32) (hmem : ∀ m ∈ treeMessages so hs, m ∈ S)
    (hmem' : ∀ m ∈ treeMessages so hs', m ∈ S) (hn : hs.Nodup) (hn' : hs'.Nodup)
    (h : merkleRoot so hs = merkleRoot so hs') : hs = hs' := by
  by_cases h0 : hs = []
  · by_cases h0' : hs' = []
    · rw [h0, h0']
    · obtain ⟨m, hm, hroot, -⟩ := merkleRoot_hashed so h0'
      rw [← h, h0] at hroot
      exact absurd (hroot.symm.trans merkleRoot_nil) (hzero m (hmem' m hm))
  · by_cases h0' : hs' = []
    · obtain ⟨m, hm, hroot, -⟩ := merkleRoot_hashed so h0
      rw [h, h0'] at hroot
      exact absurd (hroot.symm.trans merkleRoot_nil) (hzero m (hmem m hm))
    · obtain ⟨-, -, -, hr⟩ := merkleRoot_hashed so h0
      obtain ⟨-, -, -, hr'⟩ := merkleRoot_hashed so h0'
      rw [← h] at hr'
      have hleaves := eq_of_root (separated hfree) (leaves_nodup hfree hmem hn)
        (leaves_nodup hfree hmem' hn') (leaf_of_messages hmem) (leaf_of_messages hmem')
        (internals_of_messages hmem) (internals_of_messages hmem') hr hr'
      exact leaves_inj hfree (leafBytes_mem hmem) (leafBytes_mem hmem') hleaves

/-- Logs that verify and have the same root have the same entry hashes. -/
theorem hashes_of_verified {key key' : Block 32} {t u : AuditTable} {hs hs' : List (Block 32)}
    (hver : verifyChain so key t = .ok ()) (hver' : verifyChain so key' u = .ok ())
    (hhs : entryHashes t = .ok hs) (hhs' : entryHashes u = .ok hs')
    (hfree : so.CollisionFree (logMessages so t ∪ logMessages so u))
    (hzero : ∀ m ∈ logMessages so t ∪ logMessages so u, so.sha256 m ≠ Block.zero 32)
    (heq : merkleRoot so hs = merkleRoot so hs') : hs = hs' := by
  obtain ⟨us, hus, hn⟩ := verified_hashes hver Set.subset_union_left hfree hzero
  obtain ⟨us', hus', hn'⟩ := verified_hashes hver' Set.subset_union_right hfree hzero
  cases hhs.symm.trans hus
  cases hhs'.symm.trans hus'
  exact hashes_eq_of_root hfree hzero (fun m hm => Or.inl (Or.inr ⟨hs, hhs, hm⟩))
    (fun m hm => Or.inr (Or.inr ⟨hs', hhs', hm⟩)) hn hn' heq

/-- **The root identifies the log**: logs that verify, under whatever keys, and have the same root
have the same entry hashes. -/
theorem root_identifies {key key' : Block 32} {db₁ db₁' db₂ db₂' : Db} {r : Block 32} {n m : ℕ}
    (hver : verifyChain so key db₁.audit = .ok ()) (hver' : verifyChain so key' db₂.audit = .ok ())
    (hroot : (computeMerkleRoot so).Runs Stmt.exec db₁ db₁' (.ok (r, n)))
    (hroot' : (computeMerkleRoot so).Runs Stmt.exec db₂ db₂' (.ok (r, m)))
    (hfree : so.CollisionFree (logMessages so db₁.audit ∪ logMessages so db₂.audit))
    (hzero : ∀ m ∈ logMessages so db₁.audit ∪ logMessages so db₂.audit,
      so.sha256 m ≠ Block.zero 32) :
    db₁.audit.rows.map AuditRow.entryHash = db₂.audit.rows.map AuditRow.entryHash := by
  obtain ⟨hs, hhs, -, rfl, -⟩ := computeMerkleRoot_runs hroot
  obtain ⟨hs', hhs', -, heq, -⟩ := computeMerkleRoot_runs hroot'
  have hsame := hashes_of_verified hver hver' hhs hhs' hfree hzero heq
  rw [entryHashes_eq_ok.mp hhs, entryHashes_eq_ok.mp hhs', hsame]

/-! ### The same log under two keys -/

/-- The messages of a log as a list. -/
def listed (so : Sodium) (t : AuditTable) : List Bytes :=
  t.rows.filterMap (fun r =>
    ((readRow r).bind fun s => buildEntryBytes s.entry s.prev none).toOption) ++
    ((entryHashes t).map (treeMessages so)).toOption.getD []

theorem mem_listed {t : AuditTable} {m : Bytes} (h : m ∈ logMessages so t) : m ∈ listed so t := by
  rcases h with ⟨r, hr, s, hs, hm⟩ | ⟨hs, hhs, hm⟩
  · refine List.mem_append_left _ (List.mem_filterMap.mpr ⟨r, hr, ?_⟩)
    rw [hs]
    show (buildEntryBytes s.entry s.prev none).toOption = some m
    rw [hm]
    rfl
  · refine List.mem_append_right _ ?_
    rw [hhs]
    exact hm

def otherKey : Block 32 := Block.fill 32 9

/-- The two events, logged under another key. -/
def otherEntries : Db :=
  let log (action : CString) (db : Db) : Db :=
    ((logEvent toy actorDefault action sampleName 1 (columnText (ascii "SUCCESS"))
      otherKey).run Stmt.exec (fun _ => sampleInput) db).1
  log (columnText (ascii "READ")) (log (columnText (ascii "CREATE")) Db.empty)

theorem otherEntries_root : (computeMerkleRoot toy).Runs Stmt.exec otherEntries
    ((computeMerkleRoot toy).run Stmt.exec (fun _ => sampleInput) otherEntries).1
    (.ok (rootHash, 2)) := by
  have h : ((computeMerkleRoot toy).run Stmt.exec (fun _ => sampleInput) otherEntries).2 =
      .ok (rootHash, 2) := by decide +kernel
  rw [← h]
  exact Prog.runs_run _

theorem twoEntries_verified : verifyChain toy sampleKey twoEntries.audit = .ok () := by
  decide +kernel

theorem otherEntries_verified : verifyChain toy otherKey otherEntries.audit = .ok () := by
  decide +kernel

theorem two_listed : ∀ a ∈ listed toy twoEntries.audit ++ listed toy otherEntries.audit,
    toy.sha256 a ≠ Block.zero 32 ∧ ∀ b ∈ listed toy twoEntries.audit ++ listed toy otherEntries.audit,
      toy.sha256 a = toy.sha256 b → a = b := by decide +kernel

theorem mem_two {m : Bytes} (h : m ∈ logMessages toy twoEntries.audit ∪
    logMessages toy otherEntries.audit) :
    m ∈ listed toy twoEntries.audit ++ listed toy otherEntries.audit :=
  List.mem_append.mpr (h.imp mem_listed mem_listed)

theorem same_entries : twoEntries.audit.rows.map AuditRow.entryHash =
    otherEntries.audit.rows.map AuditRow.entryHash :=
  root_identifies twoEntries_verified otherEntries_verified twoEntries_root otherEntries_root
    (fun _ ha _ hb => (two_listed _ (mem_two ha)).2 _ (mem_two hb))
    fun _ hm => (two_listed _ (mem_two hm)).1

end Fuin.Audit.Inclusion

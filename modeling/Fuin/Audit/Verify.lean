import Fuin.Audit.Encoding
import Fuin.Lib.Chain

/-! # Verification of the log

`audit_verify_chain` reads the rows in the order of their ids and checks each against the hash of
the row before it and the key of its position. What it reads from a row is a `Signed` entry
(`readRow`); the log is accepted if and only if every row can be read and the entries are `Accepted`
(`verifyChain_eq_ok`): linked by their hashes, each with the right hash, each signed under the key
of its position. -/

namespace Fuin.Audit.Verify

open Fuin.Utils Fuin.Crypto Fuin.Lib.Chain Fuin.Audit.Table Fuin.Audit.Encoding

/-- What the verifier reads from a row. -/
structure Signed where
  entry : Entry
  prev : Block 32
  hash : Block 32
  sig : Block 32
  deriving DecidableEq

/-- `audit_column_hash` and `audit_column_signature`. -/
def columnHash (b : Bytes) : Except Status (Block 32) :=
  if h : b.length = 32 then .ok ⟨b, h⟩ else .error .storage

@[simp] theorem columnHash_val (b : Block 32) : columnHash b.1 = .ok b := dif_pos b.2

theorem columnHash_eq_ok {b : Bytes} {h : Block 32} : columnHash b = .ok h ↔ b = h.1 := by
  refine ⟨fun e => ?_, fun e => e ▸ columnHash_val h⟩
  unfold columnHash at e
  split_ifs at e
  exact congrArg Subtype.val (Except.ok.inj e)

/-- The version column: none for `NULL`, at least 1 otherwise. -/
def columnVersion : Option ℤ → Except Status ℤ
  | none => .ok 0
  | some v => if columnInt v < 1 then .error .storage else .ok (columnInt v)

/-- The columns of a row, as the verifier reads them. -/
def readRow (r : AuditRow) : Except Status Signed := do
  require (1 ≤ r.entryId) .storage
  let version ← columnVersion r.targetVersion
  let prev ← columnHash r.prevHash
  let hash ← columnHash r.entryHash
  let sig ← columnHash r.hmacSignature
  return {
    entry :=
      { entryId := r.entryId
        timestamp := columnText r.timestamp
        action := columnText r.action
        actor := columnText r.actor
        target := columnText r.target
        targetVersion := version
        result := columnText r.result }
    prev := prev
    hash := hash
    sig := sig }

/-- The checks of one row; the hash that the next row has to point to. -/
def verifyRow (so : Sodium) (key prev : Block 32) (r : AuditRow) : Except Status (Block 32) := do
  let s ← readRow r
  require (s.prev = prev) .crypto
  let computed ← computeEntryHash so s.entry s.prev
  require (s.hash = computed) .crypto
  let signed ← buildEntryBytes s.entry s.prev (some s.hash)
  require (s.sig = so.auth key signed) .crypto
  return s.hash

/-- The loop over the rows, the key advancing with each. -/
def verifyRows (so : Sodium) : Block 32 → Block 32 → List AuditRow → Except Status Unit
  | _, _, [] => .ok ()
  | key, prev, r :: rs => do
    let prev' ← verifyRow so key prev r
    verifyRows so (advanceRatchetKey so key) prev' rs

/-- `audit_verify_chain`. -/
def verifyChain (so : Sodium) (key : Block 32) (t : AuditTable) : Except Status Unit :=
  verifyRows so key (Block.zero 32) t.rows

/-! ### What is accepted -/

variable {so : Sodium} {key prev : Block 32}

/-- The entry hash is the hash of the entry. -/
def Signed.HashOk (so : Sodium) (s : Signed) : Prop :=
  computeEntryHash so s.entry s.prev = .ok s.hash

/-- The signature is the one under the key. -/
def Signed.SigOk (so : Sodium) (key : Block 32) (s : Signed) : Prop :=
  computeSignature so s.entry s.prev s.hash key = .ok s.sig

/-- A list of entries that the loop accepts. -/
def Accepted (so : Sodium) : Block 32 → Block 32 → List Signed → Prop
  | _, _, [] => True
  | key, prev, s :: ss =>
    s.prev = prev ∧ s.HashOk so ∧ s.SigOk so key ∧
      Accepted so (advanceRatchetKey so key) s.hash ss

theorem hashOk_iff {s : Signed} :
    s.HashOk so ↔ ∃ m, buildEntryBytes s.entry s.prev none = .ok m ∧ so.sha256 m = s.hash := by
  simp only [Signed.HashOk, computeEntryHash, bind_eq_ok, pure_eq_ok]

theorem sigOk_iff {s : Signed} :
    s.SigOk so key ↔
      ∃ m, buildEntryBytes s.entry s.prev (some s.hash) = .ok m ∧ so.auth key m = s.sig := by
  simp only [Signed.SigOk, computeSignature, bind_eq_ok, pure_eq_ok]

/-- **One row**: it can be read, points to the row before it, and is hashed and signed right. -/
theorem verifyRow_eq_ok {r : AuditRow} {next : Block 32} :
    verifyRow so key prev r = .ok next ↔
      ∃ s, readRow r = .ok s ∧ s.prev = prev ∧ s.HashOk so ∧ s.SigOk so key ∧ s.hash = next := by
  simp only [verifyRow, bind_eq_ok, require_eq_ok, pure_eq_ok]
  constructor
  · rintro ⟨s, hr, _, hp, c, hc, _, rfl, m, hm, _, hs, rfl⟩
    exact ⟨s, hr, hp, hc, sigOk_iff.mpr ⟨m, hm, hs.symm⟩, rfl⟩
  · rintro ⟨s, hr, hp, hc, hs, rfl⟩
    obtain ⟨m, hm, hs⟩ := sigOk_iff.mp hs
    exact ⟨s, hr, (), hp, s.hash, hc, (), rfl, m, hm, (), hs.symm, rfl⟩

theorem verifyRows_eq_ok : ∀ {rs : List AuditRow} {key prev : Block 32},
    verifyRows so key prev rs = .ok () ↔
      ∃ ss, rs.map readRow = ss.map .ok ∧ Accepted so key prev ss
  | [], key, prev => by
    refine ⟨fun _ => ⟨[], rfl, trivial⟩, fun _ => rfl⟩
  | r :: rs, key, prev => by
    simp only [verifyRows, bind_eq_ok, verifyRow_eq_ok]
    constructor
    · rintro ⟨_, ⟨s, hs, h1, h2, h3, rfl⟩, h⟩
      obtain ⟨ss, hss, hacc⟩ := verifyRows_eq_ok.mp h
      exact ⟨s :: ss, by simp [hs, hss], h1, h2, h3, hacc⟩
    · rintro ⟨_ | ⟨s, ss⟩, hss, hacc⟩
      · simp at hss
      · simp only [List.map_cons, List.cons.injEq] at hss
        obtain ⟨h1, h2, h3, h4⟩ := hacc
        exact ⟨s.hash, ⟨s, hss.1, h1, h2, h3, rfl⟩, verifyRows_eq_ok.mpr ⟨ss, hss.2, h4⟩⟩

/-- **A log is accepted** if and only if its rows can be read as accepted entries. -/
theorem verifyChain_eq_ok {t : AuditTable} :
    verifyChain so key t = .ok () ↔
      ∃ ss, t.rows.map readRow = ss.map .ok ∧ Accepted so key (Block.zero 32) ss :=
  verifyRows_eq_ok

/-! ### Accepted entries -/

theorem accepted_append : ∀ {ss us : List Signed} {key prev : Block 32},
    Accepted so key prev (ss ++ us) ↔ Accepted so key prev ss ∧
      Accepted so (deriveRatchetKey so key ss.length) (endTag Signed.hash prev ss) us
  | [], us, key, prev => by simp [Accepted, deriveRatchetKey, endTag]
  | s :: ss, us, key, prev => by
    simp only [List.cons_append, Accepted, accepted_append, List.length_cons, deriveRatchetKey,
      endTag, and_assoc]

theorem Accepted.hashOk : ∀ {ss : List Signed} {key prev : Block 32},
    Accepted so key prev ss → ∀ s ∈ ss, s.HashOk so
  | [], _, _, _, _, hs => nomatch hs
  | s :: ss, _, _, h, u, hu => by
    rcases List.mem_cons.mp hu with rfl | hu
    · exact h.2.1
    · exact h.2.2.2.hashOk u hu

/-- **The entry at a position is signed under the key of the position.** -/
theorem Accepted.sigOk : ∀ {ss : List Signed} {key prev : Block 32} {i : ℕ} {s : Signed},
    Accepted so key prev ss → ss[i]? = some s → s.SigOk so (deriveRatchetKey so key i)
  | [], _, _, _, _, _, h => by simp at h
  | _ :: _, _, _, 0, _, hacc, h => by
    cases h
    exact hacc.2.2.1
  | _ :: _, _, _, _ + 1, _, hacc, h => hacc.2.2.2.sigOk (by simpa using h)

/-- The pairs of key and message whose MACs an accepted log holds. -/
def signedPairs (so : Sodium) : Block 32 → List Signed → List (Block 32 × Bytes)
  | _, [] => []
  | key, s :: ss =>
    match buildEntryBytes s.entry s.prev (some s.hash) with
    | .ok m => (key, m) :: signedPairs so (advanceRatchetKey so key) ss
    | .error _ => signedPairs so (advanceRatchetKey so key) ss

/-- Every accepted entry is signed under a key of the ratchet. -/
theorem Accepted.signed : ∀ {ss : List Signed} {key prev : Block 32},
    Accepted so key prev ss → ∀ s ∈ ss, ∃ p ∈ signedPairs so key ss,
      buildEntryBytes s.entry s.prev (some s.hash) = .ok p.2 ∧ so.auth p.1 p.2 = s.sig
  | [], _, _, _, _, hs => nomatch hs
  | s :: ss, key, prev, h, u, hu => by
    obtain ⟨m, hm, hs⟩ := sigOk_iff.mp h.2.2.1
    simp only [signedPairs, hm]
    rcases List.mem_cons.mp hu with rfl | hu
    · exact ⟨(key, m), by simp, hm, hs⟩
    · obtain ⟨p, hp, h1, h2⟩ := h.2.2.2.signed u hu
      exact ⟨p, by simp [hp], h1, h2⟩

/-- An entry with the defaults of its texts filled in. -/
def Signed.norm (s : Signed) : Signed := { s with entry := s.entry.norm }

/-- **What is accepted depends on the entries after the defaults only.** -/
theorem accepted_norm : ∀ {ss us : List Signed} {key prev : Block 32},
    ss.map Signed.norm = us.map Signed.norm →
      (Accepted so key prev ss ↔ Accepted so key prev us)
  | [], [], _, _, _ => Iff.rfl
  | [], _ :: _, _, _, h => nomatch h
  | _ :: _, [], _, _, h => nomatch h
  | s :: ss, u :: us, key, prev, h => by
    simp only [List.map_cons, List.cons.injEq] at h
    obtain ⟨h1, h2⟩ := h
    have he : s.entry.norm = u.entry.norm := show s.norm.entry = u.norm.entry by rw [h1]
    have hp : s.prev = u.prev := show s.norm.prev = u.norm.prev by rw [h1]
    have hh : s.hash = u.hash := show s.norm.hash = u.norm.hash by rw [h1]
    have hs : s.sig = u.sig := show s.norm.sig = u.norm.sig by rw [h1]
    have hb : ∀ o, buildEntryBytes s.entry u.prev o = buildEntryBytes u.entry u.prev o := by
      intro o
      rw [← buildEntryBytes_norm s.entry, he, buildEntryBytes_norm]
    simp only [Accepted, hashOk_iff, sigOk_iff, hp, hh, hs, hb]
    rw [accepted_norm h2]

end Fuin.Audit.Verify

import Fuin.Audit.Table
import Fuin.Crypto

/-! # The canonical bytes of an audit entry

`audit_build_entry_bytes` writes an entry as a sequence of length-prefixed fields; the hash of the
entry is over the fields up to `prev_hash`, the signature over these and the entry hash. The
encoding reads the actor and the version through a default (`Entry.norm`: an empty actor is
`user:default`, a version below 1 is none) and loses nothing else: two entries with the same bytes
are equal after the defaults (`buildEntryBytes_inj`), and a hashed text is never a signed one. -/

namespace Fuin.Audit.Encoding

open Fuin.Utils Fuin.Crypto Fuin.Lib.Frames Fuin.Audit.Table

/-- An entry as the arguments of `audit_build_entry_bytes`; a `targetVersion` below 1 is none. -/
structure Entry where
  entryId : ℤ
  timestamp : CString
  action : CString
  actor : CString
  target : CString
  targetVersion : ℤ
  result : CString
  deriving DecidableEq

/-- `AUDIT_ACTOR_DEFAULT`. -/
def actorDefault : CString := ⟨ascii "user:default", by decide⟩

/-- `audit_valid_action`. -/
def validAction (a : CString) : Bool := a.bytes ≠ [] && decide (a.bytes ∈ actions)

/-- `audit_valid_result`. -/
def validResult (r : CString) : Bool := r.bytes ≠ [] && decide (r.bytes ∈ results)

/-- The actor that is written. -/
def actorValue (a : CString) : CString := if a.bytes = [] then actorDefault else a

/-- The version that is written: 8 bytes, or none. -/
def versionBytes (v : ℤ) : Bytes := if 0 < v then u64le v else []

def uint32Max : ℕ := 4294967295

def sizeMax : ℕ := 18446744073709551615

/-- `audit_field_size`. -/
def fieldSize (d : Bytes) : Except Status ℕ :=
  if uint32Max < d.length then .error .invalidArgument else .ok (4 + d.length)

/-- The length of the whole, field by field: `audit_field_size` and `audit_checked_add`. -/
def totalSize : ℕ → List Bytes → Except Status ℕ
  | total, [] => .ok total
  | total, d :: ds => do
    let n ← fieldSize d
    if sizeMax - n < total then .error .invalidArgument else totalSize (total + n) ds

/-- The text that separates these messages from others. -/
def domain : Bytes := ascii "SM-AUDIT-v1"

/-- The fields of an entry, in order. -/
def fields (e : Entry) (prev : Block 32) (hash : Option (Block 32)) : List Bytes :=
  [domain, u64le e.entryId, e.timestamp.bytes, e.action.bytes, (actorValue e.actor).bytes,
    e.target.bytes, versionBytes e.targetVersion, e.result.bytes, prev.1] ++
    (hash.toList.map Subtype.val)

/-- The checks that `audit_build_entry_bytes` makes first. -/
def Entry.Valid (e : Entry) : Prop :=
  e.timestamp.bytes ≠ [] ∧ 1 ≤ e.entryId ∧ validAction e.action ∧ e.target.bytes ≠ [] ∧
    validResult e.result

instance (e : Entry) : Decidable e.Valid := inferInstanceAs (Decidable (_ ∧ _))

/-- `audit_build_entry_bytes`. -/
def buildEntryBytes (e : Entry) (prev : Block 32) (hash : Option (Block 32)) :
    Except Status Bytes := do
  require e.Valid .invalidArgument
  let total ← totalSize 0 (fields e prev hash)
  let bytes := frames 4 (fields e prev hash)
  require (bytes.length = total) .storage
  return bytes

/-! ### What is written -/

theorem totalSize_eq_ok : ∀ {ds : List Bytes} {t n : ℕ},
    t + ds.length * (4 + uint32Max) ≤ sizeMax →
      (totalSize t ds = .ok n ↔ (∀ d ∈ ds, d.length ≤ uint32Max) ∧ n = t + (frames 4 ds).length)
  | [], t, n, _ => by simp [totalSize, eq_comm]
  | d :: ds, t, n, ht => by
    simp only [List.length_cons, Nat.succ_mul] at ht
    unfold totalSize fieldSize
    split_ifs with h1
    · refine iff_of_false (fun e => nomatch e) fun h => ?_
      have := h.1 d (by simp)
      omega
    · have h2 : ¬ sizeMax - (4 + d.length) < t := by omega
      change (if sizeMax - (4 + d.length) < t then _ else _) = _ ↔ _
      rw [if_neg h2, totalSize_eq_ok (by omega)]
      simp only [frames_cons, List.length_append, length_frame, List.mem_cons, forall_eq_or_imp]
      constructor
      · rintro ⟨h3, rfl⟩
        exact ⟨⟨by omega, h3⟩, by omega⟩
      · rintro ⟨⟨-, h3⟩, rfl⟩
        exact ⟨h3, by omega⟩

theorem length_fields (e : Entry) (prev : Block 32) (hash : Option (Block 32)) :
    (fields e prev hash).length = 9 + hash.toList.length := by
  simp [fields]
  omega

/-- **`audit_build_entry_bytes` returns the frames of the fields**, if the entry is valid and every
field fits its 32-bit length. -/
theorem buildEntryBytes_eq_ok {e : Entry} {prev : Block 32} {hash : Option (Block 32)} {b : Bytes} :
    buildEntryBytes e prev hash = .ok b ↔
      e.Valid ∧ (∀ d ∈ fields e prev hash, d.length ≤ uint32Max) ∧
        b = frames 4 (fields e prev hash) := by
  have hsize : 0 + (fields e prev hash).length * (4 + uint32Max) ≤ sizeMax := by
    rw [length_fields]
    cases hash <;> simp [uint32Max, sizeMax]
  simp only [buildEntryBytes, bind_eq_ok, require_eq_ok, pure_eq_ok,
    totalSize_eq_ok hsize, Nat.zero_add]
  constructor
  · rintro ⟨_, hv, n, ⟨hl, rfl⟩, _, -, rfl⟩
    exact ⟨hv, hl, rfl⟩
  · rintro ⟨hv, hl, rfl⟩
    exact ⟨(), hv, _, ⟨hl, rfl⟩, (), rfl, rfl⟩

/-! ### The defaults, and injectivity -/

/-- The entry with the defaults filled in. -/
def Entry.norm (e : Entry) : Entry :=
  { e with
    actor := actorValue e.actor
    targetVersion := if 0 < e.targetVersion then e.targetVersion else 0 }

theorem fields_norm (e : Entry) (prev : Block 32) (hash : Option (Block 32)) :
    fields e.norm prev hash = fields e prev hash := by
  have ha : actorValue (actorValue e.actor) = actorValue e.actor := by
    unfold actorValue
    split_ifs <;> rfl
  have hv : versionBytes (if 0 < e.targetVersion then e.targetVersion else 0) =
      versionBytes e.targetVersion := by
    unfold versionBytes
    split_ifs <;> first | rfl | omega
  simp only [fields, Entry.norm, ha, hv]

theorem buildEntryBytes_norm (e : Entry) (prev : Block 32) (hash : Option (Block 32)) :
    buildEntryBytes e.norm prev hash = buildEntryBytes e prev hash := by
  have hv : e.norm.Valid ↔ e.Valid := Iff.rfl
  unfold buildEntryBytes
  simp only [fields_norm, hv]

/-- The versions that a C `int` holds. -/
def Entry.InRange (e : Entry) : Prop := e.entryId ≤ int64Max ∧ e.targetVersion ≤ intMax

theorem versionBytes_inj {v w : ℤ} (hv : v ≤ intMax) (hw : w ≤ intMax)
    (h : versionBytes v = versionBytes w) :
    (if 0 < v then v else 0) = if 0 < w then w else 0 := by
  unfold intMax at hv hw
  unfold versionBytes at h
  split_ifs at h ⊢ with h1 h2 h2
  · exact u64le_inj (by omega) (by unfold int64Max; omega) (by omega) (by unfold int64Max; omega) h
  · exact absurd (congrArg List.length h) (by simp)
  · exact absurd (congrArg List.length h) (by simp)
  · rfl

/-- **The encoding is injective** up to the defaults, with or without the entry hash. -/
theorem buildEntryBytes_inj {e e' : Entry} {prev prev' : Block 32} {hash hash' : Option (Block 32)}
    {b : Bytes} (he : e.InRange) (he' : e'.InRange) (h : buildEntryBytes e prev hash = .ok b)
    (h' : buildEntryBytes e' prev' hash' = .ok b) :
    e.norm = e'.norm ∧ prev = prev' ∧ hash = hash' := by
  obtain ⟨hv, hl, rfl⟩ := buildEntryBytes_eq_ok.mp h
  obtain ⟨hv', hl', hf⟩ := buildEntryBytes_eq_ok.mp h'
  have hlt : ∀ {ds : List Bytes}, (∀ d ∈ ds, d.length ≤ uint32Max) →
      ∀ d ∈ ds, d.length < 256 ^ 4 := by
    intro ds h d hd
    have := h d hd
    unfold uint32Max at this
    omega
  have heq := frames_inj (by omega) (hlt hl) (hlt hl') hf
  simp only [fields, List.cons_append, List.nil_append, List.cons.injEq, true_and] at heq
  obtain ⟨h1, h2, h3, h4, h5, h6, h7, h8, h9⟩ := heq
  have hid : e.entryId = e'.entryId :=
    u64le_inj (by have := hv.2.1; omega) he.1 (by have := hv'.2.1; omega) he'.1 h1
  refine ⟨?_, Subtype.ext h8, ?_⟩
  · cases e
    cases e'
    simp only [Entry.norm, Entry.mk.injEq]
    exact ⟨hid, CString.ext h2, CString.ext h3, CString.ext h4, CString.ext h5,
      versionBytes_inj he.2 he'.2 h6, CString.ext h7⟩
  · rcases hash with _ | a <;> rcases hash' with _ | b
    · rfl
    · simp at h9
    · simp at h9
    · simp only [Option.toList_some, List.map_cons, List.cons.injEq] at h9
      rw [Subtype.ext h9.1]

/-- `audit_compute_entry_hash`. -/
def computeEntryHash (so : Sodium) (e : Entry) (prev : Block 32) : Except Status (Block 32) := do
  let bytes ← buildEntryBytes e prev none
  return so.sha256 bytes

/-- `audit_compute_signature`. -/
def computeSignature (so : Sodium) (e : Entry) (prev hash key : Block 32) :
    Except Status (Block 32) := do
  let bytes ← buildEntryBytes e prev (some hash)
  return so.auth key bytes

/-- `audit_advance_ratchet_key`. -/
def advanceRatchetKey (so : Sodium) (key : Block 32) : Block 32 := so.sha256 key.1

/-- `audit_derive_ratchet_key`: the key of the entry at an index. -/
def deriveRatchetKey (so : Sodium) : Block 32 → ℕ → Block 32
  | key, 0 => key
  | key, i + 1 => deriveRatchetKey so (advanceRatchetKey so key) i

theorem deriveRatchetKey_succ (so : Sodium) : ∀ (key : Block 32) (i : ℕ),
    deriveRatchetKey so key (i + 1) = advanceRatchetKey so (deriveRatchetKey so key i)
  | _, 0 => rfl
  | key, i + 1 => by
    rw [deriveRatchetKey, deriveRatchetKey_succ so _ i, deriveRatchetKey]

end Fuin.Audit.Encoding

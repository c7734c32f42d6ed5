import Fuin.Audit.Encoding

/-! # The two passes over the fields

`audit_build_entry_bytes` goes over the fields twice: it adds up their lengths, and after the
allocation it appends them one by one. The two lists are written down separately in the source, so
they are here. Both passes agree for every entry (`passes_agree`), so the buffer is filled exactly
and the check at the end never fails; and the bytes determine the entry (`canonical_encoding`). -/

namespace Fuin.Audit.Canonical

open Fuin.Utils Fuin.Lib.Frames Fuin.Audit.Encoding

/-- `ADD_FIELD_SIZE`, for the lengths in a row: `audit_field_size` and `audit_checked_add`. -/
def addFieldSizes : ℕ → List ℕ → Except Status ℕ
  | total, [] => .ok total
  | total, n :: ns => do
    require (n ≤ uint32Max) .invalidArgument
    require (total ≤ sizeMax - (4 + n)) .invalidArgument
    addFieldSizes (total + (4 + n)) ns

/-- The lengths of the first pass. -/
def fieldLengths (e : Entry) (hash : Option (Block 32)) : List ℕ :=
  [domain.length, 8, e.timestamp.bytes.length, e.action.bytes.length,
    (actorValue e.actor).bytes.length, e.target.bytes.length,
    if 0 < e.targetVersion then 8 else 0, e.result.bytes.length, 32] ++
      if hash.isSome then [32] else []

/-- `audit_append_field`: what has been written, and one field more. -/
def appendField (written d : Bytes) : Except Status Bytes := do
  require (d.length ≤ uint32Max) .invalidArgument
  return written ++ (leBytes 4 d.length ++ d)

/-- The fields of the second pass, appended one by one. -/
def appendFields (e : Entry) (prev : Block 32) (hash : Option (Block 32)) : Except Status Bytes := do
  let written ← appendField [] domain
  let written ← appendField written (u64le e.entryId)
  let written ← appendField written e.timestamp.bytes
  let written ← appendField written e.action.bytes
  let written ← appendField written (actorValue e.actor).bytes
  let written ← appendField written e.target.bytes
  let written ← appendField written (versionBytes e.targetVersion)
  let written ← appendField written e.result.bytes
  let written ← appendField written prev.1
  match hash with
  | none => return written
  | some hash => appendField written hash.1

/-- `audit_build_entry_bytes` up to its last check: the length it has allocated, and the bytes it has
appended. -/
def entryPasses (e : Entry) (prev : Block 32) (hash : Option (Block 32)) :
    Except Status (ℕ × Bytes) := do
  require e.Valid .invalidArgument
  let total ← addFieldSizes 0 (fieldLengths e hash)
  let written ← appendFields e prev hash
  return (total, written)

variable {e e' : Entry} {prev prev' : Block 32} {hash hash' : Option (Block 32)}

theorem appendField_eq_ok {written d b : Bytes} :
    appendField written d = .ok b ↔ d.length ≤ uint32Max ∧ b = written ++ frame 4 d := by
  simp only [appendField, bind_eq_ok, require_eq_ok, pure_eq_ok, frame]
  constructor
  · rintro ⟨_, h, hb⟩
    exact ⟨h, hb.symm⟩
  · rintro ⟨h, hb⟩
    exact ⟨(), h, hb.symm⟩

/-- The second pass writes the frames of the fields. -/
theorem appendFields_eq_ok {b : Bytes} : appendFields e prev hash = .ok b ↔
    (∀ d ∈ fields e prev hash, d.length ≤ uint32Max) ∧ b = frames 4 (fields e prev hash) := by
  have hfields : fields e prev hash = [domain, u64le e.entryId, e.timestamp.bytes, e.action.bytes,
      (actorValue e.actor).bytes, e.target.bytes, versionBytes e.targetVersion, e.result.bytes,
      prev.1] ++ hash.toList.map Subtype.val := rfl
  simp only [appendFields, bind_eq_ok, appendField_eq_ok, ↓existsAndEq, and_true]
  cases hash with
  | none =>
    simp only [hfields, Option.toList_none, List.map_nil, List.append_nil, List.forall_mem_cons,
      List.not_mem_nil, false_imp_iff, implies_true, and_true, frames_cons, frames_nil,
      List.append_assoc, List.nil_append, pure_eq_ok, and_assoc, @eq_comm _ _ b]
  | some hash =>
    simp only [hfields, Option.toList_some, List.map_cons, List.map_nil, List.cons_append,
      List.nil_append, List.forall_mem_cons, List.not_mem_nil, false_imp_iff, implies_true, and_true,
      frames_cons, frames_nil, List.append_nil, List.append_assoc, appendField_eq_ok, and_assoc]

/-- The first pass counts the fields of the second. -/
theorem fieldLengths_eq (e : Entry) (prev : Block 32) (hash : Option (Block 32)) :
    fieldLengths e hash = (fields e prev hash).map List.length := by
  have hversion : (versionBytes e.targetVersion).length = if 0 < e.targetVersion then 8 else 0 := by
    unfold versionBytes
    split_ifs <;> simp
  cases hash with
  | none => simp [fieldLengths, fields, hversion, prev.2]
  | some hash => simp [fieldLengths, fields, hversion, prev.2, hash.2]

theorem addFieldSizes_eq : ∀ (t : ℕ) (ds : List Bytes),
    addFieldSizes t (ds.map List.length) = totalSize t ds
  | _, [] => rfl
  | t, d :: ds => by
    rw [List.map_cons, addFieldSizes, totalSize]
    unfold fieldSize require
    by_cases h1 : uint32Max < d.length
    · rw [if_pos h1, if_neg (not_le.mpr h1)]
      rfl
    · rw [if_neg h1, if_pos (not_lt.mp h1)]
      show ((if t ≤ sizeMax - (4 + d.length) then Except.ok () else .error .invalidArgument) >>=
        fun _ => addFieldSizes (t + (4 + d.length)) (ds.map List.length)) =
          if sizeMax - (4 + d.length) < t then .error .invalidArgument
          else totalSize (t + (4 + d.length)) ds
      by_cases h2 : sizeMax - (4 + d.length) < t
      · rw [if_pos h2, if_neg (not_le.mpr h2)]
        rfl
      · rw [if_neg h2, if_pos (not_lt.mp h2), ← addFieldSizes_eq]
        rfl

/-- **The passes agree**: what is appended has the length that was allocated, and it is what
`audit_build_entry_bytes` returns. -/
theorem passes_agree {total : ℕ} {b : Bytes} : entryPasses e prev hash = .ok (total, b) ↔
    b.length = total ∧ buildEntryBytes e prev hash = .ok b := by
  have hsize : 0 + (fields e prev hash).length * (4 + uint32Max) ≤ sizeMax := by
    rw [length_fields]
    cases hash <;> simp [uint32Max, sizeMax]
  simp only [entryPasses, bind_eq_ok, require_eq_ok, pure_eq_ok, Prod.mk.injEq,
    fieldLengths_eq e prev hash, addFieldSizes_eq, totalSize_eq_ok hsize, appendFields_eq_ok,
    buildEntryBytes_eq_ok, Nat.zero_add]
  constructor
  · rintro ⟨_, hvalid, _, ⟨hlen, rfl⟩, _, ⟨-, rfl⟩, rfl, rfl⟩
    exact ⟨rfl, hvalid, hlen, rfl⟩
  · rintro ⟨rfl, hvalid, hlen, rfl⟩
    exact ⟨(), hvalid, _, ⟨hlen, rfl⟩, _, ⟨hlen, rfl⟩, rfl, rfl⟩

/-- **The canonical bytes of an entry**: the allocated length is always the length of what is
appended, and equal bytes come from equal entries, up to the defaults, with the same previous hash
and the same entry hash or none. -/
theorem canonical_encoding :
    (∀ e prev hash total b, entryPasses e prev hash = .ok (total, b) ↔
        b.length = total ∧ buildEntryBytes e prev hash = .ok b) ∧
      ∀ e e' prev prev' hash hash' b, e.InRange → e'.InRange →
        buildEntryBytes e prev hash = .ok b → buildEntryBytes e' prev' hash' = .ok b →
          e.norm = e'.norm ∧ prev = prev' ∧ hash = hash' :=
  ⟨fun _ _ _ _ _ => passes_agree, fun _ _ _ _ _ _ _ he he' h h' => buildEntryBytes_inj he he' h h'⟩

/-- An entry with the default actor and no version. -/
def readEntry : Entry where
  entryId := 7
  timestamp := ⟨ascii "2025-01-01T00:00:00Z", by decide⟩
  action := columnText (ascii "READ")
  actor := ⟨[], by decide⟩
  target := Crypto.sampleName
  targetVersion := 0
  result := columnText (ascii "SUCCESS")

/-- The same entry with the actor written out and a negative version. -/
def sameEntry : Entry := { readEntry with actor := actorDefault, targetVersion := -3 }

theorem readEntry_canonical : readEntry.norm = sameEntry.norm := by
  have h : buildEntryBytes readEntry (Block.zero 32) none =
      .ok (frames 4 (fields readEntry (Block.zero 32) none)) := by decide +kernel
  have h' : buildEntryBytes sameEntry (Block.zero 32) none =
      .ok (frames 4 (fields readEntry (Block.zero 32) none)) := by decide +kernel
  exact (canonical_encoding.2 readEntry sameEntry _ _ _ _ _ ⟨by decide, by decide⟩
    ⟨by decide, by decide⟩ h h').1

end Fuin.Audit.Canonical

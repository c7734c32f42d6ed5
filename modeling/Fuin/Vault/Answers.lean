import Fuin.Vault.Turns

/-! # The vault answers like a ledger

Over any calls of a session on a new vault, whatever fails in them, every result is one that a ledger
allows, and the ledger goes on with the operations that have succeeded; and where nothing fails in a
call that reads, its result is the one that the ledger gives (`vault_follows`). -/

namespace Fuin.Vault.Answers

open Fuin.Utils Fuin.Time Fuin.Crypto Fuin.Lib.Program Fuin.Lib.Chain Fuin.Lib.Growth
open Fuin.Lib.Ledgers
open Fuin.Store.Secrets Fuin.Store.Database Fuin.Store.Success Fuin.CryptoEngine Fuin.Kdf
open Fuin.Audit.Table Fuin.Audit.Encoding Fuin.Audit.Verify Fuin.Audit.Log Fuin.Audit.Resign
open Fuin.Vault.Rows Fuin.Vault.Transactions Fuin.Vault.Operations Fuin.Vault.Observed
open Fuin.Vault.Rules Fuin.Vault.Committed Fuin.Vault.Versioned Fuin.Vault.Stored Fuin.Vault.Calls
open Fuin.Vault.Honest Fuin.Vault.Reopened Fuin.Vault.Reading Fuin.Vault.Atomic
open Fuin.Vault.Refinement Fuin.Vault.Turns

variable {so : Sodium} {keys : Subkeys} {N : Set CString} {b : Ledger CString Bytes} {name : CString}
  {db db' : Db}

/-! ### When nothing fails -/

theorem nextEntryId_ok {t : AuditTable} (ht : Numbered t) (hroom : (t.rows.length : ℤ) < int64Max) :
    nextEntryId t = .ok (t.rows.length + 1) := by
  unfold nextEntryId
  cases hl : t.lastRow with
  | none =>
    have hnil : t.rows = [] := List.getLast?_eq_none_iff.mp hl
    rw [hnil]
    rfl
  | some r =>
    have hlast : r.entryId = t.rows.length := by
      obtain ⟨l, hl'⟩ := List.getLast?_eq_some_iff.mp hl
      have hget := ht l.length (by simp [hl'])
      simp only [hl', List.length_append, List.length_singleton] at hget ⊢
      simpa using hget
    dsimp only
    rw [hlast, if_neg (by omega), if_neg (by omega)]

/-- The bytes of the entry of a reading can be built, with and without its hash. -/
theorem readBytes_ok {id version : ℤ} {time target : CString} (htime : IsTime time) (hid : 1 ≤ id)
    (hne : target.bytes ≠ []) (hlen : target.bytes.length ≤ uint32Max) (prev : Block 32)
    (hash : Option (Block 32)) : ∃ bytes, buildEntryBytes
      (Event.entry ⟨actorText, readText, target, version, successText⟩ id time) prev hash =
        .ok bytes := by
  refine ⟨_, buildEntryBytes_eq_ok.mpr ⟨⟨htime.2, hid, ?_, hne, ?_⟩, fun d hd => ?_, rfl⟩⟩
  · show validAction readText = true
    decide
  · show validResult successText = true
    decide
  have hblock (h : Block 32) : h.1.length ≤ uint32Max := by
    rw [h.2]
    decide
  simp only [fields, Event.entry, List.cons_append, List.nil_append, List.mem_cons, List.mem_map,
    Option.mem_toList] at hd
  rcases hd with rfl | rfl | rfl | rfl | rfl | rfl | rfl | rfl | rfl | ⟨h, -, rfl⟩
  · decide
  · rw [length_u64le]
    decide
  · exact htime.1.le.trans (by decide)
  · decide
  · decide
  · exact hlen
  · unfold versionBytes
    split_ifs
    · rw [length_u64le]
      decide
    · decide
  · decide
  · exact hblock prev
  · exact hblock h

/-- The row of a reading can be inserted with the next number. -/
theorem readRow_inserts {t : AuditTable} {version : ℤ} {time target : CString}
    {prev hash sig : Block 32} (hnum : Numbered t) (hroom : (t.rows.length : ℤ) < int64Max)
    (hversion : version ≤ intMax) : ∃ u, t.insert (entryRow
      (Event.entry ⟨actorText, readText, target, version, successText⟩ (t.rows.length + 1) time) prev
        hash sig) = some u := by
  unfold int64Max at hroom
  unfold intMax at hversion
  refine ⟨_, dif_pos ⟨⟨?_, ?_, ?_, fun v hv => ?_⟩, fun s hs => ?_⟩⟩
  · show readText.bytes ∈ actions
    decide
  · show successText.bytes ∈ results
    decide
  · show IsInt64 (t.rows.length + 1)
    unfold IsInt64
    omega
  · obtain ⟨hpos, hv⟩ := Option.ite_none_right_eq_some.mp hv
    rw [← Option.some.inj hv]
    unfold IsInt64
    dsimp only [Event.entry] at hpos ⊢
    omega
  · show s.entryId ≠ t.rows.length + 1
    have hle := (hnum.mem hs).2
    omega

/-- **The entry of a reading** can be appended to a log that verifies and is not full. -/
theorem succeeds_logRead {key key' : Block 32} {target : CString} {version : ℤ} {Q : Unit → Db → Prop}
    (hnum : Numbered db.audit) (hver : verifyChain so key' db.audit = .ok ())
    (hroom : (db.audit.rows.length : ℤ) < int64Max) (hne : target.bytes ≠ [])
    (hlen : target.bytes.length ≤ uint32Max) (hversion : version ≤ intMax)
    (hQ : ∀ t, Q () { db with audit := t }) :
    Succeeds Q (logSuccess so readText target version key) db := by
  obtain ⟨ss, hss, -⟩ := verifyChain_eq_ok.mp hver
  have hprev := lastHash_eq hss
  have hid := nextEntryId_ok hnum hroom
  generalize endTag Signed.hash (Block.zero 32) ss = prev at hprev
  unfold logSuccess logEvent nextRow
  simp only [Prog.bind_def, Prog.bind_assoc]
  refine ends_time_bind fun now time htime => ends_ofExcept_bind htime ?_
  refine ends_select_bind hprev (ends_select_bind hid (ends_select_bind rfl (ends_libs_bind ?_)))
  have hbuild := @readBytes_ok (db.audit.rows.length + 1) version time target
    (nowIso8601_length htime) (by omega) hne hlen prev
  obtain ⟨bytes, hbytes⟩ := hbuild none
  refine ends_ofExcept_bind (bind_eq_ok.mpr ⟨bytes, hbytes, rfl⟩) (ends_libs_bind ?_)
  obtain ⟨signed, hsigned⟩ := hbuild (some (so.sha256 bytes))
  refine ends_ofExcept_bind (bind_eq_ok.mpr ⟨signed, hsigned, rfl⟩) ?_
  obtain ⟨t, ht⟩ := readRow_inserts hnum hroom hversion
  have hwrite (row : AuditRow) (h : db.audit.insert row = some t) :
      (Write.insertAudit row).apply db = some ({ db with audit := t }, 1) := by
    simp only [Write.apply, h, Option.map_some]
  exact ends_write_bind (hwrite _ ht) (hQ t)

theorem length_lookupOf : (lookupOf so keys name).bytes.length = 64 := by
  rw [lookupOf, length_bin2hex, (so.generichash _ _).2]

/-- **A row is read** as what it holds, if the buffer is large enough. -/
theorem works_readSecret {w : Which} {row : SecretRow} {x : Bytes} {capacity : ℕ}
    (hsound : Sound so keys db) (hroom : (db.audit.rows.length : ℤ) < int64Max)
    (hne : name.bytes ≠ []) (hvalid : w.valid = true)
    (hrow : w.row (lookupOf so keys name) db = some row) (hstored : StoredUnder so keys name x row)
    (hcap : x.length ≤ capacity) :
    Works so (fun y _ => y = x) (readSecret so keys name w capacity) db := by
  have hmem := (Which.row_name hrow).1
  have hload : loadedRow (lookupOf so keys name) w db =
      .ok ⟨columnText row.id, row.version, encryptedOf row⟩ := by
    unfold loadedRow
    rw [hrow]
    exact copySecretRow_of_holds hstored.holds hsound.orderly hmem
  obtain ⟨identity, hid, hsealed⟩ := hstored.holds
  rw [hstored.name_eq, columnText_bytes] at hid
  have hdec := decrypted_of_sealed hsealed hcap
  simp only [decrypted, bind_eq_ok, require_eq_ok] at hdec
  obtain ⟨-, hidne, header, hheader, hbody⟩ := hdec
  have hversion : row.version ≤ intMax := by
    have hhistory := hsound.orderly.history row.name
    have hle := (hhistory.versions.mem (SecretTable.mem_rowsOf.mpr ⟨hmem, rfl⟩)).2
    exact hle.trans hhistory.length_le
  refine works_sql_bind ?_
  unfold prepareRead buildNameLookup loadSecretRow decryptSecretRow decrypt
  simp only [Prog.bind_def, Prog.bind_assoc]
  refine ends_require_bind hne (ends_libs_bind ?_)
  refine ends_require_bind ⟨lookupOf_ne_nil, hvalid⟩ (ends_select_bind hload ?_)
  refine ends_require_bind lookupOf_ne_nil (ends_ofExcept_bind hid (ends_libs_bind ?_))
  refine ends_require_bind hidne (ends_lib_bind (ends_ofExcept_bind hheader (ends_libs_bind ?_)))
  refine ends_ofExcept_bind hbody ?_
  refine works_sql_bind (succeeds_logRead hsound.numbered hsound.verified hroom lookupOf_ne_nil ?_
    hversion fun t => rfl)
  rw [length_lookupOf]
  decide

/-- **Without a row** the call ends with `SM_ERR_NOT_FOUND`. -/
theorem run_readSecret_none {w : Which} {world : ℕ → ℕ → Input} {capacity : ℕ}
    (hworld : Faultless fun n => world n 0) (hne : name.bytes ≠ []) (hvalid : w.valid = true)
    (hrow : w.row (lookupOf so keys name) db = none) :
    (readSecret so keys name w capacity).run (Cmd.exec so) world db = (db, .error .notFound) := by
  have hload : loadedRow (lookupOf so keys name) w db = .error .notFound := by
    unfold loadedRow
    rw [hrow]
  refine Prog.run_bind_error _ ?_
  rw [run_sql]
  unfold prepareRead buildNameLookup loadSecretRow
  simp only [Prog.bind_def, Prog.bind_assoc]
  rw [run_require_bind hne, run_libs_bind hworld]
  refine (run_require_bind ⟨lookupOf_ne_nil, hvalid⟩).trans ?_
  rw [run_select_bind (hworld.drop _), hload]
  rfl

/-- What `vault_get` and its like return for a value `o` when nothing fails. -/
def Given (capacity : ℕ) : Option Bytes → Except Status Result → Prop
  | some x, r => x.length ≤ capacity → r = .ok (.value x)
  | none, r => r = .error .notFound

/-- **What the operations that read return** over a ledger when nothing fails. -/
def Answered (b : Ledger CString Bytes) : Op → Except Status Result → Prop
  | .get name capacity, r => name.bytes ≠ [] → Given capacity (b name).current r
  | .getVersion name v capacity, r => name.bytes ≠ [] → 1 ≤ v →
    Given capacity ((b name).version v.toNat) r
  | .list _, r => ∃ l, r = .ok (.items l)
  | _, _ => True

theorem given_readSecret {w : Which} {o : Option Bytes} {world : ℕ → ℕ → Input} {capacity : ℕ}
    (hsound : Sound so keys db) (hroom : (db.audit.rows.length : ℤ) < int64Max)
    (hworld : ∀ n k, Calm (world n k)) (hne : name.bytes ≠ []) (hvalid : w.valid = true)
    (hsome : ∀ row, w.row (lookupOf so keys name) db = some row →
      ∃ x, o = some x ∧ StoredUnder so keys name x row)
    (hnone : w.row (lookupOf so keys name) db = none → o = none) :
    Given capacity o (((readSecret so keys name w capacity).bind fun y => .ret (Result.value y)).run
      (Cmd.exec so) world db).2 := by
  cases hrow : w.row (lookupOf so keys name) db with
  | none =>
    have hrun : (readSecret so keys name w capacity).run (Cmd.exec so) world db =
        (db, .error .notFound) := run_readSecret_none (fun n => (hworld n 0).fault) hne hvalid hrow
    rw [hnone hrow, Prog.run_bind_error _ hrun]
    rfl
  | some row =>
    obtain ⟨x, rfl, hstored⟩ := hsome row hrow
    intro hcap
    have hworks : Works so (fun r _ => r = .value x)
        ((readSecret so keys name w capacity).bind fun y => .ret (Result.value y)) db :=
      Prog.Yields.bind ((works_readSecret hsound hroom hne hvalid hrow hstored hcap).mono
        fun y _ hy => congrArg Result.value hy)
    obtain ⟨r, db', hrun, rfl⟩ := Prog.Yields.run hworks hworld
    rw [hrun]

/-- **The listing** is shown. -/
theorem works_list (hsound : Sound so keys db) (hrep : Represents so keys N b db.secrets)
    (hN : DistinctLookups so keys N) :
    Works so (fun r _ => ∃ l, r = .items l) (unlockedCode so keys (.list false)) db := by
  refine works_sql_bind ?_
  unfold currentTime
  simp only [Prog.bind_def, Prog.bind_assoc]
  refine ends_time_bind fun now time htime => ends_ofExcept_bind htime ?_
  obtain ⟨items, hitems, -⟩ := listed_items hsound.orderly hrep hN time
  exact ends_select hitems ⟨items, rfl⟩

/-- **What a call of a session returns** when nothing fails. -/
theorem unlocked_answered {op : Op} {world : ℕ → ℕ → Input} (hsound : Sound so keys db)
    (hrep : Represents so keys N b db.secrets) (hN : DistinctLookups so keys N) (hop : Covered op)
    (hname : ∀ n ∈ nameOf op, n ∈ N) (hroom : (db.audit.rows.length : ℤ) < int64Max)
    (hworld : ∀ n k, Calm (world n k)) :
    Answered b op ((unlockedCode so keys op).run (Cmd.exec so) world db).2 := by
  have horder := hsound.orderly
  cases op with
  | get name capacity =>
    have hn := hname name rfl
    exact fun hne => given_readSecret (w := .active) hsound hroom hworld hne rfl
      (fun row => hrep.current horder hn) (hrep.current_none horder hn)
  | getVersion name v capacity =>
    have hn := hname name rfl
    intro hne hv
    have hcode : getVersion so keys name v capacity =
        readSecret so keys name (.version v) capacity := by
      unfold getVersion require
      rw [if_pos hv]
      rfl
    show Given capacity _ (((getVersion so keys name v capacity).bind fun y =>
      .ret (Result.value y)).run (Cmd.exec so) world db).2
    rw [hcode]
    exact given_readSecret hsound hroom hworld hne (decide_eq_true hv)
      (fun row => hrep.version horder hn) (hrep.version_none horder hn)
  | list includeArchived =>
    cases includeArchived with
    | true => exact hop.elim
    | false =>
      obtain ⟨r, db', hrun, l, rfl⟩ := Prog.Yields.run (works_list hsound hrep hN) hworld
      rw [hrun]
      exact ⟨l, rfl⟩
  | _ => exact trivial

/-! ### Any number of calls -/

/-- **The vault mirrors the ledger**: it is in session, its tables are sound and represent the ledger
under keys that look names up as `keys` do. -/
def Mirrors (so : Sodium) (keys : Subkeys) (N : Set CString) (b : Ledger CString Bytes)
    (v : VaultState) : Prop :=
  ∃ current, v.session = some current ∧ current.kekMeta = keys.kekMeta ∧ Sound so current v.db ∧
    Represents so current N b v.db.secrets

theorem inSession_of_covered {op : Op} (h : Covered op) : InSession op := by
  cases op with
  | unlock _ | unlockExisting _ => exact h.elim
  | _ => exact trivial

section Call

variable {v : VaultState} {c : Call} (h : Mirrors so keys N b v) (hN : DistinctLookups so keys N)
  (hop : Covered c.op) (hname : ∀ n ∈ nameOf c.op, n ∈ N)

include h hN hop hname

/-- **One call**, whatever fails in it, takes its turn. -/
theorem Mirrors.turn :
    ∃ b', Turn b c.op (v.outcome so c).2 b' ∧ Mirrors so keys N b' (v.after so c) := by
  obtain ⟨db, session⟩ := v
  obtain ⟨op, world⟩ := c
  obtain ⟨current, rfl, hmeta, hsound, hrep⟩ := h
  have hrun := VaultState.outcome_runs so ⟨db, some current⟩ ⟨op, world⟩
  have hafter : VaultState.after so ⟨db, some current⟩ ⟨op, world⟩ =
      ⟨(VaultState.outcome so ⟨db, some current⟩ ⟨op, world⟩).1,
        finish (some current) op (VaultState.outcome so ⟨db, some current⟩ ⟨op, world⟩).2⟩ := rfl
  rw [hafter]
  generalize VaultState.outcome so ⟨db, some current⟩ ⟨op, world⟩ = out at hrun
  obtain ⟨db', r⟩ := out
  by_cases hkek : ∃ password, op = .rotateKek password
  · obtain ⟨password, rfl⟩ := hkek
    obtain ⟨x, hx, hr⟩ := runs_bind_ret hrun
    dsimp only at hr
    rw [hr]
    rcases rotateKek_turn hsound hrep hx with
      ⟨e, rfl, hdb⟩ | ⟨newKeys, rfl, hmeta', hsound', hrep'⟩
    · dsimp only at hdb
      rw [hdb]
      exact ⟨b, rfl, current, rfl, hmeta, hsound, hrep⟩
    · exact ⟨b, rfl, newKeys, rfl, hmeta'.trans hmeta, hsound', hrep'⟩
  · have hkek : ∀ password, op ≠ .rotateKek password := fun password e => hkek ⟨password, e⟩
    obtain ⟨b', hturn, hrep'⟩ :=
      unlocked_turn hsound hrep (hN.of_meta hmeta) hop hkek hname hrun
    have hsound' : Sound so current db' :=
      call_preserves (P := fun d => Sound so current d) (fun d d' hstep hd => (hd.step hkek hstep).1)
        hsound hrun
    exact ⟨b', hturn, current, finish_eq (inSession_of_covered hop) hkek, hmeta, hsound', hrep'⟩

/-- **One call** in which nothing fails returns what the ledger gives. -/
theorem Mirrors.answered (hworld : ∀ n k, Calm (c.world n k))
    (hroom : (v.db.audit.rows.length : ℤ) < int64Max) : Answered b c.op (v.outcome so c).2 := by
  obtain ⟨db, session⟩ := v
  obtain ⟨current, rfl, hmeta, hsound, hrep⟩ := h
  exact unlocked_answered hsound hrep (hN.of_meta hmeta) hop hname hroom hworld

end Call

/-- **The results of the calls** are those of a ledger that starts as `b` and takes the turn of every
call; the calls that read and in which nothing fails return what the ledger gives. -/
def Follows (so : Sodium) : VaultState → Ledger CString Bytes → List Call → Prop
  | _, _, [] => True
  | v, b, c :: cs => ∃ b', Turn b c.op (v.outcome so c).2 b' ∧
      ((∀ n k, Calm (c.world n k)) → (v.db.audit.rows.length : ℤ) < int64Max →
        Answered b c.op (v.outcome so c).2) ∧ Follows so (v.after so c) b' cs

theorem Mirrors.follows {cs : List Call} {v : VaultState} (h : Mirrors so keys N b v)
    (hN : DistinctLookups so keys N) (hops : ∀ c ∈ cs, Covered c.op)
    (hnames : ∀ c ∈ cs, ∀ n ∈ nameOf c.op, n ∈ N) : Follows so v b cs := by
  induction cs generalizing v b with
  | nil => exact trivial
  | cons c cs ih =>
    obtain ⟨hop, hops⟩ := List.forall_mem_cons.mp hops
    obtain ⟨hname, hnames⟩ := List.forall_mem_cons.mp hnames
    obtain ⟨b', hturn, h'⟩ := h.turn hN hop hname
    exact ⟨b', hturn, h.answered hN hop hname, ih h' hops hnames⟩

/-- **The vault is a versioned map.** Over any calls of a session on a new vault, whatever fails in
them, the results are those of a ledger that starts empty, if no two names that are used are looked
up under the same hash. -/
theorem vault_follows {v : VaultState} {cs : List Call} (hs : v.session = some keys)
    (hsec : v.db.secrets = .empty) (haud : v.db.audit = .empty) (hops : ∀ c ∈ cs, Covered c.op)
    (hN : DistinctLookups so keys {n | ∃ c ∈ cs, n ∈ nameOf c.op}) :
    Follows so v Ledger.empty cs := by
  obtain ⟨current, hcurrent, hsound⟩ : SoundVault so v := soundVault_new hs hsec haud
  obtain rfl : current = keys := Option.some.inj (hcurrent.symm.trans hs)
  have hmirrors : Mirrors so current {n | ∃ c ∈ cs, n ∈ nameOf c.op} .empty v :=
    ⟨current, hs, rfl, hsound, hsec ▸ represents_empty⟩
  exact hmirrors.follows hN hops fun c hc n hn => ⟨c, hc, hn⟩

/-- Two names: one gets three versions, two of them after the password has changed, and is deleted;
the other expires and is renewed. -/
def storedCalls : List Call :=
  let name := sampleName
  let other : CString := ⟨ascii "other", by decide⟩
  let password := samplePassword
  let calls : List (Op × UInt8) := [(.put name [1, 2] none 0, 1), (.put other [] none 60, 2),
    (.rotateKek password, 3), (.put name [3] none 0, 4), (.rollback name 1, 5),
    (.getVersion name 2 16, 6), (.autoRotate 8, 7), (.delete name, 8), (.get name 16, 9),
    (.getVersion name 3 16, 10), (.list false, 11)]
  calls.map fun c => ⟨c.1, fun _ => calm (1735689600 + 20 * c.2.toNat) c.2⟩

theorem stored_calls_follow :
    Follows toy ⟨Db.empty, some toyKeys⟩ Ledger.empty storedCalls := by
  have hdistinct : ∀ m ∈ storedCalls.filterMap fun c => nameOf c.op,
      ∀ n ∈ storedCalls.filterMap fun c => nameOf c.op,
        toy.generichash toyKeys.kekMeta m.bytes = toy.generichash toyKeys.kekMeta n.bytes → m = n := by
    decide +kernel
  refine vault_follows rfl rfl rfl (by decide) ?_
  rintro m ⟨c, hc, hm⟩ n ⟨d, hd, hn⟩
  exact hdistinct m (List.mem_filterMap.mpr ⟨c, hc, hm⟩) n (List.mem_filterMap.mpr ⟨d, hd, hn⟩)

end Fuin.Vault.Answers

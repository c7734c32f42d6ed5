import Fuin.Lib.Failures
import Fuin.Vault.Refinement
import Fuin.Vault.Views

/-! # What a call does to the ledger

`Turn b op r b'`: over the ledger `b`, the operation may return `r` and leave the ledger `b'`. Every
call of a session whose table represents a ledger takes such a turn, whatever fails in it
(`unlocked_turn`, `rotateKek_turn`). -/

namespace Fuin.Vault.Turns

open Fuin.Utils Fuin.Time Fuin.Crypto Fuin.Lib.Program Fuin.Lib.Growth Fuin.Lib.Ledgers
open Fuin.Lib.Failures Fuin.Store.Secrets Fuin.Store.Versions Fuin.Store.Expiry
open Fuin.Store.Selections Fuin.Store.Database Fuin.CryptoEngine Fuin.Kdf Fuin.Audit.Encoding
open Fuin.Audit.Verify Fuin.Audit.Log Fuin.Vault.Rows Fuin.Vault.Transactions Fuin.Vault.Operations
open Fuin.Vault.Observed Fuin.Vault.Rules Fuin.Vault.Committed Fuin.Vault.Versioned
open Fuin.Vault.Stored Fuin.Vault.Calls Fuin.Vault.Honest Fuin.Vault.Reopened Fuin.Vault.Atomic
open Fuin.Vault.Rounds Fuin.Vault.Views Fuin.Vault.Refinement

/-- The operations that a ledger accounts for. -/
def Covered : Op → Prop
  | .put .. | .delete _ | .rollback .. | .autoRotate _ | .rotateKek _ => True
  | .get .. | .getVersion .. | .list false => True
  | _ => False

instance : DecidablePred Covered
  | .put .. | .delete _ | .rollback .. | .autoRotate _ | .rotateKek _ => isTrue trivial
  | .get .. | .getVersion .. | .list false => isTrue trivial
  | .list true | .unlock _ | .unlockExisting _ | .issueToken .. | .revokeTokens => isFalse id

/-- The name that an operation is given. -/
def nameOf : Op → Option CString
  | .put name .. | .delete name | .rollback name _ | .get name _ | .getVersion name .. => some name
  | _ => none

/-- The values `x` for which `vault_get` and its like may return `r`: the one that is there, and
`SM_ERR_NOT_FOUND` only if there is none. -/
def Returns (x : Option Bytes) : Except Status Result → Prop
  | .ok (.value y) => x = some y
  | .ok _ => False
  | .error e => e = .notFound → x = none

/-- **What the operations mean.** A call that fails leaves the ledger, but for
`vault_auto_rotate_expired`, which may have renewed some names before. -/
def Turn (b : Ledger CString Bytes) :
    Op → Except Status Result → Ledger CString Bytes → Prop
  | .put name secret _ _, .ok _, b' => b' = b.append name secret
  | .delete name, .ok _, b' => (b name).live = true ∧ b' = b.withdraw name
  | .rollback name v, .ok _, b' => ∃ x, (b name).version v.toNat = some x ∧ b' = b.append name x
  | .autoRotate _, r, b' => ∃ l, b.Renewed l b' ∧ ∀ x, r = .ok x → ∃ k, x = .count k ∧ l.length ≤ k
  | .get name _, r, b' => b' = b ∧ Returns (b name).current r
  | .getVersion name v _, r, b' => b' = b ∧ Returns ((b name).version v.toNat) r
  | .list _, .ok (.items l), b' => b' = b ∧ (l.map ListItem.name).Nodup ∧
    ∀ n, n ∈ l.map ListItem.name ↔ (b n).live = true
  | .list _, .ok _, _ => False
  | _, _, b' => b' = b

variable {so : Sodium} {keys : Subkeys} {N : Set CString} {b : Ledger CString Bytes} {name n : CString}
  {db db' : Db} {α : Type}

/-! ### Writing -/

section Writing

variable (hsound : Sound so keys db) (hrep : Represents so keys N b db.secrets)
  (hN : DistinctLookups so keys N) (hn : name ∈ N)

include hrep hN hn in
/-- **`vault_put_with_options`** stores the value. -/
theorem put_turn {secret : Bytes} {algorithm : Option CString} {ttl : ℕ} {r : Except Status Unit}
    (h : (put so keys name secret algorithm ttl).Runs (Cmd.exec so) db db' r) :
    (r = .ok () ∧ Represents so keys N (b.append name secret) db'.secrets) ∨
      ∃ e, r = .error e ∧ db' = db := by
  rcases runs_prepared readOnly_preparePut h with ⟨⟨metadata, new⟩, h1, rfl, h2⟩ | he
  · obtain ⟨_, _, -, -, -, -, -, -, hs, -, -, hp, -⟩ := preparePut_runsIn h1
    exact Or.inl ⟨rfl, hrep.append hN hn (put_runs h2).1 (storedUnder_prepared hp hs)⟩
  · exact Or.inr he

include hsound hrep hN hn in
/-- **`vault_delete`** withdraws a name that is in force. -/
theorem delete_turn {r : Except Status Unit}
    (h : (delete so keys name).Runs (Cmd.exec so) db db' r) :
    (r = .ok () ∧ (b name).live = true ∧ Represents so keys N (b.withdraw name) db'.secrets) ∨
      ∃ e, r = .error e ∧ db' = db := by
  rcases delete_atomic hsound h with ⟨rfl, row, now, hrow, hdeleted⟩ | he
  · obtain ⟨x, hx, -⟩ := hrep.current hsound.orderly hn hrow
    refine Or.inl ⟨rfl, (Entry.current_eq_some.mp hx).1, ?_⟩
    rw [hdeleted.archive]
    exact hrep.withdraw hN hn _
  · exact Or.inr he

include hsound hrep hN hn in
/-- **`vault_rollback`** stores an old value again. -/
theorem rollback_turn {version : ℤ} {r : Except Status Unit}
    (h : (rollback so keys name version).Runs (Cmd.exec so) db db' r) :
    (r = .ok () ∧ ∃ x, (b name).version version.toNat = some x ∧
      Represents so keys N (b.append name x) db'.secrets) ∨ ∃ e, r = .error e ∧ db' = db := by
  rcases runs_prepared readOnly_prepareRollback h with ⟨new, h1, rfl, h2⟩ | he
  · obtain ⟨d, _, _, row, plaintext, hd, -, -, -, -, -, -, -, hs, hrow, hreads, -, -, hp⟩ :=
      prepareRollback_runsIn h1
    obtain rfl : db = d := hd
    rw [hs.stored] at hrow
    obtain ⟨x, hx, hstored⟩ := hrep.version hsound.orderly hn hrow
    have hmem := (SecretTable.versionRow_eq_some hrow).1
    obtain rfl : x = plaintext :=
      Holds.eq_of_reads hstored.holds hreads (hsound.orderly.columnInt_version hmem)
    exact Or.inl ⟨rfl, x, hx, hrep.append hN hn (rollback_runs h2) (storedUnder_prepared hp hs)⟩
  · exact Or.inr he

end Writing

/-! ### Rotating what has expired -/

/-- The secret that the loop finds has a name of `N`. -/
theorem nextExpiredName_named {first stored : CString} (hrep : Represents so keys N b db.secrets)
    (h : nextExpiredName first db = .ok (some stored)) : ∃ n ∈ N, stored = lookupOf so keys n := by
  unfold nextExpiredName at h
  cases hrow : db.secrets.nextExpired first.bytes with
  | none =>
    rw [hrow] at h
    nomatch h
  | some r =>
    rw [hrow] at h
    obtain ⟨hmem, -⟩ := mem_due.mp (nextExpired_eq_some hrow)
    obtain ⟨n, hn, hname⟩ := hrep.named r hmem
    obtain ⟨text, htext, hret⟩ := bind_eq_ok.mp h
    cases hret
    obtain ⟨_, -, htext⟩ := bind_eq_ok.mp htext
    refine ⟨n, hn, ?_⟩
    rw [← pure_eq_ok.mp htext, hname, columnText_bytes]

/-- **A rotation** stores the value in force again. -/
theorem rotation_turn {rest : List (Option ℤ)} {r : SecretRow} {plaintext : Bytes} {new : NewSecret}
    (horder : Orderly db.secrets) (hrep : Represents so keys N b db.secrets)
    (hN : DistinctLookups so keys N) (hn : n ∈ N)
    (h : Rotation so keys (lookupOf so keys n) rest r plaintext new db db') :
    (b n).current = some plaintext ∧ Represents so keys N (b.append n plaintext) db'.secrets := by
  obtain ⟨x, hx, hstored⟩ := hrep.current horder hn h.active
  have hmem := (SecretTable.activeRow_eq_some h.active).1
  obtain rfl : x = plaintext :=
    Holds.eq_of_reads hstored.holds h.reads (horder.columnInt_version hmem)
  have hshown : Shown so keys n new.name new.nameNonce new.encryptedName := by
    rw [h.stores.name, h.nameNonce, h.encryptedName]
    exact hstored.shown
  exact ⟨hx, hrep.append hN hn h.stores.committed (storedUnder_prepared h.prepared hshown)⟩

theorem rotateExpiredSecret_error {stored : CString} {e : Status}
    (h : (rotateExpiredSecret so keys stored).Runs (Cmd.exec so) db db' (.error e)) : db' = db := by
  rcases Prog.runs_bind_cases h with ⟨_, -, h1⟩ | ⟨out, db₁, h1, h2⟩
  · exact readOnly_prepareRotation.runs (runs_sql h1)
  · obtain rfl := readOnly_prepareRotation.runs (runs_sql h1)
    cases out with
    | none => nomatch (Prog.runs_ret h2).2
    | some p =>
      rcases runs_transact h2 with ⟨h3, -⟩ | ⟨_, -, h3⟩
      · nomatch h3
      · exact h3

/-- **The loop** renews some names, as many as it counts or fewer. -/
theorem rotateExpired_turn {first : CString} (hN : DistinctLookups so keys N) {fuel k : ℕ}
    {r : Except Status ℕ} (horder : Orderly db.secrets) (hrep : Represents so keys N b db.secrets)
    (h : (rotateExpired so keys first fuel k).Runs (Cmd.exec so) db db' r) :
    ∃ l b', b.Renewed l b' ∧ Represents so keys N b' db'.secrets ∧ ∀ j, r = .ok j → k + l.length ≤ j := by
  induction fuel generalizing k db b with
  | zero =>
    obtain ⟨rfl, rfl⟩ := Prog.runs_fail h
    exact ⟨[], b, Ledger.renewed_nil, hrep, fun _ hj => nomatch hj⟩
  | succ fuel ih =>
    rcases Prog.runs_bind_cases h with ⟨e, rfl, h1⟩ | ⟨found, db₁, h1, h2⟩
    · obtain rfl := Sql.readOnly_select.runs (runs_sql h1)
      exact ⟨[], b, Ledger.renewed_nil, hrep, fun _ hj => nomatch hj⟩
    · obtain ⟨rfl, hfound⟩ := Sql.runs_select (runs_sql h1)
      cases found with
      | none =>
        obtain ⟨rfl, rfl⟩ := Prog.runs_ret h2
        exact ⟨[], b, Ledger.renewed_nil, hrep, fun j hj => (Except.ok.inj hj).le⟩
      | some stored =>
        obtain ⟨n, hn, rfl⟩ := nextExpiredName_named hrep hfound
        rcases Prog.runs_bind_cases h2 with ⟨e, rfl, h3⟩ | ⟨_, db₂, ⟨es, h3⟩, h4⟩
        · obtain rfl := rotateExpiredSecret_error h3
          exact ⟨[], b, Ledger.renewed_nil, hrep, fun _ hj => nomatch hj⟩
        · obtain ⟨_, _, -, -, ⟨-, _, x, _, hrot⟩ | ⟨-, rfl⟩⟩ :=
            rotateExpiredSecret_takes horder ⟨es, h3, rfl⟩
          · obtain ⟨hx, hrep'⟩ := rotation_turn horder hrep hN hn hrot
            obtain ⟨l, b', hl, hrep'', hk⟩ := ih (hrot.orderly horder) hrep' h4
            refine ⟨n :: l, b', hl.cons hx, hrep'', fun j hj => ?_⟩
            have hj := hk j hj
            rw [List.length_cons]
            omega
          · obtain ⟨l, b', hl, hrep'', hk⟩ := ih horder hrep h4
            refine ⟨l, b', hl, hrep'', fun j hj => ?_⟩
            have hj := hk j hj
            omega

/-- **`vault_auto_rotate_expired`** renews some names, whether it fails or not. -/
theorem autoRotateExpired_turn (hN : DistinctLookups so keys N) {fuel : ℕ} {r : Except Status ℕ}
    (horder : Orderly db.secrets) (hrep : Represents so keys N b db.secrets)
    (h : (autoRotateExpired so keys fuel).Runs (Cmd.exec so) db db' r) :
    ∃ l b', b.Renewed l b' ∧ Represents so keys N b' db'.secrets ∧ ∀ j, r = .ok j → l.length ≤ j := by
  rcases Prog.runs_bind_cases h with ⟨e, rfl, h1⟩ | ⟨first, db₁, h1, h2⟩
  · obtain rfl := readOnly_currentTime.runs (runs_sql h1)
    exact ⟨[], b, Ledger.renewed_nil, hrep, fun _ hj => nomatch hj⟩
  · obtain rfl := readOnly_currentTime.runs (runs_sql h1)
    obtain ⟨l, b', hl, hrep', hk⟩ := rotateExpired_turn hN horder hrep h2
    exact ⟨l, b', hl, hrep', fun j hj => (Nat.zero_add _).symm.trans_le (hk j hj)⟩

/-! ### Listing -/

theorem lookupOf_ne_nil : (lookupOf so keys n).bytes ≠ [] := by
  refine List.ne_nil_of_length_pos ?_
  rw [lookupOf, length_bin2hex, (so.generichash _ _).2]
  decide

/-- The name that is shown is the one that was given. -/
theorem Shown.decrypts {stored : CString} {nonce encryptedName : Bytes}
    (h : Shown so keys n stored nonce encryptedName) :
    decryptDisplayName so keys stored nonce encryptedName = .ok n := by
  obtain ⟨rfl, hne, hle, hnonce, rfl⟩ := h
  have hpos := List.length_pos_of_ne_nil hne
  have hlen (nonce aad : Bytes) :
      (so.encrypt .xchacha20Poly1305 keys.kekMeta nonce aad n.bytes).length = n.bytes.length + 16 :=
    so.length_encrypt _ _ _ _ _
  simp only [decryptDisplayName, bind_eq_ok, require_eq_ok, pure_eq_ok, opened_eq_ok, hlen]
  exact ⟨(), ⟨lookupOf_ne_nil, hnonce, by omega, by omega⟩, n.bytes, so.decrypt_encrypt _ _ _ _ _, (),
    by omega, columnText_bytes n⟩

/-- A row is listed under the name that was given. -/
theorem listItem_named {now : CString} {r : SecretRow} (horder : Orderly db.secrets)
    (hrep : Represents so keys N b db.secrets) (hr : r ∈ db.secrets.rows) :
    ∃ item, listItem so keys now r = .ok item ∧ item.name ∈ N ∧
      r.name = (lookupOf so keys item.name).bytes := by
  obtain ⟨n, hn, hname⟩ := hrep.named r hr
  have hrow := SecretTable.mem_rowsOf.mpr ⟨hr, hname⟩
  obtain ⟨x, -, hstored⟩ := hrep.version_of_mem horder hn hrow
  have hshown := hstored.shown
  have hpos : 1 ≤ columnInt r.version := by
    rw [horder.columnInt_version hr]
    exact ((horder.history _).versions.mem hrow).1
  have hcolumns : r.name ≠ [] ∧ r.nameNonce ≠ [] ∧ r.encryptedName ≠ [] := by
    refine ⟨hname ▸ lookupOf_ne_nil, ?_, ?_⟩
    · exact List.ne_nil_of_length_pos (hshown.length_nonce ▸ by decide)
    · refine List.ne_nil_of_length_pos ?_
      rw [hshown.encrypted, so.length_encrypt]
      exact Nat.add_pos_right _ (by decide)
  have hdisplay : decryptDisplayName so keys (columnText r.name) r.nameNonce r.encryptedName =
      .ok n := by
    rw [hname, columnText_bytes]
    exact Shown.decrypts hshown
  exact ⟨_, listItem_ok (db.secrets.admitted r hr) hcolumns hdisplay hpos, hn, hname⟩

/-- **The listing** shows the names in force, each once. -/
theorem listed_items (horder : Orderly db.secrets) (hrep : Represents so keys N b db.secrets)
    (hN : DistinctLookups so keys N) (now : CString) :
    ∃ items, (db.secrets.listed false).mapM (listItem so keys now) = .ok items ∧
      (items.map ListItem.name).Nodup ∧
        ∀ n, n ∈ items.map ListItem.name ↔ (b n).live = true := by
  obtain ⟨items, hitems, hall⟩ := mapM_forall₂ (f := listItem so keys now) fun r hr =>
    listItem_named horder hrep (mem_listed hr).1
  refine ⟨items, hitems, ?_, fun n => ?_⟩
  · have hnames : (items.map ListItem.name).map (fun n => (lookupOf so keys n).bytes) =
        (db.secrets.listed false).map SecretRow.name := by
      refine List.forall₂_eq_eq_eq ▸ ?_
      rw [List.map_map, List.forall₂_map_left_iff, List.forall₂_map_right_iff]
      exact hall.flip.imp fun item r h => h.2.symm
    have hnodup : ((db.secrets.listed false).map SecretRow.name).Nodup :=
      ((List.mergeSort_perm _ _).map _).nodup_iff.mpr
        (List.pairwise_map.mpr (current_pairwise db.secrets))
    rw [← hnames] at hnodup
    exact hnodup.of_map
  · constructor
    · intro h
      obtain ⟨item, hitem, rfl⟩ := List.mem_map.mp h
      obtain ⟨r, hr, hn, hname⟩ := forall₂_mem_right hall hitem
      obtain ⟨hmem, hcurrent⟩ := mem_listed hr
      exact (hrep.live _ hn).mpr ⟨r, SecretTable.mem_rowsOf.mpr ⟨hmem, hname⟩, hcurrent.1⟩
    · intro h
      have hn : n ∈ N := by
        by_contra hn
        rw [hrep.absent n hn] at h
        cases h
      obtain ⟨r, hr, hactive⟩ := (hrep.live n hn).mp h
      obtain ⟨hmem, hname⟩ := SecretTable.mem_rowsOf.mp hr
      have hlisted : r ∈ db.secrets.listed false :=
        List.mem_mergeSort.mpr (mem_current.mpr ⟨hmem, (horder.history r.name).current hmem hactive⟩)
      obtain ⟨item, hitem, hn', hname'⟩ := forall₂_mem_right hall.flip hlisted
      exact List.mem_map.mpr ⟨item, hitem, hN.eq hn' hn (hname'.symm.trans hname)⟩

/-! ### What is not there

`SM_ERR_NOT_FOUND` comes from the query for the row and from nowhere else. -/

theorem require_ne_error {p : Prop} [Decidable p] {e e' : Status} (h : e ≠ e') :
    require p e ≠ .error e' := by
  unfold require
  split_ifs
  · exact (nomatch ·)
  · exact fun he => h (Except.error.inj he)

theorem avoids_lib {e e' : Status} (h : e' ≠ e) : Avoids e (Sql.lib e') := fun (ok : Bool) => by
  cases ok with
  | true => trivial
  | false => exact h

theorem avoids_libs {e : Status} : ∀ {l : List Status}, (∀ e' ∈ l, e' ≠ e) → Avoids e (Sql.libs l)
  | [], _ => trivial
  | _ :: _, h => (avoids_lib (h _ List.mem_cons_self)).bind fun _ =>
    avoids_libs fun e' he' => h e' (List.mem_cons_of_mem _ he')

theorem avoids_select {e : Status} {q : Db → Except Status α} (hq : ∀ db, q db ≠ .error e)
    (he : .storage ≠ e) : Avoids e (Sql.select q) := fun (r : Option Db) => by
  cases r with
  | none => exact he
  | some db => exact avoids_ofExcept (hq db)

theorem avoids_write {e : Status} {w : Write} (he : .storage ≠ e) : Avoids e (Sql.write w) :=
  fun (r : Option ℕ) => by
    cases r with
    | none => exact he
    | some k => trivial

theorem copySecretRow_found (r : SecretRow) : copySecretRow r ≠ .error .notFound := by
  have htext (k : ℕ) (s : Bytes) : copyText k s ≠ .error .notFound := by
    unfold copyText
    split_ifs <;> exact (nomatch ·)
  refine bind_ne_error (htext _ _) fun _ => bind_ne_error (require_ne_error (by decide)) fun _ => ?_
  refine bind_ne_error (htext _ _) fun _ => bind_ne_error (require_ne_error (by decide)) fun _ => ?_
  refine bind_ne_error (require_ne_error (by decide)) fun _ => ?_
  exact bind_ne_error (require_ne_error (by decide)) fun _ => (nomatch ·)

theorem decryptHeader_found {e : EncryptedSecret} {kek : Block 32} {identity : CString} {version : ℤ}
    {capacity : ℕ} : decryptHeader so e kek identity version capacity ≠ .error .notFound := by
  refine bind_ne_error ?_ fun a => bind_ne_error (require_ne_error (by decide)) fun _ => ?_
  · unfold algorithmFromName
    split_ifs <;> exact (nomatch ·)
  · refine bind_ne_error ?_ fun _ => bind_ne_error (require_ne_error (by decide)) fun _ => ?_
    · exact bind_ne_error (require_ne_error (by decide)) fun _ => (nomatch ·)
    · exact bind_ne_error (require_ne_error (by decide)) fun _ => (nomatch ·)

theorem decryptBody_found {e : EncryptedSecret} {kek : Block 32} {a : Algorithm} {aad : Bytes} :
    decryptBody so e kek a aad ≠ .error .notFound := by
  have hopened (o : Option Bytes) : opened o ≠ .error .notFound := by
    cases o <;> exact (nomatch ·)
  refine bind_ne_error (hopened _) fun w => bind_ne_error ?_ fun dek => ?_
  · unfold asKey
    split_ifs <;> exact (nomatch ·)
  · exact bind_ne_error (require_ne_error (by decide)) fun _ => hopened _

theorem avoids_decryptSecretRow {row : LoadedRow} {stored : CString} {capacity : ℕ} :
    Avoids .notFound (decryptSecretRow so keys row stored capacity) := by
  refine (avoids_ofExcept (require_ne_error (by decide))).bind fun _ => ?_
  refine (avoids_ofExcept ?_).bind fun identity => (avoids_libs (by decide)).bind fun _ => ?_
  · exact bind_ne_error (require_ne_error (by decide)) fun _ => (nomatch ·)
  · refine (avoids_ofExcept (require_ne_error (by decide))).bind fun _ => ?_
    refine (avoids_lib (by decide)).bind fun _ => (avoids_ofExcept decryptHeader_found).bind fun _ => ?_
    exact (avoids_libs (by decide)).bind fun _ => avoids_ofExcept decryptBody_found

theorem buildEntryBytes_found {v : Entry} {prev : Block 32} {hash : Option (Block 32)} :
    buildEntryBytes v prev hash ≠ .error .notFound := by
  have hsize : ∀ (l : List Bytes) (total : ℕ), totalSize total l ≠ .error .notFound := by
    intro l
    induction l with
    | nil => exact fun _ => (nomatch ·)
    | cons d l ih =>
      intro total
      refine bind_ne_error ?_ fun k => ?_
      · unfold fieldSize
        split_ifs <;> exact (nomatch ·)
      · split_ifs
        · exact (nomatch ·)
        · exact ih _
  refine bind_ne_error (require_ne_error (by decide)) fun _ => bind_ne_error (hsize _ _) fun _ => ?_
  exact bind_ne_error (require_ne_error (by decide)) fun _ => (nomatch ·)

theorem avoids_logSuccess {action target : CString} {version : ℤ} {key : Block 32} :
    Avoids .notFound (logSuccess so action target version key) := by
  refine Avoids.bind ?_ fun row => (avoids_write (by decide)).bind fun _ => trivial
  refine Avoids.bind (fun _ => trivial) fun now => (avoids_ofExcept ?_).bind fun time => ?_
  · cases now with
    | none => simp [nowIso8601]
    | some now =>
      unfold nowIso8601 formatIso8601
      dsimp only
      split_ifs <;> simp
  · refine (avoids_select (fun d => ?_) (by decide)).bind fun prev => ?_
    · unfold lastHash columnHash
      split
      · simp
      · split_ifs <;> simp
    · refine (avoids_select (fun d => ?_) (by decide)).bind fun id => ?_
      · unfold nextEntryId
        dsimp only
        split_ifs <;> simp
      · refine Avoids.bind (avoids_select (fun d => by simp) (by decide)) fun count => ?_
        refine (avoids_libs (by decide)).bind fun _ => (avoids_ofExcept ?_).bind fun hash => ?_
        · exact bind_ne_error buildEntryBytes_found fun _ h => by cases h
        · refine (avoids_libs (by decide)).bind fun _ => (avoids_ofExcept ?_).bind fun sig => trivial
          exact bind_ne_error buildEntryBytes_found fun _ h => by cases h

/-- **`SM_ERR_NOT_FOUND`** means that there is no row. -/
theorem readSecret_notFound {w : Which} {capacity : ℕ}
    (h : (readSecret so keys name w capacity).Runs (Cmd.exec so) db db' (.error .notFound)) :
    w.row (lookupOf so keys name) db = none := by
  rcases Prog.runs_bind_cases h with ⟨_, he, h1⟩ | ⟨out, db₁, -, h2⟩
  · cases he
    rcases Prog.runs_bind_cases (runs_sql h1) with ⟨_, he, h3⟩ | ⟨stored, db₁, h3, h4⟩
    · cases he
      have hname : Avoids .notFound (buildNameLookup so keys name) :=
        (avoids_ofExcept (require_ne_error (by decide))).bind fun _ =>
          (avoids_libs (by decide)).bind fun _ => trivial
      exact absurd rfl (hname.runs h3)
    · obtain rfl := readOnly_buildNameLookup.runs h3
      obtain ⟨-, rfl⟩ := buildNameLookup_runsIn (readOnly_buildNameLookup.still h3)
      rcases Prog.runs_bind_cases h4 with ⟨_, he, h5⟩ | ⟨row, db₂, -, h6⟩
      · cases he
        rcases Prog.runs_bind_cases h5 with ⟨_, he, h7⟩ | ⟨_, db₂, h7, h8⟩
        · cases he
          exact absurd (Prog.runs_ofExcept h7).2.symm (require_ne_error (by decide))
        · obtain ⟨rfl, -⟩ := Prog.runs_ofExcept h7
          obtain ⟨-, rfl, hq | ⟨-, hq⟩⟩ := Sql.runsIn_select_cases (Sql.readOnly_select.still h8)
          · unfold loadedRow at hq
            cases hrow : w.row (lookupOf so keys name) db' with
            | none => rfl
            | some r =>
              rw [hrow] at hq
              exact absurd hq.symm (copySecretRow_found r)
          · nomatch hq
      · refine absurd rfl (Avoids.runs ?_ h6)
        exact avoids_decryptSecretRow.bind fun _ => trivial
  · refine absurd rfl (Avoids.runs ?_ h2)
    exact avoids_logSuccess.lift.bind fun _ => trivial

/-- **`vault_read_secret`** leaves the secrets and returns the value that the row holds. -/
theorem readSecret_turn {w : Which} {capacity : ℕ} {o : Option Bytes} {r : Except Status Bytes}
    (hsound : Sound so keys db)
    (hsome : ∀ row, w.row (lookupOf so keys name) db = some row →
      ∃ x, o = some x ∧ StoredUnder so keys name x row)
    (hnone : w.row (lookupOf so keys name) db = none → o = none)
    (h : (readSecret so keys name w capacity).Runs (Cmd.exec so) db db' r) :
    db'.secrets = db.secrets ∧ Returns o (r.map .value) := by
  rcases readSecret_atomic hsound h with ⟨y, row, rfl, hrow, hreads, _, -, rfl⟩ | ⟨e, rfl, rfl⟩
  · obtain ⟨x, rfl, hstored⟩ := hsome row hrow
    have hmem := (Which.row_name hrow).1
    have hxy := Holds.eq_of_reads hstored.holds hreads (hsound.orderly.columnInt_version hmem)
    exact ⟨rfl, congrArg some hxy⟩
  · refine ⟨rfl, fun he => hnone ?_⟩
    rw [show e = .notFound from he] at h
    exact readSecret_notFound h

/-! ### Calls -/

/-- **Every call but `vault_rotate_kek`** takes its turn. -/
theorem unlocked_turn {op : Op} {r : Except Status Result} (hsound : Sound so keys db)
    (hrep : Represents so keys N b db.secrets) (hN : DistinctLookups so keys N) (hop : Covered op)
    (hkek : ∀ password, op ≠ .rotateKek password) (hname : ∀ n ∈ nameOf op, n ∈ N)
    (h : (unlockedCode so keys op).Runs (Cmd.exec so) db db' r) :
    ∃ b', Turn b op r b' ∧ Represents so keys N b' db'.secrets := by
  have horder := hsound.orderly
  cases op with
  | put name secret algorithm ttl =>
    obtain ⟨x, hx, rfl⟩ := runs_bind_ret h
    rcases put_turn hrep hN (hname name rfl) hx with ⟨rfl, hrep'⟩ | ⟨e, rfl, rfl⟩
    · exact ⟨_, rfl, hrep'⟩
    · exact ⟨b, rfl, hrep⟩
  | delete name =>
    obtain ⟨x, hx, rfl⟩ := runs_bind_ret h
    rcases delete_turn hsound hrep hN (hname name rfl) hx with ⟨rfl, hlive, hrep'⟩ | ⟨e, rfl, rfl⟩
    · exact ⟨_, ⟨hlive, rfl⟩, hrep'⟩
    · exact ⟨b, rfl, hrep⟩
  | rollback name version =>
    obtain ⟨x, hx, rfl⟩ := runs_bind_ret h
    rcases rollback_turn hsound hrep hN (hname name rfl) hx with
      ⟨rfl, y, hy, hrep'⟩ | ⟨e, rfl, rfl⟩
    · exact ⟨_, ⟨y, hy, rfl⟩, hrep'⟩
    · exact ⟨b, rfl, hrep⟩
  | autoRotate fuel =>
    obtain ⟨x, hx, rfl⟩ := runs_bind_ret h
    obtain ⟨l, b', hl, hrep', hk⟩ := autoRotateExpired_turn hN horder hrep hx
    refine ⟨b', ⟨l, hl, fun y hy => ?_⟩, hrep'⟩
    cases x with
    | error e => nomatch hy
    | ok k => exact ⟨k, (Except.ok.inj hy).symm, hk k rfl⟩
  | get name capacity =>
    obtain ⟨x, hx, rfl⟩ := runs_bind_ret h
    have hn := hname name rfl
    obtain ⟨hsame, hreturns⟩ := readSecret_turn (w := .active) (o := (b name).current) hsound
      (fun row => hrep.current horder hn) (hrep.current_none horder hn) hx
    exact ⟨b, ⟨rfl, hreturns⟩, hsame ▸ hrep⟩
  | getVersion name version capacity =>
    obtain ⟨x, hx, rfl⟩ := runs_bind_ret h
    have hn := hname name rfl
    rcases Prog.runs_bind_cases hx with ⟨e, rfl, h1⟩ | ⟨_, db₁, h1, h2⟩
    · obtain ⟨rfl, he⟩ := Prog.runs_ofExcept h1
      refine ⟨b, ⟨rfl, fun hfound => ?_⟩, hrep⟩
      rw [show e = .notFound from hfound] at he
      exact absurd he.symm (require_ne_error (by decide))
    · obtain ⟨rfl, -⟩ := Prog.runs_ofExcept h1
      obtain ⟨hsame, hreturns⟩ := readSecret_turn (w := .version version)
        (o := (b name).version version.toNat) hsound (fun row => hrep.version horder hn)
        (hrep.version_none horder hn) h2
      exact ⟨b, ⟨rfl, hreturns⟩, hsame ▸ hrep⟩
  | list includeArchived =>
    cases includeArchived with
    | true => exact hop.elim
    | false =>
      obtain ⟨x, hx, rfl⟩ := runs_bind_ret h
      have hruns := runs_sql hx
      obtain rfl : db' = db :=
        Prog.ReadOnly.runs (readOnly_currentTime.bind fun _ => Sql.readOnly_select) hruns
      refine ⟨b, ?_, hrep⟩
      cases x with
      | error e => exact rfl
      | ok items =>
        obtain ⟨now, db₁, h1, h2⟩ := Prog.runs_bind hruns
        obtain rfl := readOnly_currentTime.runs h1
        obtain ⟨items', hitems, hlist⟩ := listed_items horder hrep hN now
        cases hitems.symm.trans (Sql.runs_select h2).2
        exact ⟨rfl, hlist⟩
  | rotateKek password => exact absurd rfl (hkek password)
  | _ => exact hop.elim

/-- **`vault_rotate_kek`** leaves the ledger, under the keys of the session that it goes on with. -/
theorem rotateKek_turn {password : CString} {r : Except Status Subkeys} (hsound : Sound so keys db)
    (hrep : Represents so keys N b db.secrets)
    (h : (rotateKek so keys password).Runs (Cmd.exec so) db db' r) :
    (∃ e, r = .error e ∧ db' = db) ∨ ∃ newKeys, r = .ok newKeys ∧ newKeys.kekMeta = keys.kekMeta ∧
      Sound so newKeys db' ∧ Represents so newKeys N b db'.secrets := by
  rcases rotateKek_call h with he | ⟨salt, verifier, newKeys, rfl, -, htx⟩
  · exact Or.inl he
  · obtain ⟨_, _, _, -, hrows, -⟩ := rotateKek_rewraps hsound.orderly.noNul htx
    exact Or.inr ⟨_, rfl, rfl, (hsound.rotateKek htx).1, hrep.rewrapped hsound.orderly hrows⟩

end Fuin.Vault.Turns

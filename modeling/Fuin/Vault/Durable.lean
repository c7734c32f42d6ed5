import Fuin.Vault.Answers
import Fuin.Vault.Lives

/-! # What a vault answers in its life

Over any life of a vault, with any calls, crashes and locks, every result is one that a strongbox
allows, and in a calm call it is the one that the strongbox gives (`vault_lives`). So what was stored
is there until another call changes it: whoever opens the vault with its password reads it
(`stored_stays`); and the log has only grown and verifies (`log_survives`). -/

namespace Fuin.Vault.Durable

open Fuin.Utils Fuin.Crypto Fuin.Lib.Program Fuin.Lib.Crashes Fuin.Lib.Ledgers Fuin.Store.Secrets
open Fuin.Store.Database Fuin.Store.Success Fuin.Kdf Fuin.Audit.Table Fuin.Audit.Verify
open Fuin.Audit.Encoding Fuin.Vault.Rows Fuin.Vault.Transactions Fuin.Vault.Operations
open Fuin.Vault.Rules Fuin.Vault.Sessions Fuin.Vault.Observed Fuin.Vault.Calls Fuin.Vault.Honest
open Fuin.Vault.Unlocking Fuin.Vault.Reopened Fuin.Vault.Reading Fuin.Vault.Refinement
open Fuin.Vault.Turns Fuin.Vault.Listings Fuin.Vault.Answers Fuin.Vault.Lives

variable {so : Sodium} {P N : Set CString} {keys : Subkeys} {b : Ledger CString Bytes}
  {a : Strongbox} {v : VaultState} {db db' : Db} {p q : CString} {allow : Bool} {α β : Type}

/-! ### Unlocking when nothing fails -/

/-- A program that ends in every calm run of a process by itself. -/
abbrev Comes (so : Sodium) (Q : Except Status α → Db → Prop) (p : VaultProg α) (db : Db) : Prop :=
  Prog.Ends (Cmd.exec so) (fun es => ∀ k, Calm (es k)) Q p db

theorem comes_sql_bind {Q : Except Status β → Db → Prop} {p : Sql α} {f : α → VaultProg β}
    (h : Succeeds (fun a db' => Comes so Q (f a) db') p db) : Comes so Q ((sql p).bind f) db :=
  Prog.Yields.bind (works_sql h)

theorem comes_sql_error {p : Sql α} {f : α → VaultProg β} {e : Status}
    (h : Ends (fun r _ => r = .error e) p db) :
    Comes so (fun r _ => r = .error e) ((sql p).bind f) db := by
  induction p generalizing db with
  | ret x =>
    have hx : (Except.ok x : Except Status α) = .error e := h
    cases hx
  | fail x => exact congrArg Except.error (Except.error.inj h)
  | cmd c k ih => exact fun es hes => ih _ (h (es 0) (hes 0))

theorem comes_of_works {p : VaultProg α} {x : α} (h : Works so (fun y _ => y = x) p db) :
    Comes so (fun r _ => r = .ok x) p db := by
  refine Prog.Ends.mono h fun r d hr => ?_
  cases r with
  | ok y => exact congrArg Except.ok hr
  | error e => exact hr.elim

/-- A transaction whose statements succeed is committed. -/
theorem works_transact {t : Tx} {Q : Unit → Db → Prop} (h : Succeeds Q (t.body so) db) :
    Works so Q (transact t) db := by
  intro es hes
  have hlater : ∀ n, Calm ((fun n => es (n + 2)) n) := fun n => hes (n + 2)
  obtain ⟨x, db', hrun, hQ⟩ := Prog.Yields.run h hlater
  have hexec : Cmd.exec so es (.tx t) db = (db', .ok ()) := by
    simp [Cmd.exec, (hes 0).fault, (hes 1).fault, hrun]
  rw [hexec]
  exact hQ

theorem succeeds_putMetadataBlob {key : MetadataKey} {value : Bytes} {Q : Unit → Db → Prop}
    (hlen : (value.length : ℤ) ≤ intMax) (hQ : ∀ db', Q () db') :
    Succeeds Q (putMetadataBlob key value) db := by
  unfold putMetadataBlob
  simp only [Prog.bind_def]
  exact ends_require_bind hlen (ends_write_bind rfl (hQ _))

theorem succeeds_storeAuth {salt : Block 16} {verifier : Block 32} :
    Succeeds (fun _ _ => True) ((Tx.storeAuth salt verifier keys).body so) db := by
  have hsmall {n : ℕ} (h : n ≤ 48) : (n : ℤ) ≤ intMax := by
    unfold intMax
    omega
  unfold Tx.body
  simp only [Prog.bind_def]
  refine Prog.Yields.bind (succeeds_putMetadataBlob (hsmall ?_) fun _ => ?_)
  · rw [salt.2]
    decide
  refine Prog.Yields.bind (succeeds_putMetadataBlob (hsmall ?_) fun _ => ?_)
  · rw [verifier.2]
    decide
  unfold putWrappedMetaKey
  simp only [Prog.bind_def]
  refine ends_random_bind fun nonce => ends_lib_bind ?_
  refine Prog.Yields.bind (succeeds_putMetadataBlob (hsmall ?_) fun _ => ?_)
  · rw [nonce.2]
    decide
  refine succeeds_putMetadataBlob (hsmall ?_) fun _ => trivial
  rw [so.length_encrypt, keys.kekMeta.2]
  decide

theorem succeeds_logAuthFailure : Succeeds (fun _ _ => True) logAuthFailure db := by
  unfold logAuthFailure
  simp only [Prog.bind_def]
  exact ends_time_bind fun now t ht => ends_ofExcept_bind ht (ends_write_bind rfl trivial)

/-- What is read of a stored credential. -/
theorem prepares_stored {salt : Block 16} {verifier : Block 32} (hne : q.bytes ≠ [])
    (hstored : Stored (some (salt, verifier)) db db) :
    Succeeds (fun out db' => out = (some verifier, salt, so.pwhash q.bytes salt) ∧ db' = db)
      (prepareUnlock so q allow) db := by
  refine ends_require_bind hne (succeeds_loadAuthMetadata_bind hstored ?_)
  exact ends_libs_bind (succeeds_deriveMasterKey_bind (ends_lib_bind ⟨rfl, rfl⟩))

theorem comes_loadAuthMetadata {Q : Except Status α → Db → Prop}
    {f : Option (Block 16 × Block 32) → Sql α} (hs : Stored none db db) (hf : Ends Q (f none) db) :
    Ends Q (loadAuthMetadata.bind f) db := by
  have hnone {key : MetadataKey} {n : ℕ} (h : db.metadata key = none) :
      metadataBlob key n db = .ok none := by
    unfold metadataBlob
    rw [h]
  unfold loadAuthMetadata
  simp only [Prog.bind_def, Prog.bind_assoc]
  exact ends_select_bind (hnone hs.1) (ends_select_bind (hnone hs.2) hf)

/-- What is prepared where there is no credential. -/
theorem prepares_new (hne : q.bytes ≠ []) (hstored : Stored none db db) :
    Succeeds (fun out _ => ∃ salt, out = (none, salt, so.pwhash q.bytes salt))
      (prepareUnlock so q true) db := by
  refine ends_require_bind hne (comes_loadAuthMetadata hstored ?_)
  show Succeeds _ ((saltFor true none).bind _) db
  unfold saltFor generateSalt
  simp only [Prog.bind_def, Prog.bind_assoc]
  refine ends_require_bind trivial (ends_lib_bind (ends_random_bind fun salt => ?_))
  exact ends_libs_bind (succeeds_deriveMasterKey_bind (ends_lib_bind ⟨salt, rfl⟩))

/-- Only `vault_unlock` makes a new vault. -/
theorem prepares_refused (hne : q.bytes ≠ []) (hstored : Stored none db db) :
    Ends (fun r _ => r = .error .notFound) (prepareUnlock so q false) db :=
  ends_require_bind hne (comes_loadAuthMetadata hstored rfl)

/-- **A wrong password** is refused. -/
theorem comes_wrong {salt : Block 16} {verifier : Block 32} (hne : q.bytes ≠ [])
    (hstored : Stored (some (salt, verifier)) db db)
    (hwrong : so.sha256 (so.pwhash q.bytes salt).1 ≠ verifier) :
    Comes so (fun r _ => r = .error .auth) (unlockInternal so q allow) db := by
  refine comes_sql_bind ((prepares_stored hne hstored).mono ?_)
  rintro _ d ⟨rfl, rfl⟩
  show Comes so _ (if _ then _ else _) d
  rw [if_neg hwrong]
  exact Prog.Yields.bind (works_sql (succeeds_logAuthFailure.mono fun _ _ _ => rfl))

/-- **The password** opens the vault. -/
theorem comes_right (h : Opens so db p keys) (hne : p.bytes ≠ []) :
    Comes so (fun r _ => r = .ok keys) (unlockInternal so p allow) db := by
  obtain ⟨salt, metaKey, nonce, hcred, rfl⟩ := h
  have hstored : Stored (some (salt, so.sha256 (so.pwhash p.bytes salt).1)) db db :=
    ⟨congrFun hcred .salt, congrFun hcred .passwordVerifier⟩
  have hnonce : db.metadata .metaKeyNonce = some nonce.1 := congrFun hcred .metaKeyNonce
  have hwrapped := congrFun hcred .metaKeyWrapped
  refine comes_sql_bind ((prepares_stored hne hstored).mono ?_)
  rintro _ d ⟨rfl, rfl⟩
  show Comes so _ (if _ then _ else _) d
  rw [if_pos rfl]
  refine comes_of_works (works_sql (ends_libs_bind ?_))
  unfold deriveSubkeys
  simp only [Prog.bind_def, Prog.bind_assoc]
  refine ends_libs_bind (ends_select_bind (metadataBlob_some hnonce nonce.2.le) ?_)
  refine ends_select_bind (metadataBlob_some hwrapped ?_) ?_
  · rw [so.length_encrypt, metaKey.2]
    decide
  · exact ends_ofExcept_bind (@unwrapMetaKey_credential so d.metadata salt
      (so.sha256 (so.pwhash p.bytes salt).1) metaKey _ nonce) rfl

/-- **The first use** sets the password. -/
theorem comes_new (hne : q.bytes ≠ []) (hstored : Stored none db db) :
    Comes so (fun r _ => ∃ k, r = .ok k) (unlockInternal so q true) db := by
  refine comes_sql_bind ((prepares_new hne hstored).mono ?_)
  rintro _ d ⟨salt, rfl⟩
  have hkeys : Works so (fun k _ => k = subkeysOf so (so.pwhash q.bytes salt)) (sql do
      Sql.libs [.storage, .storage]
      deriveSubkeys so (so.pwhash q.bytes salt)) d := by
    refine works_sql (ends_libs_bind ?_)
    unfold deriveSubkeys
    simp only [Prog.bind_def]
    exact ends_libs_bind rfl
  refine Prog.Yields.bind (hkeys.mono ?_)
  rintro k d' rfl
  exact Prog.Yields.bind ((works_transact succeeds_storeAuth).mono fun _ _ _ => ⟨_, rfl⟩)

/-- Without a vault there is none to open. -/
theorem comes_missing (hne : q.bytes ≠ []) (hstored : Stored none db db) :
    Comes so (fun r _ => r = .error .notFound) (unlockInternal so q false) db :=
  comes_sql_error (prepares_refused hne hstored)

/-! ### What the strongbox gives -/

/-- **What an operation returns when nothing fails.** -/
def Answers (a : Strongbox) : Op → Except Status Result → Prop
  | .unlock q, r => q.bytes ≠ [] →
    if a.password = none ∨ a.password = some q then ∃ k, r = .ok (.session k) else r = .error .auth
  | .unlockExisting q, r => q.bytes ≠ [] →
    if a.password = some q then ∃ k, r = .ok (.session k)
    else r = .error (if a.password = none then .notFound else .auth)
  | .list _, r => if a.unlocked then ∃ l, r = .ok (.items l) else r = .error .auth
  | op, r => if a.unlocked then Answered a.ledger op r else r = .error .auth

theorem comes_map {Q : Except Status α → Prop} {p : VaultProg α} {f : α → β}
    (h : Comes so (fun r _ => Q r) p db) :
    Comes so (fun r _ => ∃ x, Q x ∧ r = x.map f) (p.bind fun y => .ret (f y)) db := by
  induction p generalizing db with
  | ret x => exact ⟨.ok x, h, rfl⟩
  | fail e => exact ⟨.error e, h, rfl⟩
  | cmd c k ih => exact fun es hes => ih _ (h es hes)

/-- The result of an unlocking call, from that of `vault_unlock_internal`. -/
theorem outcome_unlock {Q : Except Status Subkeys → Prop} {c : Call}
    (hcode : code so v.session c.op = (unlockInternal so q allow).bind fun k => .ret (.session k))
    (hworld : ∀ n k, Calm (c.world n k))
    (h : Comes so (fun r _ => Q r) (unlockInternal so q allow) v.db) :
    ∃ x, Q x ∧ (v.outcome so c).2 = x.map .session := by
  unfold VaultState.outcome
  rw [hcode]
  exact Prog.Ends.run (comes_map h) hworld

theorem comes_other (h : Opens so db p keys) (hP : DistinctPasswords so P) (hp : p ∈ P) (hq : q ∈ P)
    (hne : q.bytes ≠ []) (hpq : p ≠ q) :
    Comes so (fun r _ => r = .error .auth) (unlockInternal so q allow) db := by
  obtain ⟨salt, metaKey, nonce, hcred, -⟩ := h
  have hstored : Stored (some (salt, so.sha256 (so.pwhash p.bytes salt).1)) db db :=
    ⟨congrFun hcred .salt, congrFun hcred .passwordVerifier⟩
  exact comes_wrong hne hstored fun he => hpq (hP q hq p hp salt he).symm

section Answers

variable {c : Call} (h : Stands so P N a v) (hP : DistinctPasswords so P)
  (hworld : ∀ n k, Calm (c.world n k))

include h hP hworld

theorem answers_unlock (hop : c.op = .unlock q) (hq : q ∈ P) :
    Answers a (.unlock q) (v.outcome so c).2 := by
  intro hne
  have hcode : code so v.session c.op =
      (unlockInternal so q true).bind fun k => .ret (.session k) := by
    rw [hop]
    cases v.session <;> rfl
  split_ifs with hpassword
  · have hcomes : Comes so (fun r _ => ∃ k, r = .ok k) (unlockInternal so q true) v.db := by
      rcases h.stored with ⟨-, hnone⟩ | ⟨p, hp, keys, hpass, hopens⟩
      · exact comes_new hne hnone
      · rw [hpass] at hpassword
        obtain rfl : p = q := Option.some.inj (hpassword.resolve_left (by simp))
        exact (comes_right hopens hne).mono fun r _ hr => ⟨keys, hr⟩
    obtain ⟨x, ⟨k, rfl⟩, hx⟩ := outcome_unlock hcode hworld hcomes
    exact ⟨k, hx⟩
  · rcases h.stored with ⟨hnone, -⟩ | ⟨p, hp, keys, hpass, hopens⟩
    · exact absurd (Or.inl hnone) hpassword
    · have hpq : p ≠ q := fun e => hpassword (Or.inr (e ▸ hpass))
      obtain ⟨x, rfl, hx⟩ := outcome_unlock hcode hworld (comes_other hopens hP hp hq hne hpq)
      exact hx

theorem answers_unlockExisting (hop : c.op = .unlockExisting q) (hq : q ∈ P) :
    Answers a (.unlockExisting q) (v.outcome so c).2 := by
  intro hne
  have hcode : code so v.session c.op =
      (unlockInternal so q false).bind fun k => .ret (.session k) := by
    rw [hop]
    cases v.session <;> rfl
  rcases h.stored with ⟨hnone, hstored⟩ | ⟨p, hp, keys, hpass, hopens⟩
  · rw [if_neg (by simp [hnone]), if_pos hnone]
    obtain ⟨x, rfl, hx⟩ := outcome_unlock hcode hworld (comes_missing hne hstored)
    exact hx
  · by_cases hpq : p = q
    · subst hpq
      rw [if_pos hpass]
      obtain ⟨x, rfl, hx⟩ := outcome_unlock hcode hworld (comes_right hopens hne)
      exact ⟨keys, hx⟩
    · rw [if_neg (by simp [hpass, hpq]), if_neg (by simp [hpass])]
      obtain ⟨x, rfl, hx⟩ := outcome_unlock hcode hworld (comes_other hopens hP hp hq hne hpq)
      exact hx

omit hP in
/-- **The listing** is shown. -/
theorem answers_list {all : Bool} (hN : DistinctNames so P N) (hop : c.op = .list all) :
    Answers a (.list all) (v.outcome so c).2 := by
  unfold VaultState.outcome
  rw [hop]
  cases h with
  | new h1 h2 h3 h4 =>
    rw [h2]
    rfl
  | @keyed _ p keys b u hp ho hd hs hsound hrep =>
    rw [hs]
    cases u with
    | false => rfl
    | true =>
      have hworks : Works so (fun r _ => ∃ l, r = .items l) (unlockedCode so keys (.list all)) v.db := by
        refine works_sql_bind ?_
        unfold currentTime
        simp only [Prog.bind_def, Prog.bind_assoc]
        refine ends_time_bind fun now t ht => ends_ofExcept_bind ht ?_
        obtain ⟨items, hitems, -⟩ := listed_ledger hsound.orderly hrep (hd.distinct hN) all t
        exact ends_select hitems ⟨items, rfl⟩
      obtain ⟨r, db', hrun, l, rfl⟩ := Prog.Yields.run hworks hworld
      show ∃ l, ((unlockedCode so keys (.list all)).run (Cmd.exec so) c.world v.db).2 = _
      rw [hrun]
      exact ⟨l, rfl⟩

/-- **A call in which nothing fails** returns what the strongbox gives. -/
theorem stands_answers (hN : DistinctNames so P N) (hU : Uses P c.op)
    (hname : ∀ n ∈ nameOf c.op, n ∈ N) (hroom : (v.db.audit.rows.length : ℤ) < int64Max) :
    Answers a c.op (v.outcome so c).2 := by
  have hgeneral (hin : InSession c.op)
      (hanswered : Covered c.op ∨ ∀ r, Answered a.ledger c.op r) :
      if a.unlocked then Answered a.ledger c.op (v.outcome so c).2
        else (v.outcome so c).2 = .error .auth := by
    unfold VaultState.outcome
    cases h with
    | new h1 h2 h3 h4 =>
      rw [h2, code_locked hin]
      rfl
    | @keyed _ p keys b u hp ho hd hs hsound hrep =>
      rw [hs]
      cases u with
      | false =>
        show ((code so none c.op).run (Cmd.exec so) c.world v.db).2 = .error .auth
        rw [code_locked hin]
        rfl
      | true =>
        rcases hanswered with hcovered | hany
        · exact unlocked_answered hsound hrep (hd.distinct hN) hcovered hname hroom hworld
        · exact hany _
  cases hop : c.op with
  | unlock q => exact answers_unlock h hP hworld hop (hU q (by rw [hop]; rfl))
  | unlockExisting q => exact answers_unlockExisting h hP hworld hop (hU q (by rw [hop]; rfl))
  | list all => exact answers_list h hworld hN hop
  | issueToken subject scope ttl =>
    rw [hop] at hgeneral
    exact hgeneral trivial (Or.inr fun _ => trivial)
  | revokeTokens =>
    rw [hop] at hgeneral
    exact hgeneral trivial (Or.inr fun _ => trivial)
  | _ =>
    rw [hop] at hgeneral
    exact hgeneral trivial (Or.inl trivial)

end Answers

/-! ### A life -/

/-- **The results in a life** are those of a strongbox that makes a move with every call; a call that
the process does not survive has made some move, and the box is locked then. A call in which nothing
fails returns what the box gives. -/
def Accords (so : Sodium) : VaultState → Strongbox → List Happening → Prop
  | _, _, [] => True
  | v, a, .call c :: hs => ∃ a', a.Moves c.op (v.outcome so c).2 a' ∧
      ((∀ n k, Calm (c.world n k)) → (v.db.audit.rows.length : ℤ) < int64Max →
        Answers a c.op (v.outcome so c).2) ∧ Accords so (v.after so c) a' hs
  | v, a, .crash c n :: hs => ∃ r a', a.Moves c.op r a' ∧ Accords so (crashed so v c n) a'.lock hs
  | v, a, .lock :: hs => Accords so (locked v) a.lock hs

/-- The passwords that are used in a life, and the names. -/
def passwords (hs : List Happening) : Set CString :=
  {p | ∃ h ∈ hs, ∃ op ∈ h.op, p ∈ passwordOf op}

def names (hs : List Happening) : Set CString := {n | ∃ h ∈ hs, ∃ op ∈ h.op, n ∈ nameOf op}

/-- The life uses no passwords and names but these. -/
def Within (P N : Set CString) (hs : List Happening) : Prop :=
  ∀ h ∈ hs, ∀ op ∈ h.op, Uses P op ∧ ∀ n ∈ nameOf op, n ∈ N

theorem within_self (hs : List Happening) : Within (passwords hs) (names hs) hs :=
  fun h hh op hop => ⟨fun _ hp => ⟨h, hh, op, hop, hp⟩, fun _ hn => ⟨h, hh, op, hop, hn⟩⟩

theorem stands_accords {hs : List Happening} (h : Stands so P N a v) (hP : DistinctPasswords so P)
    (hN : DistinctNames so P N) (hin : Within P N hs) : Accords so v a hs := by
  induction hs generalizing a v with
  | nil => trivial
  | cons x hs ih =>
    obtain ⟨hx, hrest⟩ := List.forall_mem_cons.mp hin
    cases x with
    | call c =>
      obtain ⟨hU, hname⟩ := hx c.op rfl
      obtain ⟨a', hmoves, h'⟩ := h.call hP hN hU hname
      exact ⟨a', hmoves, fun hworld hroom => stands_answers h hP hworld hN hU hname hroom, ih h' hrest⟩
    | crash c n =>
      obtain ⟨hU, hname⟩ := hx c.op rfl
      obtain ⟨r, a', hmoves, h'⟩ := h.crash n hP hN hU hname
      exact ⟨r, a', hmoves, ih h' hrest⟩
    | lock => exact ih h.locked hrest

/-- A call of the examples. -/
def calmCall (op : Op) (b : UInt8) : Call := ⟨op, fun _ => calm 1735689600 b⟩

theorem calm_world (op : Op) (b : UInt8) (i j : ℕ) : Calm ((calmCall op b).world i j) := ⟨rfl, _, rfl⟩

/-- The value that a call has returned. -/
def valueOf : Except Status Result → Option Bytes
  | .ok (.value x) => some x
  | _ => none

theorem eq_of_valueOf {r : Except Status Result} {x : Bytes} (h : valueOf r = some x) :
    r = .ok (.value x) := by
  unfold valueOf at h
  split at h
  · rw [Option.some.inj h]
  · cases h

theorem exists_ok {r : Except Status Result} (h : r.toBool = true) : ∃ res, r = .ok res := by
  cases r with
  | ok res => exact ⟨res, rfl⟩
  | error e => cases h

/-- A process dies while the password changes; the vault is opened again, and the password changes. -/
def laterLife : List Happening :=
  [.crash (calmCall (.rotateKek samplePassword) 3) 7,
    .call (calmCall (.unlockExisting samplePassword) 4), .call (calmCall (.autoRotate 8) 5),
    .call (calmCall (.rotateKek samplePassword) 6)]

/-- A vault is made. -/
def earlyLife : List Happening := [.call (calmCall (.unlock samplePassword) 1)]

/-- The call that stores. -/
def putCall : Call := calmCall (.put sampleName [1, 2] none 0) 2

/-- The call that reads the version. -/
def readCall (b : UInt8) : Call := calmCall (.getVersion sampleName 1 16) b

/-- One password and one name. -/
theorem distinct_of_single {hs : List Happening}
    (hp : ∀ h ∈ hs, ∀ op ∈ h.op, ∀ p ∈ passwordOf op, p = samplePassword)
    (hn : ∀ h ∈ hs, ∀ op ∈ h.op, ∀ n ∈ nameOf op, n = sampleName) :
    DistinctPasswords toy (passwords hs) ∧ DistinctNames toy (passwords hs) (names hs) := by
  constructor
  · rintro p ⟨h, hh, op, hop, hpo⟩ q ⟨h', hh', op', hop', hqo⟩ _ _
    rw [hp h hh op hop p hpo, hp h' hh' op' hop' q hqo]
  · rintro _ _ _ m ⟨h, hh, op, hop, hm⟩ n ⟨h', hh', op', hop', hno⟩ _
    rw [hn h hh op hop m hm, hn h' hh' op' hop' n hno]

/-- A vault is made, a version is stored, the process dies while it stores another; the vault is opened
again, the password changes, everything is listed. -/
def someLife : List Happening :=
  earlyLife ++ [.call putCall,
    .crash (calmCall (.put sampleName [3] none 0) 3) 9,
    .call (calmCall (.unlockExisting samplePassword) 4)] ++ laterLife ++
    [.call (calmCall (.get sampleName 16) 6), .lock, .call (calmCall (.list true) 7)]

/-- **What every move preserves, a life preserves.** -/
theorem stands_lives {I : Strongbox → Prop} {hs : List Happening} (h : Stands so P N a v)
    (hP : DistinctPasswords so P) (hN : DistinctNames so P N) (hin : Within P N hs) (ha : I a)
    (hlock : ∀ a, I a → I a.lock)
    (hmoves : ∀ h ∈ hs, ∀ op ∈ h.op, ∀ a r a', I a → a.Moves op r a' → I a') :
    ∃ a', I a' ∧ Stands so P N a' (lives so v hs) := by
  induction hs generalizing a v with
  | nil => exact ⟨a, ha, h⟩
  | cons x hs ih =>
    obtain ⟨hx, hrest⟩ := List.forall_mem_cons.mp hin
    obtain ⟨hmove, hothers⟩ := List.forall_mem_cons.mp hmoves
    cases x with
    | call c =>
      obtain ⟨hU, hname⟩ := hx c.op rfl
      obtain ⟨a', hmoved, h'⟩ := h.call hP hN hU hname
      exact ih h' hrest (hmove c.op rfl a _ a' ha hmoved) hothers
    | crash c n =>
      obtain ⟨hU, hname⟩ := hx c.op rfl
      obtain ⟨r, a', hmoved, h'⟩ := h.crash n hP hN hU hname
      exact ih h' hrest (hlock a' (hmove c.op rfl a r a' ha hmoved)) hothers
    | lock => exact ih h.locked hrest (hlock a ha) hothers

variable {n : CString} {x : Bytes} {op : Op} {r : Except Status Result} {k : ℕ}

/-- The operation stores nothing under the name and does not delete it. -/
def Leaves (n : CString) : Op → Prop
  | .put name .. | .delete name | .rollback name _ => name ≠ n
  | _ => True

instance (n : CString) : DecidablePred (Leaves n)
  | .put name .. | .delete name | .rollback name _ => inferInstanceAs (Decidable (name ≠ n))
  | .autoRotate _ | .get .. | .getVersion .. | .list _ | .rotateKek _ | .unlock _ | .unlockExisting _
  | .issueToken .. | .revokeTokens => isTrue trivial

/-- **What a turn does to the ledger**: nothing, one entry for the name it is about, or renewals. -/
theorem turns_cases {b' : Ledger CString Bytes} (h : Strongbox.Turns b op r b') :
    b' = b ∨ (∃ m y, ¬Leaves m op ∧ (b' = b.append m y ∨ b' = b.withdraw m)) ∨
      ∃ l, b.Renewed l b' := by
  cases op with
  | put name secret algorithm ttl =>
    cases r with
    | ok _ => exact Or.inr (Or.inl ⟨name, secret, fun hne => hne rfl, Or.inl h⟩)
    | error _ => exact Or.inl h
  | delete name =>
    cases r with
    | ok _ => exact Or.inr (Or.inl ⟨name, [], fun hne => hne rfl, Or.inr h.2⟩)
    | error _ => exact Or.inl h
  | rollback name v =>
    cases r with
    | ok _ =>
      obtain ⟨y, -, hb⟩ : ∃ y, (b name).version v.toNat = some y ∧ b' = b.append name y := h
      exact Or.inr (Or.inl ⟨name, y, fun hne => hne rfl, Or.inl hb⟩)
    | error _ => exact Or.inl h
  | autoRotate fuel =>
    obtain ⟨l, hl, -⟩ := h
    exact Or.inr (Or.inr ⟨l, hl⟩)
  | get name capacity | getVersion name v capacity => exact Or.inl h.1
  | list all =>
    cases r with
    | error _ => exact Or.inl h
    | ok res =>
      cases res with
      | items l => exact Or.inl (show b' = b ∧ Listed b all l from h).1
      | _ => exact h.elim
  | _ => exact Or.inl h

/-- **A version is never taken away or changed.** -/
theorem turns_version {b' : Ledger CString Bytes} (h : Strongbox.Turns b op r b')
    (hx : (b n).version k = some x) : (b' n).version k = some x := by
  rcases turns_cases h with rfl | ⟨m, y, -, rfl | rfl⟩ | ⟨l, hl⟩
  · exact hx
  · exact Ledger.version_append hx
  · exact Ledger.version_withdraw hx
  · exact hl.version hx

/-- **The value in force** stays as long as nobody stores another one or deletes the name; renewing
stores the same value again. -/
theorem turns_current {b' : Ledger CString Bytes} (h : Strongbox.Turns b op r b') (hop : Leaves n op) :
    (b' n).current = (b n).current := by
  rcases turns_cases h with rfl | ⟨m, y, hm, hb⟩ | ⟨l, hl⟩
  · rfl
  · have hne : n ≠ m := by
      rintro rfl
      exact hm hop
    rcases hb with rfl | rfl
    · exact congrArg Entry.current (Ledger.append_of_ne hne)
    · exact congrArg Entry.current (Ledger.withdraw_of_ne hne)
  · exact hl.current

/-! ### What was stored can be read -/

theorem within_append {hs hs' : List Happening} (h : Within P N (hs ++ hs')) :
    Within P N hs ∧ Within P N hs' :=
  ⟨fun x hx => h x (List.mem_append_left _ hx), fun x hx => h x (List.mem_append_right _ hx)⟩

/-- **After a call**, a property of the box that the later moves preserve holds at the end. -/
theorem stands_after {hs₁ hs₂ : List Happening} {c : Call} {I : Strongbox → Prop}
    (hP : DistinctPasswords so P) (hN : DistinctNames so P N)
    (hin : Within P N (hs₁ ++ .call c :: hs₂))
    (hcall : ∀ (a : Strongbox) a', a.Moves c.op ((lives so newVault hs₁).outcome so c).2 a' → I a')
    (hlock : ∀ a, I a → I a.lock)
    (hmoves : ∀ h ∈ hs₂, ∀ op ∈ h.op, ∀ (a : Strongbox) r a', I a → a.Moves op r a' → I a') :
    ∃ a, I a ∧ Stands so P N a (lives so newVault (hs₁ ++ .call c :: hs₂)) := by
  obtain ⟨hbefore, hrest⟩ := within_append hin
  obtain ⟨hc, hafter⟩ := List.forall_mem_cons.mp hrest
  obtain ⟨a, -, ha⟩ := stands_lives (I := fun _ => True) stands_new hP hN hbefore trivial
    (fun _ _ => trivial) fun _ _ _ _ _ _ _ _ _ => trivial
  obtain ⟨hU, hname⟩ := hc c.op rfl
  obtain ⟨a', hmoved, ha'⟩ := ha.call hP hN hU hname
  have hlives : lives so newVault (hs₁ ++ .call c :: hs₂) =
      lives so ((lives so newVault hs₁).after so c) hs₂ := List.foldl_append
  rw [hlives]
  exact stands_lives ha' hP hN hafter (hcall a a' hmoved) hlock hmoves

/-- The operation asks for something that is stored under the name. -/
inductive Asks (b : Ledger CString Bytes) (n : CString) (x : Bytes) (capacity : ℕ) : Op → Prop
  | current : (b n).current = some x → Asks b n x capacity (.get n capacity)
  | version {v : ℤ} : (b n).version v.toNat = some x → Asks b n x capacity (.getVersion n v capacity)

/-- **What is asked for** is read. -/
theorem stands_reads {d : Call} {capacity : ℕ} (h : Stands so P N a v) (hP : DistinctPasswords so P)
    (hN : DistinctNames so P N) (hn : n ∈ N) (hopen : v.session ≠ none)
    (hcalm : ∀ i j, Calm (d.world i j)) (hcap : x.length ≤ capacity)
    (hroom : (v.db.audit.rows.length : ℤ) < int64Max) (hasks : Asks a.ledger n x capacity d.op) :
    (v.outcome so d).2 = .ok (.value x) := by
  obtain ⟨op, world⟩ := d
  dsimp only at hcalm hasks
  have huses : Uses P op ∧ ∀ m ∈ nameOf op, m ∈ N := by
    cases hasks with
    | current | version =>
      refine ⟨(fun p hp => by cases hp), fun m hm => ?_⟩
      obtain rfl : n = m := Option.some.inj hm
      exact hn
  have hanswers := stands_answers (c := ⟨op, world⟩) h hP hcalm hN huses.1 huses.2 hroom
  have hunlocked := h.unlocked hopen
  cases hasks with
  | current hx =>
    have hvalues := (a.ledger n).ne_nil (Entry.current_eq_some.mp hx).1
    have hanswered : if a.unlocked then Answered a.ledger (.get n capacity) _ else _ := hanswers
    rw [if_pos hunlocked] at hanswered
    have hgiven := hanswered (h.name_nonempty hn hvalues)
    rw [hx] at hgiven
    exact hgiven hcap
  | @version v hx =>
    have hvalues : (a.ledger n).values ≠ [] := by
      intro hnil
      unfold Entry.version at hx
      rw [hnil] at hx
      split at hx <;> simp at hx
    have hpos : 1 ≤ v := by
      by_contra hv
      have hzero : v.toNat = 0 := by omega
      rw [hzero] at hx
      cases hx
    have hanswered : if a.unlocked then Answered a.ledger (.getVersion n v capacity) _ else _ :=
      hanswers
    rw [if_pos hunlocked] at hanswered
    have hgiven := hanswered (h.name_nonempty hn hvalues) hpos
    rw [hx] at hgiven
    exact hgiven hcap

section Stays

variable {hs₁ hs₂ : List Happening} {c d : Call} {algorithm : Option CString} {ttl capacity size : ℕ}
  {version : ℤ} {res : Result}

/-- **What was stored is there.** A value that `vault_put_with_options` has stored is what `vault_get`
returns after any further life in which nobody stores or deletes something under that name: other
calls, failures, crashes, locks, changes of the password and renewals. -/
theorem stored_stays
    (hP : DistinctPasswords so (passwords (hs₁ ++ .call c :: hs₂)))
    (hN : DistinctNames so (passwords (hs₁ ++ .call c :: hs₂)) (names (hs₁ ++ .call c :: hs₂)))
    (hc : c.op = .put n x algorithm ttl) (hok : ((lives so newVault hs₁).outcome so c).2 = .ok res)
    (hleaves : ∀ h ∈ hs₂, ∀ op ∈ h.op, Leaves n op)
    (hopen : (lives so newVault (hs₁ ++ .call c :: hs₂)).session ≠ none)
    (hd : d.op = .get n capacity) (hcalm : ∀ i j, Calm (d.world i j)) (hcap : x.length ≤ capacity)
    (hroom : ((lives so newVault (hs₁ ++ .call c :: hs₂)).db.audit.rows.length : ℤ) < int64Max) :
    ((lives so newVault (hs₁ ++ .call c :: hs₂)).outcome so d).2 = .ok (.value x) := by
  have hn : n ∈ names (hs₁ ++ .call c :: hs₂) := by
    refine ⟨.call c, List.mem_append_right _ List.mem_cons_self, c.op, rfl, ?_⟩
    rw [hc]
    rfl
  have hput (a a' : Strongbox) (h : a.Moves c.op ((lives so newVault hs₁).outcome so c).2 a') :
      (a'.ledger n).current = some x := by
    rw [hc, hok] at h
    have hledger : a'.ledger = a.ledger.append n x := h.2
    rw [hledger]
    exact Ledger.current_append_self
  obtain ⟨a, ha, hstands⟩ := stands_after (I := fun a => (a.ledger n).current = some x) hP hN
    (within_self _) hput (fun _ h => h) fun h hh op hop a r a' ha hmoved =>
      (turns_current hmoved.2 (hleaves h hh op hop)).trans ha
  refine stands_reads hstands hP hN hn hopen hcalm hcap hroom ?_
  rw [hd]
  exact .current ha

theorem sample_stays : ((lives toy newVault (earlyLife ++ .call putCall :: laterLife)).outcome toy
    (calmCall (.get sampleName 16) 8)).2 = .ok (.value [1, 2]) := by
  have hdistinct :
      DistinctPasswords toy (passwords (earlyLife ++ .call putCall :: laterLife)) ∧ _ :=
    distinct_of_single (by decide) (by decide)
  obtain ⟨res, hok⟩ : ∃ res, ((lives toy newVault earlyLife).outcome toy putCall).2 = .ok res :=
    exists_ok (by decide +kernel)
  refine stored_stays hdistinct.1 hdistinct.2 rfl hok (by decide)
    (Option.isSome_iff_ne_none.mp (by decide +kernel)) rfl (calm_world _ _) (by decide)
    (by decide +kernel)

/-- **A version is read the same for ever.** What `vault_get_version` has returned once it returns after
any further life. -/
theorem version_stays
    (hP : DistinctPasswords so (passwords (hs₁ ++ .call c :: hs₂)))
    (hN : DistinctNames so (passwords (hs₁ ++ .call c :: hs₂)) (names (hs₁ ++ .call c :: hs₂)))
    (hc : c.op = .getVersion n version size)
    (hok : ((lives so newVault hs₁).outcome so c).2 = .ok (.value x))
    (hopen : (lives so newVault (hs₁ ++ .call c :: hs₂)).session ≠ none)
    (hd : d.op = .getVersion n version capacity) (hcalm : ∀ i j, Calm (d.world i j))
    (hcap : x.length ≤ capacity)
    (hroom : ((lives so newVault (hs₁ ++ .call c :: hs₂)).db.audit.rows.length : ℤ) < int64Max) :
    ((lives so newVault (hs₁ ++ .call c :: hs₂)).outcome so d).2 = .ok (.value x) := by
  have hn : n ∈ names (hs₁ ++ .call c :: hs₂) := by
    refine ⟨.call c, List.mem_append_right _ List.mem_cons_self, c.op, rfl, ?_⟩
    rw [hc]
    rfl
  have hread (a a' : Strongbox) (h : a.Moves c.op ((lives so newVault hs₁).outcome so c).2 a') :
      (a'.ledger n).version version.toNat = some x := by
    rw [hc, hok] at h
    obtain ⟨hsame, hx⟩ : a'.ledger = a.ledger ∧ (a.ledger n).version version.toNat = some x := h.2
    rw [hsame]
    exact hx
  obtain ⟨a, ha, hstands⟩ := stands_after
    (I := fun a => (a.ledger n).version version.toNat = some x) hP hN (within_self _) hread
    (fun _ h => h) fun h hh op hop a r a' ha hmoved => turns_version hmoved.2 ha
  refine stands_reads hstands hP hN hn hopen hcalm hcap hroom ?_
  rw [hd]
  exact .version ha

theorem sample_version_stays : ((lives toy newVault
    ((earlyLife ++ [.call putCall]) ++ .call (readCall 7) :: laterLife)).outcome toy
      (readCall 8)).2 = .ok (.value [1, 2]) := by
  have hdistinct : DistinctPasswords toy
      (passwords ((earlyLife ++ [.call putCall]) ++ .call (readCall 7) :: laterLife)) ∧ _ :=
    distinct_of_single (by decide) (by decide)
  exact version_stays hdistinct.1 hdistinct.2 rfl (eq_of_valueOf (by decide +kernel))
    (Option.isSome_iff_ne_none.mp (by decide +kernel)) rfl (calm_world _ _) (by decide)
    (by decide +kernel)

end Stays

/-! ### The log -/

/-- A process that is gone has left a vault in order. -/
theorem held_locked (h : Held so P v) : Held so P (locked v) := by
  cases h with
  | new h1 h2 h3 h4 => exact .new h1 rfl h3 h4
  | keyed h1 h2 h3 h4 => exact .keyed h1 h2 (Or.inl rfl) h4

theorem held_next {y : Happening} (h : Held so P v) (hP : DistinctVerifiers so P)
    (hU : ∀ op ∈ y.op, Uses P op) :
    Held so P (next so v y) ∧ LogGrows v.db.audit (next so v y).db.audit := by
  cases y with
  | call c => exact h.after hP (hU c.op rfl)
  | crash c k =>
    obtain ⟨hheld, hgrows⟩ := h.after (c := ⟨c.op, cutAt refusal k c.world⟩) hP (hU c.op rfl)
    show Held so P (crashed so v c k) ∧ LogGrows v.db.audit (crashed so v c k).db.audit
    rw [crashed_eq]
    exact ⟨held_locked hheld, hgrows⟩
  | lock => exact ⟨held_locked h, List.prefix_rfl⟩

theorem held_lives {hs : List Happening} (h : Held so P v) (hP : DistinctVerifiers so P)
    (hU : ∀ y ∈ hs, ∀ op ∈ y.op, Uses P op) :
    Held so P (lives so v hs) ∧ LogGrows v.db.audit (lives so v hs).db.audit := by
  induction hs generalizing v with
  | nil => exact ⟨h, List.prefix_rfl⟩
  | cons y hs ih =>
    obtain ⟨hy, hrest⟩ := List.forall_mem_cons.mp hU
    obtain ⟨hnext, hgrows⟩ := held_next h hP hy
    obtain ⟨hlives, hgrows'⟩ := ih hnext hrest
    exact ⟨hlives, hgrows.trans hgrows'⟩

/-- **The log survives.** In the course of any life entries are only added to the log; it is empty, or
the stored credential is that of one of the passwords and all of the log verifies under the key that this
password opens. -/
theorem log_survives {hs₁ hs₂ : List Happening}
    (hP : DistinctPasswords so (passwords (hs₁ ++ hs₂))) :
    LogGrows (lives so newVault hs₁).db.audit (lives so newVault (hs₁ ++ hs₂)).db.audit ∧
      ((lives so newVault (hs₁ ++ hs₂)).db.audit = .empty ∨
        ∃ p ∈ passwords (hs₁ ++ hs₂), ∃ keys, Opens so (lives so newVault (hs₁ ++ hs₂)).db p keys ∧
          verifyChain so keys.kekAudit (lives so newVault (hs₁ ++ hs₂)).db.audit = .ok ()) := by
  have hU : ∀ y ∈ hs₁ ++ hs₂, ∀ op ∈ y.op, Uses (passwords (hs₁ ++ hs₂)) op :=
    fun y hy op hop => (within_self _ y hy op hop).1
  obtain ⟨hheld, -⟩ := held_lives held_new hP.verifiers fun y hy =>
    hU y (List.mem_append_left _ hy)
  obtain ⟨hlives, hgrows⟩ := held_lives hheld hP.verifiers fun y hy =>
    hU y (List.mem_append_right _ hy)
  have happend : lives so (lives so newVault hs₁) hs₂ = lives so newVault (hs₁ ++ hs₂) :=
    List.foldl_append.symm
  rw [happend] at hlives hgrows
  refine ⟨hgrows, ?_⟩
  cases hlives with
  | new h1 h2 h3 h4 => exact Or.inl h4
  | keyed hq ho hs hsound => exact Or.inr ⟨_, hq, _, ho, hsound.verified⟩

theorem sample_log_survives :
    LogGrows (lives toy newVault someLife).db.audit
        (lives toy newVault (someLife ++ laterLife)).db.audit ∧
      ((lives toy newVault (someLife ++ laterLife)).db.audit = .empty ∨
        ∃ p ∈ passwords (someLife ++ laterLife), ∃ keys,
          Opens toy (lives toy newVault (someLife ++ laterLife)).db p keys ∧
            verifyChain toy keys.kekAudit (lives toy newVault (someLife ++ laterLife)).db.audit =
              .ok ()) := by
  have hdistinct : DistinctPasswords toy (passwords (someLife ++ laterLife)) ∧ _ :=
    distinct_of_single (by decide) (by decide)
  exact log_survives hdistinct.1

end Fuin.Vault.Durable

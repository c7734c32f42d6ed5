import Fuin.Vault.Reopened

/-! # Sessions whose keys have been rotated away

`vault_rotate_kek` replaces the credential. A session of another process keeps the subkeys of the old
one, and no transaction looks at the credential again. So the rows unwrap under the KEK of the stored
credential and the log verifies under its audit key in every run in which all that is written is
written by sessions that have these keys (`rows_current`); a session that has old ones does write
(`superseded_put`). `vault_rotate_kek` itself may start from any keys. -/

namespace Fuin.Vault.Superseded

open Fuin.Utils Fuin.Crypto Fuin.Lib.Program Fuin.Lib.Interleave Fuin.Lib.Growth
open Fuin.Store.Secrets Fuin.Store.Versions Fuin.Store.Database Fuin.Kdf Fuin.KeyManager
open Fuin.Audit.Table Fuin.Audit.Verify Fuin.Audit.Log Fuin.Audit.Resign Fuin.Audit.Shared
open Fuin.Vault.Rows Fuin.Vault.Transactions Fuin.Vault.Operations Fuin.Vault.Observed
open Fuin.Vault.Rules Fuin.Vault.Sessions Fuin.Vault.Committed Fuin.Vault.Versioned
open Fuin.Vault.Stored Fuin.Vault.Appending Fuin.Vault.Unlocking Fuin.Vault.Reopened

/-- The tables belong to the keys: every row unwraps, and the log verifies. -/
structure Guarded (so : Sodium) (keys : Subkeys) (db : Db) : Prop where
  orderly : Orderly db.secrets
  unwraps : ∀ r ∈ db.secrets.rows, Unwraps so keys.kekEnc r
  numbered : Numbered db.audit
  verified : verifyChain so keys.kekAudit db.audit = .ok ()

/-- The tables belong to the stored credential. -/
def InOrder (so : Sodium) (P : Set CString) (db : Db) : Prop :=
  ∃ password ∈ P, ∃ keys, Opens so db password keys ∧ Guarded so keys db

/-- The tables have grown, but for what `vault_rotate_kek` replaces. -/
def Extended (db db' : Db) : Prop :=
  Grows Kept db.secrets.rows db'.secrets.rows ∧ ids db.audit <+: ids db'.audit

theorem Extended.refl (db : Db) : Extended db db :=
  ⟨Grows.refl Kept.refl db.secrets.rows, List.prefix_rfl⟩

theorem Extended.trans {db db' db'' : Db} (h : Extended db db') (h' : Extended db' db'') :
    Extended db db'' :=
  ⟨h.1.trans (fun _ _ _ => Kept.trans) h'.1, h.2.trans h'.2⟩

variable {so : Sodium} {P : Set CString} {keys : Subkeys} {db db₁ db₂ db₃ : Db}
  {M : Ambient Db Input} {op : Op} {t : Tx}

/-! ### What is written -/

/-- A row of a table in order that holds a plaintext unwraps. -/
theorem unwraps_of_orderly {kek : Block 32} {r : SecretRow} {plaintext : Bytes}
    (h : CryptoEngine.Holds so kek r plaintext) (hdb : Orderly db.secrets)
    (hr : r ∈ db.secrets.rows) : Unwraps so kek r :=
  unwraps_of_holds h (hdb.columnInt_version hr)
    ((hdb.history r.name).versions.mem (SecretTable.mem_rowsOf.mpr ⟨hr, rfl⟩)).1

theorem Unwraps.frozen {kek : Block 32} {r s : SecretRow} (h : Unwraps so kek r)
    (hrs : Frozen r s) : Unwraps so kek s := by
  obtain ⟨_, _, rfl⟩ := hrs
  exact h

/-- **A transaction of a session with the right keys**, whatever it has read. -/
theorem Guarded.commit (h : Guarded so keys db₂) (ht : Proposed so M (some keys) op db₁ t)
    (hkek : ∀ keys salt verifier newKeys, t ≠ .rotateKek keys salt verifier newKeys)
    (hrely : ∀ s s', M.rely s s' → Extended s s') (hinv : ∀ s, M.inv s → Orderly s.secrets)
    (hgrow : Extended db₁ db₂) (hrun : (t.body so).Runs Stmt.exec db₂ db₃ (.ok ())) :
    Guarded so keys db₃ ∧ Extended db₂ db₃ := by
  have hop : ∀ password, op ≠ .rotateKek password := by
    rintro password rfl
    cases ht
    exact hkek _ _ _ _ rfl
  obtain ⟨horder, hrows⟩ := tx_orderly ht (fun s s' hs => (hrely s s' hs).1) hinv hgrow.1 h.orderly hrun
  have hunwraps := tx_rows ht hop (fun _ _ hrs hr => Unwraps.frozen hr hrs)
    (fun _ hk _ _ _ hp hr => Option.some.inj hk ▸ unwraps_of_orderly (holds_prepared hp) horder hr)
    h.unwraps hrun
  rcases tx_log ht hkek hrun with he | ⟨keys', v, hk, hv, hl⟩
  · exact ⟨⟨horder, hunwraps, he ▸ h.numbered, he ▸ h.verified⟩, hrows, he ▸ List.prefix_rfl⟩
  · obtain rfl := Option.some.inj hk
    exact ⟨⟨horder, hunwraps, LogStep.numbered hl h.numbered, hl.verifyChain hv h.verified⟩, hrows,
      ids_step hl⟩

/-- **`vault_rotate_kek`**, from whatever keys: if it commits, the tables belong to the new ones. -/
theorem rotateKek_inOrder {salt : Block 16} {password : CString} {oldKeys : Subkeys}
    (h : Guarded so keys db₂) (hp : password ∈ P)
    (hrun : ((Tx.rotateKek oldKeys salt (so.sha256 (so.pwhash password.bytes salt).1)
      (subkeysOf so (so.pwhash password.bytes salt))).body so).Runs Stmt.exec db₂ db₃ (.ok ())) :
    InOrder so P db₃ ∧ Extended db₂ db₃ := by
  obtain ⟨nonce, u, -, hrows, hm, hnum, hver, hlog, hsame, -⟩ :=
    Committed.rotateKek_runs h.orderly.noNul h.numbered hrun
  refine ⟨⟨password, hp, _, ⟨salt, oldKeys.kekMeta, nonce, ?_, rfl⟩, ?_, fun s hs => ?_, ?_, ?_⟩,
    .of_forall₂ (hrows.imp fun _ _ => rewrapped_kept), ids_same hsame ▸ ids_step hlog⟩
  · rw [hm]
    funext k
    cases k <;> rfl
  · exact orderly_rewrapped h.orderly hrows
  · obtain ⟨r, -, hrs⟩ := forall₂_mem_right hrows hs
    exact hrs.unwraps
  · exact LogStep.numbered hlog hnum
  · exact hlog.verifyChain (by decide) hver

/-! ### All runs -/

/-- What is written is written under the keys of the stored credential, and an entry that is inserted
outside a transaction points to the last row of the log; or it is refused. -/
def WritesCurrent (so : Sodium) (P : Set CString) (session : Option Subkeys) : Cmd → Db → Prop
  | .tx (.rotateKek ..), _ => True
  | .tx (.storeAuth ..), _ => True
  | .tx _, db => HasKeys so P session db
  | .stmt (.write (.insertAudit r)), db =>
    (HasKeys so P session db ∧ PointsToLast db.audit r) ∨ ∃ s ∈ db.audit.rows, s.entryId = r.entryId
  | .stmt _, _ => True

instance (p : CString) (session : Option Subkeys) (c : Cmd) (db : Db) :
    Decidable (WritesCurrent so {p} session c db) := by
  unfold WritesCurrent
  split <;> infer_instance

/-- Every step leaves the tables to the stored credential. -/
def protocol (so : Sodium) (P : Set CString) :
    Protocol Cmd Status Result Db (ℕ → Input) (Option Subkeys) Op where
  inv := InOrder so P
  rely := Extended
  guar _ _ := Extended
  allow session _ _ c db := WritesCurrent so P session c db
  may _ op := Uses P op
  loc _ _ := True
  post _ _ _ _ := True
  rely_refl := Extended.refl
  rely_trans := Extended.trans
  guar_rely h := h
  loc_rely _ _ _ := trivial

theorem InOrder.orderly (h : InOrder so P db) : Orderly db.secrets := by
  obtain ⟨_, -, _, -, hguarded⟩ := h
  exact hguarded.orderly

/-- The keys of a session that opens the credential are those of the tables. -/
theorem InOrder.guarded {session : Option Subkeys} (h : InOrder so P db)
    (hP : DistinctVerifiers so P) (hs : session = some keys) (hkeys : HasKeys so P session db) :
    ∃ password ∈ P, Opens so db password keys ∧ Guarded so keys db := by
  obtain ⟨password, hp, keys', hopens, hguarded⟩ := h
  obtain ⟨q, hq, hopens'⟩ := hkeys keys hs
  obtain rfl := hopens.unique hopens' hP hp hq
  exact ⟨password, hp, hopens, hguarded⟩

/-- A vault with a credential is not initialised again. -/
theorem InOrder.stored (h : InOrder so P db) : db.metadata .salt ≠ none := by
  obtain ⟨_, -, _, hopens, -⟩ := h
  exact hopens.salt_ne_none

theorem hasKeys_of_writes {session : Option Subkeys} (h : WritesCurrent so P session (.tx t) db)
    (hkek : ∀ keys salt verifier newKeys, t ≠ .rotateKek keys salt verifier newKeys)
    (hstore : ∀ salt verifier keys, t ≠ .storeAuth salt verifier keys) :
    HasKeys so P session db := by
  cases t with
  | rotateKek => exact absurd rfl (hkek _ _ _ _)
  | storeAuth => exact absurd rfl (hstore _ _ _)
  | _ => exact h

theorem allows {session : Option Subkeys} (hP : DistinctVerifiers so P) (hU : Uses P op) :
    Allows so ((protocol so P).contract session op) session op where
  read db _ := Extended.refl db
  note db _ h := by
    obtain ⟨password, hp, keys, hopens, h1, h2, h3, h4⟩ := h
    exact ⟨⟨password, hp, keys, hopens.of_metadata rfl, h1, h2, h3, h4⟩, Extended.refl db⟩
  log keys action target version row es db₀ db₁ db₂ u hs _ hv hrun hgrow hinv hwrites hins := by
    obtain ⟨-, hfree, -⟩ := AuditTable.insert_eq_some.mp hins
    obtain ⟨hkeys, hlast⟩ := hwrites.resolve_right fun ⟨s, hmem, h⟩ => hfree s hmem h
    obtain ⟨password, hp, hopens, h1, h2, h3, h4⟩ := InOrder.guarded hinv hP hs hkeys
    have hstep := logStep_insert hrun (fun _ _ h => h.2) hgrow.2 h3 hins hlast
    exact ⟨⟨password, hp, keys, hopens.of_metadata rfl, h1, h2, LogStep.numbered hstep h3,
      hstep.verifyChain hv h4⟩, Grows.refl Kept.refl db₂.secrets.rows, ids_step hstep⟩
  tx t es db₁ db₂ db₃ ht hgrow hinv hwrites hrun := by
    by_cases hkek : ∃ oldKeys salt verifier newKeys, t = .rotateKek oldKeys salt verifier newKeys
    · obtain ⟨oldKeys, salt, verifier, newKeys, rfl⟩ := hkek
      obtain ⟨password, -, _, -, hguarded⟩ := hinv
      cases ht with
      | rotateKek h =>
        obtain ⟨-, rfl, rfl⟩ := deriveCredentials_runsIn h
        exact rotateKek_inOrder hguarded (hU _ rfl) hrun
    · have hstore : ∀ salt verifier keys, t ≠ .storeAuth salt verifier keys := by
        rintro salt verifier keys rfl
        cases ht with
        | storeAuth h =>
          obtain ⟨-, -, d, _, -, hd, -, -, -, hnone, -⟩ := prepareUnlock_runsIn h
          exact absurd hnone (InOrder.stored hd)
      have hrotates : ∀ keys salt verifier newKeys, t ≠ .rotateKek keys salt verifier newKeys :=
        fun keys salt verifier newKeys e => hkek ⟨keys, salt, verifier, newKeys, e⟩
      obtain ⟨keys, rfl⟩ := exists_session ht hstore
      obtain ⟨password, hp, hopens, hguarded⟩ :=
        InOrder.guarded hinv hP rfl (hasKeys_of_writes hwrites hrotates hstore)
      obtain ⟨hguarded', hext⟩ := hguarded.commit ht hrotates (fun _ _ h => h)
        (fun _ h => InOrder.orderly h) hgrow hrun
      exact ⟨⟨password, hp, keys, hopens.same (tx_sameCredential hrun hrotates hstore), hguarded'⟩,
        hext⟩

theorem sound (hP : DistinctVerifiers so P) : (protocol so P).Sound (vaultSystem so) :=
  sound_of_allows (fun _ _ _ hU _ => allows hP hU) (fun _ _ _ _ _ _ _ => trivial)
    fun _ _ _ _ _ _ => trivial

variable {ι : Type}

/-- **The tables belong to the stored credential after every step**, in every run in which what is
written is written under its keys: every row unwraps under its KEK, and the log verifies under its
audit key. -/
theorem rows_current [DecidableEq ι] {g g' : VaultConfig ι} (hP : DistinctVerifiers so P)
    (hidle : ∀ i, (g.procs i).running = none) (hstart : InOrder so P g.shared)
    (h : (vaultSystem so).Reach (Among P (WritesCurrent so P)) g g') :
    ∃ password ∈ P, ∃ keys, Opens so g'.shared password keys ∧
      (∀ r ∈ g'.shared.secrets.rows, Unwraps so keys.kekEnc r) ∧
      verifyChain so keys.kekAudit g'.shared.audit = .ok () := by
  have hgood : (protocol so P).Good (vaultSystem so) g' :=
    (Protocol.Good.of_idle hstart hidle fun _ => trivial).reach (sound hP) h
  obtain ⟨password, hp, keys, hopens, hguarded⟩ := hgood.inv
  exact ⟨password, hp, keys, hopens, hguarded.unwraps, hguarded.verified⟩

/-! ### Two runs -/

/-- Two processes that have opened a vault. -/
def bothOpen : VaultConfig Bool := ⟨sampleDb, fun _ => ⟨some sampleKeys, none⟩⟩

theorem inOrder_sample : InOrder toy {samplePassword} sampleDb :=
  ⟨samplePassword, rfl, sampleKeys, by decide +kernel, orderly_empty, fun _ h => (nomatch h),
    counted_nil, rfl⟩

/-- A secret is stored, the password is changed, and the session that has changed it stores another
version. -/
def rotatedThenPut : VaultConfig Bool :=
  let name := sampleName
  play (Among {samplePassword} (WritesCurrent toy {samplePassword})) bothOpen
    (.start false (.put name [1, 2] none 0) :: acts false 20 1 ++
      [.finish false, .start false (.rotateKek samplePassword)] ++ acts false 16 2 ++
      [.finish false, .start false (.put name [3] none 0)] ++ acts false 20 3)

theorem rotatedThenPut_current :
    ∃ password ∈ ({samplePassword} : Set CString), ∃ keys,
      Opens toy rotatedThenPut.shared password keys ∧
      (∀ r ∈ rotatedThenPut.shared.secrets.rows, Unwraps toy keys.kekEnc r) ∧
      verifyChain toy keys.kekAudit rotatedThenPut.shared.audit = .ok () :=
  rows_current (g := bothOpen) (distinct_singleton toy samplePassword) (fun _ => rfl) inOrder_sample
    (reach_play (by decide +kernel))

/-- The operations of sessions that change their password or work with secrets. -/
def Working : Op → Prop
  | .put .. | .rollback .. | .delete _ | .autoRotate _ | .get .. | .rotateKek _ => True
  | _ => False

instance : DecidablePred Working
  | .put .. | .delete _ | .rollback .. | .autoRotate _ | .get .. | .rotateKek _ => isTrue trivial
  | .getVersion .. | .list _ | .unlock _ | .unlockExisting _ | .issueToken .. | .revokeTokens =>
    isFalse id

/-- One process changes the password; then the other one, which has opened the vault before, stores
a secret. -/
def rotatedAway : VaultConfig Bool :=
  play (Obeys (fun _ op => Uses {samplePassword} op ∧ Working op) fun _ _ _ _ _ => True) bothOpen
    (.start false (.rotateKek samplePassword) :: acts false 16 1 ++
      .start true (.put sampleName [1, 2] none 0) :: acts true 20 2)

/-- The keys of the stored credential. -/
def rotatedKeys : Subkeys :=
  { subkeysOf toy (toy.pwhash samplePassword.bytes (Block.fill 16 1)) with
    kekMeta := sampleKeys.kekMeta }

/-- **A session whose keys have been rotated away stores a row** that does not unwrap any more. -/
theorem superseded_put :
    ¬ ∀ (so : Sodium) (P : Set CString) (g g' : VaultConfig Bool), DistinctVerifiers so P →
      (∀ i, (g.procs i).running = none) →
      (∀ i keys, (g.procs i).loc = some keys → ∃ password ∈ P, Opens so g.shared password keys) →
      InOrder so P g.shared →
      (vaultSystem so).Reach
        (Obeys (fun _ op => Uses P op ∧ Working op) fun _ _ _ _ _ => True) g g' →
      ∃ password ∈ P, ∃ keys, Opens so g'.shared password keys ∧
        (∀ r ∈ g'.shared.secrets.rows, Unwraps so keys.kekEnc r) ∧
        verifyChain so keys.kekAudit g'.shared.audit = .ok () := by
  intro h
  have hP := distinct_singleton toy samplePassword
  have hkeys : ∀ (i : Bool) keys, (bothOpen.procs i).loc = some keys →
      ∃ password ∈ ({samplePassword} : Set CString), Opens toy bothOpen.shared password keys := by
    rintro _ _ ⟨⟩
    exact ⟨samplePassword, rfl, by decide +kernel⟩
  obtain ⟨password, hp, keys, hopens, hunwraps, -⟩ := h toy {samplePassword} bothOpen rotatedAway hP
    (fun _ => rfl) hkeys inOrder_sample (reach_play (by decide +kernel))
  have hnow : Opens toy rotatedAway.shared samplePassword rotatedKeys := by decide +kernel
  obtain rfl := hnow.unique hopens hP rfl hp
  have hrow : ∃ r ∈ rotatedAway.shared.secrets.rows, (dekOf toy rotatedKeys.kekEnc r).isOk = false := by
    decide +kernel
  obtain ⟨r, hr, hfails⟩ := hrow
  obtain ⟨dek, hdek⟩ := hunwraps r hr
  rw [hdek] at hfails
  nomatch hfails

end Fuin.Vault.Superseded

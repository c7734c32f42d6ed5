import Fuin.Vault.Reopened

/-! # Several processes initialise a vault

`vault_unlock` looks for a credential, derives the keys, and then stores a new credential if it has
found none; the transaction does not look again. As long as such a transaction only begins where there
is still none (`StoresFirst`), no `vault_unlock` replaces a credential, all sessions have its keys, and
the rows stay readable with them (`initialised_once`); otherwise the second process takes the place
of the first one (`initialised_twice`). -/

namespace Fuin.Vault.Initialised

open Fuin.Utils Fuin.Crypto Fuin.Lib.Program Fuin.Lib.Interleave Fuin.Lib.Growth
open Fuin.Store.Secrets Fuin.Store.Versions Fuin.Store.Database Fuin.Kdf
open Fuin.Audit.Table Fuin.Audit.Log Fuin.Vault.Rows Fuin.Vault.Transactions
open Fuin.Vault.Operations Fuin.Vault.Observed Fuin.Vault.Rules Fuin.Vault.Sessions
open Fuin.Vault.Committed Fuin.Vault.Versioned Fuin.Vault.Stored Fuin.Vault.Honest
open Fuin.Vault.Unlocking Fuin.Vault.Reopened

variable {so : Sodium} {P : Set CString} {keys : Subkeys} {db db' db'' : Db} {op : Op}

/-- A credential is only stored where there is none. -/
def StoresFirst : Cmd → Db → Prop
  | .tx (.storeAuth ..), db => db.metadata .salt = none
  | _, _ => True

instance : ∀ c db, Decidable (StoresFirst c db)
  | .tx (.storeAuth ..), db => inferInstanceAs (Decidable (db.metadata .salt = none))
  | .tx (.put ..), _ | .tx (.delete ..), _ | .tx (.rollback ..), _ => isTrue trivial
  | .tx (.rotateDek ..), _ | .tx (.rotateKek ..), _ | .tx (.revokeTokens ..), _ => isTrue trivial
  | .stmt _, _ => isTrue trivial

/-! ### The credential is written once -/

/-- A step of `vault_unlock` leaves a credential that is stored. -/
def Leaves (op : Op) (db db' : Db) : Prop :=
  ¬ InSession op → db.metadata .salt ≠ none → db'.metadata = db.metadata

/-- What every step of `vault_unlock` does to the metadata. -/
def unlockProtocol : Protocol Cmd Status Result Db (ℕ → Input) (Option Subkeys) Op where
  inv _ := True
  rely _ _ := True
  guar _ := Leaves
  allow _ _ _ c db := StoresFirst c db
  may _ _ := True
  loc _ _ := True
  post _ _ _ _ := True
  rely_refl _ := trivial
  rely_trans _ _ := trivial
  guar_rely _ := trivial
  loc_rely _ _ _ := trivial

theorem unlock_allows {session : Option Subkeys} :
    Allows so (unlockProtocol.contract session op) session op where
  read _ _ _ _ := rfl
  note _ _ _ := ⟨trivial, fun _ _ => rfl⟩
  log _ _ _ _ _ _ _ _ _ _ _ _ _ _ _ _ _ _ := ⟨trivial, fun _ _ => rfl⟩
  tx t es db₁ db₂ db₃ ht _ _ hfirst _ := by
    refine ⟨trivial, fun hop hstored => ?_⟩
    cases ht with
    | storeAuth => exact absurd hfirst hstored
    | _ => exact absurd trivial hop

theorem unlock_sound : unlockProtocol.Sound (vaultSystem so) :=
  sound_of_allows (fun _ _ _ _ _ => unlock_allows) (fun _ _ _ _ _ _ _ => trivial)
    fun _ _ _ _ _ _ => trivial

/-! ### The sessions and the rows -/

/-- Nothing is stored. -/
def Fresh (db : Db) : Prop := Stored none db db ∧ db.secrets = .empty

/-- The rows are those of the sessions that the stored credential opens. -/
def Keyed (so : Sodium) (keys : Subkeys) (db : Db) : Prop :=
  Orderly db.secrets ∧ Readable so keys db.secrets

/-- A vault that some processes initialise and use. -/
def Shared (so : Sodium) (P : Set CString) (db : Db) : Prop :=
  Fresh db ∨ ∃ password ∈ P, ∃ keys, Opens so db password keys ∧ Keyed so keys db

/-- The credential stays once it is stored, and the rows stay. -/
def Stays (db db' : Db) : Prop :=
  (db.metadata .salt ≠ none → SameCredential db db') ∧
    Grows Frozen db.secrets.rows db'.secrets.rows

theorem Stays.of_eq (hm : db'.metadata = db.metadata) (hs : db'.secrets = db.secrets) :
    Stays db db' :=
  ⟨fun _ k _ => congrFun hm k, hs ▸ Grows.refl Frozen.refl _⟩

theorem Stays.trans (h : Stays db db') (h' : Stays db' db'') : Stays db db'' := by
  refine ⟨fun hstored k hk => ?_, h.2.trans (fun _ _ _ => Frozen.trans) h'.2⟩
  have hsame := h.1 hstored
  exact (h'.1 (by rwa [hsame .salt (by decide)]) k hk).trans (hsame k hk)

/-- What opens the credential goes on to open it. -/
theorem HasKeys.stays {session : Option Subkeys} (h : HasKeys so P session db) (hs : Stays db db') :
    HasKeys so P session db' := by
  intro keys hk
  obtain ⟨password, hp, hopens⟩ := h keys hk
  exact ⟨password, hp, hopens.same (hs.1 hopens.salt_ne_none)⟩

/-- The rows are those of a session that has the keys. -/
theorem Shared.keyed (h : Shared so P db) (hP : DistinctVerifiers so P)
    (hkeys : HasKeys so P (some keys) db) :
    ∃ password ∈ P, Opens so db password keys ∧ Keyed so keys db := by
  obtain ⟨q, hq, hopens'⟩ := hkeys keys rfl
  rcases h with hfresh | ⟨password, hp, keys', hopens, hkeyed⟩
  · exact absurd hfresh.1.1 hopens'.salt_ne_none
  · obtain rfl := hopens.unique hopens' hP hp hq
    exact ⟨password, hp, hopens, hkeyed⟩

/-- A credential is only stored where there is none, and none is replaced by `vault_rotate_kek`. -/
def Keeps : Cmd → Db → Prop
  | .tx (.rotateKek ..), _ => False
  | c, db => StoresFirst c db

instance : ∀ c db, Decidable (Keeps c db)
  | .tx (.rotateKek ..), _ => isFalse id
  | .tx (.storeAuth ..), db => inferInstanceAs (Decidable (db.metadata .salt = none))
  | .tx (.put ..), _ | .tx (.delete ..), _ | .tx (.rollback ..), _ => isTrue trivial
  | .tx (.rotateDek ..), _ | .tx (.revokeTokens ..), _ => isTrue trivial
  | .stmt _, _ => isTrue trivial

/-- Sessions have the keys of the credential. -/
def protocol (so : Sodium) (P : Set CString) :
    Protocol Cmd Status Result Db (ℕ → Input) (Option Subkeys) Op where
  inv := Shared so P
  rely := Stays
  guar _ _ := Stays
  allow _ _ _ c db := Keeps c db
  may _ op := Uses P op
  loc := HasKeys so P
  post session op r := HasKeys so P (finish session op r)
  rely_refl _ := .of_eq rfl rfl
  rely_trans := Stays.trans
  guar_rely h := h
  loc_rely h hs _ := HasKeys.stays h hs

/-- The contract of an operation that is started in a session. -/
abbrev inSession (so : Sodium) (P : Set CString) (session : Option Subkeys) (op : Op) :
    Contract Cmd Db (ℕ → Input) :=
  ((protocol so P).contract session op).knowing (HasKeys so P session)

/-- **A transaction of a session**, whatever it has read. -/
theorem tx_keeps {session : Option Subkeys} {t : Tx} {db₁ : Db} (hP : DistinctVerifiers so P)
    (hop : InSession op) (ht : Proposed so (surroundings (inSession so P session op)) session op db₁ t)
    (hrely : Stays db₁ db) (hshared : Shared so P db) (hkeys : HasKeys so P session db)
    (hkek : ∀ keys salt verifier newKeys, t ≠ .rotateKek keys salt verifier newKeys)
    (hrun : (t.body so).Runs Stmt.exec db db' (.ok ())) : Shared so P db' ∧ Stays db db' := by
  have hstore : ∀ salt verifier keys, t ≠ .storeAuth salt verifier keys := by
    rintro _ _ _ rfl
    cases ht
    exact hop
  have hrotates : ∀ password, op ≠ .rotateKek password := by
    rintro _ rfl
    cases ht
    exact hkek _ _ _ _ rfl
  obtain ⟨keys, rfl⟩ := exists_session ht hstore
  obtain ⟨password, hp, hopens, horder, hread⟩ := hshared.keyed hP hkeys
  have hsame := tx_sameCredential hrun hkek hstore
  have hgrow := tx_frozen ht hrotates hrun
  have hinv : ∀ s, (surroundings (inSession so P (some keys) op)).inv s → Keyed so keys s := by
    rintro s ⟨hs, hk⟩
    obtain ⟨_, -, -, hkeyed⟩ := Shared.keyed hs hP hk
    exact hkeyed
  obtain ⟨horder', -⟩ := tx_orderly ht (fun _ _ h => h.2.mono fun _ _ => Frozen.kept)
    (fun s hs => (hinv s hs).1) (hrely.2.mono fun _ _ => Frozen.kept) horder hrun
  have hread' := tx_readable ht hrotates (fun s hs => (hinv s hs).2) hread hrun
  exact ⟨Or.inr ⟨password, hp, keys, hopens.same hsame, horder', hread'⟩, fun _ => hsame, hgrow⟩

theorem Shared.of_eq (h : Shared so P db) (hm : db'.metadata = db.metadata)
    (hs : db'.secrets = db.secrets) : Shared so P db' := by
  rcases h with ⟨⟨h1, h2⟩, h3⟩ | ⟨password, hp, keys, hopens, h1, h2⟩
  · exact Or.inl ⟨⟨hm ▸ h1, hm ▸ h2⟩, hs.trans h3⟩
  · exact Or.inr ⟨password, hp, keys, hopens.of_metadata hm, hs ▸ h1, hs ▸ h2⟩

theorem notes {session : Option Subkeys} : Notes (inSession so P session op) := fun _ _ h =>
  ⟨⟨h.1.of_eq rfl rfl, HasKeys.stays h.2 (.of_eq rfl rfl)⟩, .of_eq rfl rfl⟩

theorem session_allows {session : Option Subkeys} (hP : DistinctVerifiers so P) (hop : InSession op) :
    Allows so (inSession so P session op) session op where
  read _ _ := .of_eq rfl rfl
  note := notes
  log _ _ _ _ _ _ _ _ _ _ _ _ _ _ _ h _ _ :=
    ⟨⟨h.1.of_eq rfl rfl, HasKeys.stays h.2 (.of_eq rfl rfl)⟩, .of_eq rfl rfl⟩
  tx t _ db₁ db₂ db₃ ht hrely h hkeeps hrun := by
    have hkek : ∀ keys salt verifier newKeys, t ≠ .rotateKek keys salt verifier newKeys := by
      rintro _ _ _ _ rfl
      exact hkeeps
    obtain ⟨hshared, hstays⟩ := tx_keeps hP hop ht hrely h.1 h.2 hkek hrun
    exact ⟨⟨hshared, HasKeys.stays h.2 hstays⟩, hstays⟩

/-! ### Unlocking -/

/-- **What is opened** are the keys of the credential, although it was read piece by piece. -/
theorem opens_opened {session : Option Subkeys} {password : CString} {allow : Bool} {salt : Block 16}
    {master : Block 32} {db₁ db₂ db₃ db₄ : Db} (hP : DistinctVerifiers so P) (hq : password ∈ P)
    (hprepare : (prepareUnlock so password allow).RunsIn Stmt.exec
      (surroundings (inSession so P session op)) db db₁ (.ok (some (so.sha256 master.1), salt, master)))
    (h12 : Stays db₁ db₂) (hopen : (openKeys so master).RunsIn Stmt.exec
      (surroundings (inSession so P session op)) db₂ db₃ (.ok keys)) (h34 : Stays db₃ db₄) :
    ∃ p ∈ P, Opens so db₄ p keys := by
  obtain ⟨-, hmaster, d₁, d₂, -, i1, r12, -, r2, hsalt, hverifier⟩ := prepareUnlock_runsIn hprepare
  obtain ⟨d₃, d₄, metaKey, r3, -, r34, -, r4, hmeta, hkeys⟩ := openKeys_runsIn hopen
  subst hmaster
  -- the credential was stored when the salt was read, and has stayed since
  have hsome : d₁.metadata .salt ≠ none := by
    rw [hsalt]
    exact Option.some_ne_none _
  have s2 : Stays d₁ d₂ := r12
  have s3 : Stays d₁ d₃ := s2.trans (Stays.trans r2 (h12.trans r3))
  have s4 : Stays d₁ d₄ := s3.trans r34
  have s5 : Stays d₁ db₄ := s4.trans (Stays.trans r4 h34)
  have hsame {d : Db} (s : Stays d₁ d) (k : MetadataKey) (hk : k ≠ .tokenNotBefore) :
      d.metadata k = d₁.metadata k := s.1 hsome k hk
  obtain ⟨p, hp, keys', hopens, -⟩ := i1.1.resolve_left fun hfresh => hsome hfresh.1.1
  have hopens' := hopens.same (s5.1 hsome)
  refine ⟨p, hp, ?_⟩
  have hstored : Stored (some (salt, so.sha256 (so.pwhash password.bytes salt).1)) db₄ db₄ := by
    refine ⟨(hsame s5 _ (by decide)).trans hsalt, ?_⟩
    rw [hsame s5 _ (by decide), ← hsame s2 _ (by decide)]
    exact hverifier
  have hunwrap : unwrapMetaKey so (subkeysOf so (so.pwhash password.bytes salt)).kekEnc
      (db₄.metadata .metaKeyNonce) (db₄.metadata .metaKeyWrapped) = .ok metaKey := by
    rw [hsame s5 _ (by decide), hsame s5 .metaKeyWrapped (by decide), ← hsame s3 _ (by decide),
      ← hsame s4 .metaKeyWrapped (by decide)]
    exact hmeta
  rw [hkeys, hopens'.opened hP hp hq hstored hunwrap]
  exact hopens'

/-- A credential that is stored where there was none opens the session that has stored it. -/
theorem opens_stored {password : CString} {salt : Block 16} (hq : password ∈ P)
    (hfresh : Fresh db)
    (hrun : ((Tx.storeAuth salt (so.sha256 (so.pwhash password.bytes salt).1)
      (subkeysOf so (so.pwhash password.bytes salt))).body so).Runs Stmt.exec db db' (.ok ())) :
    Opens so db' password (subkeysOf so (so.pwhash password.bytes salt)) ∧ Shared so P db' ∧
      Stays db db' := by
  obtain ⟨nonce, rfl⟩ := storeAuth_runs hrun
  have hopens : Opens so { db with
      metadata := credential so db.metadata salt (so.sha256 (so.pwhash password.bytes salt).1)
        (subkeysOf so (so.pwhash password.bytes salt)).kekMeta
        (subkeysOf so (so.pwhash password.bytes salt)).kekEnc nonce } password
      (subkeysOf so (so.pwhash password.bytes salt)) := by
    refine ⟨salt, _, nonce, ?_, rfl⟩
    funext k
    cases k <;> rfl
  refine ⟨hopens, Or.inr ⟨password, hq, _, hopens, ?_, ?_⟩,
    fun hstored => absurd hfresh.1.1 hstored, Grows.refl Frozen.refl _⟩
  · dsimp only
    rw [hfresh.2]
    exact orderly_empty
  · dsimp only
    rw [hfresh.2]
    exact readable_empty

/-- **`vault_unlock`** opens a session that has the keys of the credential. -/
theorem unlock_ok {session : Option Subkeys} {password : CString} {allow : Bool}
    (hP : DistinctVerifiers so P) (hq : password ∈ P) :
    (inSession so P session op).Ok (Cmd.exec so) (fun keys db => ∃ p ∈ P, Opens so db p keys)
      (fun _ _ => True) (unlockInternal so password allow) db := by
  refine ok_unlockInternal (fun _ _ => .of_eq rfl rfl) notes
    (fun salt master keys db₁ db₂ db₃ db₄ h1 h2 _ h3 h4 _ => opens_opened hP hq h1 h2 h3 h4)
    fun salt master es db₁ db₂ db₃ h1 _ h3 hkeeps hrun => ?_
  obtain ⟨-, rfl, -⟩ := prepareUnlock_runsIn h1
  have hnone : db₂.metadata .salt = none := hkeeps
  have hfresh : Fresh db₂ := by
    refine h3.1.resolve_right ?_
    rintro ⟨_, -, _, hopens, -⟩
    exact hopens.salt_ne_none hnone
  obtain ⟨hopens, hshared, hstays⟩ := opens_stored hq hfresh hrun
  exact ⟨⟨hshared, HasKeys.stays h3.2 hstays⟩, hstays, fun db₄ h4 _ =>
    ⟨password, hq, hopens.same (h4.1 hopens.salt_ne_none)⟩⟩

/-- What an operation leaves of the session has the keys, if the session had. -/
def Returns (so : Sodium) (P : Set CString) (session : Option Subkeys) (op : Op)
    (r : Except Status Result) (db : Db) : Prop :=
  HasKeys so P session db → HasKeys so P (finish session op r) db

/-- What `vault_unlock` leaves of the session. -/
theorem finish_unlock (session : Option Subkeys) (r : Except Status Result) (hop : ¬ InSession op) :
    finish session op r = session ∨ finish session op r = finish.afterUnlock r := by
  cases op with
  | unlock password | unlockExisting password =>
    show (if password.bytes = [] then session else _) = session ∨
      (if password.bytes = [] then session else _) = _
    split_ifs
    · exact Or.inl rfl
    · exact Or.inr rfl
  | _ => exact absurd trivial hop

theorem returns_error {session : Option Subkeys} {e : Status} :
    Returns so P session op (.error e) db := by
  intro h
  by_cases hop : InSession op
  · have hsame : finish session op (.error e) = session := by
      cases op <;> first | rfl | exact hop.elim
    rw [hsame]
    exact h
  · rcases finish_unlock session (.error e) hop with he | he
    · rw [he]
      exact h
    · rw [he]
      exact fun _ hk => nomatch hk

theorem returns_session {session : Option Subkeys} (hkeys : HasKeys so P (some keys) db)
    (hop : ¬ InSession op) : Returns so P session op (.ok (.session keys)) db := by
  intro h
  rcases finish_unlock session (.ok (.session keys)) hop with he | he
  · rw [he]
    exact h
  · rw [he]
    exact hkeys

theorem unlock_returns {session : Option Subkeys} {password : CString} {allow : Bool}
    (hP : DistinctVerifiers so P) (hq : password ∈ P) (hop : ¬ InSession op) :
    (inSession so P session op).Ok (Cmd.exec so) (fun a db => Returns so P session op (.ok a) db)
      (fun _ _ => True) ((unlockInternal so password allow).bind fun k => .ret (.session k)) db := by
  refine Contract.Ok.bind ((unlock_ok hP hq).mono (fun keys db₁ _ hopens => ?_) fun _ _ _ _ => trivial)
  refine Contract.Ok.ret fun db₂ h12 _ => returns_session ?_ hop
  have hkeys : HasKeys so P (some keys) db₁ := by
    rintro _ ⟨⟩
    exact hopens
  exact HasKeys.stays hkeys h12

/-- `vault_rotate_kek` does not come to its end, since its transaction is not admitted. -/
theorem rotateKek_returns {password : CString} {Q : Result → Db → Prop} :
    (inSession so P (some keys) op).Ok (Cmd.exec so) Q (fun _ _ => True)
      ((rotateKek so keys password).bind fun k => .ret (.session k)) db := by
  have hread : ∀ db, (inSession so P (some keys) op).inv db →
      (inSession so P (some keys) op).guar db db := fun _ _ => .of_eq rfl rfl
  refine Contract.Ok.bind (Contract.Ok.bind (ok_sql hread readOnly_deriveCredentials
    (fun out db₁ _ db₂ _ _ => ?_) fun _ _ _ _ _ _ => trivial))
  exact Contract.Ok.bind (ok_transact hread (fun _ _ _ _ _ hkeeps _ => absurd hkeeps id)
    fun _ _ _ _ => trivial)

/-- **Every operation** leaves a session that has the keys. -/
theorem code_returns {session : Option Subkeys} (hP : DistinctVerifiers so P) (hU : Uses P op) :
    (inSession so P session op).Ok (Cmd.exec so) (fun a db => Returns so P session op (.ok a) db)
      (fun _ _ => True) (code so session op) db := by
  by_cases hop : InSession op
  · by_cases hkek : ∃ password, op = .rotateKek password
    · obtain ⟨password, rfl⟩ := hkek
      cases session with
      | none => exact fun _ _ _ => trivial
      | some keys => exact rotateKek_returns
    · have hsame : ∀ r, finish session op r = session := fun r => by
        cases op <;> first | rfl | exact hop.elim | exact absurd ⟨_, rfl⟩ hkek
      refine (session_allows hP hop).keeps_code.mono (fun a db₁ _ _ h => ?_) fun _ _ _ _ => trivial
      rw [hsame]
      exact h
  · cases op with
    | unlock password => cases session <;> exact unlock_returns hP (hU _ rfl) hop
    | unlockExisting password => cases session <;> exact unlock_returns hP (hU _ rfl) hop
    | _ => exact absurd trivial hop

theorem sound (hP : DistinctVerifiers so P) : (protocol so P).Sound (vaultSystem so) where
  code hU _ hkeys :=
    (Contract.Ok.of_knowing (code_returns hP hU) (fun _ _ hr _ h => HasKeys.stays h hr) hkeys).mono
      (fun _ _ _ h => h.1 h.2) fun _ _ _ h => returns_error h.2
  finish _ h := h

/-! ### All runs -/

variable {ι : Type}

/-- The process is in `vault_unlock`. -/
def isUnlocking (p : Proc Cmd.Reply Status Result (Option Subkeys) Op) : Bool :=
  match p.running with
  | some (op, _) => decide (¬ InSession op)
  | none => false

/-- **The credential is written once**, in every run in which a new one is only stored where there is
none: no step of `vault_unlock` replaces it; and as long as `vault_rotate_kek` does not, all sessions
have its keys, it goes on to open them, and the rows stay and are readable with them. -/
theorem initialised_once [DecidableEq ι] {g g' : VaultConfig ι} (hP : DistinctVerifiers so P)
    (hidle : ∀ i, g.procs i = ⟨none, none⟩) (hfresh : Fresh g.shared) :
    ((vaultSystem so).Reach (Among P fun _ => StoresFirst) g g' →
      ∀ i es g'', isUnlocking (g'.procs i) → Among P (fun _ => StoresFirst) g' (.act i es) →
        (vaultSystem so).step g' (.act i es) = some g'' → g'.shared.metadata .salt ≠ none →
          g''.shared.metadata = g'.shared.metadata) ∧
    ((vaultSystem so).Reach (Among P fun _ => Keeps) g g' →
      (∀ i, HasKeys so P (g'.procs i).loc g'.shared) ∧
      ∀ g'' password keys, (vaultSystem so).Reach (Among P fun _ => Keeps) g' g'' → password ∈ P →
        Opens so g'.shared password keys →
          Opens so g''.shared password keys ∧ Readable so keys g''.shared.secrets ∧
            Grows Frozen g'.shared.secrets.rows g''.shared.secrets.rows) := by
  have hloc : ∀ i, HasKeys so P (g.procs i).loc g.shared := by
    intro i keys hk
    rw [hidle i] at hk
    nomatch hk
  have hstart : (protocol so P).Good (vaultSystem so) g :=
    .of_idle (Or.inl hfresh) (fun i => by rw [hidle i]) hloc
  refine ⟨fun h i es g'' hunlock hev hstep => ?_, fun h => ⟨fun i => ?_, ?_⟩⟩
  · have hidle' : unlockProtocol.Good (vaultSystem so) g :=
      .of_idle trivial (fun i => by rw [hidle i]) fun _ => trivial
    have hgood := hidle'.reach unlock_sound
      (h.mono _ fun _ _ hobeys => hobeys.mono (fun _ _ _ => trivial) fun _ _ _ _ _ h => h)
    obtain ⟨op, c, k, hr, rfl⟩ := System.step_act _ hstep
    have hop : ¬ InSession op := by simpa only [isUnlocking, hr, decide_eq_true_eq] using hunlock
    have hfirst : StoresFirst c g'.shared := by simpa only [Obeys, Proc.Issues, hr] using hev
    exact (hgood.act hr hfirst).2.1 hop
  · exact hstart.reach_loc (sound hP) hloc h i
  · intro g'' password keys h' hp hopens
    have hgood := hstart.reach (sound hP) h
    have hstays : Stays g'.shared g''.shared := hgood.reach_rely (sound hP) h'
    have hopens' := hopens.same (hstays.1 hopens.salt_ne_none)
    have hkeys : HasKeys so P (some keys) g''.shared := by
      rintro _ ⟨⟩
      exact ⟨password, hp, hopens'⟩
    obtain ⟨_, -, -, -, hread⟩ := (hgood.reach (sound hP) h').inv.keyed hP hkeys
    exact ⟨hopens', hread, hstays.2⟩

/-! ### Two runs -/

/-- Two processes on a new database. -/
def lockedTwo : VaultConfig Bool := ⟨Db.empty, fun _ => ⟨none, none⟩⟩

/-- One process initialises the vault. -/
def initialised : VaultConfig Bool :=
  play (Among {samplePassword} fun _ => Keeps) lockedTwo
    (.start false (.unlock samplePassword) :: acts false 19 1 ++ [.finish false])

/-- The other one opens it and stores a secret. -/
def used : VaultConfig Bool :=
  play (Among {samplePassword} fun _ => Keeps) initialised
    (.start true (.unlock samplePassword) :: acts true 18 2 ++
      [.finish true, .start true (.put sampleName [1, 2] none 0)] ++ acts true 20 3)

/-- The other one is about to read the verifier. -/
def opening : VaultConfig Bool :=
  play (Among {samplePassword} fun _ => StoresFirst) lockedTwo
    (.start false (.unlock samplePassword) :: acts false 19 1 ++
      .start true (.unlock samplePassword) :: acts true 1 2)

theorem used_keeps :
    (next opening (.act true (calm 1735689600 2))).shared.metadata = opening.shared.metadata ∧
      (∀ i, HasKeys toy {samplePassword} (initialised.procs i).loc initialised.shared) ∧
      ∀ keys, Opens toy initialised.shared samplePassword keys →
        Opens toy used.shared samplePassword keys ∧ Readable toy keys used.shared.secrets ∧
          Grows Frozen initialised.shared.secrets.rows used.shared.secrets.rows := by
  have hP := distinct_singleton toy samplePassword
  have hfresh : Fresh lockedTwo.shared := ⟨⟨rfl, rfl⟩, rfl⟩
  have hopening := (@initialised_once toy _ _ _ lockedTwo opening hP (fun _ => rfl) hfresh).1
    (reach_play (by decide +kernel)) true (calm 1735689600 2)
  have hused := (@initialised_once toy _ _ _ lockedTwo initialised hP (fun _ => rfl) hfresh).2
    (reach_play (by decide +kernel))
  refine ⟨hopening _ (by decide +kernel) (by decide +kernel) (step_eq_next (by decide +kernel))
    (by decide +kernel), hused.1, fun keys => ?_⟩
  exact hused.2 used samplePassword keys (reach_play (by decide +kernel)) rfl

/-- Both processes find no credential, and the second one has stored its own. -/
def racing : VaultConfig Bool :=
  play (Among {samplePassword} fun _ _ _ => True) lockedTwo
    (.start false (.unlock samplePassword) :: acts false 18 1 ++
      .start true (.unlock samplePassword) :: acts true 19 2 ++ [.finish true])

/-- **The first one replaces it.** -/
theorem initialised_twice :
    ¬ ∀ (so : Sodium) (P : Set CString) (g g' g'' : VaultConfig Bool) (i : Bool) (es : ℕ → Input),
      DistinctVerifiers so P → (∀ i, g.procs i = ⟨none, none⟩) → Fresh g.shared →
      (vaultSystem so).Reach (Among P fun _ _ _ => True) g g' → isUnlocking (g'.procs i) →
      (vaultSystem so).step g' (.act i es) = some g'' → g'.shared.metadata .salt ≠ none →
      g''.shared.metadata = g'.shared.metadata ∧
        ∀ i, HasKeys so P (g''.procs i).loc g''.shared := by
  intro h
  have hstep : (vaultSystem toy).step racing (.act false (calm 1735689600 1)) =
      some (next racing (.act false (calm 1735689600 1))) := step_eq_next (by decide +kernel)
  obtain ⟨hsame, -⟩ := h toy {samplePassword} lockedTwo racing _ false _
    (distinct_singleton toy samplePassword) (fun _ => rfl) ⟨⟨rfl, rfl⟩, rfl⟩
    (reach_play (by decide +kernel)) (by decide +kernel) hstep (by decide +kernel)
  have hsalt : (next racing (.act false (calm 1735689600 1))).shared.metadata .salt ≠
      racing.shared.metadata .salt := by decide +kernel
  exact hsalt (congrFun hsame .salt)

end Fuin.Vault.Initialised

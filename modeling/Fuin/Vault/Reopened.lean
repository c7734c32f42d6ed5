import Fuin.Vault.Honest
import Fuin.Vault.Unlocking

/-! # The vault over many sessions

One process opens the vault, works, locks it and opens it again. At all times the stored credential
is that of one password, and the session that it opens has the keys under which the tables are sound
(`Held`): nobody is let in with other keys as long as different passwords have different verifiers
(`DistinctVerifiers`). -/

namespace Fuin.Vault.Reopened

open Fuin.Utils Fuin.Crypto Fuin.Lib.Program Fuin.Lib.Interleave Fuin.Lib.Growth
open Fuin.Store.Database Fuin.Kdf
open Fuin.Store.Secrets Fuin.Audit.Table Fuin.Audit.Encoding Fuin.Audit.Verify Fuin.Audit.Log
open Fuin.Audit.Resign Fuin.Vault.Rows Fuin.Vault.Transactions Fuin.Vault.Operations
open Fuin.Vault.Rules Fuin.Vault.Sessions Fuin.Vault.Committed Fuin.Vault.Versioned
open Fuin.Vault.Stored Fuin.Vault.Calls Fuin.Vault.Honest Fuin.Vault.Unlocking

/-- The passwords of an operation. -/
def passwordOf : Op → Option CString
  | .unlock password | .unlockExisting password | .rotateKek password => some password
  | _ => none

/-- The operation uses no password but these. -/
def Uses (P : Set CString) (op : Op) : Prop := ∀ p ∈ passwordOf op, p ∈ P

instance (p : CString) (op : Op) : Decidable (Uses {p} op) :=
  inferInstanceAs (Decidable (∀ q ∈ passwordOf op, q = p))

/-- Passwords that are hashed to different keys, with one salt, have different verifiers. -/
def DistinctVerifiers (so : Sodium) (P : Set CString) : Prop :=
  ∀ p ∈ P, ∀ q ∈ P, ∀ salt,
    so.sha256 (so.pwhash p.bytes salt).1 = so.sha256 (so.pwhash q.bytes salt).1 →
      so.pwhash p.bytes salt = so.pwhash q.bytes salt

/-- The stored credential is that of the password, and it opens a session with these keys. -/
def Opens (so : Sodium) (db : Db) (password : CString) (keys : Subkeys) : Prop :=
  ∃ salt metaKey nonce,
    db.metadata = credential so db.metadata salt (so.sha256 (so.pwhash password.bytes salt).1) metaKey
      (subkeysOf so (so.pwhash password.bytes salt)).kekEnc nonce ∧
    keys = { subkeysOf so (so.pwhash password.bytes salt) with kekMeta := metaKey }

/-- A vault that one process uses: nothing has been stored, or the credential is that of one of the
passwords and the tables are sound under its keys. -/
inductive Held (so : Sodium) (P : Set CString) (v : VaultState) : Prop
  | new : Stored none v.db v.db → v.session = none → v.db.secrets = .empty → v.db.audit = .empty →
      Held so P v
  | keyed {password : CString} {keys : Subkeys} : password ∈ P → Opens so v.db password keys →
      v.session = none ∨ v.session = some keys → Sound so keys v.db → Held so P v

/-- The vault of a database that has just been created. -/
def newVault : VaultState := ⟨Db.empty, none⟩

variable {so : Sodium} {P : Set CString} {keys : Subkeys} {db db' : Db} {password : CString}

theorem held_new : Held so P newVault := .new ⟨rfl, rfl⟩ rfl rfl rfl

/-! ### The credential -/

/-- The stored credential is the same; the time of a revocation does not belong to it. -/
def SameCredential (db db' : Db) : Prop := ∀ k ≠ .tokenNotBefore, db'.metadata k = db.metadata k

theorem Opens.same (h : Opens so db password keys) (hm : SameCredential db db') :
    Opens so db' password keys := by
  obtain ⟨salt, metaKey, nonce, hcred, hkeys⟩ := h
  refine ⟨salt, metaKey, nonce, ?_, hkeys⟩
  funext k
  have hk := congrFun hcred k
  cases k with
  | tokenNotBefore => rfl
  | _ => exact (hm _ (by decide)).trans hk

theorem Opens.of_metadata (h : Opens so db password keys) (hm : db'.metadata = db.metadata) :
    Opens so db' password keys := h.same fun k _ => congrFun hm k

theorem Opens.salt_ne_none (h : Opens so db password keys) : db.metadata .salt ≠ none := by
  obtain ⟨salt, metaKey, nonce, hcred, -⟩ := h
  rw [hcred]
  exact Option.some_ne_none _

/-- What there is to check. -/
theorem opens_iff : Opens so db password keys ↔
    ∃ salt ∈ db.metadata .salt, ∃ nonce ∈ db.metadata .metaKeyNonce, ∃ h : salt.length = 16,
      nonce.length = 24 ∧
      db.metadata .passwordVerifier = some (so.sha256 (so.pwhash password.bytes ⟨salt, h⟩).1).1 ∧
      db.metadata .metaKeyWrapped = some (so.encrypt .xchacha20Poly1305
        (subkeysOf so (so.pwhash password.bytes ⟨salt, h⟩)).kekEnc nonce metaKeyAad keys.kekMeta.1) ∧
      keys = { subkeysOf so (so.pwhash password.bytes ⟨salt, h⟩) with kekMeta := keys.kekMeta } := by
  constructor
  · rintro ⟨salt, metaKey, nonce, hcred, rfl⟩
    exact ⟨salt.1, congrFun hcred .salt, nonce.1, congrFun hcred .metaKeyNonce, salt.2, nonce.2,
      congrFun hcred .passwordVerifier, congrFun hcred .metaKeyWrapped, rfl⟩
  · rintro ⟨salt, hs, nonce, hn, h, hlen, hv, hw, hkeys⟩
    refine ⟨⟨salt, h⟩, keys.kekMeta, ⟨nonce, hlen⟩, ?_, hkeys⟩
    funext k
    cases k with
    | salt => exact hs
    | metaKeyNonce => exact hn
    | passwordVerifier => exact hv
    | metaKeyWrapped => exact hw
    | tokenNotBefore => rfl

instance : Decidable (Opens so db password keys) := decidable_of_iff _ opens_iff.symm

/-- A revocation of the tokens leaves the credential. -/
theorem sameCredential_revoked {b : Bytes}
    (hm : db'.metadata = Function.update db.metadata .tokenNotBefore (some b)) :
    SameCredential db db' := fun k hk => by rw [hm, Function.update_of_ne hk]

/-- The metadata key is unwrapped with the key it was wrapped with. -/
theorem unwrapMetaKey_credential {m : MetadataKey → Option Bytes} {salt : Block 16}
    {verifier metaKey wrappingKey : Block 32} {nonce : Block 24} :
    unwrapMetaKey so wrappingKey
      (credential so m salt verifier metaKey wrappingKey nonce .metaKeyNonce)
      (credential so m salt verifier metaKey wrappingKey nonce .metaKeyWrapped) = .ok metaKey := by
  have hlen : (so.encrypt .xchacha20Poly1305 wrappingKey nonce.1 metaKeyAad metaKey.1).length = 48 := by
    rw [Sodium.length_encrypt, metaKey.2]
    rfl
  refine bind_eq_ok.mpr ⟨(), require_eq_ok.mpr ⟨nonce.2, hlen⟩, ?_⟩
  rw [Sodium.decrypt_encrypt]
  exact dif_pos metaKey.2

/-- **Who is let in has the keys.** -/
theorem Opens.opened {q : CString} {salt : Block 16} {metaKey : Block 32}
    (h : Opens so db password keys) (hP : DistinctVerifiers so P) (hp : password ∈ P) (hq : q ∈ P)
    (hstored : Stored (some (salt, so.sha256 (so.pwhash q.bytes salt).1)) db db)
    (hmeta : unwrapMetaKey so (subkeysOf so (so.pwhash q.bytes salt)).kekEnc
      (db.metadata .metaKeyNonce) (db.metadata .metaKeyWrapped) = .ok metaKey) :
    { subkeysOf so (so.pwhash q.bytes salt) with kekMeta := metaKey } = keys := by
  obtain ⟨salt', metaKey', nonce, hcred, rfl⟩ := h
  obtain ⟨hs, hv⟩ := hstored
  rw [hcred] at hs hv
  obtain rfl : salt' = salt := Subtype.ext (Option.some.inj hs)
  have hmaster := hP password hp q hq salt' (Subtype.ext (Option.some.inj hv))
  rw [← hmaster, hcred, unwrapMetaKey_credential] at hmeta
  rw [← hmaster, Except.ok.inj hmeta]

/-- **The stored credential opens one session**, if different passwords have different verifiers. -/
theorem Opens.unique {q : CString} {keys' : Subkeys} (h : Opens so db password keys)
    (h' : Opens so db q keys') (hP : DistinctVerifiers so P) (hp : password ∈ P) (hq : q ∈ P) :
    keys' = keys := by
  obtain ⟨salt, metaKey, nonce, hcred, rfl⟩ := h'
  have hstored : Stored (some (salt, so.sha256 (so.pwhash q.bytes salt).1)) db db := by
    constructor
    · rw [hcred]
      rfl
    · rw [hcred]
      rfl
  refine h.opened hP hp hq hstored ?_
  rw [hcred]
  exact unwrapMetaKey_credential

/-! ### One call -/

/-- **A transaction that stores no credential** leaves the metadata, but for the time of a
revocation. -/
theorem tx_metadata {t : Tx} (hrun : (t.body so).Runs Stmt.exec db db' (.ok ()))
    (hkek : ∀ keys salt verifier newKeys, t ≠ .rotateKek keys salt verifier newKeys)
    (hstore : ∀ salt verifier keys, t ≠ .storeAuth salt verifier keys) :
    db'.metadata = db.metadata ∨ ∃ now auditKey, t = .revokeTokens now auditKey ∧
      db'.metadata = Function.update db.metadata .tokenNotBefore (some (u64le now)) := by
  cases t with
  | put => exact Or.inl (put_runs hrun).1.metadata
  | delete => exact Or.inl (delete_runs hrun).metadata
  | rollback => exact Or.inl (rollback_runs hrun).metadata
  | rotateDek => exact Or.inl (rotateDek_runs hrun).1.metadata
  | storeAuth => exact absurd rfl (hstore _ _ _)
  | rotateKek => exact absurd rfl (hkek _ _ _ _)
  | revokeTokens => exact Or.inr ⟨_, _, rfl, (revokeTokens_runs hrun).2.1⟩

theorem tx_sameCredential {t : Tx} (hrun : (t.body so).Runs Stmt.exec db db' (.ok ()))
    (hkek : ∀ keys salt verifier newKeys, t ≠ .rotateKek keys salt verifier newKeys)
    (hstore : ∀ salt verifier keys, t ≠ .storeAuth salt verifier keys) : SameCredential db db' := by
  rcases tx_metadata hrun hkek hstore with hm | ⟨_, _, -, hm⟩
  · exact fun k _ => congrFun hm k
  · exact sameCredential_revoked hm

/-- **A step of any operation but `vault_rotate_kek`** leaves the metadata, but for the time of a
revocation. -/
theorem step_metadata {op : Op} (hop : InSession op) (hkek : ∀ password, op ≠ .rotateKek password)
    (hs : Step so (some keys) op db db') :
    db'.metadata = db.metadata ∨ op = .revokeTokens ∧ ∃ now, 0 < now ∧
      db'.metadata = Function.update db.metadata .tokenNotBefore (some (u64le now)) := by
  cases hs with
  | @tx t _ _ ht hrun =>
    have hrotates : ∀ keys salt verifier newKeys, t ≠ .rotateKek keys salt verifier newKeys := by
      rintro _ _ _ _ rfl
      cases ht
      exact hkek _ rfl
    have hstores : ∀ salt verifier keys, t ≠ .storeAuth salt verifier keys := by
      rintro _ _ _ rfl
      cases ht
      exact hop
    rcases tx_metadata hrun hrotates hstores with hm | ⟨now, auditKey, rfl, hm⟩
    · exact Or.inl hm
    · cases ht with
      | revokeTokens hpos => exact Or.inr ⟨rfl, now, hpos, hm⟩
  | log => exact Or.inl rfl
  | note => exact Or.inl rfl

theorem Opens.step {op : Op} (h : Opens so db password keys) (hop : InSession op)
    (hkek : ∀ password, op ≠ .rotateKek password) (hs : Step so (some keys) op db db') :
    Opens so db' password keys := by
  rcases step_metadata hop hkek hs with hm | ⟨-, _, -, hm⟩
  · exact h.of_metadata hm
  · exact h.same (sameCredential_revoked hm)

/-- After a call of an open session the credential opens the session. -/
theorem keyed_after {op : Op} {world : ℕ → ℕ → Input} (hop : InSession op) (hU : Uses P op)
    (hp : password ∈ P) (ho : Opens so db password keys) (hsound : Sound so keys db) :
    Held so P (VaultState.after so ⟨db, some keys⟩ ⟨op, world⟩) ∧
      LogGrows db.audit (VaultState.after so ⟨db, some keys⟩ ⟨op, world⟩).db.audit := by
  have hrun := VaultState.outcome_runs so ⟨db, some keys⟩ ⟨op, world⟩
  have hafter : VaultState.after so ⟨db, some keys⟩ ⟨op, world⟩ =
      ⟨(VaultState.outcome so ⟨db, some keys⟩ ⟨op, world⟩).1,
        finish (some keys) op (VaultState.outcome so ⟨db, some keys⟩ ⟨op, world⟩).2⟩ := rfl
  rw [hafter]
  generalize VaultState.outcome so ⟨db, some keys⟩ ⟨op, world⟩ = out at hrun
  obtain ⟨db', r⟩ := out
  by_cases hkek : ∃ q, op = .rotateKek q
  · obtain ⟨q, rfl⟩ := hkek
    rcases Prog.runs_bind_cases hrun with ⟨e, he, h1⟩ | ⟨keys', db₁, h1, h2⟩
    · rcases rotateKek_call h1 with ⟨_, -, hdb⟩ | ⟨_, _, _, hr, -⟩
      · dsimp only at he hdb
        rw [he, hdb]
        exact ⟨.keyed hp ho (Or.inr rfl) hsound, List.prefix_rfl⟩
      · nomatch hr
    · obtain ⟨hdb, hr⟩ := Prog.runs_ret h2
      dsimp only at hdb hr
      rw [hdb, hr]
      rcases rotateKek_call h1 with ⟨_, he, -⟩ | ⟨salt, verifier, newKeys, hk, hcred, htx⟩
      · nomatch he
      · cases hk
        obtain ⟨hs, hg⟩ := hsound.rotateKek htx
        obtain ⟨-, rfl, rfl⟩ := deriveCredentials_runsIn (readOnly_deriveCredentials.still hcred)
        obtain ⟨nonce, _, -, -, hm, -⟩ := Committed.rotateKek_runs hsound.orderly.noNul hsound.numbered htx
        refine ⟨.keyed (hU q rfl) ⟨salt, _, nonce, ?_, rfl⟩ (Or.inr rfl) hs, hg⟩
        dsimp only
        rw [hm]
        funext k
        cases k <;> rfl
  · have hkek' : ∀ q, op ≠ .rotateKek q := fun q e => hkek ⟨q, e⟩
    obtain ⟨hs, ho', hg⟩ := call_preserves
      (P := fun d => Sound so keys d ∧ Opens so d password keys ∧ LogGrows db.audit d.audit)
      (fun d d' hstep hd => ⟨(hd.1.step hkek' hstep).1, hd.2.1.step hop hkek' hstep,
        hd.2.2.trans (hd.1.step hkek' hstep).2⟩) ⟨hsound, ho, List.prefix_rfl⟩ hrun
    exact ⟨.keyed hp ho' (Or.inr (finish_eq hop hkek')) hs, hg⟩

/-- A program that ends with its result. -/
theorem runs_bind_ret {α β : Type} {p : VaultProg α} {f : α → β} {r : Except Status β}
    (h : (p.bind fun a => .ret (f a)).Runs (Cmd.exec so) db db' r) :
    ∃ x, p.Runs (Cmd.exec so) db db' x ∧ r = x.map f := by
  rcases Prog.runs_bind_cases h with ⟨e, rfl, h1⟩ | ⟨a, db₁, h1, h2⟩
  · exact ⟨.error e, h1, rfl⟩
  · obtain ⟨rfl, rfl⟩ := Prog.runs_ret h2
    exact ⟨.ok a, h1, rfl⟩

/-- **Unlocking** lets in who knows the password, with the keys of the vault. -/
theorem Held.unlocked {v : VaultState} {q : CString} {allow : Bool} {r : Except Status Subkeys}
    (h : Held so P v) (hP : DistinctVerifiers so P) (hq : q ∈ P)
    (hrun : Unlocked so q allow v.db db' r) {session : Option Subkeys}
    (hsession : session = v.session ∨ session = r.toOption) :
    Held so P ⟨db', session⟩ ∧ LogGrows v.db.audit db'.audit := by
  obtain ⟨db, s⟩ := v
  cases hrun with
  | failed e =>
    refine ⟨?_, List.prefix_rfl⟩
    cases h with
    | new h1 h2 h3 h4 => exact .new h1 (hsession.elim (·.trans h2) id) h3 h4
    | keyed h1 h2 h3 h4 =>
      exact .keyed h1 h2 (hsession.elim (fun e => e ▸ h3) fun e => Or.inl e) h4
  | noted timestamp e =>
    refine ⟨?_, List.prefix_rfl⟩
    cases h with
    | new h1 h2 h3 h4 => exact .new h1 (hsession.elim (·.trans h2) id) h3 h4
    | keyed h1 h2 h3 h4 =>
      exact .keyed h1 (h2.of_metadata rfl) (hsession.elim (fun e => e ▸ h3) fun e => Or.inl e)
        ⟨h4.orderly, h4.readable, h4.numbered, h4.verified⟩
  | opened hstored hmeta =>
    refine ⟨?_, List.prefix_rfl⟩
    cases h with
    | new h1 h2 h3 h4 => nomatch h1.1.symm.trans hstored.1
    | keyed h1 h2 h3 h4 =>
      rw [h2.opened hP h1 hq hstored hmeta] at hsession
      exact .keyed h1 h2 (hsession.elim (fun e => e ▸ h3) Or.inr) h4
  | @stored salt nonce hallow hstored =>
    refine ⟨?_, List.prefix_rfl⟩
    cases h with
    | new h1 h2 h3 h4 =>
      refine .keyed hq ⟨salt, _, nonce, ?_, rfl⟩ (hsession.imp (·.trans h2) id) ⟨?_, ?_, ?_, ?_⟩
      · funext k
        cases k <;> rfl
      · dsimp only at h3 ⊢
        rw [h3]
        exact orderly_empty
      · dsimp only at h3 ⊢
        rw [h3]
        exact readable_empty
      · dsimp only at h4 ⊢
        rw [h4]
        exact counted_nil
      · dsimp only at h4 ⊢
        rw [h4]
        rfl
    | keyed h1 h2 h3 h4 =>
      obtain ⟨salt', metaKey, nonce', hcred, -⟩ := h2
      have hs := hstored.1
      rw [hcred] at hs
      nomatch hs

/-- What `vault_unlock` leaves of the session. -/
theorem afterUnlock_map (x : Except Status Subkeys) :
    finish.afterUnlock (x.map Result.session) = x.toOption := by
  cases x <;> rfl

/-- **One call**, whatever fails. -/
theorem Held.after {v : VaultState} {c : Call} (h : Held so P v) (hP : DistinctVerifiers so P)
    (hU : Uses P c.op) : Held so P (v.after so c) ∧ LogGrows v.db.audit (v.after so c).db.audit := by
  obtain ⟨op, world⟩ := c
  have hunlock (q : CString) (allow : Bool) (hq : q ∈ P) (hop : finish v.session op =
        (fun r => if q.bytes = [] then v.session else finish.afterUnlock r))
      (hcode : code so v.session op = (unlockInternal so q allow).bind fun k => .ret (.session k)) :
      Held so P (v.after so ⟨op, world⟩) ∧ LogGrows v.db.audit (v.after so ⟨op, world⟩).db.audit := by
    have hrun := VaultState.outcome_runs so v ⟨op, world⟩
    rw [hcode] at hrun
    obtain ⟨x, hx, hr⟩ := runs_bind_ret hrun
    refine h.unlocked hP hq (unlock_call hx) ?_
    rw [hop, hr]
    dsimp only
    rw [afterUnlock_map]
    split_ifs
    · exact Or.inl rfl
    · exact Or.inr rfl
  by_cases hin : InSession op
  · cases hs : v.session with
    | none =>
      have hcode : code so v.session op = .fail .auth := by
        rw [hs]
        cases op <;> first | rfl | exact hin.elim
      have hrun := VaultState.outcome_runs so v ⟨op, world⟩
      rw [hcode] at hrun
      obtain ⟨hdb, hr⟩ := Prog.runs_fail hrun
      have hv : v.after so ⟨op, world⟩ = v := by
        unfold VaultState.after
        rw [hdb, hr, hs]
        obtain ⟨db, s⟩ := v
        obtain rfl : s = none := hs
        cases op <;> first | rfl | exact hin.elim
      rw [hv]
      exact ⟨h, List.prefix_rfl⟩
    | some keys =>
      obtain ⟨db, s⟩ := v
      obtain rfl : s = some keys := hs
      cases h with
      | new h1 h2 h3 h4 => nomatch h2
      | keyed h1 h2 h3 h4 =>
        obtain rfl : keys = _ := Option.some.inj (h3.resolve_left fun e => nomatch e)
        exact keyed_after hin hU h1 h2 h4
  · cases op with
    | unlock q => exact hunlock q true (hU q rfl) rfl (by cases v.session <;> rfl)
    | unlockExisting q => exact hunlock q false (hU q rfl) rfl (by cases v.session <;> rfl)
    | _ => exact absurd trivial hin

/-- The tables are sound under the keys of an open session. -/
theorem Held.sound {v : VaultState} (h : Held so P v) (hs : v.session = some keys) :
    Sound so keys v.db := by
  cases h with
  | new h1 h2 h3 h4 => nomatch h2.symm.trans hs
  | keyed h1 h2 h3 h4 =>
    obtain rfl := Option.some.inj ((h3.resolve_left fun e => nomatch hs.symm.trans e).symm.trans hs)
    exact h4

/-- **Any number of calls.** -/
theorem Held.afterAll {v : VaultState} {cs : List Call} (h : Held so P v)
    (hP : DistinctVerifiers so P) (hU : ∀ c ∈ cs, Uses P c.op) :
    Held so P (v.afterAll so cs) ∧ LogGrows v.db.audit (v.afterAll so cs).db.audit :=
  VaultState.afterAll_induction (I := fun u => Held so P u ∧ LogGrows v.db.audit u.db.audit)
    ⟨h, List.prefix_rfl⟩ fun _ c hc hu =>
      ⟨(hu.1.after hP (hU c hc)).1, hu.2.trans (hu.1.after hP (hU c hc)).2⟩

/-! ### Many processes -/

/-- The session has the keys of the stored credential. -/
def HasKeys (so : Sodium) (P : Set CString) (session : Option Subkeys) (db : Db) : Prop :=
  ∀ keys ∈ session, ∃ password ∈ P, Opens so db password keys

instance (p : CString) (session : Option Subkeys) (db : Db) :
    Decidable (HasKeys so {p} session db) :=
  decidable_of_iff (∀ keys ∈ session, Opens so db p keys) (by simp [HasKeys])

/-- The runs in which the passwords are among `P` and `allow` admits the commands. -/
abbrev Among (P : Set CString) (allow : Option Subkeys → Cmd → Db → Prop) {ι : Type}
    (g : VaultConfig ι) (ev : Lib.Interleave.Event (ℕ → Input) Op ι) : Prop :=
  Obeys (fun _ op => Uses P op) (fun session _ _ c db => allow session c db) g ev

/-- The keys of a session with the password of the examples, and a vault initialised with it. -/
def sampleKeys : Subkeys := subkeysOf toy (toy.pwhash samplePassword.bytes (Block.zero 16))

def sampleDb : Db :=
  { Db.empty with
    metadata := credential toy (fun _ => none) (Block.zero 16)
      (toy.sha256 (toy.pwhash samplePassword.bytes (Block.zero 16)).1) sampleKeys.kekMeta
      sampleKeys.kekEnc (Block.zero 24) }

/-- One password has one verifier. -/
theorem distinct_singleton (so : Sodium) (p : CString) : DistinctVerifiers so {p} := by
  rintro _ rfl _ rfl _ _
  rfl

end Fuin.Vault.Reopened

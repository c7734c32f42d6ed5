import Fuin.Lib.Crashes
import Fuin.Vault.Listings

/-! # The life of a vault

What a vault is for, seen from outside: it keeps a versioned map under a password, and gives access to
it while it is unlocked (`Strongbox`). `Moves a op r a'` says what an operation that returns `r` may do
to it. A process works on the vault, locks it, or dies in the middle of a call (`Happening`), and the
next one goes on with the database it finds; the database stands for a strongbox all the time
(`Stands.call`, `Stands.crash`). -/

namespace Fuin.Vault.Lives

open Fuin.Utils Fuin.Crypto Fuin.Lib.Program Fuin.Lib.Crashes Fuin.Lib.Growth Fuin.Lib.Ledgers
open Fuin.Store.Secrets Fuin.Store.Database Fuin.Kdf Fuin.Audit.Table Fuin.Audit.Encoding
open Fuin.Vault.Rows Fuin.Vault.Transactions Fuin.Vault.Operations Fuin.Vault.Observed
open Fuin.Vault.Sessions Fuin.Vault.Committed Fuin.Vault.Versioned Fuin.Vault.Stored Fuin.Vault.Calls
open Fuin.Vault.Honest Fuin.Vault.Unlocking Fuin.Vault.Reopened Fuin.Vault.Refinement
open Fuin.Vault.Turns Fuin.Vault.Listings

/-! ### The vault from outside -/

/-- A versioned map under a password; there is no password before the first use. -/
structure Strongbox where
  password : Option CString
  ledger : Ledger CString Bytes
  unlocked : Bool

namespace Strongbox

/-- Nothing has been stored yet. -/
def new : Strongbox := ⟨none, .empty, false⟩

/-- `vault_lock`, and the end of the process. -/
def lock (a : Strongbox) : Strongbox := { a with unlocked := false }

/-- What an operation does to the password and to the access. -/
def Gate (a : Strongbox) : Op → Except Status Result → Strongbox → Prop
  | .unlock p, .ok _, a' => (a.password = none ∨ a.password = some p) ∧ a'.password = some p ∧
    a'.unlocked = true
  | .unlockExisting p, .ok _, a' => a.password = some p ∧ a'.password = some p ∧ a'.unlocked = true
  | .unlock p, .error _, a' | .unlockExisting p, .error _, a' => a'.password = a.password ∧
    a'.unlocked = (a.unlocked && decide (p.bytes = []))
  | .rotateKek p, .ok _, a' => a.unlocked = true ∧ a'.password = some p ∧ a'.unlocked = true
  | _, .ok _, a' => a.unlocked = true ∧ a'.password = a.password ∧ a'.unlocked = true
  | _, .error e, a' => (a.unlocked = false → e = .auth) ∧ a'.password = a.password ∧
    a'.unlocked = a.unlocked

/-- What an operation does to the ledger. -/
def Turns (b : Ledger CString Bytes) : Op → Except Status Result → Ledger CString Bytes → Prop
  | .list all, .ok (.items l), b' => b' = b ∧ Listed b all l
  | .list _, .ok _, _ => False
  | op, r, b' => Turn b op r b'

/-- **What an operation does**, with the result `r`. -/
def Moves (a : Strongbox) (op : Op) (r : Except Status Result) (a' : Strongbox) : Prop :=
  a.Gate op r a' ∧ Turns a.ledger op r a'.ledger

end Strongbox

/-! ### What happens to a vault -/

/-- A call, a call that the process does not survive (it dies after `n` commands), or a lock. -/
inductive Happening
  | call (c : Call)
  | crash (c : Call) (n : ℕ)
  | lock

/-- `vault_lock`. -/
def locked (v : VaultState) : VaultState := ⟨v.db, none⟩

/-- The vault that a process finds after another one has died in a call. -/
def crashed (so : Sodium) (v : VaultState) (c : Call) (n : ℕ) : VaultState :=
  ⟨interrupted (Cmd.exec so) (code so v.session c.op) n c.world v.db, none⟩

/-- The vault after something has happened. -/
def next (so : Sodium) (v : VaultState) : Happening → VaultState
  | .call c => v.after so c
  | .crash c n => crashed so v c n
  | .lock => locked v

/-- **The vault after a life.** -/
def lives (so : Sodium) (v : VaultState) (hs : List Happening) : VaultState := hs.foldl (next so) v

/-- The operation that is called. -/
def Happening.op : Happening → Option Op
  | .call c => some c.op
  | .crash c _ => some c.op
  | .lock => none

/-- Every call fails. -/
def refusal : ℕ → Input := fun _ => { fault := true, now := none, random := fun n => Block.fill n 0 }

variable {so : Sodium} {P N : Set CString} {keys : Subkeys} {b : Ledger CString Bytes}
  {a : Strongbox} {v : VaultState} {db db' : Db}

theorem exec_refusal (c : Cmd) (db : Db) : (Cmd.exec so refusal c db).1 = db := by
  cases c with
  | tx t => rfl
  | stmt c => cases c <;> rfl

/-- **A crash is a call**: one whose later commands fail, after which the process is gone. -/
theorem crashed_eq (v : VaultState) (c : Call) (n : ℕ) :
    crashed so v c n = locked (v.after so ⟨c.op, cutAt refusal n c.world⟩) := by
  unfold crashed
  rw [interrupted_eq_run exec_refusal]
  rfl

/-! ### The database stands for a strongbox -/

/-- Different passwords have different verifiers. -/
def DistinctPasswords (so : Sodium) (P : Set CString) : Prop :=
  ∀ p ∈ P, ∀ q ∈ P, ∀ salt,
    so.sha256 (so.pwhash p.bytes salt).1 = so.sha256 (so.pwhash q.bytes salt).1 → p = q

theorem DistinctPasswords.verifiers (h : DistinctPasswords so P) : DistinctVerifiers so P :=
  fun p hp q hq salt he => congrArg (fun x : CString => so.pwhash x.bytes salt) (h p hp q hq salt he)

/-- Under the keys of any of the passwords, different names are looked up under different hashes. -/
def DistinctNames (so : Sodium) (P N : Set CString) : Prop :=
  ∀ p ∈ P, ∀ salt, DistinctLookups so (subkeysOf so (so.pwhash p.bytes salt)) N

/-- The metadata key is that of one of the passwords: it was derived when the vault was initialised. -/
def Derived (so : Sodium) (P : Set CString) (keys : Subkeys) : Prop :=
  ∃ p ∈ P, ∃ salt, keys.kekMeta = (subkeysOf so (so.pwhash p.bytes salt)).kekMeta

theorem Derived.distinct (h : Derived so P keys) (hN : DistinctNames so P N) :
    DistinctLookups so keys N := by
  obtain ⟨p, hp, salt, hmeta⟩ := h
  exact (hN p hp salt).of_meta hmeta

/-- **The database stands for the strongbox**: nothing has been stored, or the stored credential is that
of its password, the tables are sound under the keys it opens, and they represent its ledger. -/
inductive Stands (so : Sodium) (P N : Set CString) : Strongbox → VaultState → Prop
  | new {v : VaultState} : Stored none v.db v.db → v.session = none → v.db.secrets = .empty →
      v.db.audit = .empty → Stands so P N .new v
  | keyed {v : VaultState} {p : CString} {keys : Subkeys} {b : Ledger CString Bytes} {u : Bool} :
      p ∈ P → Opens so v.db p keys → Derived so P keys → v.session = (if u then some keys else none) →
      Sound so keys v.db → Represents so keys N b v.db.secrets → Stands so P N ⟨some p, b, u⟩ v

theorem stands_new : Stands so P N .new newVault := .new ⟨rfl, rfl⟩ rfl rfl rfl

theorem Stands.locked (h : Stands so P N a v) : Stands so P N a.lock (locked v) := by
  cases h with
  | new h1 h2 h3 h4 => exact .new h1 rfl h3 h4
  | keyed hp ho hd hs hsound hrep => exact .keyed hp ho hd rfl hsound hrep

/-- The stored credential is that of the password. -/
theorem Stands.stored (h : Stands so P N a v) :
    (a.password = none ∧ Stored none v.db v.db) ∨
      ∃ p ∈ P, ∃ keys, a.password = some p ∧ Opens so v.db p keys := by
  cases h with
  | new h1 h2 h3 h4 => exact Or.inl ⟨rfl, h1⟩
  | keyed hp ho hd hs hsound hrep => exact Or.inr ⟨_, hp, _, rfl, ho⟩

/-- Who has a session has unlocked the box. -/
theorem Stands.unlocked (h : Stands so P N a v) (hs : v.session ≠ none) : a.unlocked = true := by
  cases h with
  | new h1 h2 h3 h4 => exact absurd h2 hs
  | @keyed _ p keys b u hp ho hd hsession hsound hrep =>
    cases u with
    | false => exact absurd hsession hs
    | true => rfl

/-- A name under which something is stored is not empty. -/
theorem Stands.name_nonempty {n : CString} (h : Stands so P N a v) (hn : n ∈ N)
    (hx : (a.ledger n).values ≠ []) : n.bytes ≠ [] := by
  cases h with
  | new h1 h2 h3 h4 => exact absurd rfl hx
  | keyed hp ho hd hs hsound hrep =>
    obtain ⟨y, hy⟩ := List.exists_mem_of_ne_nil _ hx
    obtain ⟨r, -, hstored⟩ := forall₂_mem_right (hrep.values n hn) hy
    obtain ⟨-, hne, -⟩ := hstored.shown
    exact hne

/-! ### Unlocking -/

theorem unlockInternal_nonempty {q : CString} {allow : Bool}
    (h : (unlockInternal so q allow).Runs (Cmd.exec so) db db' (.ok keys)) : q.bytes ≠ [] := by
  obtain ⟨out, db₁, h1, -⟩ := Prog.runs_bind h
  obtain ⟨_, hne, -⟩ := Prog.runs_ofExcept_bind (runs_sql h1)
  exact require_eq_ok.mp hne

/-- Access stays, or is given up. -/
theorem Stands.gated (h : Stands so P N a v) (p : Prop) [Decidable p] :
    Stands so P N { a with unlocked := a.unlocked && decide p }
      ⟨v.db, if p then v.session else none⟩ := by
  by_cases hp : p
  · simpa [hp] using h
  · simpa [hp] using (show Stands so P N ⟨a.password, a.ledger, false⟩ ⟨v.db, none⟩ from h.locked)

/-- The note of a failure is no part of what is stood for. -/
theorem Stands.noted (h : Stands so P N a v) (timestamp : Bytes) :
    Stands so P N a ⟨{ v.db with authFailures := v.db.authFailures ++ [timestamp] }, v.session⟩ := by
  cases h with
  | new h1 h2 h3 h4 => exact .new h1 h2 h3 h4
  | keyed hp ho hd hs hsound hrep =>
    refine .keyed hp (ho.of_metadata rfl) hd hs ?_ hrep
    exact ⟨hsound.orderly, hsound.readable, hsound.numbered, hsound.verified⟩

/-- What there is before the first use is in order under any keys. -/
theorem sound_new (hsec : db.secrets = .empty) (haud : db.audit = .empty) : Sound so keys db := by
  refine ⟨?_, ?_, ?_, ?_⟩
  · rw [hsec]
    exact orderly_empty
  · rw [hsec]
    exact readable_empty
  · rw [haud]
    exact counted_nil
  · rw [haud]
    rfl

/-- **Who is let in** knows the password, or chooses it if there is none. -/
theorem Stands.opens {q : CString} {allow : Bool} {x : Except Status Subkeys}
    (h : Stands so P N a v) (hP : DistinctPasswords so P) (hq : q ∈ P)
    (hrun : (unlockInternal so q allow).Runs (Cmd.exec so) v.db db' x) :
    ∃ a', Stands so P N a' ⟨db', if q.bytes = [] then v.session else x.toOption⟩ ∧
      a'.ledger = a.ledger ∧
      (∀ k, x = .ok k → (a.password = none ∧ allow = true ∨ a.password = some q) ∧
        a'.password = some q ∧ a'.unlocked = true) ∧
      ∀ e, x = .error e → a'.password = a.password ∧
        a'.unlocked = (a.unlocked && decide (q.bytes = [])) := by
  have hunlocked := unlock_call hrun
  cases hunlocked with
  | failed e =>
    exact ⟨_, h.gated (q.bytes = []), rfl, (fun k hk => by cases hk), fun _ _ => ⟨rfl, rfl⟩⟩
  | noted timestamp e =>
    have hnoted := (h.noted timestamp).gated (q.bytes = [])
    exact ⟨_, hnoted, rfl, (fun k hk => by cases hk), fun _ _ => ⟨rfl, rfl⟩⟩
  | @opened salt metaKey hstored hmeta =>
    have hne : q.bytes ≠ [] := unlockInternal_nonempty hrun
    cases h with
    | new h1 h2 h3 h4 => exact absurd (h1.1.symm.trans hstored.1) (by simp)
    | @keyed _ p keys b u hp ho hd hs hsound hrep =>
      have hkeys := ho.opened hP.verifiers hp hq hstored hmeta
      have hopens := ho
      obtain ⟨salt', metaKey', nonce, hcred, -⟩ := ho
      have hsalt : some salt'.1 = some salt.1 := (congrFun hcred .salt).symm.trans hstored.1
      have hverifier := (congrFun hcred .passwordVerifier).symm.trans hstored.2
      obtain rfl : salt' = salt := Subtype.ext (Option.some.inj hsalt)
      obtain rfl : p = q := hP p hp q hq salt' (Subtype.ext (Option.some.inj hverifier))
      rw [if_neg hne, hkeys]
      refine ⟨⟨some p, b, true⟩, ?_, rfl, fun _ _ => ⟨Or.inr rfl, rfl, rfl⟩, fun e he => by cases he⟩
      exact .keyed hp hopens hd rfl hsound hrep
  | @stored salt nonce hallow hstored =>
    have hne : q.bytes ≠ [] := unlockInternal_nonempty hrun
    cases h with
    | new h1 h2 h3 h4 =>
      rw [if_neg hne]
      refine ⟨⟨some q, .empty, true⟩, ?_, rfl, fun _ _ => ⟨Or.inl ⟨rfl, hallow⟩, rfl, rfl⟩,
        fun e he => by cases he⟩
      refine .keyed hq ⟨salt, _, nonce, ?_, rfl⟩ ⟨q, hq, salt, rfl⟩ rfl (sound_new h3 h4) ?_
      · funext k
        cases k <;> rfl
      · exact (congrArg (Represents so _ N Ledger.empty) h3).mpr represents_empty
    | keyed hp ho hd hs hsound hrep => exact absurd hstored.1 ho.salt_ne_none

/-! ### Working -/

/-- **`vault_rotate_kek`** leaves the ledger under the new password, or changes nothing. -/
theorem rotateKek_stands {q : CString} {x : Except Status Subkeys} (hq : q ∈ P)
    (hd : Derived so P keys) (hsound : Sound so keys db) (hrep : Represents so keys N b db.secrets)
    (h : (rotateKek so keys q).Runs (Cmd.exec so) db db' x) :
    (∃ e, x = .error e ∧ db' = db) ∨
      ∃ newKeys, x = .ok newKeys ∧ Stands so P N ⟨some q, b, true⟩ ⟨db', some newKeys⟩ := by
  rcases rotateKek_turn hsound hrep h with he | ⟨newKeys, rfl, hmeta, hsound', hrep'⟩
  · exact Or.inl he
  · rcases rotateKek_call h with ⟨e, he, -⟩ | ⟨salt, verifier, derived, hk, hcred, htx⟩
    · cases he
    · obtain rfl := Except.ok.inj hk
      obtain ⟨-, rfl, rfl⟩ := deriveCredentials_runsIn (readOnly_deriveCredentials.still hcred)
      obtain ⟨nonce, _, -, -, hm, -⟩ :=
        Committed.rotateKek_runs hsound.orderly.noNul hsound.numbered htx
      have hopens : Opens so db' q { subkeysOf so (so.pwhash q.bytes salt) with
          kekMeta := keys.kekMeta } := by
        refine ⟨salt, keys.kekMeta, nonce, ?_, rfl⟩
        rw [hm]
        funext k
        cases k <;> rfl
      obtain ⟨r, hr, salt', hr'⟩ := hd
      exact Or.inr ⟨_, rfl, .keyed hq hopens ⟨r, hr, salt', hmeta.trans hr'⟩ rfl hsound' hrep'⟩

/-- Tokens have nothing to do with the secrets. -/
theorem tokens_secrets {op : Op} {r : Except Status Result}
    (hop : op = .revokeTokens ∨ ∃ subject scope ttl, op = .issueToken subject scope ttl)
    (h : (unlockedCode so keys op).Runs (Cmd.exec so) db db' r) : db'.secrets = db.secrets := by
  have hcode : (code so (some keys) op).Runs (Cmd.exec so) db db' r := h
  refine call_preserves (P := fun d => d.secrets = db.secrets) (fun d d' hs hd => ?_) rfl hcode
  cases hs with
  | tx ht hrun =>
    rcases hop with rfl | ⟨_, _, _, rfl⟩
    · cases ht with
      | revokeTokens => exact (revokeTokens_runs hrun).1.trans hd
    · cases ht
  | log => exact hd
  | note => exact hd

/-- **An operation on the ledger** takes its turn. -/
theorem unlocked_turns {op : Op} {r : Except Status Result} (hin : InSession op)
    (hkek : ∀ password, op ≠ .rotateKek password) (hsound : Sound so keys db)
    (hrep : Represents so keys N b db.secrets) (hN : DistinctLookups so keys N)
    (hname : ∀ n ∈ nameOf op, n ∈ N) (h : (unlockedCode so keys op).Runs (Cmd.exec so) db db' r) :
    ∃ b', Strongbox.Turns b op r b' ∧ Represents so keys N b' db'.secrets := by
  cases op with
  | list all =>
    obtain ⟨x, hx, rfl⟩ := runs_bind_ret h
    have hruns := runs_sql hx
    obtain rfl : db' = db :=
      Prog.ReadOnly.runs (readOnly_currentTime.bind fun _ => Sql.readOnly_select) hruns
    refine ⟨b, ?_, hrep⟩
    cases x with
    | error e => exact rfl
    | ok items =>
      obtain ⟨now, db₁, h1, h2⟩ := Prog.runs_bind hruns
      obtain rfl := readOnly_currentTime.runs h1
      obtain ⟨items', hitems, hlisted⟩ := listed_ledger hsound.orderly hrep hN all now
      obtain rfl : items' = items := Except.ok.inj (hitems.symm.trans (Sql.runs_select h2).2)
      exact ⟨rfl, hlisted⟩
  | issueToken subject scope ttl =>
    have hsame := tokens_secrets (Or.inr ⟨_, _, _, rfl⟩) h
    exact ⟨b, rfl, hsame ▸ hrep⟩
  | revokeTokens =>
    have hsame := tokens_secrets (Or.inl rfl) h
    exact ⟨b, rfl, hsame ▸ hrep⟩
  | unlock _ | unlockExisting _ => exact hin.elim
  | rotateKek password => exact absurd rfl (hkek password)
  | _ =>
    refine unlocked_turn hsound hrep hN ?_ hkek hname h
    exact trivial

/-! ### Calls -/

/-- An operation of a locked vault is refused. -/
theorem code_locked {op : Op} (hin : InSession op) : code so none op = .fail .auth := by
  cases op with
  | unlock _ | unlockExisting _ => exact hin.elim
  | _ => rfl

theorem finish_locked {op : Op} (hin : InSession op) (e : Status) :
    finish none op (.error e) = none := by
  cases op with
  | unlock _ | unlockExisting _ => exact hin.elim
  | _ => rfl

theorem moves_refused {op : Op} (hin : InSession op) : a.Moves op (.error .auth) a := by
  have hfound : Status.auth = .notFound → (∀ x : Option Bytes, x = none) := fun h => by cases h
  constructor
  · cases op with
    | unlock _ | unlockExisting _ => exact hin.elim
    | _ => exact ⟨fun _ => rfl, rfl, rfl⟩
  · cases op with
    | unlock _ | unlockExisting _ => exact hin.elim
    | autoRotate fuel => exact ⟨[], Ledger.renewed_nil, fun x hx => by cases hx⟩
    | get name capacity => exact ⟨rfl, fun h => hfound h _⟩
    | getVersion name v capacity => exact ⟨rfl, fun h => hfound h _⟩
    | _ => exact rfl

/-- An operation of an unlocked vault leaves the password and the access. -/
theorem gate_session {op : Op} {r : Except Status Result} {b' : Ledger CString Bytes}
    {p : Option CString} (hin : InSession op) (hkek : ∀ password, op ≠ .rotateKek password) :
    Strongbox.Gate ⟨p, b, true⟩ op r ⟨p, b', true⟩ := by
  cases op with
  | unlock _ | unlockExisting _ => exact hin.elim
  | rotateKek password => exact absurd rfl (hkek password)
  | _ =>
    cases r with
    | ok x => exact ⟨rfl, rfl, rfl⟩
    | error e => exact ⟨(fun h => by cases h), rfl, rfl⟩

/-- What `vault_unlock` means for the strongbox. -/
theorem gate_unlock {q : CString} {x : Except Status Subkeys} {a' : Strongbox} {allow : Bool} {op : Op}
    (hop : op = if allow then .unlock q else .unlockExisting q)
    (hok : ∀ k, x = .ok k → (a.password = none ∧ allow = true ∨ a.password = some q) ∧
      a'.password = some q ∧ a'.unlocked = true)
    (herror : ∀ e, x = .error e → a'.password = a.password ∧
      a'.unlocked = (a.unlocked && decide (q.bytes = []))) :
    a.Gate op (x.map .session) a' := by
  cases allow with
  | true =>
    obtain rfl : op = .unlock q := hop
    cases x with
    | ok k => exact ⟨(hok k rfl).1.imp_left And.left, (hok k rfl).2⟩
    | error e => exact herror e rfl
  | false =>
    obtain rfl : op = .unlockExisting q := hop
    cases x with
    | ok k =>
      obtain ⟨hpassword, hrest⟩ := hok k rfl
      exact ⟨hpassword.resolve_left fun h => Bool.false_ne_true h.2, hrest⟩
    | error e => exact herror e rfl

/-- **One call**, whatever fails in it, is a move of the strongbox. -/
theorem Stands.call {c : Call} (h : Stands so P N a v) (hP : DistinctPasswords so P)
    (hN : DistinctNames so P N) (hU : Uses P c.op) (hname : ∀ n ∈ nameOf c.op, n ∈ N) :
    ∃ a', a.Moves c.op (v.outcome so c).2 a' ∧ Stands so P N a' (v.after so c) := by
  obtain ⟨op, world⟩ := c
  have hrun := VaultState.outcome_runs so v ⟨op, world⟩
  have hafter : v.after so ⟨op, world⟩ = ⟨(v.outcome so ⟨op, world⟩).1,
      finish v.session op (v.outcome so ⟨op, world⟩).2⟩ := rfl
  rw [hafter]
  generalize v.outcome so ⟨op, world⟩ = out at hrun
  obtain ⟨db', r⟩ := out
  dsimp only at hrun hU hname ⊢
  have hrefused (hin : InSession op) (hs : v.session = none) :
      ∃ a', a.Moves op r a' ∧ Stands so P N a' ⟨db', finish v.session op r⟩ := by
    rw [hs, code_locked hin] at hrun
    obtain ⟨rfl, rfl⟩ := Prog.runs_fail hrun
    rw [hs, finish_locked hin, ← hs]
    exact ⟨a, moves_refused hin, h⟩
  have hunlock (q : CString) (allow : Bool) (hq : q ∈ P)
      (hop : op = if allow then .unlock q else .unlockExisting q)
      (hfinish : finish v.session op r = if q.bytes = [] then v.session else finish.afterUnlock r)
      (hcode : code so v.session op = (unlockInternal so q allow).bind fun k => .ret (.session k)) :
      ∃ a', a.Moves op r a' ∧ Stands so P N a' ⟨db', finish v.session op r⟩ := by
    rw [hcode] at hrun
    obtain ⟨x, hx, rfl⟩ := runs_bind_ret hrun
    obtain ⟨a', hstands, hledger, hok, herror⟩ := h.opens hP hq hx
    rw [hfinish, afterUnlock_map]
    refine ⟨a', ⟨gate_unlock hop hok herror, ?_⟩, hstands⟩
    rw [hop]
    cases allow with
    | true => exact hledger
    | false => exact hledger
  by_cases hin : InSession op
  · cases h with
    | new h1 h2 h3 h4 => exact hrefused hin h2
    | @keyed _ p keys b u hp ho hd hs hsound hrep =>
      cases u with
      | false => exact hrefused hin hs
      | true =>
        have hs' : v.session = some keys := hs
        rw [hs'] at hrun ⊢
        by_cases hkek : ∃ q, op = .rotateKek q
        · obtain ⟨q, rfl⟩ := hkek
          obtain ⟨x, hx, rfl⟩ := runs_bind_ret hrun
          rcases rotateKek_stands (hU q rfl) hd hsound hrep hx with
            ⟨e, rfl, rfl⟩ | ⟨newKeys, rfl, hstands⟩
          · refine ⟨⟨some p, b, true⟩, ⟨⟨(fun he => by cases he), rfl, rfl⟩, rfl⟩, ?_⟩
            exact .keyed hp ho hd rfl hsound hrep
          · exact ⟨⟨some q, b, true⟩, ⟨⟨rfl, rfl, rfl⟩, rfl⟩, hstands⟩
        · have hkek' : ∀ q, op ≠ .rotateKek q := fun q e => hkek ⟨q, e⟩
          obtain ⟨b', hturns, hrep'⟩ :=
            unlocked_turns hin hkek' hsound hrep (hd.distinct hN) hname hrun
          obtain ⟨hsound', ho'⟩ := call_preserves
            (P := fun d => Sound so keys d ∧ Opens so d p keys)
            (fun d d' hstep hd => ⟨(hd.1.step hkek' hstep).1, hd.2.step hin hkek' hstep⟩)
            ⟨hsound, ho⟩ hrun
          rw [finish_eq hin hkek']
          refine ⟨⟨some p, b', true⟩, ⟨gate_session hin hkek', hturns⟩, ?_⟩
          exact .keyed hp ho' hd rfl hsound' hrep'
  · cases op with
    | unlock q => exact hunlock q true (hU q rfl) rfl rfl (by cases v.session <;> rfl)
    | unlockExisting q => exact hunlock q false (hU q rfl) rfl rfl (by cases v.session <;> rfl)
    | _ => exact absurd trivial hin

/-- **A crash**, after whatever command, leaves what some end of the call leaves. -/
theorem Stands.crash {c : Call} (n : ℕ) (h : Stands so P N a v) (hP : DistinctPasswords so P)
    (hN : DistinctNames so P N) (hU : Uses P c.op) (hname : ∀ m ∈ nameOf c.op, m ∈ N) :
    ∃ r a', a.Moves c.op r a' ∧ Stands so P N a'.lock (crashed so v c n) := by
  rw [crashed_eq]
  obtain ⟨a', hmoves, hstands⟩ := h.call (c := ⟨c.op, cutAt refusal n c.world⟩) hP hN hU hname
  exact ⟨_, a', hmoves, hstands.locked⟩

end Fuin.Vault.Lives

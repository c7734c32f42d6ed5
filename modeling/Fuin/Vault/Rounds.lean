import Fuin.Store.Expiry
import Fuin.Vault.Atomic

/-! # The rounds of `vault_auto_rotate_expired`

The loop looks for a secret that is due by one reading of the clock, and the step that rotates it
takes readings of its own: one to check again that the secret is due, and one for the new time of
expiry. A round that is counted has committed a new version exactly if the secret was found due
again (`Round.due`); and if every new time of expiry lies after the first reading (`Round.ahead`),
every round leaves one secret less that is due, so there are at most as many rounds as active
secrets. -/

namespace Fuin.Vault.Rounds

open Fuin.Utils Fuin.Time Fuin.Crypto Fuin.Lib.Program Fuin.Lib.Growth Fuin.Lib.Interleave
open Fuin.Store.Secrets Fuin.Store.Versions Fuin.Store.Expiry Fuin.Store.Database Fuin.CryptoEngine Fuin.Kdf
open Fuin.Audit.Table Fuin.Audit.Log Fuin.Vault.Rows Fuin.Vault.Transactions Fuin.Vault.Operations
open Fuin.Vault.Observed Fuin.Vault.Rules Fuin.Vault.Sessions Fuin.Vault.Committed
open Fuin.Vault.Versioned Fuin.Vault.Stored Fuin.Vault.Calls Fuin.Vault.Atomic

/-! ### Readings of the clock -/

/-- `time(NULL)`. -/
def isTime : Cmd → Bool
  | .stmt .time => true
  | _ => false

/-- The readings of the clock that a run takes outside its transactions, in order. -/
def readings {α : Type} (so : Sodium) (p : VaultProg α) (world : ℕ → ℕ → Input) (db : Db) :
    List (Option ℤ) :=
  (p.inputs (Cmd.exec so) isTime world db).map fun es => (es 0).now

/-- A program that does not read the clock. -/
abbrev Timeless {α : Type} (p : Sql α) : Prop := p.Silent fun c => isTime (.stmt c)

variable {so : Sodium} {keys : Subkeys} {name : CString} {db db' : Db} {α : Type}

theorem timeless_lib {e : Status} : Timeless (Sql.lib e) := by
  refine ⟨rfl, fun (ok : Bool) => ?_⟩
  cases ok <;> trivial

theorem timeless_libs : ∀ {es : List Status}, Timeless (Sql.libs es)
  | [] => trivial
  | _ :: _ => timeless_lib.bind fun _ => timeless_libs

theorem timeless_random {n : ℕ} : Timeless (Sql.random n) := ⟨rfl, fun _ => trivial⟩

theorem timeless_select {q : Db → Except Status α} : Timeless (Sql.select q) := by
  refine ⟨rfl, fun (r : Option Db) => ?_⟩
  cases r with
  | none => trivial
  | some db => exact Prog.silent_ofExcept

theorem timeless_newIdentity {stored : CString} : Timeless (newIdentity so stored) := by
  refine Prog.Silent.bind ?_ fun _ => Prog.silent_ofExcept.bind fun _ =>
    timeless_lib.bind fun _ => trivial
  exact timeless_lib.bind fun _ => timeless_random.bind fun _ => trivial

theorem timeless_decryptSecretAlloc {version : ℤ} :
    Timeless (decryptSecretAlloc so keys name version) := by
  refine Prog.silent_ofExcept.bind fun _ => ?_
  refine (Prog.silent_ofExcept.bind fun _ => timeless_select).bind fun row => ?_
  refine timeless_lib.bind fun _ => Prog.Silent.bind ?_ fun p =>
    Prog.silent_ofExcept.bind fun _ => trivial
  refine Prog.silent_ofExcept.bind fun _ => Prog.silent_ofExcept.bind fun _ =>
    timeless_libs.bind fun _ => ?_
  exact Prog.silent_ofExcept.bind fun _ => timeless_lib.bind fun _ =>
    Prog.silent_ofExcept.bind fun _ => timeless_libs.bind fun _ => Prog.silent_ofExcept

theorem timeless_encryptWithAlgorithm {plaintext : Bytes} {kek : Block 32} {secretId : CString}
    {version nonceCounter : ℤ} {algorithm : Option CString} :
    Timeless (encryptWithAlgorithm so plaintext kek secretId version nonceCounter algorithm) := by
  refine Prog.silent_ofExcept.bind fun _ => timeless_lib.bind fun _ => ?_
  refine Prog.silent_ofExcept.bind fun aad => Prog.silent_ofExcept.bind fun a => ?_
  refine Prog.silent_ofExcept.bind fun _ => Prog.Silent.bind ?_ fun nonce => ?_
  · cases a with
    | aes256Gcm => exact timeless_lib.bind fun _ => trivial
    | xchacha20Poly1305 => exact timeless_random.bind fun _ => trivial
    | aegis256 => exact timeless_random.bind fun _ => trivial
  · exact timeless_lib.bind fun _ => timeless_random.bind fun dek => timeless_lib.bind fun _ =>
      timeless_random.bind fun _ => timeless_libs.bind fun _ => trivial

/-- Statements take what they take by themselves. -/
theorem takes_sql {p : Sql α} {r : Except Status α} {l : List (ℕ → Input)}
    (h : (sql p).Takes (Cmd.exec so) isTime db db' r l) :
    p.Takes Stmt.exec (fun c => isTime (.stmt c)) db db' r (l.map fun es => es 0) :=
  Prog.Takes.of_lift h fun _ _ _ => ⟨rfl, rfl⟩

theorem time_takes {sel : Stmt → Bool} (hsel : sel .time = true) {now : Option ℤ} {l : List Input}
    (h : Sql.time.Takes Stmt.exec sel db db' (.ok now) l) : ∃ i : Input, l = [i] ∧ i.now = now := by
  obtain ⟨es, hrun, rfl⟩ := h
  refine ⟨es 0, ?_, Except.ok.inj (Prod.mk.inj hrun).2⟩
  show (if sel .time then [es 0] else []) ++ [] = [es 0]
  rw [if_pos hsel]
  rfl

/-- A text for a reading of the clock. -/
theorem reading_takes {f : Option ℤ → Except Status CString} {t : CString} {l : List Input}
    (h : (Sql.time.bind fun now => Prog.ofExcept (f now)).Takes Stmt.exec
      (fun c => isTime (.stmt c)) db db' (.ok t) l) : ∃ i : Input, l = [i] ∧ f i.now = .ok t := by
  obtain ⟨now, s₁, l₁, l₂, h1, h2, rfl⟩ := Prog.takes_bind h
  obtain ⟨i, rfl, rfl⟩ := time_takes rfl h1
  obtain rfl := Prog.silent_ofExcept.takes h2
  exact ⟨i, rfl, (Prog.runs_ofExcept h2.runs).2.symm⟩

/-- The new time of expiry, for an interval and the readings that are left. -/
def Expires (interval : ℤ) (readings : List (Option ℤ)) (expiresAt : Option CString) : Prop :=
  if 0 < interval then
    ∃ now e, readings = [now] ∧ plusSecondsIso8601 interval.toNat now = .ok e ∧ expiresAt = some e
  else readings = [] ∧ expiresAt = none

theorem expiryFor_takes {n : ℤ} {t : Option CString} {l : List Input}
    (h : (expiryFor n).Takes Stmt.exec (fun c => isTime (.stmt c)) db db' (.ok t) l) :
    Expires n (l.map Input.now) t := by
  unfold expiryFor at h
  unfold Expires
  split_ifs at h ⊢ with hn
  · obtain ⟨e, s₁, l₁, l₂, h1, h2, rfl⟩ := Prog.takes_bind h
    obtain ⟨i, rfl, hi⟩ := reading_takes h1
    obtain ⟨es, hret, rfl⟩ := h2
    cases hret
    exact ⟨i.now, e, rfl, hi, rfl⟩
  · obtain ⟨es, hret, rfl⟩ := h
    cases hret
    exact ⟨rfl, rfl⟩

/-- By this reading the step finds the secret due. -/
def foundDue (name : CString) (db : Db) (now : Option ℤ) : Bool :=
  match metadataOf name db, nowIso8601 now with
  | .ok (some metadata), .ok t => metadata.expiresAt.any fun e => expiryIsDue e t
  | _, _ => false

/-- The step has read the active row of the name and this clock. -/
def Checked (name : CString) (db : Db) (now : Option ℤ) : Prop :=
  ∃ metadata t, metadataOf name db = .ok (some metadata) ∧ nowIso8601 now = .ok t

/-- **The readings of one step**: the first decides whether the secret is still due, and if it is,
the new time of expiry is computed from the others. -/
theorem prepareRotation_takes {out : Option (SecretMetadata × NewSecret)} {l : List Input}
    (h : (prepareRotation so keys name).Takes Stmt.exec (fun c => isTime (.stmt c)) db db' (.ok out)
      l) :
    ∃ now rest, l.map Input.now = now :: rest ∧ Checked name db now ∧
      foundDue name db now = out.isSome ∧ ∀ metadata new, out = some (metadata, new) →
        Expires metadata.rotationInterval rest new.expiresAt := by
  obtain ⟨_, s₁, h0, ha⟩ := Prog.takes_silent_bind Prog.silent_ofExcept h
  obtain ⟨t, s₂, l₁, l₂, h1, hb, rfl⟩ := Prog.takes_bind ha
  obtain ⟨i, rfl, hi⟩ := reading_takes h1
  refine ⟨i.now, l₂.map Input.now, rfl, ?_⟩
  obtain ⟨m, s₃, h2, h⟩ := Prog.takes_silent_bind timeless_select hb
  obtain ⟨rfl, hm⟩ := Sql.runs_select h2
  rw [readOnly_currentTime.runs h1.runs, Prog.readOnly_ofExcept.runs h0] at hm
  have hfound : foundDue name db i.now = m.any fun metadata =>
      metadata.expiresAt.any fun e => expiryIsDue e t := by
    unfold foundDue
    rw [hm, hi]
    cases m <;> rfl
  rw [hfound]
  cases m with
  | none => cases (Prog.runs_fail h.runs).2
  | some metadata =>
    refine ⟨⟨metadata, t, hm, hi⟩, ?_⟩
    dsimp only at h
    split_ifs at h with hdue
    · obtain ⟨p, s₄, -, h⟩ := Prog.takes_silent_bind timeless_decryptSecretAlloc h
      obtain ⟨bounds, s₅, -, h⟩ := Prog.takes_silent_bind timeless_select h
      obtain ⟨_, s₆, -, h⟩ := Prog.takes_silent_bind Prog.silent_ofExcept h
      obtain ⟨next, s₇, -, h⟩ := Prog.takes_silent_bind Prog.silent_ofExcept h
      obtain ⟨ident, s₈, -, h⟩ := Prog.takes_silent_bind timeless_newIdentity h
      obtain ⟨expiresAt, s₉, l₃, l₄, h3, hc, rfl⟩ := Prog.takes_bind h
      obtain ⟨e, s₁₀, -, hd⟩ := Prog.takes_silent_bind timeless_encryptWithAlgorithm hc
      obtain ⟨es, hret, rfl⟩ := hd
      cases hret
      refine ⟨hdue, fun _ _ hout => ?_⟩
      cases hout
      show Expires metadata.rotationInterval ((l₃ ++ []).map Input.now) expiresAt
      rw [List.append_nil]
      exact expiryFor_takes h3
    · obtain ⟨es, hret, rfl⟩ := h
      cases hret
      exact ⟨Bool.eq_false_iff.mpr hdue, fun _ _ hout => by cases hout⟩

/-! ### One step -/

/-- The active row of the name has been rotated: the new version has the same plaintext, algorithm,
name and interval, and it expires by these readings of the clock. -/
structure Rotation (so : Sodium) (keys : Subkeys) (name : CString) (readings : List (Option ℤ))
    (r : SecretRow) (plaintext : Bytes) (new : NewSecret) (db db' : Db) : Prop where
  active : db.secrets.activeRow name.bytes = some r
  reads : Reads so keys.kekEnc r plaintext
  stores : Stores so keys rotateDekText name true plaintext (r.rotationInterval.getD 0) new db db'
  prepared : Prepared so keys plaintext (some (columnText r.algorithm)) new
  follows : Follows new.name db new.version new.nonceCounter
  nameNonce : new.nameNonce = r.nameNonce
  encryptedName : new.encryptedName = r.encryptedName
  expires : Expires new.rotationInterval readings new.expiresAt

/-- **One step of `vault_auto_rotate_expired`** that succeeds has rotated the secret if and only if
it has found it due. -/
theorem rotateExpiredSecret_takes {l : List (ℕ → Input)} (horder : Orderly db.secrets)
    (h : (rotateExpiredSecret so keys name).Takes (Cmd.exec so) isTime db db' (.ok ()) l) :
    ∃ now rest, (l.map fun es => (es 0).now) = now :: rest ∧ Checked name db now ∧
      (foundDue name db now = true ∧
          (∃ r plaintext new, Rotation so keys name rest r plaintext new db db') ∨
        foundDue name db now = false ∧ db' = db) := by
  obtain ⟨out, s₁, l₁, l₂, h1, h2, rfl⟩ := Prog.takes_bind h
  have h1' := takes_sql h1
  obtain rfl := readOnly_prepareRotation.runs h1'.runs
  obtain ⟨now, rest, hl, hchecked, hdue, hexp⟩ := prepareRotation_takes h1'
  rw [List.map_map] at hl
  refine ⟨now, rest, ?_, hchecked, ?_⟩
  · have hquiet : l₂ = [] := by
      refine Prog.Silent.takes ?_ h2
      cases out with
      | none => trivial
      | some p => exact ⟨rfl, fun _ => Prog.silent_ofExcept⟩
    rw [hquiet, List.append_nil]
    exact hl
  · cases out with
    | none => exact Or.inr ⟨hdue, (Prog.runs_ret h2.runs).1⟩
    | some p =>
      obtain ⟨metadata, new⟩ := p
      refine Or.inl ⟨hdue, ?_⟩
      rcases runs_transact h2.runs with ⟨-, h3⟩ | ⟨e, h3, -⟩
      · obtain ⟨_, _, _, q, plaintext, -, rfl, -, rfl, -, rfl, -, hn, hm, hq, hreads, hf, hp, e1, e2,
          e3⟩ := prepareRotation_runsIn (readOnly_prepareRotation.still h1'.runs)
        obtain ⟨row, hrow, hread⟩ := metadataOf_eq_some hm
        obtain ⟨hv, hi, hnonce, hname'⟩ := readMetadata_eq_ok hread
        obtain ⟨hmem, hname, -⟩ := SecretTable.activeRow_eq_some hrow
        -- the version that was decrypted is the active row
        rw [hv, horder.columnInt_version hmem, ← hname, SecretTable.versionRow_of_mem hmem] at hq
        obtain rfl := Option.some.inj hq
        have hrot := (rotateDek_runs h3).1
        rw [rotation_eq e1 e2 e3] at hrot
        exact ⟨row, plaintext, new, hrow, hreads,
          .of_committed horder hrot hn (hn ▸ hf) hp (e3.trans hi), hp, hn ▸ hf, e1.trans hnonce,
          e2.trans hname', e3 ▸ hexp metadata new rfl⟩
      · nomatch h3

/-! ### The texts of the rows -/

/-- The name of a row is a C string, and its time of expiry is a timestamp. -/
structure Textual (r : SecretRow) : Prop where
  name : ∃ c : CString, r.name = c.bytes
  expiresAt : ∀ e ∈ r.expiresAt, ∃ c : CString, e = c.bytes ∧ IsTime c

/-- The table is in order, and so are the texts of its rows. -/
structure Tidy (t : SecretTable) : Prop where
  orderly : Orderly t
  textual : ∀ r ∈ t.rows, Textual r

theorem tidy_empty : Tidy .empty := ⟨orderly_empty, fun _ h => nomatch h⟩

theorem textual_kept {r s : SecretRow} (h : Textual r) (hrs : Kept r s) : Textual s := by
  obtain ⟨_, _, _, _, _, rfl⟩ := hrs
  exact ⟨h.name, h.expiresAt⟩

theorem textual_prepared {plaintext : Bytes} {algorithm : Option CString} {new : NewSecret}
    (hp : Prepared so keys plaintext algorithm new) : Textual new.row := by
  refine ⟨⟨new.name, rfl⟩, fun e he => ?_⟩
  obtain ⟨t, ht, rfl⟩ := Option.mem_map.mp he
  exact ⟨t, rfl, hp.expires_time t ht⟩

/-- Rows that have only changed as `Kept` says. -/
theorem textual_of_kept {t u : SecretTable} (h : ∀ r ∈ t.rows, Textual r)
    (hrows : List.Forall₂ Kept t.rows u.rows) : ∀ r ∈ u.rows, Textual r := by
  intro s hs
  obtain ⟨r, hr, hrs⟩ := forall₂_mem_right hrows hs
  exact textual_kept (h r hr) hrs

/-- **Every transaction** leaves the texts in order. -/
theorem tx_textual {M : Ambient Db Input} {session : Option Subkeys} {op : Op} {t : Tx}
    {db₁ db₂ db₃ : Db} (ht : Proposed so M session op db₁ t) (hdb : Tidy db₂.secrets)
    (hrun : (t.body so).Runs Stmt.exec db₂ db₃ (.ok ())) : ∀ r ∈ db₃.secrets.rows, Textual r := by
  by_cases hkek : ∃ password, op = .rotateKek password
  · obtain ⟨password, rfl⟩ := hkek
    cases ht with
    | rotateKek h =>
      obtain ⟨_, _, _, -, hrows, -⟩ := rotateKek_rewraps hdb.orderly.noNul hrun
      exact textual_of_kept hdb.textual (hrows.imp fun _ _ => rewrapped_kept)
  · exact tx_rows ht (fun password e => hkek ⟨password, e⟩)
      (fun r s hrs hr => textual_kept hr hrs.kept)
      (fun _ _ _ _ _ hp _ => textual_prepared hp) hdb.textual hrun

/-- What a transaction of a process may find and leave: a tidy table, and more rows. -/
def tidyProtocol : Protocol Cmd Status Result Db (ℕ → Input) (Option Subkeys) Op :=
  { Versioned.protocol with
    inv := fun db => Tidy db.secrets
    loc_rely := fun _ _ _ => trivial }

theorem tidy_allows (session : Option Subkeys) (op : Op) :
    Allows so (tidyProtocol.contract session op) session op where
  read db _ := grows_refl db
  note db _ h := ⟨h, grows_refl db⟩
  log _ _ _ _ _ _ _ _ db _ _ _ _ _ _ h _ _ := ⟨h, grows_refl db⟩
  tx _ _ _ _ _ ht hrely hinv _ hrun := by
    obtain ⟨horder, hgrow⟩ :=
      tx_orderly ht (fun _ _ h => h) (fun _ h => h.orderly) hrely hinv.orderly hrun
    exact ⟨⟨horder, tx_textual ht hinv hrun⟩, hgrow⟩

theorem tidy_sound : tidyProtocol.Sound (vaultSystem so) :=
  sound_of_allows (fun l op _ _ _ => tidy_allows l op) (fun _ _ _ _ _ _ _ => trivial)
    fun _ _ _ _ _ _ => trivial

/-- **Every vault that some processes have led to** is tidy. -/
theorem tidy_reach {ι : Type} [DecidableEq ι] {g g' : VaultConfig ι}
    (hidle : ∀ i, (g.procs i).running = none) (hempty : g.shared.secrets = .empty)
    (h : (vaultSystem so).Reach (fun _ _ => True) g g') : Tidy g'.shared.secrets := by
  have hinv : Tidy g.shared.secrets := by
    rw [hempty]
    exact tidy_empty
  have hgood : tidyProtocol.Good (vaultSystem so) g' :=
    (Protocol.Good.of_idle hinv hidle fun _ => trivial).reach tidy_sound
      (h.mono _ fun g ev _ => obeys_true g ev)
  exact hgood.inv

/-! ### What a rotation leaves -/

section Rotation

variable {rest : List (Option ℤ)} {r : SecretRow} {plaintext : Bytes} {new : NewSecret}

theorem Rotation.rotates (h : Rotation so keys name rest r plaintext new db db') :
    Rotates so keys name db db' :=
  ⟨r, plaintext, new, h.active, h.reads, h.stores, algorithm_stays
    (SecretTable.admitted _ r (SecretTable.activeRow_eq_some h.active).1) h.prepared.algorithm⟩

theorem Rotation.orderly (h : Rotation so keys name rest r plaintext new db db')
    (horder : Orderly db.secrets) : Orderly db'.secrets := by
  refine newVersion_orderly h.stores.committed horder h.prepared.id h.prepared.expires ?_
  exact newVersion_next h.stores.committed (horder.history _) (horder.history _)
    (Grows.refl Kept.refl _) h.follows

theorem Rotation.tidy (h : Rotation so keys name rest r plaintext new db db')
    (htidy : Tidy db.secrets) : Tidy db'.secrets :=
  ⟨h.orderly htidy.orderly, newVersion_rows h.stores.committed
    (fun _ _ hrs hr => textual_kept hr hrs.kept) htidy.textual fun _ => textual_prepared h.prepared⟩

/-- The number of `ROTATE_DEK` entries of the log. -/
def rotateEntries (db : Db) : ℕ := db.audit.rows.countP fun e => e.action = rotateDekText.bytes

theorem rotates_entries (h : Rotates so keys name db db') :
    rotateEntries db' = rotateEntries db + 1 := by
  obtain ⟨_, _, new, -, -, hs, -⟩ := h
  obtain ⟨_, _, _, _, _, -, -, -, -, -, hrows⟩ := hs.committed.log.rows
  rw [rotateEntries, hrows, List.countP_append, rotateEntries]
  congr 1

/-- The new version replaces a row that was due. -/
theorem Rotation.length_due {first : CString} (h : Rotation so keys name rest r plaintext new db db')
    (hr : r ∈ due db.secrets first.bytes) (hnew : ∀ e ∈ new.expiresAt, first.bytes < e.bytes) :
    (due db'.secrets first.bytes).length + 1 = (due db.secrets first.bytes).length := by
  have hname : new.row.name = new.name.bytes := rfl
  refine length_due_insert h.stores.committed.insert hname (fun e he => ?_) hr ?_
  · obtain ⟨t, ht, rfl⟩ := Option.mem_map.mp he
    exact List.not_le.mpr (hnew t ht)
  · rw [h.stores.name]
    exact (SecretTable.activeRow_eq_some h.active).2.1

end Rotation

/-! ### The loop -/

/-- A round that is counted. -/
structure Round where
  name : CString
  readings : List (Option ℤ)
  before : Db
  after : Db

/-- The rounds of the loop that are counted, for the first reading `first`. -/
def rounds (so : Sodium) (keys : Subkeys) (first : CString) :
    ℕ → (ℕ → ℕ → Input) → Db → List Round
  | 0, _, _ => []
  | fuel + 1, world, db =>
    match ((sql (findNextExpired first)).run (Cmd.exec so) world db).2 with
    | .ok (some name) =>
      let world' := (sql (findNextExpired first)).rest (Cmd.exec so) world db
      let step := rotateExpiredSecret so keys name
      match step.run (Cmd.exec so) world' db with
      | (db', .ok ()) =>
        ⟨name, readings so step world' db, db, db'⟩ ::
          rounds so keys first fuel (step.rest (Cmd.exec so) world' db) db'
      | (_, .error _) => []
    | _ => []

/-- By its first reading the round has found the secret due. -/
def Round.due (rd : Round) : Bool :=
  match rd.readings with
  | now :: _ => foundDue rd.name rd.before now
  | [] => false

/-- The time of expiry that the round computes from its second reading lies after `first`. -/
def Round.ahead (first : CString) (rd : Round) : Bool :=
  match metadataOf rd.name rd.before, rd.readings with
  | .ok (some metadata), _ :: now :: _ =>
    match plusSecondsIso8601 metadata.rotationInterval.toNat now with
    | .ok e => decide (first.bytes < e.bytes)
    | .error _ => true
  | _, _ => true

variable {first : CString} {world : ℕ → ℕ → Input}

/-- The secret that the loop finds is due by the first reading. -/
theorem nextExpiredName_eq_some (htidy : Tidy db.secrets)
    (h : nextExpiredName first db = .ok (some name)) :
    ∃ r ∈ due db.secrets first.bytes, r.name = name.bytes ∧
      db.secrets.activeRow name.bytes = some r := by
  unfold nextExpiredName at h
  cases hr : db.secrets.nextExpired first.bytes with
  | none => rw [hr] at h; nomatch h
  | some r =>
    rw [hr] at h
    obtain ⟨n, hn, hret⟩ := bind_eq_ok.mp h
    cases hret
    simp only [bind_eq_ok, pure_eq_ok] at hn
    obtain ⟨-, -, rfl⟩ := hn
    have hdue := nextExpired_eq_some hr
    obtain ⟨hmem, hcur, -⟩ := mem_due.mp hdue
    obtain ⟨c, hc⟩ := (htidy.textual r hmem).name
    have hname : r.name = (columnText r.name).bytes := by rw [hc, columnText_bytes]
    refine ⟨r, hdue, hname, ?_⟩
    rw [← hname]
    exact (htidy.orderly.history r.name).activeRow_eq hmem hcur.1

theorem nextExpiredName_eq_none (h : nextExpiredName first db = .ok none) :
    due db.secrets first.bytes = [] := by
  refine nextExpired_eq_none.mp ?_
  unfold nextExpiredName at h
  cases hr : db.secrets.nextExpired first.bytes with
  | none => rfl
  | some r =>
    rw [hr] at h
    obtain ⟨n, -, hret⟩ := bind_eq_ok.mp h
    nomatch hret

/-- What the loop goes through: it ends in `db'` by itself with the rounds `l`, with an error or with
nothing left that is due, whatever larger bound it has. -/
theorem rounds_cases (so : Sodium) (keys : Subkeys) (first : CString) (fuel : ℕ)
    (world : ℕ → ℕ → Input) (db : Db) :
    (rounds so keys first (fuel + 1) world db = [] ∧ ∃ db₁, ∃ r : Except Status Unit,
        (r = .ok () → db₁ = db ∧ due db.secrets first.bytes = []) ∧ ∀ extra k,
          (rotateExpired so keys first (fuel + 1 + extra) k).run (Cmd.exec so) world db =
            (db₁, r.map fun _ => k)) ∨
      ∃ name db' l j, nextExpiredName first db = .ok (some name) ∧
        (rotateExpiredSecret so keys name).Takes (Cmd.exec so) isTime db db' (.ok ()) l ∧
        (∀ es ∈ l, ∃ n, es = world n) ∧
        rounds so keys first (fuel + 1) world db =
          ⟨name, l.map fun es => (es 0).now, db, db'⟩ ::
            rounds so keys first fuel (fun n => world (n + j)) db' ∧
        ∀ extra k, (rotateExpired so keys first (fuel + 1 + extra) k).run (Cmd.exec so) world db =
          (rotateExpired so keys first (fuel + extra) (k + 1)).run (Cmd.exec so)
            (fun n => world (n + j)) db' := by
  have hstep (extra k : ℕ) : rotateExpired so keys first (fuel + 1 + extra) k =
      (sql (findNextExpired first)).bind fun found => found.elim (.ret k) fun name =>
        (rotateExpiredSecret so keys name).bind fun _ =>
          rotateExpired so keys first (fuel + extra) (k + 1) := by
    rw [Nat.add_right_comm]
    refine congrArg _ (funext fun found => ?_)
    cases found <;> rfl
  rcases hfind : (sql (findNextExpired first)).run (Cmd.exec so) world db with ⟨db₁, e | found⟩
  · refine Or.inl ⟨by rw [rounds, hfind], db₁, .error e, fun h => (nomatch h), fun extra k => ?_⟩
    rw [hstep, Prog.run_bind, hfind]
    rfl
  · have hrun := runs_sql ⟨world, hfind⟩
    obtain ⟨rfl, hnext⟩ := Sql.runs_select hrun
    obtain ⟨i, hi⟩ := Prog.exists_rest (Cmd.exec so) (sql (findNextExpired first)) world db₁
    cases found with
    | none =>
      refine Or.inl ⟨by rw [rounds, hfind], db₁, .ok (), fun _ => ⟨rfl, ?_⟩, fun extra k => ?_⟩
      · exact nextExpiredName_eq_none hnext
      · rw [hstep, Prog.run_bind, hfind]
        rfl
    | some name =>
      rcases hrot : (rotateExpiredSecret so keys name).run (Cmd.exec so) (fun n => world (n + i)) db₁
        with ⟨db₂, e | _⟩
      · refine Or.inl ⟨?_, db₂, .error e, fun h => (nomatch h), fun extra k => ?_⟩
        · rw [rounds, hfind]
          dsimp only
          rw [hi, hrot]
        · rw [hstep, Prog.run_bind, hfind]
          dsimp only
          rw [hi, Option.elim_some, Prog.run_bind, hrot]
          rfl
      · obtain ⟨j, hj⟩ := Prog.exists_rest (Cmd.exec so) (rotateExpiredSecret so keys name)
          (fun n => world (n + i)) db₁
        refine Or.inr ⟨name, db₂, _, j + i, hnext, ⟨_, hrot, rfl⟩, fun es hes => ?_, ?_,
          fun extra k => ?_⟩
        · obtain ⟨n, hn⟩ := Prog.mem_inputs hes
          exact ⟨n + i, hn.symm⟩
        · rw [rounds, hfind]
          dsimp only
          rw [hi, hrot]
          dsimp only
          rw [hj]
          simp only [Nat.add_assoc]
          rfl
        · rw [hstep, Prog.run_bind, hfind]
          dsimp only
          rw [hi, Option.elim_some, Prog.run_bind, hrot]
          dsimp only
          rw [hj]
          simp only [Nat.add_assoc]

/-- What is known of a round: it is one successful step for the secret that was due next. -/
structure Counted (so : Sodium) (keys : Subkeys) (first : CString) (world : ℕ → ℕ → Input)
    (rd : Round) : Prop where
  tidy : Tidy rd.before.secrets
  found : nextExpiredName first rd.before = .ok (some rd.name)
  step : ∃ l, (rotateExpiredSecret so keys rd.name).Takes (Cmd.exec so) isTime rd.before rd.after
    (.ok ()) l ∧ rd.readings = l.map fun es => (es 0).now
  readings : ∀ now ∈ rd.readings, ∃ n, now = (world n 0).now

/-- **A round that is counted** has rotated the secret if and only if it has found it due. -/
theorem Counted.cases {rd : Round} (h : Counted so keys first world rd) :
    ∃ now rest, rd.readings = now :: rest ∧ Checked rd.name rd.before now ∧
      (rd.due = true ∧
          (∃ r plaintext new, Rotation so keys rd.name rest r plaintext new rd.before rd.after) ∨
        rd.due = false ∧ rd.after = rd.before) := by
  obtain ⟨l, hstep, hl⟩ := h.step
  obtain ⟨now, rest, hreadings, hchecked, hcases⟩ := rotateExpiredSecret_takes h.tidy.orderly hstep
  rw [← hl] at hreadings
  have hdue : rd.due = foundDue rd.name rd.before now := by rw [Round.due, hreadings]
  refine ⟨now, rest, hreadings, hchecked, ?_⟩
  rw [hdue]
  exact hcases

theorem Counted.tidy_after {rd : Round} (h : Counted so keys first world rd) :
    Tidy rd.after.secrets := by
  obtain ⟨_, _, -, -, ⟨-, _, _, _, hrot⟩ | ⟨-, hsame⟩⟩ := h.cases
  · exact hrot.tidy h.tidy
  · rw [hsame]
    exact h.tidy

theorem Counted.rotates_iff {rd : Round} (h : Counted so keys first world rd) :
    Rotates so keys rd.name rd.before rd.after ↔ rd.due = true := by
  obtain ⟨_, _, -, -, ⟨hdue, _, _, _, hrot⟩ | ⟨hdue, hsame⟩⟩ := h.cases
  · exact ⟨fun _ => hdue, fun _ => hrot.rotates⟩
  · refine ⟨fun hrot => ?_, fun h' => ?_⟩
    · have hlog := rotates_entries hrot
      rw [hsame] at hlog
      omega
    · rw [hdue] at h'
      nomatch h'

theorem Counted.entries {rd : Round} (h : Counted so keys first world rd) :
    rotateEntries rd.after = rotateEntries rd.before + if rd.due then 1 else 0 := by
  obtain ⟨_, _, -, -, ⟨hdue, _, _, _, hrot⟩ | ⟨hdue, hsame⟩⟩ := h.cases
  · rw [hdue, if_pos rfl]
    exact rotates_entries hrot.rotates
  · rw [hdue, hsame, if_neg Bool.false_ne_true]
    rfl

/-- **A secret that is rotated is not due any more** by the first reading. -/
theorem Counted.length_due {rd : Round} (h : Counted so keys first world rd) (hdue : rd.due = true)
    (hahead : rd.ahead first = true) :
    (due rd.after.secrets first.bytes).length + 1 =
      (due rd.before.secrets first.bytes).length := by
  obtain ⟨now, rest, hreadings, ⟨m, _, hm, -⟩, ⟨-, r, _, new, hrot⟩ | ⟨hnot, -⟩⟩ := h.cases
  · obtain ⟨r', hr', -, hactive⟩ := nextExpiredName_eq_some h.tidy h.found
    obtain rfl := Option.some.inj (hrot.active.symm.trans hactive)
    refine hrot.length_due hr' fun e he => ?_
    obtain ⟨q, hq, hread⟩ := metadataOf_eq_some hm
    obtain rfl := Option.some.inj (hq.symm.trans hactive)
    have hinterval : m.rotationInterval = new.rotationInterval :=
      (readMetadata_eq_ok hread).2.1.trans hrot.stores.interval.symm
    have hexp := hrot.expires
    unfold Expires at hexp
    split_ifs at hexp
    · obtain ⟨now', e', rfl, hplus, hnew⟩ := hexp
      obtain rfl := Option.some.inj (hnew.symm.trans he)
      simp only [Round.ahead, hm, hreadings, hinterval, hplus] at hahead
      exact of_decide_eq_true hahead
    · nomatch hexp.2.symm.trans he
  · rw [hnot] at hdue
    nomatch hdue

theorem Counted.mono {rd : Round} {world' : ℕ → ℕ → Input} (h : Counted so keys first world' rd)
    {j : ℕ} (hworld : world' = fun n => world (n + j)) : Counted so keys first world rd :=
  ⟨h.tidy, h.found, h.step, fun now hnow => by
    obtain ⟨n, hn⟩ := h.readings now hnow
    exact ⟨n + j, by rw [hn, hworld]⟩⟩

/-- **Every round is one of these steps.** -/
theorem rounds_counted {fuel : ℕ} (htidy : Tidy db.secrets) :
    ∀ rd ∈ rounds so keys first fuel world db, Counted so keys first world rd := by
  induction fuel generalizing world db with
  | zero => exact fun rd h => nomatch h
  | succ fuel ih =>
    rcases rounds_cases so keys first fuel world db with
      ⟨hnil, -⟩ | ⟨name, db', l, j, hfound, hstep, hl, hrounds, -⟩
    · rw [hnil]
      exact fun rd h => nomatch h
    · have hhead : Counted so keys first world ⟨name, l.map fun es => (es 0).now, db, db'⟩ := by
        refine ⟨htidy, hfound, ⟨l, hstep, rfl⟩, fun now hnow => ?_⟩
        obtain ⟨es, hes, rfl⟩ := List.mem_map.mp hnow
        obtain ⟨n, rfl⟩ := hl es hes
        exact ⟨n, rfl⟩
      rw [hrounds]
      intro rd hrd
      rcases List.mem_cons.mp hrd with rfl | hrd
      · exact hhead
      · exact (ih hhead.tidy_after rd hrd).mono rfl

/-- The rounds lead from `db` to `db'`. -/
def Linked (db : Db) : List Round → Db → Prop
  | [], db' => db' = db
  | rd :: l, db' => rd.before = db ∧ Linked rd.after l db'

theorem linked_entries {l : List Round} (hl : ∀ rd ∈ l, Counted so keys first world rd)
    (h : Linked db l db') : rotateEntries db' = rotateEntries db + l.countP Round.due := by
  induction l generalizing db with
  | nil =>
    rw [show db' = db from h]
    rfl
  | cons rd l ih =>
    obtain ⟨rfl, h⟩ := h
    rw [ih (fun rd hrd => hl rd (List.mem_cons_of_mem _ hrd)) h, (hl rd List.mem_cons_self).entries,
      List.countP_cons]
    omega

/-- **What the loop returns** is the number of its rounds, and then nothing is due any more by the
first reading. -/
theorem rotateExpired_run {fuel k n : ℕ}
    (h : (rotateExpired so keys first fuel k).run (Cmd.exec so) world db = (db', .ok n)) :
    n = k + (rounds so keys first fuel world db).length ∧
      Linked db (rounds so keys first fuel world db) db' ∧ due db'.secrets first.bytes = [] := by
  induction fuel generalizing k world db with
  | zero => nomatch (Prod.mk.inj h).2
  | succ fuel ih =>
    rcases rounds_cases so keys first fuel world db with
      ⟨hnil, db₁, r, hr, hrun⟩ | ⟨name, db₁, l, j, -, -, -, hrounds, hrun⟩
    · obtain ⟨rfl, hn⟩ := Prod.mk.inj ((hrun 0 k).symm.trans h)
      cases r with
      | error e => nomatch hn
      | ok _ =>
        obtain ⟨rfl, hdue⟩ := hr rfl
        cases hn
        rw [hnil]
        exact ⟨rfl, rfl, hdue⟩
    · obtain ⟨rfl, hlinked, hdue⟩ := ih ((hrun 0 k).symm.trans h)
      rw [hrounds, List.length_cons]
      exact ⟨by omega, ⟨rfl, hlinked⟩, hdue⟩

/-- A bound that the rounds do not use up has no influence. -/
theorem rotateExpired_stable {fuel : ℕ} (k extra : ℕ)
    (h : (rounds so keys first fuel world db).length < fuel) :
    (rotateExpired so keys first (fuel + extra) k).run (Cmd.exec so) world db =
      (rotateExpired so keys first fuel k).run (Cmd.exec so) world db := by
  induction fuel generalizing k world db with
  | zero => nomatch h
  | succ fuel ih =>
    rcases rounds_cases so keys first fuel world db with
      ⟨-, db₁, r, -, hrun⟩ | ⟨name, db₁, l, j, -, -, -, hrounds, hrun⟩
    · rw [hrun extra k, hrun 0 k]
    · rw [hrounds, List.length_cons, Nat.add_lt_add_iff_right] at h
      rw [hrun extra k, hrun 0 k]
      exact ih (k + 1) h

/-- **The rounds come to an end**: every one of them leaves one secret less that is due. -/
theorem length_rounds_le {fuel : ℕ} (htidy : Tidy db.secrets)
    (h : ∀ rd ∈ rounds so keys first fuel world db, rd.due ∧ rd.ahead first) :
    (rounds so keys first fuel world db).length ≤ (due db.secrets first.bytes).length := by
  induction fuel generalizing world db with
  | zero => exact Nat.zero_le _
  | succ fuel ih =>
    have hcounted : ∀ rd ∈ rounds so keys first (fuel + 1) world db, Counted so keys first world rd :=
      rounds_counted htidy
    rcases rounds_cases so keys first fuel world db with
      ⟨hnil, -⟩ | ⟨name, db₁, l, j, hfound, -, -, hrounds, -⟩
    · rw [hnil]
      exact Nat.zero_le _
    · rw [hrounds] at h hcounted ⊢
      have hhead := hcounted _ List.mem_cons_self
      obtain ⟨hdue, hahead⟩ := h _ List.mem_cons_self
      have htail : (rounds so keys first fuel (fun n => world (n + j)) db₁).length ≤
          (due db₁.secrets first.bytes).length :=
        ih hhead.tidy_after fun rd hrd => h rd (List.mem_cons_of_mem _ hrd)
      have hless : (due db₁.secrets first.bytes).length + 1 = (due db.secrets first.bytes).length :=
        hhead.length_due hdue hahead
      rw [List.length_cons]
      omega

/-! ### `vault_auto_rotate_expired` -/

/-- The rounds of a call that are counted. -/
def callRounds (so : Sodium) (keys : Subkeys) (fuel : ℕ) (world : ℕ → ℕ → Input) (db : Db) :
    List Round :=
  match nowIso8601 (world 0 0).now with
  | .ok first => rounds so keys first fuel (fun n => world (n + 1)) db
  | .error _ => []

/-- The new time of expiry of the round lies after the first reading of the call. -/
def Round.later (world : ℕ → ℕ → Input) (rd : Round) : Bool :=
  match nowIso8601 (world 0 0).now with
  | .ok first => rd.ahead first
  | .error _ => true

theorem autoRotateExpired_run (so : Sodium) (keys : Subkeys) (fuel : ℕ) (world : ℕ → ℕ → Input)
    (db : Db) :
    (autoRotateExpired so keys fuel).run (Cmd.exec so) world db =
      match nowIso8601 (world 0 0).now with
      | .ok first =>
        (rotateExpired so keys first fuel 0).run (Cmd.exec so) (fun n => world (n + 1)) db
      | .error e => (db, .error e) := by
  have hread : (sql currentTime).run (Cmd.exec so) world db =
      (db, nowIso8601 (world 0 0).now) := by
    rw [run_sql]
    show (Prog.ofExcept (nowIso8601 (world 0 0).now) : Sql CString).run Stmt.exec _ db = _
    cases nowIso8601 (world 0 0).now <;> rfl
  have hrest : (sql currentTime).rest (Cmd.exec so) world db = fun n => world (n + 1) := by
    show ((Prog.ofExcept (nowIso8601 (world 0 0).now) : Sql CString).lift Cmd.stmt fun _ r => r).rest
      (Cmd.exec so) (fun n => world (n + 1)) db = _
    cases nowIso8601 (world 0 0).now <;> rfl
  unfold autoRotateExpired
  rw [Prog.bind_def, Prog.run_bind, hread, hrest]
  cases nowIso8601 (world 0 0).now <;> rfl

/-- **The call accounts for its rounds**: there are at most as many as active secrets, each has
committed one new version and its `ROTATE_DEK` entry, and the number that is returned is the number
of these entries. -/
structure Accounted (so : Sodium) (keys : Subkeys) (fuel : ℕ) (world : ℕ → ℕ → Input) (db : Db) :
    Prop where
  bounded : (callRounds so keys fuel world db).length ≤ (current db.secrets).length
  committed : ∀ rd ∈ callRounds so keys fuel world db, Rotates so keys rd.name rd.before rd.after
  count : ∀ db' n, (autoRotateExpired so keys fuel).run (Cmd.exec so) world db = (db', .ok n) →
    rotateEntries db' = rotateEntries db + n

/-- **The rounds of `vault_auto_rotate_expired`**, in every vault that some processes have led to and
for all readings of the clock. If every round finds its secret due again, and its new time of expiry
lies after the first reading, the call accounts for its rounds, and the loop ends by itself; and
without the former it does not. -/
theorem rounds_accounted {ι : Type} [DecidableEq ι] {g g' : VaultConfig ι} {fuel : ℕ}
    (hidle : ∀ i, (g.procs i).running = none) (hempty : g.shared.secrets = .empty)
    (h : (vaultSystem so).Reach (fun _ _ => True) g g') :
    ((∀ rd ∈ callRounds so keys fuel world g'.shared, rd.due = true ∧ rd.later world = true) →
      Accounted so keys fuel world g'.shared ∧
        ((current g'.shared.secrets).length < fuel → ∀ extra,
          (autoRotateExpired so keys (fuel + extra)).run (Cmd.exec so) world g'.shared =
            (autoRotateExpired so keys fuel).run (Cmd.exec so) world g'.shared)) ∧
    (Accounted so keys fuel world g'.shared →
      ∀ rd ∈ callRounds so keys fuel world g'.shared, rd.due = true) := by
  have htidy := tidy_reach hidle hempty h
  have hrounds : ∀ rd ∈ callRounds so keys fuel world g'.shared,
      Rotates so keys rd.name rd.before rd.after ↔ rd.due = true := by
    unfold callRounds
    split
    · exact fun rd hrd => (rounds_counted htidy rd hrd).rotates_iff
    · exact fun rd hrd => nomatch hrd
  refine ⟨fun hall => ?_, fun hacc rd hrd => (hrounds rd hrd).mp (hacc.committed rd hrd)⟩
  have hcommitted := fun rd hrd => (hrounds rd hrd).mpr (hall rd hrd).1
  unfold callRounds Round.later at hall
  cases hfirst : nowIso8601 (world 0 0).now with
  | error e =>
    refine ⟨⟨?_, hcommitted, fun db' n hrun => ?_⟩, fun _ extra => ?_⟩
    · rw [callRounds, hfirst]
      exact Nat.zero_le _
    · rw [autoRotateExpired_run, hfirst] at hrun
      nomatch (Prod.mk.inj hrun).2
    · rw [autoRotateExpired_run, autoRotateExpired_run, hfirst]
  | ok first =>
    rw [hfirst] at hall
    have hle := (length_rounds_le htidy hall).trans (length_due_le g'.shared.secrets first.bytes)
    refine ⟨⟨?_, hcommitted, fun db' n hrun => ?_⟩, fun hfuel extra => ?_⟩
    · rw [callRounds, hfirst]
      exact hle
    · rw [autoRotateExpired_run, hfirst] at hrun
      obtain ⟨rfl, hlinked, -⟩ := rotateExpired_run hrun
      rw [linked_entries (rounds_counted htidy) hlinked, Nat.zero_add,
        List.countP_eq_length.mpr fun rd hrd => (hall rd hrd).1]
    · rw [autoRotateExpired_run, autoRotateExpired_run, hfirst]
      exact rotateExpired_stable 0 extra (by omega)

/-- A process has stored a secret that expires after ten seconds. -/
def storedExpiring : VaultConfig Bool :=
  play (fun _ _ => True) twoProcesses
    (.start false (.put sampleName [1, 2] none 10) :: acts false 21 1)

/-- The clock shows a time after the expiry, but for the reading numbered `n`, which is before. -/
def setBack (n : ℕ) : ℕ → ℕ → Input :=
  fun k => calm (if k = n then 1735689600 else 1735689620) 3

theorem storedExpiring_reach :
    (vaultSystem toy).Reach (fun _ _ => True) twoProcesses storedExpiring :=
  reach_play (by decide +kernel)

/-- The clock is only set back after the round. -/
theorem expiring_accounted : Accounted toy toyKeys 2 (setBack 40) storedExpiring.shared :=
  ((@rounds_accounted toy toyKeys _ _ _ _ _ 2 (fun _ => rfl) rfl storedExpiring_reach).1
    (by decide +kernel)).1

example : (callRounds toy toyKeys 2 (setBack 40) storedExpiring.shared).length = 1 := by
  decide +kernel

/-- **A round that has rotated nothing is counted**: the clock is set back between the reading of the
loop and that of the step. -/
theorem round_not_accounted :
    ¬ ∀ (so : Sodium) (g g' : VaultConfig Bool) (i : Bool) (keys : Subkeys) (fuel : ℕ)
        (world : ℕ → ℕ → Input),
      (∀ i, (g.procs i).running = none) → g.shared.secrets = .empty →
        (vaultSystem so).Reach (fun _ _ => True) g g' → (g'.procs i).loc = some keys →
          Accounted so keys fuel world g'.shared := by
  intro h
  have hacc := h toy twoProcesses storedExpiring true toyKeys 4 (setBack 2) (fun _ => rfl) rfl
    storedExpiring_reach (by decide +kernel)
  have hrounds : (callRounds toy toyKeys 4 (setBack 2) storedExpiring.shared).length = 2 := by
    decide +kernel
  have hactive : (current storedExpiring.shared.secrets).length = 1 := by decide +kernel
  have hle := hacc.bounded
  omega

end Fuin.Vault.Rounds

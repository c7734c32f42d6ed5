import Fuin.Cli.Commands
import Fuin.Cli.Effects

/-! # What a token permits

With a token every command that concerns one secret asks for it first: a version of a name is
inserted only after the token has been accepted for writing it, deleted only after it has been
accepted for deleting it, and read only after it has been accepted for reading it. The exception is
`auto-rotate`, which never asks: it inserts versions of whatever names have expired
(`dispatch_authorised_iff`). -/

namespace Fuin.Cli.Permitted

open Fuin.Utils Fuin.Crypto Fuin.Lib.Program Fuin.Store.Database Fuin.Kdf Fuin.Access.Token
open Fuin.Access.Scope Fuin.Vault.Rows Fuin.Vault.Transactions Fuin.Vault.Operations
open Fuin.Vault.Observed Fuin.Vault.Calls Fuin.Vault.Audited Fuin.Vault.Reports Fuin.Vault.Exported
open Fuin.Vault.Revoked Fuin.Cli.Calls Fuin.Cli.Commands Fuin.Cli.Effects

/-- The token has been accepted for the operation on the name. -/
def Granted (token : CString) (before : List Event) (operation : Operation) (name : CString) : Prop :=
  .accepted token (requiredScope operation name) ∈ before

/-- What has to come before an event. -/
def Justified (so : Sodium) (token : CString) (before : List Event) : Event → Prop
  | .accepted _ _ => True
  | .created session storedName => ∃ keys name, session = some keys ∧
      storedName = (lookupOf so keys name).bytes ∧ Granted token before .write name
  | .archived session storedName => ∃ keys name, session = some keys ∧
      storedName = (lookupOf so keys name).bytes ∧ Granted token before .delete name
  | .revealed name => Granted token before .read name

/-- Every event is admitted by the events before it. -/
structure Ordered (J : List Event → Event → Prop) (history : List Event) : Prop where
  admitted : ∀ i (hi : i < history.length), J (history.take i) history[i]

/-- **The token narrows what the run does.** -/
abbrev Authorised (so : Sodium) (token : CString) (history : List Event) : Prop :=
  Ordered (Justified so token) history

/-! ### Histories -/

/-- What is admitted after some events is admitted after more. -/
def Persistent (J : List Event → Event → Prop) : Prop :=
  ∀ before before' event, before ⊆ before' → J before event → J before' event

theorem persistent_justified {so : Sodium} {token : CString} : Persistent (Justified so token) := by
  intro before before' event hsub h
  cases event with
  | accepted _ _ => trivial
  | created session storedName =>
    obtain ⟨keys, name, hs, hn, hg⟩ := h
    exact ⟨keys, name, hs, hn, hsub hg⟩
  | archived session storedName =>
    obtain ⟨keys, name, hs, hn, hg⟩ := h
    exact ⟨keys, name, hs, hn, hsub hg⟩
  | revealed name => exact hsub h

variable {J : List Event → Event → Prop} {history events : List Event}

theorem ordered_nil : Ordered J [] := ⟨fun _ hi => nomatch hi⟩

theorem Ordered.append (hJ : Persistent J) (h : Ordered J history) (hs : ∀ ev ∈ events, J history ev) :
    Ordered J (history ++ events) := by
  refine ⟨fun i hi => ?_⟩
  by_cases hlt : i < history.length
  · rw [List.take_append_of_le_length hlt.le, List.getElem_append_left hlt]
    exact h.admitted i hlt
  · have hle : history.length ≤ i := Nat.le_of_not_lt hlt
    rw [List.getElem_append_right hle]
    refine hJ history _ _ ?_ (hs _ (List.getElem_mem _))
    rw [List.take_append, List.take_of_length_le hle]
    exact List.subset_append_left _ _

/-! ### Programs that only do what is admitted -/

/-- The history stays in order, whatever the world does in the steps that are considered. -/
def contract (A : World → CliCmd → CliState → Prop) (J : List Event → Event → Prop) :
    Contract CliCmd CliState World where
  inv st := Ordered J st.history
  rely := Eq
  guar _ _ := True
  allow := A
  rely_refl _ := rfl
  rely_trans := Eq.trans

variable {L : Libraries} {A : World → CliCmd → CliState → Prop} {α β : Type} {st : CliState}

/-- The program does what `J` admits. -/
abbrev Safe (L : Libraries) (A : World → CliCmd → CliState → Prop) (J : List Event → Event → Prop)
    (p : CliProg α) (st : CliState) : Prop :=
  (contract A J).Ok (exec L) (fun _ _ => True) (fun _ _ => True) p st

/-- What a call adds to the history. -/
def newEvents (L : Libraries) (w : World) (c : VaultCall) (st : CliState) : List Event :=
  changes st.session st.db.secrets (callVault L w c st.db st.session).1.secrets ++
    replied c (callVault L w c st.db st.session).2.2

theorem safe_bind {p : CliProg α} {f : α → CliProg β} (hp : Safe L A J p st)
    (hf : ∀ a st, Safe L A J (f a) st) : Safe L A J (p.bind f) st :=
  Contract.Ok.bind (hp.mono (fun a st' _ _ => hf a st') fun _ _ _ _ => trivial)

theorem safe_ret {a : α} : Safe L A J (.ret a) st := fun _ _ _ => trivial

theorem safe_fail {e : Status} : Safe L A J (.fail e : CliProg α) st := fun _ _ _ => trivial

theorem safe_ofExcept {x : Except Status α} : Safe L A J (Prog.ofExcept x) st := by
  cases x <;> exact fun _ _ _ => trivial

/-- A command that is no call of the vault. -/
theorem safe_cmd {c : CliCmd} {k : c.Reply → CliProg α} (hc : ∀ w st, (exec L w c st).1 = st)
    (hk : ∀ r st, Safe L A J (k r) st) : Safe L A J (.cmd c k) st := by
  rintro st' rfl hinv w -
  rw [hc]
  exact ⟨hinv, trivial, hk _ _⟩

/-- A function of the vault, of which the history may grow in order. -/
theorem ok_vault {c : VaultCall} {Q : c.Value → CliState → Prop} (hJ : Persistent J)
    (h : ∀ w, A w (.vault c) st → ∀ ev ∈ newEvents L w c st, J st.history ev)
    (hQ : ∀ w a st', (callVault L w c st.db st.session).2.2 = .ok a →
      st'.history = st.history ++ newEvents L w c st → Q a st') :
    (contract A J).Ok (exec L) Q (fun _ _ => True) (vault c) st := by
  rintro st' rfl hinv w hw
  have hhist : (exec L w (.vault c) st).1.history = st.history ++ newEvents L w c st :=
    List.append_assoc _ _ _
  refine ⟨?_, trivial, ?_⟩
  · show Ordered J (exec L w (.vault c) st).1.history
    rw [hhist]
    exact Ordered.append hJ hinv (h w hw)
  · have hreply : (exec L w (.vault c) st).2 = (callVault L w c st.db st.session).2.2 := rfl
    rw [hreply]
    refine Contract.Ok.ofExcept (fun a ha st' hst' _ => ?_) fun _ _ _ _ _ => trivial
    subst hst'
    exact hQ w a _ ha hhist

/-! ### What the calls add -/

theorem readOnly_unlocked {session : Option Subkeys} {p : Subkeys → Sql α}
    (h : ∀ keys, Sql.ReadOnly (p keys)) : Sql.ReadOnly (unlocked session p) := by
  cases session with
  | none => trivial
  | some keys => exact h keys

theorem readOnly_query {session : Option Subkeys} {c : VaultCall} {p : Sql c.Value}
    (h : query L session c = some p) : Sql.ReadOnly p := by
  cases c with
  | init => nomatch h
  | «open» => nomatch h
  | op op => nomatch h
  | checkToken token required => exact Option.some.inj h ▸ readOnly_checkToken
  | getActiveVersion name =>
    exact Option.some.inj h ▸ readOnly_unlocked fun _ => readOnly_getActiveVersion
  | checkExpiry within => exact Option.some.inj h ▸ readOnly_unlocked fun _ => readOnly_checkExpiry
  | securityReport => exact Option.some.inj h ▸ readOnly_unlocked fun _ => readOnly_securityReport
  | auditVerify => exact Option.some.inj h ▸ readOnly_unlocked fun _ => readOnly_auditVerify
  | auditMerkleRoot => exact Option.some.inj h ▸ readOnly_unlocked fun _ => readOnly_auditMerkleRoot
  | auditMerkleProof entryId =>
    exact Option.some.inj h ▸ readOnly_unlocked fun _ => readOnly_auditMerkleProof
  | auditVerifyMerkleProof entryId root proof leafIndex leafCount =>
    exact Option.some.inj h ▸ readOnly_unlocked fun _ => readOnly_auditVerifyMerkleProof
  | backupExport recipient capsulePath => exact Option.some.inj h ▸ readOnly_backupExport

/-- A function that reads is run as it is. -/
theorem callVault_query {c : VaultCall} {session : Option Subkeys} {p : Sql c.Value}
    (h : query L session c = some p) (w : World) (db : Db) :
    callVault L w c db session =
      (db, session, (p.run Stmt.exec (fun n => w.vault n 0) db).2) := by
  have hdb : (p.run Stmt.exec (fun n => w.vault n 0) db).1 = db :=
    (readOnly_query h).runs ⟨fun n => w.vault n 0, rfl⟩
  cases c with
  | init => nomatch h
  | «open» => nomatch h
  | op op => nomatch h
  | _ =>
    cases h
    exact Prod.ext hdb rfl

/-- The names under which a call inserts versions. -/
def callWrites (so : Sodium) (session : Option Subkeys) : VaultCall → Set Bytes
  | .op op => writesOf so session op
  | _ => ∅

/-- The names whose active version it archives without inserting one. -/
def callDeletes (so : Sodium) (session : Option Subkeys) : VaultCall → Set Bytes
  | .op op => deletesOf so session op
  | _ => ∅

variable {token : CString} {c : VaultCall} {w : World}

/-- **What a call of the vault does to the names.** -/
theorem callVault_effect (w : World) (c : VaultCall) (db : Db) (session : Option Subkeys) :
    Effect (callWrites L.so session c) (callDeletes L.so session c) db.secrets
      (callVault L w c db session).1.secrets := by
  cases hq : query L session c with
  | some p =>
    rw [callVault_query hq]
    exact .refl _
  | none =>
    cases c with
    | init => exact .refl _
    | «open» => exact .refl _
    | op op => exact call_effect ⟨w.vault, rfl⟩
    | _ => nomatch hq

/-- The events of a call. -/
theorem mem_newEvents {ev : Event} (h : ev ∈ newEvents L w c st) :
    (∃ name ∈ callWrites L.so st.session c, ev = .created st.session name) ∨
    (∃ name ∈ callDeletes L.so st.session c, ev = .archived st.session name) ∨
    ∃ r, ev ∈ replied c r := by
  have heffect := callVault_effect (L := L) w c st.db st.session
  rcases List.mem_append.mp h with h | h
  · rcases List.mem_append.mp h with h | h
    · obtain ⟨name, hname, rfl⟩ := List.mem_map.mp h
      exact Or.inl ⟨name, heffect.created _ hname, rfl⟩
    · obtain ⟨name, hname, rfl⟩ := List.mem_map.mp h
      exact Or.inr (Or.inl ⟨name, heffect.archived _ hname, rfl⟩)
  · exact Or.inr (Or.inr ⟨_, h⟩)

/-- A call that writes no name, deletes none, and whose reply says nothing. -/
def Silent (so : Sodium) (c : VaultCall) : Prop :=
  (∀ session, callWrites so session c = ∅ ∧ callDeletes so session c = ∅) ∧ ∀ r, replied c r = []

theorem newEvents_silent (h : Silent L.so c) : newEvents L w c st = [] := by
  refine List.eq_nil_iff_forall_not_mem.mpr fun ev hev => ?_
  rcases mem_newEvents hev with ⟨name, hname, -⟩ | ⟨name, hname, -⟩ | ⟨r, hr⟩
  · rw [(h.1 _).1] at hname
    exact hname
  · rw [(h.1 _).2] at hname
    exact hname
  · rw [h.2] at hr
    nomatch hr

theorem silent_init {so : Sodium} : Silent so .init := ⟨fun _ => ⟨rfl, rfl⟩, fun r => by cases r <;> rfl⟩

theorem silent_open {so : Sodium} : Silent so .open := ⟨fun _ => ⟨rfl, rfl⟩, fun r => by cases r <;> rfl⟩

theorem silent_unlock {so : Sodium} {password : CString} : Silent so (.op (.unlock password)) :=
  ⟨fun session => by cases session <;> exact ⟨rfl, rfl⟩, fun r => by cases r <;> rfl⟩

theorem silent_unlockExisting {so : Sodium} {password : CString} :
    Silent so (.op (.unlockExisting password)) :=
  ⟨fun session => by cases session <;> exact ⟨rfl, rfl⟩, fun r => by cases r <;> rfl⟩

/-! ### What a token permits -/

/-- The calls that the token allows after some events. -/
def Allows (token : CString) (before : List Event) : VaultCall → Prop
  | .op (.put name _ _ _) => Granted token before .write name
  | .op (.rollback name _) => Granted token before .write name
  | .op (.delete name) => Granted token before .delete name
  | .op (.get name _) => Granted token before .read name
  | .op (.getVersion name _ _) => Granted token before .read name
  | .op (.autoRotate _) => False
  | _ => True

/-- The names that a permitted operation writes. -/
theorem granted_of_writesOf {op : Op} {session : Option Subkeys} {storedName : Bytes}
    (h : Allows token history (.op op)) (hname : storedName ∈ writesOf L.so session op) :
    Justified L.so token history (.created session storedName) := by
  cases session with
  | none => exact hname.elim
  | some keys =>
    cases op with
    | put name _ _ _ => exact ⟨keys, name, rfl, hname, h⟩
    | rollback name _ => exact ⟨keys, name, rfl, hname, h⟩
    | autoRotate _ => exact h.elim
    | _ => exact hname.elim

/-- The names that a permitted operation deletes. -/
theorem granted_of_deletesOf {op : Op} {session : Option Subkeys} {storedName : Bytes}
    (h : Allows token history (.op op)) (hname : storedName ∈ deletesOf L.so session op) :
    Justified L.so token history (.archived session storedName) := by
  cases session with
  | none => exact hname.elim
  | some keys =>
    cases op with
    | delete name => exact ⟨keys, name, rfl, hname, h⟩
    | _ => exact hname.elim

/-- The plaintexts that a permitted call hands out. -/
theorem justified_of_replied {r : Except Status c.Value} {ev : Event}
    (h : Allows token history c) (hev : ev ∈ replied c r) : Justified L.so token history ev := by
  cases c with
  | checkToken token' required =>
    cases r with
    | error e => nomatch hev
    | ok a =>
      obtain rfl := List.mem_singleton.mp hev
      trivial
  | op op =>
    cases r with
    | error e => cases op <;> nomatch hev
    | ok a =>
      cases op with
      | get name _ =>
        obtain rfl := List.mem_singleton.mp hev
        exact h
      | getVersion name _ _ =>
        obtain rfl := List.mem_singleton.mp hev
        exact h
      | _ => nomatch hev
  | _ => cases r <;> nomatch hev

/-- **A call that the token allows** does nothing that the token forbids. -/
theorem justified_of_allows (h : Allows token st.history c) :
    ∀ ev ∈ newEvents L w c st, Justified L.so token st.history ev := by
  intro ev hev
  rcases mem_newEvents hev with ⟨name, hname, rfl⟩ | ⟨name, hname, rfl⟩ | ⟨r, hr⟩
  · cases c with
    | op op => exact granted_of_writesOf h hname
    | _ => exact hname.elim
  · cases c with
    | op op => exact granted_of_deletesOf h hname
    | _ => exact hname.elim
  · exact justified_of_replied h hr

end Fuin.Cli.Permitted

import Fuin.Backup.Outputs
import Fuin.Vault.Copies
import Fuin.Vault.Durable

/-! # From a vault to its copy

What a backup is for: the vault is gone, its capsule and the private keys are there. The capsule seals
the database as it was at one moment of the export, while other sessions went on working, and
`backup_pqc_import` writes this database into a new file (`capsule_restores`, `importFile_runs`). The
vault that is opened from the file is the one that was locked at that moment, so whatever happens to it
afterwards continues the life of the old vault (`backup_recovers`). -/

namespace Fuin.Backup.Recovery

open Fuin.Utils Fuin.Crypto Fuin.CryptoEngine Fuin.Lib.Program Fuin.Lib.Interleave Fuin.Lib.Buffer
open Fuin.Store.Database Fuin.Store.Seen Fuin.Kdf Fuin.Backup.Capsule Fuin.Backup.Files
open Fuin.Backup.Import Fuin.Backup.Keygen Fuin.Backup.Outputs
open Fuin.Vault.Operations Fuin.Vault.Rules Fuin.Vault.Calls Fuin.Vault.Reopened Fuin.Vault.Copies
open Fuin.Vault.Audited Fuin.Vault.Exported Fuin.Vault.Turns Fuin.Vault.Lives Fuin.Vault.Durable

variable {so : Sodium} {lib : KeyLibrary} {own : PrivateLibrary} {A : Access}
  {files files' : Disk} {path data capsule : Bytes}

/-! ### A file that was written -/

/-- The content of the file at a path. -/
def contentAt (A : Access) (files : Disk) (path : Bytes) : Option Bytes :=
  match resolveParentPath A path with
  | .error _ => none
  | .ok entry =>
    match files entry with
    | some (.file content) => some content
    | _ => none

/-- The path names a new file with these data; everything else is as before. -/
def Written (A : Access) (path data : Bytes) (files files' : Disk) : Prop :=
  ∃ entry, resolveParentPath A path = .ok entry ∧ files entry = none ∧
    files' = Function.update files entry (some (.file data))

theorem Written.content (h : Written A path data files files') : contentAt A files' path = some data := by
  obtain ⟨entry, hentry, -, rfl⟩ := h
  unfold contentAt
  rw [hentry]
  simp only [Function.update_self]

/-- The file is new for the program that creates it. -/
theorem fopenExclusive_new {entry : Bytes}
    (h : (fopenExclusive A path).Runs (FileCmd.exec A) files files' (.ok entry)) :
    resolveParentPath A path = .ok entry ∧ files entry = none ∧
      files' = Function.update files entry (some (.file [])) := by
  obtain ⟨-, hnew⟩ := fopenExclusive_runs (S := fun _ => True) h .refl fun _ _ => trivial
  obtain ⟨hentry, hfresh⟩ := hnew entry rfl
  refine ⟨hentry, hfresh.absent, ?_⟩
  rcases fopenExclusive_exact h with ⟨e, he, -⟩ | ⟨entry', he, -, hfiles⟩
  · cases he
  · obtain rfl := Except.ok.inj he
    exact hfiles

/-- Data that are written to an empty file are its content. -/
theorem rewrite_empty {entry : Bytes} :
    rewrite (Function.update files entry (some (.file []))) entry (· ++ data) =
      Function.update files entry (some (.file data)) := by
  unfold rewrite
  rw [Function.update_self]
  simp only [List.nil_append, Function.update_idem]

theorem write_exec {entry : Bytes} {i : FileInput}
    (h : (FileCmd.exec A i (.write entry data) files).2 = true) :
    (FileCmd.exec A i (.write entry data) files).1 = rewrite files entry (· ++ data) := by
  unfold FileCmd.exec at h ⊢
  cases hf : i.fault with
  | true => simp [hf] at h
  | false => simp

theorem close_exec {entry : Bytes} {i : FileInput}
    (h : (FileCmd.exec A i (.close entry) files).2 = true) :
    (FileCmd.exec A i (.close entry) files).1 = files := by
  unfold FileCmd.exec at h ⊢
  cases hf : i.fault with
  | true => simp [hf] at h
  | false => simp

theorem writeData_runs {entry : Bytes} {written : Bool}
    (h : (writeData entry data).Runs (FileCmd.exec A) (Function.update files entry (some (.file [])))
      files' (.ok written)) (hwritten : written = true) :
    files' = Function.update files entry (some (.file data)) := by
  unfold writeData at h
  split_ifs at h with hdata
  · rw [hdata]
    exact (Prog.runs_ret h).1
  · obtain ⟨i, h⟩ := Prog.runs_cmd h
    obtain ⟨hfiles, hreply⟩ := Prog.runs_ret h
    rw [hfiles, write_exec ((Except.ok.inj hreply).symm.trans hwritten), rewrite_empty]

theorem writeAndClose_runs {entry : Bytes}
    (h : (writeAndClose entry data).Runs (FileCmd.exec A)
      (Function.update files entry (some (.file []))) files' (.ok ())) :
    files' = Function.update files entry (some (.file data)) := by
  obtain ⟨written, d, hwrite, h⟩ := Prog.runs_bind h
  obtain ⟨closed, d', hclose, h⟩ := Prog.runs_bind h
  split_ifs at h with hboth
  · obtain ⟨rfl, -⟩ := Prog.runs_ret h
    obtain ⟨i, hclose⟩ := Prog.runs_cmd hclose
    obtain ⟨hfiles, hreply⟩ := Prog.runs_ret hclose
    rw [hfiles, close_exec ((Except.ok.inj hreply).symm.trans hboth.2)]
    exact writeData_runs hwrite hboth.1
  · cases (Prog.runs_fail h).2

/-- **`backup_write_all`** has written all. -/
theorem writeAll_runs (h : (writeAll A path data).Runs (FileCmd.exec A) files files' (.ok ())) :
    Written A path data files files' := by
  rw [writeAll_eq] at h
  obtain ⟨_, -, h⟩ := Prog.runs_ofExcept_bind h
  obtain ⟨entry, d, hopen, h⟩ := Prog.runs_bind h
  obtain ⟨hentry, habsent, rfl⟩ := fopenExclusive_new hopen
  exact ⟨entry, hentry, habsent, writeAndClose_runs h⟩

/-! ### A capsule that was exported -/

/-- **The private keys belong to the public key file**: whatever is encapsulated under its keys, the
other side agrees on, and the ciphertext has its normal length. -/
structure Belongs (lib : KeyLibrary) (own : PrivateLibrary) (kemKey x25519Key : Bytes) : Prop where
  agrees : ∀ coins ephemeralKey : Block 32,
    Agrees own (lib.rawPublicKey ephemeralKey) (lib.encapsulate kemKey coins).1
      (lib.encapsulate kemKey coins).2 (lib.derive ephemeralKey x25519Key)
  short : ∀ coins, (lib.encapsulate kemKey coins).1.length ≤ 4096

/-- The bytes seal the database for the keys of a public key file. -/
structure Seals (so : Sodium) (lib : KeyLibrary) (snapshot content capsule : Bytes) : Prop where
  size : snapshot.length ≤ maxDbBytes
  sealed : ∃ kemKey x25519Key coins ephemeralKey encap nonce root,
    lib.readPublicKeys content = some (kemKey, x25519Key) ∧
    buildHybridEncap (lib.rawPublicKey ephemeralKey) (lib.encapsulate kemKey coins).1 = .ok encap ∧
    sealSnapshot so lib snapshot encap (lib.encapsulate kemKey coins).2
      (lib.derive ephemeralKey x25519Key) nonce root = .ok capsule

variable {serialize : Db → Bytes} {keyFiles : CString → Option Bytes} {M : Ambient Db Input}
  {db db' : Db} {seen : List Db} {keys : Subkeys} {recipient capsulePath : CString}

theorem loadPublicKeypair_content {out : Bytes × Bytes} {content : Bytes}
    (hfile : keyFiles recipient = some content)
    (h : Reads M (loadPublicKeypair lib keyFiles recipient) db seen db' (.ok out)) :
    seen = [] ∧ lib.readPublicKeys content = some out := by
  refine ⟨loadPublicKeypair_reads h, ?_⟩
  obtain ⟨_, -, h⟩ := Prog.sees_ofExcept_bind h
  obtain ⟨found, hfound, h⟩ := Prog.sees_ofExcept_bind h
  rw [hfile] at hfound
  obtain rfl : content = found := Except.ok.inj hfound
  obtain ⟨pair, hpair, h⟩ := Prog.sees_ofExcept_bind h
  obtain ⟨_, h⟩ := reads_lib_bind h
  obtain rfl : out = pair := Except.ok.inj h.2.2
  cases hread : lib.readPublicKeys content with
  | none =>
    rw [hread] at hpair
    cases hpair
  | some pair =>
    rw [hread] at hpair
    exact congrArg some (Except.ok.inj hpair)

/-- **`backup_pqc_export`** seals the state that it has seen, for the keys of the recipient. -/
theorem pqcExport_seals {root : Block 32} {content : Bytes} (hfile : keyFiles recipient = some content)
    (h : Reads M (pqcExport so lib serialize keyFiles recipient root) db seen db' (.ok capsule)) :
    ∃ z, seen = [z] ∧ Seals so lib (serialize z) content capsule := by
  obtain ⟨snapshot, z, rest, rfl, hsnap, h⟩ := reads_select_bind h
  simp only [sqliteSnapshot, bind_eq_ok, pure_eq_ok, require_eq_ok] at hsnap
  obtain ⟨-, -, -, hsize, rfl⟩ := hsnap
  obtain ⟨_, h⟩ := reads_lib_bind h
  obtain ⟨⟨kemKey, x25519Key⟩, _, seen₁, seen₂, rfl, h1, h2⟩ := Prog.sees_bind h
  obtain ⟨rfl, hread⟩ := loadPublicKeypair_content hfile h1
  obtain ⟨_, h⟩ := reads_libs_bind h2
  obtain ⟨coins, _, h⟩ := reads_random_bind h
  obtain ⟨_, h⟩ := reads_lib_bind h
  obtain ⟨ephemeralKey, _, h⟩ := reads_random_bind h
  obtain ⟨_, h⟩ := reads_libs_bind h
  obtain ⟨_, h⟩ := reads_libs_bind h
  obtain ⟨encap, hencap, h⟩ := Prog.sees_ofExcept_bind h
  obtain ⟨_, h⟩ := reads_libs_bind h
  obtain ⟨nonce, _, h⟩ := reads_random_bind h
  obtain ⟨capsule, hseal, h⟩ := Prog.sees_ofExcept_bind h
  obtain ⟨_, h⟩ := reads_libs_bind h
  obtain ⟨rfl, -, hret⟩ := h
  obtain rfl := Except.ok.inj hret
  exact ⟨z, rfl, hsize, kemKey, x25519Key, coins, ephemeralKey, encap, nonce, root, hread, hencap, hseal⟩

/-- **`vault_backup_export`** seals a state through which the database has passed. -/
theorem backupExport_seals {content : Bytes} (hfile : keyFiles recipient = some content)
    (h : Reads M (backupExport so lib serialize keyFiles (some keys) recipient capsulePath) db seen db'
      (.ok capsule)) :
    ∃ z ∈ seen, M.rely db z ∧ M.inv z ∧ Seals so lib (serialize z) content capsule := by
  obtain ⟨z, hz, hseals⟩ : ∃ z ∈ seen, Seals so lib (serialize z) content capsule := by
    obtain ⟨_, -, h⟩ := Prog.sees_ofExcept_bind h
    obtain ⟨⟨root, n⟩, s₁, seen₁, seen₂, rfl, -, h⟩ := Prog.sees_bind h
    obtain ⟨z, rfl, hseals⟩ := pqcExport_seals hfile h
    exact ⟨z, by simp, hseals⟩
  obtain ⟨hrely, hinv, -⟩ := h.mem readOnly_backupExport hz
  exact ⟨z, hz, hrely, hinv, hseals⟩

/-! ### What the import makes of it -/

/-- **A capsule is restored**: who has the private keys gets the database that was sealed. -/
theorem capsule_restores {snapshot content : Bytes} {passphrase outputPath : CString}
    (h : Seals so lib snapshot content capsule)
    (hown : ∀ kemKey x25519Key, lib.readPublicKeys content = some (kemKey, x25519Key) →
      Belongs lib own kemKey x25519Key)
    (hpass : passphrase.bytes ≠ []) (hout : outputPath.bytes ≠ []) :
    pqcImport so lib own passphrase outputPath (some capsule) = .ok snapshot := by
  obtain ⟨hsize, kemKey, x25519Key, coins, ephemeralKey, encap, nonce, root, hread, hencap, hseal⟩ := h
  obtain ⟨hagrees, hshort⟩ := hown kemKey x25519Key hread
  obtain ⟨hkem, hx, kemPrivate, x25519Private, peer, hload, hdecap, hraw, hderive⟩ :=
    hagrees coins ephemeralKey
  obtain ⟨heph, hct, -⟩ := buildHybridEncap_eq_ok hencap
  have hlen := length_buildHybridEncap hencap
  -- the capsule is the one that is assembled from these fields
  obtain ⟨encap', aad, capsule', hencap', hseal', hencodes, hcapsule⟩ := sealSnapshot_encodes so lib
    ⟨lib.rawPublicKey ephemeralKey, heph⟩ nonce root hsize hct (hshort coins) hkem hx
  obtain rfl : encap = encap' := Except.ok.inj (hencap.symm.trans hencap')
  obtain rfl : capsule = capsule' := Except.ok.inj (hseal.symm.trans hseal')
  have hne : capsule ≠ [] := by
    rw [hencodes.capsule]
    exact List.append_ne_nil_of_right_ne_nil _ (List.ne_nil_of_length_pos
      (hencodes.ciphertext ▸ Nat.succ_pos _))
  have hparse := (parseFile_eq hne hcapsule).trans
    (parseCapsule_encodes (hcapsule.trans (by decide)) hencodes)
  have hpeer : (own.newRawPublicKey (lib.rawPublicKey ephemeralKey)).elim (.error .crypto) .ok =
      (.ok peer : Except Status Bytes) := by
    rw [hraw]
    rfl
  have hencapne : encap ≠ [] := List.ne_nil_of_length_pos (by omega)
  have hkey := checked_eq_ok (bind_eq_ok.mpr ⟨(), require_eq_ok.mpr ⟨hkem, hx, hencapne⟩, rfl⟩ :
    deriveCapsuleKey lib _ _ encap root = .ok _)
  refine bind_eq_ok.mpr ⟨(), check_pos ⟨hpass, hout⟩, bind_eq_ok.mpr ⟨_, hparse, ?_⟩⟩
  refine bind_eq_ok.mpr ⟨_, checked_eq_ok hload, bind_eq_ok.mpr ⟨_, checked_eq_ok hdecap, ?_⟩⟩
  refine bind_eq_ok.mpr ⟨(), check_pos heph, bind_eq_ok.mpr ⟨peer, checked_eq_ok hpeer, ?_⟩⟩
  refine bind_eq_ok.mpr ⟨_, checked_eq_ok hderive, bind_eq_ok.mpr ⟨_, hkey, ?_⟩⟩
  refine bind_eq_ok.mpr ⟨snapshot, checked_eq_ok ?_, bind_eq_ok.mpr ⟨(), check_pos rfl, rfl⟩⟩
  unfold sealedFields
  rw [Sodium.decrypt_encrypt]
  rfl

/-- **`backup_pqc_import`** that succeeds has written what the capsule restores. -/
theorem importFile_runs {plaintext : Bytes} {passphrase outputPath : CString} {file : Option Bytes}
    (hplain : pqcImport so lib own passphrase outputPath file = .ok plaintext)
    (h : (importFile A so lib own passphrase outputPath file).Runs (FileCmd.exec A) files files'
      (.ok ())) : Written A outputPath.bytes plaintext files files' := by
  obtain ⟨_, d, hcheck, h⟩ := Prog.runs_bind h
  rw [runs_check_lib hcheck] at h
  obtain ⟨found, hfound, h⟩ := Prog.runs_ofExcept_bind h
  rw [hplain] at hfound
  rw [← Except.ok.inj hfound] at h
  exact writeAll_runs h

/-- A file can be created at the path. -/
def Creatable (A : Access) (files : Disk) (path : Bytes) : Prop :=
  ∃ entry, resolveParentPath A path = .ok entry ∧ Fresh A files entry

section Calm

variable {α : Type} {e : Status} {c : FileCmd} {es : ℕ → FileInput} {entry : Bytes}

theorem run_check_bind {f : Unit → FileProg α} (h : FileCmd.exec A (es 0) c files = (files', true)) :
    ((Files.check e c).bind f).run (FileCmd.exec A) es files =
      (f ()).run (FileCmd.exec A) (fun n => es (n + 1)) files' := by
  simp only [Files.check, Prog.cmd_bind, Prog.run, h, if_true, Prog.ret_bind]

theorem run_attempt_bind {f : Except Status Unit → FileProg α}
    (h : FileCmd.exec A (es 0) c files = (files', true)) :
    (((Files.check e c).attempt : FileProg _).bind f).run (FileCmd.exec A) es files =
      (f (.ok ())).run (FileCmd.exec A) (fun n => es (n + 1)) files' := by
  simp only [Files.check, Prog.attempt, Prog.cmd_bind, Prog.run, h, if_true, Prog.ret_bind]

theorem lib_calm (hcalm : ∀ n, (es n).fault = false) (n : ℕ) :
    FileCmd.exec A (es n) .lib files = (files, true) := by
  simp [FileCmd.exec, hcalm n]

/-- Without failures an entry is created. -/
theorem fopenExclusive_calm (hcalm : ∀ n, (es n).fault = false)
    (hentry : resolveParentPath A path = .ok entry) (hfresh : Fresh A files entry) :
    (fopenExclusive A path).run (FileCmd.exec A) es files =
      (Function.update files entry (some (.file [])), .ok entry) := by
  have hcreate : FileCmd.exec A (es 2) (.create entry) files =
      (Function.update files entry (some (.file [])), true) := by
    simp [FileCmd.exec, hcalm 2, hfresh.writable, hfresh.absent]
  unfold fopenExclusive
  rw [hentry]
  simp only [Prog.bind_def]
  rw [run_check_bind (lib_calm hcalm 0), run_check_bind (lib_calm (fun n => hcalm (n + 1)) 0),
    run_check_bind hcreate, run_attempt_bind (lib_calm (fun n => hcalm (n + 3)) 0)]
  rfl

/-- **Without failures the file is written.** -/
theorem writeAll_calm (hcalm : ∀ n, (es n).fault = false) (hpath : path ≠ [])
    (h : Creatable A files path) : ((writeAll A path data).run (FileCmd.exec A) es files).2 = .ok () := by
  obtain ⟨entry, hentry, hfresh⟩ := h
  have hcheck : require (path ≠ []) Status.invalidArgument = .ok () := require_eq_ok.mpr hpath
  have hnew : Function.update files entry (some (.file [])) entry ≠ none := by
    rw [Function.update_self]
    exact Option.some_ne_none _
  obtain ⟨k, hrest⟩ := Prog.run_bind_ok (fun entry => writeAndClose entry data)
    (fopenExclusive_calm hcalm hentry hfresh)
  rw [writeAll_eq, hcheck, Prog.ofExcept_ok, Prog.ret_bind, hrest]
  refine (writeAndClose_run hnew).2.mpr fun i hi => ?_
  obtain ⟨n, rfl⟩ := Prog.mem_inputs hi
  exact hcalm (n + k)

/-- **An import in which nothing fails succeeds**, for a capsule that is restored. -/
theorem importFile_calm {plaintext : Bytes} {passphrase outputPath : CString} {file : Option Bytes}
    (hplain : pqcImport so lib own passphrase outputPath file = .ok plaintext)
    (hcalm : ∀ n, (es n).fault = false) (hpath : outputPath.bytes ≠ [])
    (h : Creatable A files outputPath.bytes) :
    ((importFile A so lib own passphrase outputPath file).run (FileCmd.exec A) es files).2 = .ok () := by
  have hplain' : outcomeOf (pqcImport so lib own passphrase outputPath file) = .ok plaintext := by
    rw [hplain]
    rfl
  unfold importFile
  simp only [Prog.bind_def]
  rw [run_check_bind (lib_calm hcalm 0), hplain', Prog.ofExcept_ok, Prog.ret_bind]
  exact writeAll_calm (fun n => hcalm (n + 1)) hpath h

end Calm

/-! ### The life goes on -/

/-- Other sessions with the same keys go on working with names of `N` while the export reads. -/
def sessions (so : Sodium) (keys : Subkeys) (N : Set CString) : Ambient Db Input where
  rely := Relation.ReflTransGen fun db db' =>
    ∃ op es, Plain op ∧ (∀ n ∈ nameOf op, n ∈ N) ∧
      ((vaultSystem so).call (some keys) op es db).1 = db'
  inv _ := True
  allow _ := True
  refl _ := .refl
  trans := .trans

variable {P N : Set CString} {hs : List Happening} {cs : List Call}

/-- Calls that others make leave the session as it is. -/
theorem next_plain {c : Call} (hc : Plain c.op) :
    next so ⟨db, some keys⟩ (.call c) =
      ⟨((vaultSystem so).call (some keys) c.op c.world db).1, some keys⟩ := by
  have hsession : finish (some keys) c.op ((⟨db, some keys⟩ : VaultState).outcome so c).2 = some keys :=
    finish_plain hc
  exact congrArg (VaultState.mk _) hsession

/-- **What others do is a part of the life of the vault.** -/
theorem lives_of_sessions {z : Db} (h : (sessions so keys N).rely db z) :
    ∃ cs : List Call, (∀ c ∈ cs, Plain c.op ∧ ∀ n ∈ nameOf c.op, n ∈ N) ∧
      lives so ⟨db, some keys⟩ (cs.map .call) = ⟨z, some keys⟩ := by
  induction h with
  | refl => exact ⟨[], fun _ hc => absurd hc List.not_mem_nil, rfl⟩
  | tail _ hstep ih =>
    obtain ⟨cs, hcs, hlives⟩ := ih
    obtain ⟨op, es, hplain, hname, rfl⟩ := hstep
    refine ⟨cs ++ [⟨op, es⟩], fun c hc => ?_, ?_⟩
    · rcases List.mem_append.mp hc with hc | hc
      · exact hcs c hc
      · rw [List.mem_singleton.mp hc]
        exact ⟨hplain, hname⟩
    · have hlast {d : Db} : next so ⟨d, some keys⟩ (.call ⟨op, es⟩) =
          ⟨((vaultSystem so).call (some keys) op es d).1, some keys⟩ := next_plain hplain
      unfold lives at hlives ⊢
      rw [List.map_append, List.foldl_append, hlives]
      exact hlast

/-- Such calls use no password. -/
theorem within_calls (h : ∀ c ∈ cs, Plain c.op ∧ ∀ n ∈ nameOf c.op, n ∈ N) :
    Within P N (cs.map .call) := by
  intro y hy op hop
  obtain ⟨c, hc, rfl⟩ := List.mem_map.mp hy
  obtain rfl : c.op = op := Option.some.inj hop
  obtain ⟨hplain, hname⟩ := h c hc
  refine ⟨fun p hp => ?_, hname⟩
  cases hcop : c.op with
  | unlock q | unlockExisting q | rotateKek q =>
    rw [hcop] at hplain
    exact hplain.elim
  | _ =>
    rw [hcop] at hp
    cases hp

/-- The vault that a process finds in the file at a path. -/
def found (load : Bytes → Option Db) (A : Access) (files : Disk) (path : Bytes) : Option VaultState :=
  ((contentAt A files path).bind load).map fun db => ⟨db, none⟩

/-- **A vault survives in its backup.** At the end of any life of a new vault, while its other sessions
go on, a capsule is exported and written. Then the file holds the capsule. With the private keys, what is
written by an import that succeeds is a file in which a process finds the vault as it was, locked, after
some of the calls that the others have made meanwhile; an import in which nothing fails succeeds; and
whatever happens to the vault that was found continues the life of the old one. -/
theorem backup_recovers {hs₁ : List Happening} {content : Bytes} {load : Bytes → Option Db}
    {passphrase : CString} {files₁ : Disk} (hP : DistinctPasswords so P) (hN : DistinctNames so P N)
    (hin : Within P N hs₁) (hopen : (lives so newVault hs₁).session = some keys)
    (hfile : keyFiles recipient = some content)
    (hown : ∀ kemKey x25519Key, lib.readPublicKeys content = some (kemKey, x25519Key) →
      Belongs lib own kemKey x25519Key)
    (hpass : passphrase.bytes ≠ [])
    (hexport : Reads (sessions so keys N)
      (backupExport so lib serialize keyFiles (some keys) recipient capsulePath)
      (lives so newVault hs₁).db seen db' (.ok capsule))
    (hload : ∀ z ∈ seen, load (serialize z) = some z)
    (hwrite : (writeAll A capsulePath.bytes capsule).Runs (FileCmd.exec A) files files₁ (.ok ())) :
    contentAt A files₁ capsulePath.bytes = some capsule ∧
    ∃ cs : List Call, (∀ c ∈ cs, Plain c.op) ∧
      (∀ (A' : Access) (files₂ : Disk) (es : ℕ → FileInput) (outputPath : CString),
        outputPath.bytes ≠ [] →
        let r := (importFile A' so lib own passphrase outputPath (some capsule)).run (FileCmd.exec A')
          es files₂
        (r.2 = .ok () → found load A' r.1 outputPath.bytes =
          some (lives so newVault (hs₁ ++ cs.map .call ++ [.lock]))) ∧
        ((∀ n, (es n).fault = false) → Creatable A' files₂ outputPath.bytes → r.2 = .ok ())) ∧
      ∀ hs₂, Within P N hs₂ → Accords so newVault .new (hs₁ ++ cs.map .call ++ [.lock] ++ hs₂) := by
  obtain ⟨z, hz, hrely, -, hseals⟩ := backupExport_seals hfile hexport
  obtain ⟨cs, hcs, hlives⟩ := lives_of_sessions hrely
  have hwhole : lives so newVault (hs₁ ++ cs.map .call ++ [.lock]) = ⟨z, none⟩ := by
    have hstart : lives so newVault hs₁ = ⟨(lives so newVault hs₁).db, some keys⟩ := by rw [← hopen]
    unfold lives at hstart hlives ⊢
    rw [List.foldl_append, List.foldl_append, hstart, hlives]
    rfl
  refine ⟨(writeAll_runs hwrite).content, cs, fun c hc => (hcs c hc).1, ?_, fun hs₂ hin₂ => ?_⟩
  · intro A' files₂ es outputPath hout
    have hplain := capsule_restores hseals hown hpass hout
    refine ⟨fun hok => ?_, fun hcalm hcreatable => importFile_calm hplain hcalm hout hcreatable⟩
    have hruns : (importFile A' so lib own passphrase outputPath (some capsule)).Runs
        (FileCmd.exec A') files₂ _ _ := Prog.runs_run es
    rw [hok] at hruns
    have hwritten := (importFile_runs hplain hruns).content
    unfold found
    rw [hwritten, Option.bind_some, hload z hz, hwhole]
    rfl
  · refine stands_accords stands_new hP hN ?_
    intro y hy
    rcases List.mem_append.mp hy with hy | hy
    · rcases List.mem_append.mp hy with hy | hy
      · rcases List.mem_append.mp hy with hy | hy
        · exact hin y hy
        · exact within_calls hcs y hy
      · rw [List.mem_singleton.mp hy]
        exact fun op hop => by cases hop
    · exact hin₂ y hy

/-! ### The backup of a small vault -/

/-- The private keys that are their own public keys. -/
def toyOwn (key : Bytes) : PrivateLibrary where
  loadPrivateKeypair := .ok (key, key)
  decapsulate _ kemCt := .ok (kemCt.take 32)
  newRawPublicKey key := some key
  x25519Derive key peer := .ok (List.zipWith (· ^^^ ·) peer key)

theorem toy_belongs {key : Bytes} (hkey : key.length = 32) :
    Belongs toyKeyLibrary (toyOwn key) key key where
  agrees coins ephemeralKey := by
    refine ⟨List.ne_nil_of_length_pos ?_, List.ne_nil_of_length_pos ?_, key, key, ephemeralKey.1, rfl,
      ?_, rfl, rfl⟩
    · show 0 < coins.1.length
      rw [coins.2]
      omega
    · show 0 < (List.zipWith (· ^^^ ·) ephemeralKey.1 key).length
      rw [List.length_zipWith, ephemeralKey.2, hkey]
      omega
    · show Except.ok ((coins.1 ++ key).take 32) = Except.ok coins.1
      rw [List.take_left' coins.2]
  short coins := by
    show (coins.1 ++ key).length ≤ 4096
    rw [List.length_append, coins.2, hkey]
    omega

/-- The vault that is backed up: one value has been stored. -/
def copiedLife : List Happening := earlyLife ++ [.call putCall]

def copied : VaultState := lives toy newVault copiedLife

def copiedKeys : Subkeys := copied.session.getD toyKeys

theorem copied_open : copied.session = some copiedKeys := by
  obtain ⟨k, hk⟩ : ∃ k, copied.session = some k := Option.isSome_iff_exists.mp (by decide +kernel)
  unfold copiedKeys
  rw [hk]
  rfl

def capsuleName : CString := columnText (ascii "backup.fuincap")

def restoredName : CString := columnText (ascii "restored.db")

/-- What is opened from the snapshot. -/
def copiedLoad (_ : Bytes) : Option Db := some copied.db

/-- Its export, and the states that it sees. -/
def copiedExport : Sql Bytes :=
  backupExport toy toyKeyLibrary toySerialize (fun _ => some (List.replicate 32 7)) (some copiedKeys)
    (columnText (ascii "backup.pub")) capsuleName

def copiedRun : List Db × Db × Except Status Bytes :=
  copiedExport.replay Stmt.exec isSelect (fun _ => copied.db) (calm 1735689600 2) copied.db

theorem distinct_copied : DistinctPasswords toy (passwords copiedLife) ∧
    DistinctNames toy (passwords copiedLife) (names copiedLife) :=
  distinct_of_single (by decide) (by decide)

theorem copied_recovers : ∃ cs : List Call, (∀ c ∈ cs, Plain c.op) ∧ ∃ capsule,
    let r := (importFile workDir toy toyKeyLibrary (toyOwn (List.replicate 32 7)) samplePassword
      restoredName (some capsule)).run (FileCmd.exec workDir) (fun _ => ⟨false, 0⟩)
      fun _ => none
    r.2 = .ok () ∧ found copiedLoad workDir r.1 restoredName.bytes =
      some (lives toy newVault (copiedLife ++ cs.map .call ++ [.lock])) := by
  obtain ⟨capsule, hcapsule⟩ : ∃ capsule, copiedRun.2.2 = .ok capsule := by
    have h : copiedRun.2.2.toBool = true := by decide +kernel
    cases hr : copiedRun.2.2 with
    | ok capsule => exact ⟨capsule, rfl⟩
    | error e =>
      rw [hr] at h
      cases h
  have hexport : Reads (sessions toy copiedKeys (names copiedLife)) copiedExport copied.db copiedRun.1
      copiedRun.2.1 (.ok capsule) := by
    rw [← hcapsule]
    exact Prog.sees_replay readOnly_backupExport .refl (fun _ => .refl) (fun _ => trivial) fun _ => trivial
  have hfree (path : CString)
      (h : resolveParentPath workDir path.bytes = .ok (ascii "/work/" ++ path.bytes)) :
      Creatable workDir (fun _ => none) path.bytes := ⟨_, h, rfl, rfl⟩
  have hwrite : ((writeAll workDir capsuleName.bytes capsule).run (FileCmd.exec workDir)
      (fun _ => ⟨false, 0⟩) fun _ => none).2 = .ok () :=
    writeAll_calm (fun _ => rfl) (by decide +kernel) (hfree _ (by decide +kernel))
  have hwrites : (writeAll workDir capsuleName.bytes capsule).Runs (FileCmd.exec workDir)
      (fun _ => none) _ _ := Prog.runs_run fun _ => ⟨false, 0⟩
  rw [hwrite] at hwrites
  have hpass : samplePassword.bytes ≠ [] := by decide
  have hload : ∀ z ∈ copiedRun.1, copiedLoad (toySerialize z) = some z := by
    intro z hz
    obtain ⟨_, hsame⟩ := Prog.mem_replay hz
    exact congrArg some hsame.symm
  obtain ⟨-, cs, hplain, himport, -⟩ := backup_recovers distinct_copied.1 distinct_copied.2
    (within_self copiedLife) copied_open rfl
    (fun kemKey x25519Key h => by
      obtain ⟨rfl, rfl⟩ := Prod.mk.inj (Option.some.inj h)
      exact toy_belongs List.length_replicate)
    hpass hexport hload hwrites
  obtain ⟨hfound, hcalm⟩ := himport workDir (fun _ => none) (fun _ => ⟨false, 0⟩)
    restoredName (by decide +kernel)
  have hok := hcalm (fun _ => rfl) (hfree _ (by decide +kernel))
  exact ⟨cs, hplain, capsule, hok, hfound hok⟩

end Fuin.Backup.Recovery

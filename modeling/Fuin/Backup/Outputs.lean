import Fuin.Backup.Import
import Fuin.Backup.Keygen
import Fuin.Vault.Exported

/-! # The files that an export and an import write

Both end in `backup_write_all`, which creates a file, writes it and closes it. If writing or closing
fails, the error is returned, but the file stays; everything that can fail before leaves the files as
they were (`failed_output_iff`). -/

namespace Fuin.Backup.Outputs

open Fuin.Utils Fuin.Crypto Fuin.Lib.Program Fuin.Backup.Files Fuin.Backup.Capsule
open Fuin.Backup.Import Fuin.Backup.Keygen Fuin.Store.Database Fuin.Vault.Rules Fuin.Vault.Exported

/-- `fwrite`, which is only called for some bytes. -/
def writeData (entry data : Bytes) : FileProg Bool :=
  if data = [] then .ret true else Prog.call (.write entry data)

/-- `backup_write_all`. -/
def writeAll (A : Access) (path data : Bytes) : FileProg Unit := do
  Prog.ofExcept (require (path ≠ []) .invalidArgument)
  let entry ← fopenExclusive A path
  let written ← writeData entry data
  let closed ← Prog.call (.close entry)
  if written = true ∧ closed = true then return () else .fail .storage

/-- `backup_pqc_export`, on the files: what comes before `backup_write_all` (`pqcExport`) only reads the
database and the key file, and ends with the capsule or with an error. -/
def exportFile (A : Access) (so : Sodium) (lib : KeyLibrary) (serialize : Db → Bytes)
    (keyFiles : CString → Option Bytes) (recipient capsulePath : CString) (auditRoot : Block 32)
    (db : Db) (inputs : ℕ → Input) : FileProg Unit := do
  let capsule ← Prog.ofExcept
    ((pqcExport so lib serialize keyFiles recipient auditRoot).run Stmt.exec inputs db).2
  writeAll A capsulePath.bytes capsule

/-- What a checked computation ends with; it never leaves its buffers (`safe_pqcImport`). -/
def outcomeOf {α : Type} : Lib.Buffer.Checked Status α → Except Status α
  | .ok a => .ok a
  | .error (.fail e) => .error e
  | .error _ => .error .fuel

/-- `backup_pqc_import`, on the files: the capsule is what is read at its path, and the one call that is
left is the allocation of the plaintext. -/
def importFile (A : Access) (so : Sodium) (lib : KeyLibrary) (own : PrivateLibrary)
    (passphrase outputPath : CString) (capsule : Option Bytes) : FileProg Unit := do
  check .storage .lib
  let plaintext ← Prog.ofExcept (outcomeOf (pqcImport so lib own passphrase outputPath capsule))
  writeAll A outputPath.bytes plaintext

/-! ### A run of `backup_write_all` -/

/-- A call that writes or closes a file. -/
def FileCmd.writes : FileCmd → Bool
  | .write _ _ => true
  | .close _ => true
  | _ => false

/-- The outside world fails no call of the run that writes or closes a file. -/
def Unbroken (A : Access) {α : Type} (p : FileProg α) (es : ℕ → FileInput) (files : Disk) : Prop :=
  ∀ i ∈ p.inputs (FileCmd.exec A) FileCmd.writes es files, i.fault = false

/-- An unsuccessful run leaves the files as they were. -/
def Restores (A : Access) (p : FileProg Unit) (es : ℕ → FileInput) (files : Disk) : Prop :=
  (p.run (FileCmd.exec A) es files).2 ≠ .ok () → (p.run (FileCmd.exec A) es files).1 = files

variable {A : Access} {files : Disk} {es : ℕ → FileInput} {path data : Bytes}

/-- What comes before and writes no file does not matter. -/
theorem restores_bind {α : Type} {p : FileProg α} {f : α → FileProg Unit}
    (hsilent : p.Silent FileCmd.writes) (hkeeps : (p.run (FileCmd.exec A) es files).1 = files)
    (hf : ∀ a es', Restores A (f a) es' files ↔ Unbroken A (f a) es' files) :
    Restores A (p.bind f) es files ↔ Unbroken A (p.bind f) es files := by
  unfold Restores Unbroken
  rw [Prog.run_bind, Prog.inputs_bind, hsilent.inputs_eq, List.nil_append]
  rcases hp : p.run (FileCmd.exec A) es files with ⟨files', e | a⟩
  · rw [hp] at hkeeps
    exact iff_of_true (fun _ => hkeeps) (fun _ hi => nomatch hi)
  · rw [hp] at hkeeps
    obtain rfl : files' = files := hkeeps
    exact hf a _

/-- A new file is created where nothing is; otherwise nothing changes. -/
theorem create_exec (A : Access) (files : Disk) (i : FileInput) (entry : Bytes) :
    FileCmd.exec A i (.create entry) files = (files, false) ∨
      Fresh A files entry ∧ FileCmd.exec A i (.create entry) files =
        (Function.update files entry (some (.file [])), true) := by
  by_cases hc : i.fault = true ∨ A.writable entry = false ∨ files entry ≠ none
  · exact .inl (if_pos hc)
  · refine .inr ⟨?_, if_neg hc⟩
    simp only [not_or, ne_eq, not_not, Bool.not_eq_false] at hc
    exact ⟨hc.2.2, hc.2.1⟩

theorem create_failed {e e' : Status} {entry : Bytes} {files' : Disk}
    (h : (check e (.create entry)).Runs (FileCmd.exec A) files files' (.error e')) :
    files' = files := by
  obtain ⟨i, h⟩ := Prog.runs_cmd h
  rcases create_exec A files i entry with hc | ⟨-, hc⟩
  · rw [hc] at h
    exact (Prog.runs_fail h).1
  · rw [hc] at h
    nomatch (Prog.runs_ret h).2

theorem create_done {e : Status} {entry : Bytes} {files' : Disk} {u : Unit}
    (h : (check e (.create entry)).Runs (FileCmd.exec A) files files' (.ok u)) :
    Fresh A files entry ∧ files' = Function.update files entry (some (.file [])) := by
  obtain ⟨i, h⟩ := Prog.runs_cmd h
  rcases create_exec A files i entry with hc | ⟨hfresh, hc⟩
  · rw [hc] at h
    nomatch (Prog.runs_fail h).2
  · rw [hc] at h
    exact ⟨hfresh, (Prog.runs_ret h).1⟩

/-- The removal of a new file. -/
theorem erase_new {i : FileInput} {entry content : Bytes} (h : Fresh A files entry) :
    erase A i (Function.update files entry (some (.file content))) entry = files := by
  unfold erase
  rw [Function.update_self, h.writable]
  dsimp only
  rw [if_pos rfl, Function.update_idem]
  exact Function.update_eq_self_iff.mpr h.absent.symm

/-- **`backup_fopen_exclusive`**: nothing has changed, or there is a new and empty file. -/
theorem fopenExclusive_exact {files' : Disk} {r : Except Status Bytes}
    (h : (fopenExclusive A path).Runs (FileCmd.exec A) files files' r) :
    (∃ e, r = .error e ∧ files' = files) ∨
      ∃ entry, r = .ok entry ∧ Fresh A files entry ∧
        files' = Function.update files entry (some (.file [])) := by
  rcases Prog.runs_bind_cases h with ⟨e, rfl, h1⟩ | ⟨_, _, h1, h2⟩
  · exact .inl ⟨e, rfl, runs_check_lib h1⟩
  obtain rfl := runs_check_lib h1
  cases hp : resolveParentPath A path with
  | error e =>
    simp only [hp] at h2
    obtain ⟨rfl, rfl⟩ := Prog.runs_fail h2
    exact .inl ⟨_, rfl, rfl⟩
  | ok entry =>
    simp only [hp] at h2
    rcases Prog.runs_bind_cases h2 with ⟨e, rfl, h3⟩ | ⟨_, _, h3, h4⟩
    · exact .inl ⟨e, rfl, runs_check_lib h3⟩
    obtain rfl := runs_check_lib h3
    rcases Prog.runs_bind_cases h4 with ⟨e, rfl, h5⟩ | ⟨_, _, h5, h6⟩
    · exact .inl ⟨e, rfl, create_failed h5⟩
    obtain ⟨hfresh, rfl⟩ := create_done h5
    rcases Prog.runs_bind_cases h6 with ⟨e, rfl, h7⟩ | ⟨x, _, h7, h8⟩
    · obtain ⟨_, hx, -⟩ := Prog.runs_attempt h7
      nomatch hx
    obtain ⟨_, hx, h9⟩ := Prog.runs_attempt h7
    obtain rfl := runs_check_lib h9
    cases x with
    | ok u =>
      obtain ⟨rfl, rfl⟩ := Prog.runs_ret h8
      exact .inr ⟨entry, rfl, hfresh, rfl⟩
    | error e =>
      obtain ⟨j, h10⟩ := Prog.runs_cmd h8
      obtain ⟨rfl, rfl⟩ := Prog.runs_fail h10
      exact .inl ⟨_, rfl, erase_new hfresh⟩

theorem silent_check {e : Status} {c : FileCmd} (h : FileCmd.writes c = false) :
    (check e c).Silent FileCmd.writes := by
  refine ⟨h, fun ok => ?_⟩
  cases ok <;> trivial

theorem silent_fopenExclusive : (fopenExclusive A path).Silent FileCmd.writes := by
  refine Prog.Silent.bind (silent_check rfl) fun _ => ?_
  cases resolveParentPath A path with
  | error e => trivial
  | ok entry =>
    refine Prog.Silent.bind (silent_check rfl) fun _ => Prog.Silent.bind (silent_check rfl) fun _ => ?_
    refine ⟨rfl, fun ok => ?_⟩
    cases ok with
    | true => trivial
    | false => exact ⟨rfl, fun _ => trivial⟩

/-- What is done with the new file: `fwrite`, `fclose` and the status. -/
def writeAndClose (entry data : Bytes) : FileProg Unit :=
  (writeData entry data).bind fun written => (Prog.call (.close entry)).bind fun closed =>
    if written = true ∧ closed = true then .ret () else .fail .storage

theorem writeAll_eq : writeAll A path data =
    (Prog.ofExcept (require (path ≠ []) .invalidArgument)).bind fun _ =>
      (fopenExclusive A path).bind fun entry => writeAndClose entry data := rfl

/-- A file keeps existing when it is written. -/
theorem rewrite_present {d : Disk} {entry : Bytes} {f : Bytes → Bytes} (h : d entry ≠ none) :
    rewrite d entry f entry ≠ none := by
  have hcases : rewrite d entry f = d ∨
      ∃ node, rewrite d entry f = Function.update d entry (some node) := by
    unfold rewrite
    split
    · exact .inr ⟨_, rfl⟩
    · exact .inl rfl
  rcases hcases with he | ⟨node, he⟩
  · rwa [he]
  · rw [he, Function.update_self]
    exact Option.some_ne_none _

theorem write_exec_present {d : Disk} {entry : Bytes} {i : FileInput} (data : Bytes)
    (h : d entry ≠ none) :
    (FileCmd.exec A i (.write entry data) d).1 entry ≠ none ∧
      (FileCmd.exec A i (.write entry data) d).2 = !i.fault := by
  unfold FileCmd.exec
  cases i.fault <;> exact ⟨rewrite_present h, rfl⟩

theorem close_exec_present {d : Disk} {entry : Bytes} {i : FileInput} (h : d entry ≠ none) :
    (FileCmd.exec A i (.close entry) d).1 entry ≠ none ∧
      (FileCmd.exec A i (.close entry) d).2 = !i.fault := by
  unfold FileCmd.exec
  cases i.fault with
  | true => exact ⟨rewrite_present h, rfl⟩
  | false => exact ⟨h, rfl⟩

/-- **Writing and closing**: it succeeds if the outside world fails neither, and the file stays. -/
theorem writeAndClose_run {d : Disk} {entry : Bytes} (h : d entry ≠ none) :
    ((writeAndClose entry data).run (FileCmd.exec A) es d).1 entry ≠ none ∧
      (((writeAndClose entry data).run (FileCmd.exec A) es d).2 = .ok () ↔
        Unbroken A (writeAndClose entry data) es d) := by
  unfold writeAndClose writeData Unbroken
  split_ifs with hdata
  · obtain ⟨hkept, hok⟩ := close_exec_present (A := A) (i := es 0) h
    simp only [Prog.ret_bind, Prog.call, Prog.cmd_bind, Prog.run, Prog.inputs, hok, FileCmd.writes,
      if_true, List.cons_append, List.nil_append, List.forall_mem_cons]
    cases hf : (es 0).fault with
    | true => exact ⟨hkept, by simp [Prog.run]⟩
    | false => exact ⟨hkept, by simp [Prog.run, Prog.inputs]⟩
  · obtain ⟨hwritten, hok⟩ := write_exec_present (A := A) (i := es 0) data h
    obtain ⟨hkept, hok'⟩ := close_exec_present (A := A) (i := es 1) hwritten
    simp only [Prog.call, Prog.cmd_bind, Prog.ret_bind, Prog.run, Prog.inputs, Nat.zero_add, hok, hok',
      FileCmd.writes, if_true, List.cons_append, List.nil_append, List.forall_mem_cons]
    cases hf : (es 0).fault with
    | true => exact ⟨hkept, by simp [Prog.run]⟩
    | false =>
      cases hf' : (es 1).fault with
      | true => exact ⟨hkept, by simp [Prog.run]⟩
      | false => exact ⟨hkept, by simp [Prog.run, Prog.inputs]⟩

/-- **`backup_write_all`**: a failure leaves the files as they were if and only if it is not one of
writing or closing. -/
theorem writeAll_restores_iff : Restores A (writeAll A path data) es files ↔
    Unbroken A (writeAll A path data) es files := by
  rw [writeAll_eq]
  refine restores_bind Prog.silent_ofExcept (Prog.runs_ofExcept (Prog.runs_run es)).1 fun _ es' => ?_
  unfold Restores Unbroken
  rw [Prog.run_bind, Prog.inputs_bind, silent_fopenExclusive.inputs_eq, List.nil_append]
  rcases hrun : (fopenExclusive A path).run (FileCmd.exec A) es' files with ⟨files', r⟩
  rcases fopenExclusive_exact ⟨es', hrun⟩ with ⟨e, rfl, rfl⟩ | ⟨entry, rfl, hfresh, rfl⟩
  · exact iff_of_true (fun _ => rfl) (fun _ hi => nomatch hi)
  · dsimp only
    have hnew : Function.update files entry (some (.file [])) entry ≠ none := by
      rw [Function.update_self]
      exact Option.some_ne_none _
    obtain ⟨hstays, hok⟩ := @writeAndClose_run A ((fopenExclusive A path).rest (FileCmd.exec A) es' files)
      data _ entry hnew
    refine Iff.trans ⟨fun h => ?_, fun h hne => absurd h hne⟩ hok
    by_contra hne
    exact hstays (by rw [h hne]; exact hfresh.absent)

/-- **Failed exports and imports**: for every capsule, every key, all files and all that the outside
world does, a run that does not succeed leaves the files exactly as they were, if and only if the
outside world fails no call of it that writes or closes the output. -/
theorem failed_output_iff (A : Access) (so : Sodium) (lib : KeyLibrary) (files : Disk)
    (es : ℕ → FileInput) :
    (∀ (serialize : Db → Bytes) (keyFiles : CString → Option Bytes) (recipient capsulePath : CString)
      (auditRoot : Block 32) (db : Db) (inputs : ℕ → Input),
      let p := exportFile A so lib serialize keyFiles recipient capsulePath auditRoot db inputs
      Restores A p es files ↔ Unbroken A p es files) ∧
    ∀ (own : PrivateLibrary) (passphrase outputPath : CString) (capsule : Option Bytes),
      let p := importFile A so lib own passphrase outputPath capsule
      Restores A p es files ↔ Unbroken A p es files := by
  constructor
  · intro serialize keyFiles recipient capsulePath auditRoot db inputs
    exact restores_bind Prog.silent_ofExcept (Prog.runs_ofExcept (Prog.runs_run es)).1
      fun _ _ => writeAll_restores_iff
  · intro own passphrase outputPath capsule
    refine restores_bind (silent_check rfl) (runs_check_lib (Prog.runs_run es)) fun _ es' => ?_
    exact restores_bind Prog.silent_ofExcept (Prog.runs_ofExcept (Prog.runs_run es')).1
      fun _ _ => writeAll_restores_iff

/-- The export of an empty vault to a file in the working directory. -/
def exportEmpty : FileProg Unit :=
  exportFile workDir toy toyKeyLibrary toySerialize (fun _ => some (List.replicate 32 7))
    (columnText (ascii "backup.pub")) (columnText (ascii "backup.fuincap")) (Block.fill 32 1)
    Db.empty (calm 1735689600 2)

/-- **Counterexample**: the disk is full when the capsule is written, and an empty file stays. -/
theorem truncated_capsule_stays :
    ¬ ∀ (A : Access) (so : Sodium) (lib : KeyLibrary) (files : Disk) (es : ℕ → FileInput)
      (serialize : Db → Bytes) (keyFiles : CString → Option Bytes) (recipient capsulePath : CString)
      (auditRoot : Block 32) (db : Db) (inputs : ℕ → Input),
      Restores A (exportFile A so lib serialize keyFiles recipient capsulePath auditRoot db inputs) es
        files := by
  intro h
  have hfull : (exportEmpty.run (FileCmd.exec workDir) (fun n => ⟨decide (4 ≤ n), 0⟩)
      fun _ => none).1 = fun _ => none := h workDir toy toyKeyLibrary _ _ toySerialize
    (fun _ => some (List.replicate 32 7)) _ _ _ Db.empty _ (by decide +kernel)
  have hstays : (exportEmpty.run (FileCmd.exec workDir) (fun n => ⟨decide (4 ≤ n), 0⟩) fun _ => none).1
      (ascii "/work/backup.fuincap") = some (.file []) := by decide +kernel
  rw [hfull] at hstays
  cases hstays

end Fuin.Backup.Outputs

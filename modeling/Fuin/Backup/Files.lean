import Fuin.Lib.Program
import Fuin.Utils

/-! # The file system

What `backup.c` does to files. An entry of a directory is named by its resolved path: that of the
directory, without symbolic links, and its name in it. Opening with `O_EXCL | O_NOFOLLOW` and
`remove` act on entries, so a symbolic link is an entry like a file. Whatever can fail is decided by
the outside world, apart from what permissions say: a process that may create a file in a directory
may remove it again. -/

namespace Fuin.Backup.Files

open Fuin.Utils Fuin.Lib.Program

/-- An entry of a directory. -/
inductive Node where
  | file (content : Bytes)
  | link (target : Bytes)
  | directory
  deriving DecidableEq, Repr

/-- The entries, by their resolved paths. -/
abbrev Disk := Bytes → Option Node

/-- What does not change while a file is written: how the path of a directory is resolved, and
whether the process may create or remove the entry at a resolved path. -/
structure Access where
  realpath : Bytes → Option Bytes
  writable : Bytes → Bool

/-- `backup_resolve_parent_path`, without its allocations. -/
def resolveParentPath (A : Access) (path : Bytes) : Except Status Bytes := do
  let basename := (path.reverse.takeWhile (· ≠ 47)).reverse
  let front := path.take (path.length - basename.length)
  -- the part up to the last slash: none is ".", the root stays
  let parent := if front = [] then ascii "." else if front = ascii "/" then front else front.dropLast
  require (basename ≠ [] ∧ basename ≠ ascii "." ∧ basename ≠ ascii "..") .invalidArgument
  let resolved ← (A.realpath parent).elim (.error .storage) .ok
  return resolved ++ (if resolved = ascii "/" then [] else ascii "/") ++ basename

/-- The system calls: a call that can only succeed or fail, `open` for a new file, the bytes that
reach a file, `fclose`, and `remove`. -/
inductive FileCmd where
  | lib
  | create (entry : Bytes)
  | write (entry data : Bytes)
  | close (entry : Bytes)
  | remove (entry : Bytes)

/-- All calls succeed or fail. -/
abbrev FileCmd.Reply : FileCmd → Type := fun _ => Bool

/-- What the world decides about a call: whether it fails, and how many bytes have reached the file
if it does. -/
structure FileInput where
  fault : Bool
  short : ℕ

/-- The file at an entry, with other contents. -/
def rewrite (files : Disk) (entry : Bytes) (f : Bytes → Bytes) : Disk :=
  match files entry with
  | some (.file content) => Function.update files entry (some (.file (f content)))
  | _ => files

/-- `remove` of an entry. A directory is removed if it is empty, which the world knows. -/
def erase (A : Access) (i : FileInput) (files : Disk) (entry : Bytes) : Disk :=
  match files entry with
  | none => files
  | some .directory => if i.fault then files else Function.update files entry none
  | some _ => if A.writable entry then Function.update files entry none else files

/-- One call. -/
def FileCmd.exec (A : Access) (i : FileInput) : (c : FileCmd) → Disk → Disk × c.Reply
  | .lib, files => (files, !i.fault)
  | .create entry, files =>
    if i.fault ∨ A.writable entry = false ∨ files entry ≠ none then (files, false)
    else (Function.update files entry (some (.file [])), true)
  | .write entry data, files =>
    if i.fault then (rewrite files entry (· ++ data.take i.short), false)
    else (rewrite files entry (· ++ data), true)
  | .close entry, files =>
    if i.fault then (rewrite files entry (·.take i.short), false) else (files, true)
  | .remove entry, files => (erase A i files entry, true)

/-- A program over the file system. -/
abbrev FileProg := Prog FileCmd.Reply Status

/-- A call that returns the status `e` when it fails. -/
def check (e : Status) (c : FileCmd) : FileProg Unit :=
  .cmd c fun ok => if ok then .ret () else .fail e

/-- `(void)remove`. -/
def remove (entry : Bytes) : FileProg Unit := .cmd (.remove entry) fun _ => .ret ()

/-- `(void)remove` of a path that was given. -/
def removePath (A : Access) (path : Bytes) : FileProg Unit :=
  match resolveParentPath A path with
  | .error _ => .ret ()
  | .ok entry => remove entry

/-- `backup_fopen_exclusive`: the entry that was created. -/
def fopenExclusive (A : Access) (path : Bytes) : FileProg Bytes := do
  check .storage .lib
  match resolveParentPath A path with
  | .error _ => .fail .storage
  | .ok entry => do
    check .storage .lib
    check .storage (.create entry)
    -- `fdopen`; the file is removed again if it fails
    match ← Prog.attempt (check .storage .lib) with
    | .ok () => return entry
    | .error e => do
      remove entry
      .fail e

/-! ### What has become of the files -/

variable {A : Access} {α : Type} {files files₁ files₂ : Disk} {entry : Bytes}

/-- A file that does not exist yet may be created at the entry. -/
structure Fresh (A : Access) (files : Disk) (entry : Bytes) : Prop where
  absent : files entry = none
  writable : A.writable entry = true

/-- **What a program that creates files leaves**: at every entry what was there, or a file where
nothing was. -/
def Touched (A : Access) (S : Bytes → Prop) (files files₁ : Disk) : Prop :=
  ∀ entry, files₁ entry = files entry ∨
    S entry ∧ Fresh A files entry ∧ ∃ content, files₁ entry = some (.file content)

variable {S : Bytes → Prop}

theorem Touched.refl : Touched A S files files := fun _ => Or.inl rfl

theorem Touched.update {node : Option Node} (h : Touched A S files files₁)
    (hnode : node = files entry ∨
      S entry ∧ Fresh A files entry ∧ ∃ content, node = some (.file content)) :
    Touched A S files (Function.update files₁ entry node) := by
  intro p
  by_cases hp : p = entry
  · subst hp
    rw [Function.update_self]
    exact hnode
  · rw [Function.update_of_ne hp]
    exact h p

/-- Other contents of a file that was created. -/
theorem Touched.rewrite {f : Bytes → Bytes} (h : Touched A S files files₁) (hS : S entry)
    (hfresh : Fresh A files entry) : Touched A S files (rewrite files₁ entry f) := by
  unfold Files.rewrite
  split
  · exact h.update (Or.inr ⟨hS, hfresh, _, rfl⟩)
  · exact h

/-- A new file. -/
theorem Touched.create {i : FileInput} (h : Touched A S files files₁) (hS : S entry) :
    Touched A S files (FileCmd.exec A i (.create entry) files₁).1 ∧
      ((FileCmd.exec A i (.create entry) files₁).2 = true → Fresh A files entry) := by
  simp only [FileCmd.exec]
  split_ifs with hc
  · exact ⟨h, fun e => nomatch e⟩
  · simp only [not_or, ne_eq, not_not, Bool.not_eq_false] at hc
    obtain ⟨-, hw, hnone⟩ := hc
    have hfresh : Fresh A files entry := by
      rcases h entry with he | ⟨-, hfresh, -⟩
      · exact ⟨he.symm.trans hnone, hw⟩
      · exact hfresh
    exact ⟨h.update (Or.inr ⟨hS, hfresh, [], rfl⟩), fun _ => hfresh⟩

theorem erase_cases (A : Access) (i : FileInput) (files : Disk) (entry : Bytes) :
    erase A i files entry = files ∨ erase A i files entry = Function.update files entry none := by
  unfold Files.erase
  split
  · exact Or.inl rfl
  · split_ifs
    · exact Or.inl rfl
    · exact Or.inr rfl
  · split_ifs
    · exact Or.inr rfl
    · exact Or.inl rfl

/-- The removal of a file that was created. -/
theorem Touched.erase {i : FileInput} (h : Touched A S files files₁) (hfresh : Fresh A files entry) :
    Touched A S files (erase A i files₁ entry) := by
  rcases erase_cases A i files₁ entry with he | he
  · rw [he]
    exact h
  · rw [he]
    exact h.update (Or.inl hfresh.absent.symm)

theorem erase_of_ne {i : FileInput} {p : Bytes} (hp : p ≠ entry) :
    erase A i files entry p = files p := by
  rcases erase_cases A i files entry with h | h
  · rw [h]
  · rw [h, Function.update_of_ne hp]

theorem erase_absent {i : FileInput} (h : files entry = none) : erase A i files entry = files := by
  unfold Files.erase
  rw [h]

/-- A file is removed if the process may remove it. -/
theorem erase_file {i : FileInput} {node : Node} (h : files entry = some node)
    (hfile : node ≠ .directory) :
    erase A i files entry entry = if A.writable entry then none else files entry := by
  unfold Files.erase
  rw [h]
  cases node with
  | directory => exact absurd rfl hfile
  | file content =>
    simp only
    split_ifs
    · exact Function.update_self ..
    · exact h
  | link target =>
    simp only
    split_ifs
    · exact Function.update_self ..
    · exact h

theorem runs_check {e : Status} {c : FileCmd} {r : Except Status Unit}
    (h : (check e c).Runs (FileCmd.exec A) files₁ files₂ r) :
    ∃ i, files₂ = (FileCmd.exec A i c files₁).1 ∧
      (r = .ok () → (FileCmd.exec A i c files₁).2 = true) := by
  obtain ⟨i, h⟩ := Prog.runs_cmd h
  refine ⟨i, ?_⟩
  cases hr : (FileCmd.exec A i c files₁).2 with
  | true =>
    simp only [hr] at h
    exact ⟨(Prog.runs_ret h).1, fun _ => rfl⟩
  | false =>
    simp only [hr] at h
    obtain ⟨hf, hr'⟩ := Prog.runs_fail h
    exact ⟨hf, fun he => nomatch hr'.symm.trans he⟩

theorem runs_check_lib {e : Status} {r : Except Status Unit}
    (h : (check e .lib).Runs (FileCmd.exec A) files₁ files₂ r) : files₂ = files₁ := by
  obtain ⟨i, h, -⟩ := runs_check h
  exact h

/-- **`backup_fopen_exclusive`** creates the entry the path names, where nothing was. -/
theorem fopenExclusive_runs {path : Bytes} {r : Except Status Bytes}
    (h : (fopenExclusive A path).Runs (FileCmd.exec A) files₁ files₂ r)
    (ht : Touched A S files files₁) (hS : ∀ p, resolveParentPath A path = .ok p → S p) :
    Touched A S files files₂ ∧
      ∀ p, r = .ok p → resolveParentPath A path = .ok p ∧ Fresh A files p := by
  rcases Prog.runs_bind_cases h with ⟨e, rfl, h1⟩ | ⟨_, d₁, h1, h2⟩
  · obtain rfl := runs_check_lib h1
    exact ⟨ht, fun _ he => nomatch he⟩
  obtain rfl := runs_check_lib h1
  cases hp : resolveParentPath A path with
  | error e =>
    simp only [hp] at h2
    obtain ⟨rfl, rfl⟩ := Prog.runs_fail h2
    exact ⟨ht, fun _ he => nomatch he⟩
  | ok entry =>
    simp only [hp] at h2
    rcases Prog.runs_bind_cases h2 with ⟨e, rfl, h3⟩ | ⟨_, d₂, h3, h4⟩
    · obtain rfl := runs_check_lib h3
      exact ⟨ht, fun _ he => nomatch he⟩
    obtain rfl := runs_check_lib h3
    rcases Prog.runs_bind_cases h4 with ⟨e, rfl, h5⟩ | ⟨_, d₃, h5, h6⟩
    · obtain ⟨i, rfl, -⟩ := runs_check h5
      exact ⟨(ht.create (hS entry hp)).1, fun _ he => nomatch he⟩
    obtain ⟨i, rfl, hcreated⟩ := runs_check h5
    obtain ⟨ht', hfresh⟩ := ht.create (i := i) (hS entry hp)
    have hfresh := hfresh (hcreated rfl)
    rcases Prog.runs_bind_cases h6 with ⟨e, rfl, h7⟩ | ⟨x, d₄, h7, h8⟩
    · obtain ⟨_, hx, -⟩ := Prog.runs_attempt h7
      nomatch hx
    obtain ⟨_, hx, h9⟩ := Prog.runs_attempt h7
    obtain rfl := runs_check_lib h9
    cases x with
    | ok u =>
      obtain ⟨rfl, rfl⟩ := Prog.runs_ret h8
      exact ⟨ht', fun p he => by cases he; exact ⟨rfl, hfresh⟩⟩
    | error e =>
      obtain ⟨j, h10⟩ := Prog.runs_cmd h8
      obtain ⟨rfl, rfl⟩ := Prog.runs_fail h10
      exact ⟨ht'.erase hfresh, fun _ he => nomatch he⟩

end Fuin.Backup.Files

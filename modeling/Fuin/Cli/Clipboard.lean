import Fuin.Cli.Main
import Fuin.Lib.Owned

/-! # The clipboard

`--copy` hands a secret to the clipboard tool and starts the program once more, as a helper that waits,
looks at the clipboard, and clears it if the secret is still there. Four kinds of processes take part: the
command line, helpers, the tools that set and print the clipboard, and anyone else who uses it. They
share the clipboard and the pipes between them (`Desk`); a step is a system call or what a tool does, and
`read` and `write` move as many bytes as they like. A call that is interrupted is repeated and is not a
step of its own; `sleep` ends when the time is over. -/

namespace Fuin.Cli.Clipboard

open Fuin.Utils Fuin.Lib.Program Fuin.Lib.Interleave Fuin.Audit.Encoding Fuin.Cli.RootSignatures
open Fuin.Cli.Main (clipboardClearHelper)

/-! ### The desk -/

/-- What a child process is: a tool that sets the clipboard, one that prints it, or the helper. -/
inductive Tool where
  | copy
  | paste
  | helper
  deriving DecidableEq

/-- A child process, and the pipe to its standard input or from its standard output. -/
structure Child (ι : Type) where
  tool : Tool
  argv : List CString
  env : List CString
  /-- The helper that has started it, if it was one. -/
  parent : Option ℕ
  /-- What is going to be written to the pipe, as far as this is settled; nobody reads this. -/
  whole : Option Bytes
  /-- The process with the write end, unless this is a tool. -/
  writer : Option ι
  /-- The process with the read end, unless this is a tool. -/
  reader : Option ι
  /-- What has been written. -/
  sent : Bytes
  /-- How much of it has been read. -/
  taken : ℕ
  /-- The write end is closed. -/
  closed : Bool
  /-- Whether it has ended with status 0, if it has ended. -/
  ended : Option Bool

/-- What has happened to the clipboard: a secret was copied, a helper has looked at it or cleared it, or
another program has put something there. -/
inductive Deed where
  | copied (y : Bytes)
  | looked (helper : ℕ) (y : Bytes)
  | cleared (helper : ℕ) (y : Bytes)
  | other (y : Bytes)
  deriving DecidableEq

/-- The clipboard and the child processes. -/
structure Desk (ι : Type) where
  clipboard : Bytes
  children : List (Child ι)
  history : List Deed
  /-- Some call has failed, or some process has died. -/
  failed : Bool

/-- What a tool does. -/
inductive ToolStep where
  /-- The copying tool has read all of its input, sets the clipboard and ends. -/
  | place (ok : Bool)
  /-- The printing tool takes the contents of the clipboard. -/
  | look
  /-- It writes some of them. -/
  | emit (n : ℕ)
  /-- It has written them all, and ends. -/
  | done
  /-- The tool dies. -/
  | die

/-- The system calls. -/
inductive DeskCmd (ι : Type) where
  /-- A library call that may fail and changes nothing. -/
  | lib
  | spawn (me : ι) (tool : Tool) (argv env : List CString) (parent : Option ℕ) (whole : Bytes)
  | write (c : ℕ) (data : Bytes)
  | read (c n : ℕ)
  | close (c : ℕ)
  | wait (c : ℕ)
  /-- The child begins to run the program. -/
  | start (me : ι) (c : ℕ)
  | sleep (seconds : ℕ)
  | exit (c : ℕ) (ok : Bool)
  | tool (c : ℕ) (step : ToolStep)
  /-- The process with the write end has died. -/
  | hangUp (c : ℕ)
  | place (y : Bytes)

/-- What a call returns: `none` if it fails. -/
def DeskCmd.Reply {ι : Type} : DeskCmd ι → Type
  | .lib => Bool
  | .spawn .. => Option ℕ
  | .write .. => Option ℕ
  | .read .. => Option Bytes
  | .close _ => Bool
  | .wait _ => Bool
  | .start .. => Option (List CString)
  | _ => Unit

/-- What the world decides: whether a call fails, and how much is moved. -/
structure Answer where
  ok : Bool
  count : ℕ

variable {ι : Type}

namespace Desk

variable (d : Desk ι)

def fail : Desk ι := { d with failed := true }

/-- The desk with a child changed. -/
def change (c : ℕ) (f : Child ι → Child ι) : Desk ι := { d with children := d.children.modify c f }

def note (deed : Deed) : Desk ι := { d with history := d.history ++ [deed] }

/-- What is noted when a copying tool sets the clipboard. -/
def placing : Option ℕ → Bytes → Deed
  | none, y => .copied y
  | some helper, y => .cleared helper y

/-- The desk after a step of a tool, if it can make this step. -/
def toolStep (c : ℕ) (ch : Child ι) : ToolStep → Option (Desk ι)
  | .place ok =>
    if ch.tool = .copy ∧ ch.closed = true ∧ ch.ended = none then
      let d := { d with clipboard := ch.sent, failed := d.failed || !ok }
      some ((d.note (placing ch.parent ch.sent)).change c fun ch => { ch with ended := some ok })
    else none
  | .look =>
    match ch.tool, ch.whole, ch.parent with
    | .paste, none, some helper =>
      some ((d.note (.looked helper d.clipboard)).change c fun ch => { ch with whole := some d.clipboard })
    | _, _, _ => none
  | .emit n =>
    match ch.tool, ch.whole with
    | .paste, some y =>
      if ch.closed = false then some (d.change c fun ch => { ch with sent := y.take (ch.sent.length + n) })
      else none
    | _, _ => none
  | .done =>
    if ch.tool = .paste ∧ ch.whole = some ch.sent ∧ ch.ended = none then
      some (d.change c fun ch => { ch with closed := true, ended := some true })
    else none
  | .die =>
    if ch.tool ≠ .helper ∧ ch.ended = none then
      some (d.fail.change c fun ch =>
        { ch with closed := ch.closed || decide (ch.tool = .paste), ended := some false })
    else none

/-- A child that has just been started; a printing tool writes to the pipe, the others read it. -/
def newChild (me : ι) (tool : Tool) (argv env : List CString) (parent : Option ℕ) (whole : Bytes) :
    Child ι where
  tool := tool
  argv := argv
  env := env
  parent := parent
  whole := if tool = .paste then none else some whole
  writer := if tool = .paste then none else some me
  reader := if tool = .paste then some me else none
  sent := []
  taken := 0
  closed := false
  ended := none

end Desk

open Desk in
/-- A step. -/
def exec (e : Answer) : (c : DeskCmd ι) → Desk ι → Desk ι × c.Reply
  | .lib, d => (if e.ok then d else d.fail, e.ok)
  | .spawn me tool argv env parent whole, d =>
    if e.ok then
      ({ d with children := d.children ++ [newChild me tool argv env parent whole] },
        some d.children.length)
    else (d.fail, none)
  | .write c data, d =>
    match d.children[c]? with
    | some ch =>
      if e.ok = true ∧ ch.closed = false then
        let n := min data.length (max 1 e.count)
        (d.change c fun ch => { ch with sent := ch.sent ++ data.take n }, some n)
      else (d.fail, none)
    | none => (d.fail, none)
  | .read c n, d =>
    match d.children[c]? with
    | some ch =>
      if e.ok then
        let bytes := (ch.sent.drop ch.taken).take (min n (max 1 e.count))
        (d.change c fun ch => { ch with taken := ch.taken + bytes.length }, some bytes)
      else (d.fail, none)
    | none => (d.fail, none)
  | .close c, d =>
    let d := if e.ok then d else d.fail
    (d.change c fun ch => { ch with closed := ch.closed || ch.writer.isSome }, e.ok)
  | .wait c, d =>
    let ok := e.ok && d.children[c]?.any fun ch => ch.ended = some true
    (if ok then d else d.fail, ok)
  | .start me c, d =>
    match d.children[c]? with
    | some ch =>
      if ch.tool = .helper ∧ ch.reader = none then
        (d.change c fun ch => { ch with reader := some me }, some ch.argv)
      else (d, none)
    | none => (d, none)
  | .sleep _, d => (d, ())
  | .exit c ok, d => (d.change c fun ch => { ch with ended := some ok }, ())
  | .tool c step, d => ((d.children[c]?.bind fun ch => d.toolStep c ch step).getD d, ())
  | .hangUp c, d => (d.fail.change c fun ch => { ch with closed := ch.closed || ch.writer.isSome }, ())
  | .place y, d => (({ d with clipboard := y } : Desk ι).note (.other y), ())

/-- A step that is possible: `read` waits until there is something to read or the write end is closed,
`wait` until the child has ended; a helper runs once. -/
def Ready (e : Answer) : DeskCmd ι → Desk ι → Prop
  | .read c _, d => e.ok = true → ∃ ch, d.children[c]? = some ch ∧
    (ch.taken < ch.sent.length ∨ ch.closed = true)
  | .wait c, d => e.ok = true → ∃ ch, d.children[c]? = some ch ∧ ch.ended ≠ none
  | .start _ c, d => ∃ ch, d.children[c]? = some ch ∧ ch.tool = .helper ∧ ch.reader = none
  | _, _ => True

/-! ### The functions -/

/-- A program that works on the clipboard. -/
abbrev DeskProg (ι α : Type) := Prog (DeskCmd.Reply (ι := ι)) Status α

/-- A library call that may fail. -/
def deskLib (e : Status) : DeskProg ι Unit :=
  .cmd .lib fun (ok : Bool) => if ok = true then .ret () else .fail e

def deskLibs : List Status → DeskProg ι Unit
  | [] => .ret ()
  | e :: es => (deskLib e).bind fun _ => deskLibs es

/-- What surrounds the program: the environment, the executable files, and `g_program_path`. -/
structure Setting where
  getenv : Bytes → Option CString
  executable : Bytes → Bool
  programPath : Option CString

/-- `CLI_MAX_SECRET_BYTES`. -/
def maxSecretBytes : ℕ := 1048576

/-- `CLI_CLIPBOARD_CLEAR_SECONDS`. -/
def clearSeconds : ℕ := 30

/-- `CLI_CLIPBOARD_ENV_MAX`. -/
def environmentMax : ℕ := 12

/-- `CLI_CLIPBOARD_COPY_CANDIDATES` and `CLI_CLIPBOARD_PASTE_CANDIDATES`. -/
def candidates : List Bytes :=
  [ascii "/usr/bin/xclip", ascii "/usr/local/bin/xclip", ascii "/bin/xclip",
    ascii "/run/current-system/sw/bin/xclip"]

/-- `cli_clipboard_resolve_program`. -/
def resolveProgram (executable : Bytes → Bool) : List Bytes → Option CString
  | [] => none
  | path :: paths => if executable path then some (columnText path) else resolveProgram executable paths

/-- The names that `cli_clipboard_build_env` passes on, with the values that they have if they are not
set; that of `PATH` is fixed. -/
def environmentNames : List (Bytes × Option Bytes) :=
  [(ascii "PATH", some (ascii "/usr/bin:/bin:/usr/sbin:/sbin:/usr/local/bin:/opt/homebrew/bin")),
    (ascii "HOME", none), (ascii "DISPLAY", none), (ascii "WAYLAND_DISPLAY", none),
    (ascii "XDG_RUNTIME_DIR", none), (ascii "XAUTHORITY", none), (ascii "DBUS_SESSION_BUS_ADDRESS", none)]

/-- The value of `cli_clipboard_add_env`, if it is not empty. -/
def environmentValue (getenv : Bytes → Option CString) (name : Bytes) (fallback : Option Bytes) :
    Option Bytes :=
  let value := if name = ascii "PATH" ∧ fallback.isSome then fallback
    else (((getenv name).map CString.bytes).filter (· ≠ [])).or fallback
  value.filter (· ≠ [])

/-- `cli_clipboard_add_env`. -/
def addEnv (getenv : Bytes → Option CString) (envp : List CString) (entry : Bytes × Option Bytes) :
    DeskProg ι (List CString) :=
  (Prog.ofExcept (require (envp.length + 1 < environmentMax) .invalidArgument)).bind fun _ =>
    match environmentValue getenv entry.1 entry.2 with
    | none => .ret envp
    | some value =>
      (Prog.ofExcept (require (entry.1.length + value.length + 2 ≤ sizeMax) .invalidArgument)).bind fun _ =>
        (deskLib .storage).bind fun _ => .ret (envp ++ [columnText (entry.1 ++ [61] ++ value)])

/-- The entries of an environment, one after the other. -/
def addEnvs (getenv : Bytes → Option CString) :
    List (Bytes × Option Bytes) → List CString → DeskProg ι (List CString)
  | [], envp => .ret envp
  | entry :: entries, envp => (addEnv getenv envp entry).bind fun envp => addEnvs getenv entries envp

/-- `cli_clipboard_build_env`. -/
def buildEnv (getenv : Bytes → Option CString) : DeskProg ι (List CString) :=
  addEnvs getenv environmentNames []

/-- A child is started, or the call fails. -/
def spawned (me : ι) (tool : Tool) (argv env : List CString) (parent : Option ℕ) (whole : Bytes) :
    DeskProg ι ℕ :=
  .cmd (.spawn me tool argv env parent whole) fun (c : Option ℕ) =>
    match c with
    | some c => .ret c
    | none => .fail .storage

/-- `cli_clipboard_spawn`: the pipe, the file actions, the child, and the child's end of the pipe is
closed; if that fails, the other end is closed too. -/
def clipboardSpawn (S : Setting) (me : ι) (parent : Option ℕ) (tool : Tool) (argv : List CString)
    (whole : Bytes) : DeskProg ι ℕ :=
  (buildEnv S.getenv).bind fun env =>
    (deskLibs (.storage :: .storage :: .storage :: .storage ::
      if tool = .paste then [] else [.storage])).bind fun _ =>
      (spawned me tool argv env parent whole).bind fun c =>
        .cmd .lib fun (ok : Bool) =>
          if ok = true then .ret c else .cmd (.close c) fun (_ : Bool) => .fail .storage

/-- `cli_write_all_fd`: every call writes at least one byte, so there are no more than `fuel`. -/
def writeAllFd (c : ℕ) : ℕ → Bytes → DeskProg ι Unit
  | _, [] => .ret ()
  | 0, _ :: _ => .fail .storage
  | fuel + 1, b :: data =>
    .cmd (.write c (b :: data)) fun (n : Option ℕ) =>
      match n with
      | none => .fail .storage
      | some 0 => .fail .storage
      | some (n + 1) => writeAllFd c fuel (data.drop n)

/-- `cli_write_all_ignore_sigpipe`. -/
def writeAllIgnoreSigpipe (c : ℕ) (data : Bytes) : DeskProg ι Unit :=
  (deskLib .storage).bind fun _ => writeAllFd c data.length data

/-- `cli_read_exact_fd`: every call reads at least one byte. -/
def readExactFd (c : ℕ) : ℕ → ℕ → DeskProg ι Bytes
  | _, 0 => .ret []
  | 0, _ + 1 => .fail .storage
  | fuel + 1, n + 1 =>
    .cmd (.read c (n + 1)) fun (bytes : Option Bytes) =>
      match bytes with
      | none => .fail .storage
      | some [] => .fail .storage
      | some (b :: bytes) =>
        (readExactFd c fuel (n - bytes.length)).bind fun rest => .ret (b :: bytes ++ rest)

/-- The loop of `cli_clipboard_read_current`: until there is no more, or the buffer is full. -/
def readUpTo (c : ℕ) : ℕ → ℕ → DeskProg ι Bytes
  | _, 0 => .ret []
  | 0, _ + 1 => .fail .storage
  | fuel + 1, n + 1 =>
    .cmd (.read c (n + 1)) fun (bytes : Option Bytes) =>
      match bytes with
      | none => .fail .storage
      | some [] => .ret []
      | some (b :: bytes) =>
        (readUpTo c fuel (n - bytes.length)).bind fun rest => .ret (b :: bytes ++ rest)

/-- The end of the functions that talk to a tool: the pipe is closed, and they wait for the tool. -/
def finished {α : Type} (c : ℕ) (r : Except Status α) : DeskProg ι α :=
  .cmd (.close c) fun (closed : Bool) => .cmd (.wait c) fun (ended : Bool) =>
    if closed = true ∧ ended = true then Prog.ofExcept (r.mapError fun _ => .storage) else .fail .storage

/-- The arguments of the copying tool. -/
def copyArgv (program : CString) : List CString :=
  [program, columnText (ascii "-selection"), columnText (ascii "clipboard")]

/-- The arguments of the printing tool. -/
def pasteArgv (program : CString) : List CString := copyArgv program ++ [columnText (ascii "-o")]

/-- The arguments of the helper. -/
def helperArgv (path : CString) (length : ℕ) : List CString :=
  [path, columnText clipboardClearHelper, entriesText length, entriesText clearSeconds]

/-- `cli_clipboard_write`. -/
def clipboardWrite (S : Setting) (me : ι) (parent : Option ℕ) (data : Bytes) : DeskProg ι Unit :=
  match resolveProgram S.executable candidates with
  | none => .fail .storage
  | some program =>
    (clipboardSpawn S me parent .copy (copyArgv program) data).bind fun c =>
      (writeAllIgnoreSigpipe c data).attempt.bind fun (r : Except Status Unit) => finished c r

/-- `cli_clipboard_read_current`. -/
def clipboardReadCurrent (S : Setting) (me : ι) (helper maxLen : ℕ) : DeskProg ι Bytes :=
  (Prog.ofExcept (require (maxLen ≤ maxSecretBytes) .invalidArgument)).bind fun _ =>
    match resolveProgram S.executable candidates with
    | none => .fail .storage
    | some program =>
      (deskLib .storage).bind fun _ =>
        (clipboardSpawn S me (some helper) .paste (pasteArgv program) []).bind fun c =>
          (readUpTo c (maxLen + 1) (maxLen + 1)).attempt.bind fun (r : Except Status Bytes) => finished c r

/-- What `cli_clipboard_clear_helper` does when the time is over: the clipboard is cleared if it is what
was expected. -/
def clearIfExpected (S : Setting) (me : ι) (helper : ℕ) (expected : Bytes) : DeskProg ι Unit :=
  (clipboardReadCurrent S me helper expected.length).attempt.bind fun (r : Except Status Bytes) =>
    match r with
    | .error _ => .ret ()
    | .ok current =>
      if current = expected then
        (clipboardWrite S me (some helper) []).attempt.bind fun (_ : Except Status Unit) => .ret ()
      else .ret ()

/-- The numbers in the arguments of the helper. -/
def helperNumbers : List CString → Except Status (ℕ × ℕ)
  | [_, _, length, delay] => do
    let expectedLen ← parseSizeValue length true
    let delaySeconds ← parseSizeValue delay true
    require (expectedLen ≤ maxSecretBytes ∧ delaySeconds ≤ 4294967295) .invalidArgument
    return (expectedLen, delaySeconds)
  | _ => .error .invalidArgument

/-- `cli_clipboard_clear_helper`. -/
def clipboardClear (S : Setting) (me : ι) (helper : ℕ) (argv : List CString) : DeskProg ι Unit :=
  (Prog.ofExcept (helperNumbers argv)).bind fun (expectedLen, delaySeconds) =>
    if expectedLen = 0 then .ret ()
    else
      (deskLib .storage).bind fun _ =>
        (readExactFd helper expectedLen expectedLen).bind fun expected =>
          .cmd (.sleep delaySeconds) fun (_ : Unit) => clearIfExpected S me helper expected

/-- `main`, in the helper. -/
def runHelper (S : Setting) (me : ι) (helper : ℕ) : DeskProg ι Unit :=
  .cmd (.start me helper) fun (argv : Option (List CString)) =>
    match argv with
    | none => .fail .invalidArgument
    | some argv =>
      ((deskLib .crypto).bind fun _ => clipboardClear S me helper argv).attempt.bind
        fun (r : Except Status Unit) => .cmd (.exit helper r.toBool) fun (_ : Unit) => .ret ()

/-- The helper is started, and gets the secret. -/
def startHelper (S : Setting) (me : ι) (path : CString) (data : Bytes) : DeskProg ι Unit :=
  (buildEnv S.getenv).bind fun env =>
    (deskLibs [.storage, .storage, .storage]).bind fun _ =>
      (spawned me .helper (helperArgv path data.length) env none data).bind fun c =>
        ((deskLib .storage).bind fun _ => writeAllIgnoreSigpipe c data).attempt.bind
          fun (r : Except Status Unit) => .cmd (.close c) fun (_ : Bool) => Prog.ofExcept r

/-- `cli_clipboard_schedule_clear`. -/
def scheduleClear (S : Setting) (me : ι) (data : Bytes) : DeskProg ι Unit :=
  (Prog.ofExcept (require (data.length ≤ maxSecretBytes) .invalidArgument)).bind fun _ =>
    match S.programPath with
    | none => .fail .invalidArgument
    | some path =>
      (Prog.ofExcept (require (path.bytes ≠ []) .invalidArgument)).bind fun _ =>
        if data = [] then .ret () else startHelper S me path data

/-- `cli_copy_secret_to_clipboard`: whether the helper could be started is only told. -/
def copySecretToClipboard (S : Setting) (me : ι) (data : Bytes) : DeskProg ι Unit :=
  (deskLib .storage).bind fun _ =>
    (clipboardWrite S me none data).bind fun _ =>
      (scheduleClear S me data).attempt.bind fun (_ : Except Status Unit) => .ret ()

/-! ### All together -/

/-- What a process does: it copies a secret, it runs as a helper, a tool makes a step, a writer dies, or
another program sets the clipboard. -/
inductive DeskOp where
  | copySecret (data : Bytes)
  | runHelper (c : ℕ)
  | tool (c : ℕ) (step : ToolStep)
  | hangUp (c : ℕ)
  | other (y : Bytes)

def code (S : Setting) (me : ι) : DeskOp → DeskProg ι Unit
  | .copySecret data => copySecretToClipboard S me data
  | .runHelper c => runHelper S me c
  | .tool c step => .cmd (.tool c step) fun (_ : Unit) => .ret ()
  | .hangUp c => .cmd (.hangUp c) fun (_ : Unit) => .ret ()
  | .other y => .cmd (.place y) fun (_ : Unit) => .ret ()

/-- The processes around a clipboard. -/
def deskSystem (ι : Type) (S : Setting) : System (DeskCmd.Reply (ι := ι)) Status Unit (Desk ι) Answer ι DeskOp where
  exec := exec
  code := code S
  finish me _ _ := me

end Fuin.Cli.Clipboard

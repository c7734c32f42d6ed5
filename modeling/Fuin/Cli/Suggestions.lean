import Fuin.Cli.Dispatch
import Fuin.Lib.Cells
import Fuin.Lib.Distances

/-! # Unknown commands

A command that is not known is answered with the known one that is nearest to it, if that is within two
edits. `cli_edit_distance` keeps two rows of the table of distances; its rows have 64 cells, and longer
texts are called far without a look at them. No known command is so long that this makes a difference,
so what is hinted is what the least number of edits says (`cliClosestCommand_eq`). -/

namespace Fuin.Cli.Suggestions

open Fuin.Utils Fuin.Lib.Program Fuin.Lib.Cells Fuin.Lib.Distances Fuin.Cli.Calls Fuin.Cli.Commands
open Fuin.Cli.Dispatch

/-- `CLI_COMMAND_HELP`: the commands and how they are used. -/
def cliCommandHelp : List (Bytes × Bytes) :=
  [(ascii "init", ascii "init"),
    (ascii "put", ascii "put NAME [--stdin | -v VALUE] [--algorithm ALG] [--ttl DURATION]"),
    (ascii "set", ascii "put NAME [--stdin | -v VALUE] [--algorithm ALG] [--ttl DURATION]"),
    (ascii "generate",
      ascii "generate NAME [--length N] [--no-symbols] [--copy] [--ttl DURATION]"),
    (ascii "gen", ascii "generate NAME [--length N] [--no-symbols] [--copy] [--ttl DURATION]"),
    (ascii "get", ascii "get NAME [--version N] [--copy] [--raw]"),
    (ascii "totp", ascii "totp NAME [--copy]"),
    (ascii "list", ascii "list [--all]"),
    (ascii "ls", ascii "list [--all]"),
    (ascii "delete", ascii "delete NAME"),
    (ascii "del", ascii "delete NAME"),
    (ascii "rollback", ascii "rollback NAME --version N"),
    (ascii "rotate-kek", ascii "rotate-kek"),
    (ascii "rotate", ascii "rotate-kek"),
    (ascii "check-expiry", ascii "check-expiry [--within DURATION]"),
    (ascii "auto-rotate", ascii "auto-rotate"),
    (ascii "rotate-dek", ascii "auto-rotate"),
    (ascii "issue-token", ascii "issue-token --scope SCOPE --ttl DURATION [--subject NAME]"),
    (ascii "check-token", ascii "check-token --scope SCOPE (token from FUIN_TOKEN)"),
    (ascii "revoke-tokens", ascii "revoke-tokens"),
    (ascii "audit-verify", ascii "audit-verify"),
    (ascii "verify", ascii "audit-verify"),
    (ascii "audit-root", ascii "audit-root"),
    (ascii "merkle-root", ascii "audit-root"),
    (ascii "audit-proof", ascii "audit-proof --entry-id N"),
    (ascii "audit-verify-proof",
      ascii "audit-verify-proof --entry-id N --root HEX --proof HEX --leaf-index N --entries N"),
    (ascii "audit-keygen", ascii "audit-keygen --public-out PATH --private-out PATH"),
    (ascii "audit-sign-root", ascii "audit-sign-root --private-key PATH"),
    (ascii "audit-verify-root-sig",
      ascii "audit-verify-root-sig --public-key PATH --root HEX --signature B64 --entries N"),
    (ascii "status-report", ascii "status-report"),
    (ascii "security-report", ascii "status-report"),
    (ascii "report", ascii "status-report"),
    (ascii "pqc-keygen", ascii "pqc-keygen --public-out PATH --private-out PATH"),
    (ascii "backup-export", ascii "backup-export --recipient PATH --out PATH"),
    (ascii "backup-import", ascii "backup-import --private-key PATH --input PATH --out PATH")]

/-- `cli_command_usage`. -/
def cliCommandUsage (command : Bytes) : Option Bytes :=
  if command = [] then none else cliCommandHelp.lookup command

/-- `cli_command_accepts_name`. -/
def cliCommandAcceptsName (command : Bytes) : Bool :=
  [ascii "put", ascii "set", ascii "generate", ascii "gen", ascii "get", ascii "totp", ascii "delete",
    ascii "del", ascii "rollback"].contains command

/-! ### The distance of two texts -/

/-- A row of the table: `size_t [64]`. -/
abbrev Row := Vector (Option ℕ) 64

/-- The body of the inner loop: one cell of the row `i`. -/
def editCell (a b : Bytes) (prev : Row) (i j : ℕ) (curr : Row) : Option Row := do
  let x ← a[i - 1]?
  let y ← b[j - 1]?
  let cost := if x = y then 0 else 1
  let best := (← read prev j) + 1
  let ins := (← read curr (j - 1)) + 1
  let sub := (← read prev (j - 1)) + cost
  let best := if ins < best then ins else best
  let best := if sub < best then sub else best
  write curr j best

/-- The body of the loop that copies a row. -/
def copyCell (curr : Row) (j : ℕ) (prev : Row) : Option Row := do
  let x ← read curr j
  write prev j x

/-- The body of the outer loop: the row `i`, then copied over the one before. -/
def editRow (a b : Bytes) (i : ℕ) (rows : Row × Row) : Option (Row × Row) := do
  let curr ← write rows.2 0 i
  let curr ← loop (editCell a b rows.1 i) 1 b.length curr
  let prev ← loop (copyCell curr) 0 (b.length + 1) rows.1
  return (prev, curr)

/-- `cli_edit_distance`. -/
def cliEditDistance (a b : Bytes) : Option ℕ :=
  if 62 < a.length ∨ 62 < b.length then some 64
  else do
    let prev ← loop (fun j (prev : Row) => write prev j j) 0 (b.length + 1) (blank 64 ℕ)
    let rows ← loop (editRow a b) 1 a.length (prev, blank 64 ℕ)
    read rows.1 b.length

/-- One command of the table: it is better if it is nearer than the best before it. -/
def closestStep (command : Bytes) (best : Option Bytes × ℕ) (entry : Bytes × Bytes) :
    Option (Option Bytes × ℕ) := do
  let d ← cliEditDistance command entry.1
  return if d < best.2 then (some entry.1, d) else best

/-- `cli_closest_command`. -/
def cliClosestCommand (command : Bytes) : Option (Option Bytes) :=
  if command.length < 2 then some none
  else do
    let best ← cliCommandHelp.foldlM (closestStep command) (none, 3)
    return best.1

/-! ### The rows hold distances -/

variable {a b : Bytes} {prev curr t : Row} {i j k n : ℕ} {rows : Row × Row}

/-- The first cells of a row are the distances of `a` from the beginnings of `b`. -/
def Filled (a b : Bytes) (n : ℕ) (t : Row) : Prop :=
  ∀ k < n, read t k = some (distance a (b.take k))

theorem filled_write {t' : Row} {x : ℕ} (ht : Filled a b n t) (h : write t n x = some t')
    (hx : x = distance a (b.take n)) : Filled a b (n + 1) t' := by
  intro k hk
  rw [read_write h]
  by_cases hkn : k = n
  · rw [if_pos hkn, hkn, hx]
  · rw [if_neg hkn]
    exact ht k (by omega)

/-- The row of the empty text. -/
theorem first_row (hb : b.length ≤ 62) :
    ∃ t, loop (fun j (prev : Row) => write prev j j) 0 (b.length + 1) (blank 64 ℕ) = some t ∧
      Filled [] b (b.length + 1) t := by
  have hstart : Filled [] b 0 (blank 64 ℕ) := fun k hk => absurd hk (Nat.not_lt_zero k)
  obtain ⟨t, hloop, ht⟩ := loop_ok (I := Filled [] b) (n := b.length + 1)
    (fun j t _ hj ht => by
      obtain ⟨t', hwrite⟩ := write_some (by omega : j < 64) t j
      refine ⟨t', hwrite, filled_write ht hwrite ?_⟩
      rw [distance_nil_left, List.length_take]
      omega) hstart
  rw [Nat.zero_add] at ht
  exact ⟨t, hloop, ht⟩

theorem take_concat {l : Bytes} {x : UInt8} (h : l[i]? = some x) : l.take (i + 1) = l.take i ++ [x] := by
  rw [List.take_add_one, h]
  rfl

/-- **One cell** from the three that it looks at. -/
theorem editCell_ok (ha : i < a.length) (hb : b.length ≤ 62) (hj : j < b.length)
    (hprev : Filled (a.take i) b (b.length + 1) prev)
    (hcurr : Filled (a.take (i + 1)) b (j + 1) curr) :
    ∃ curr', editCell a b prev (i + 1) (j + 1) curr = some curr' ∧
      Filled (a.take (i + 1)) b (j + 2) curr' := by
  obtain ⟨x, hx⟩ : ∃ x, a[i]? = some x := ⟨_, List.getElem?_eq_getElem ha⟩
  obtain ⟨y, hy⟩ : ∃ y, b[j]? = some y := ⟨_, List.getElem?_eq_getElem hj⟩
  have hup := hprev (j + 1) (by omega)
  have hleft := hcurr j (by omega)
  have hdiagonal := hprev j (by omega)
  -- the smaller of the three, as the two comparisons find it
  have hcell := distance_concat (a.take i) (b.take j) x y
  rw [← take_concat hx, ← take_concat hy] at hcell
  obtain ⟨curr', hwrite⟩ := write_some (by omega : j + 1 < 64) curr
    (distance (a.take (i + 1)) (b.take (j + 1)))
  refine ⟨curr', ?_, filled_write hcurr hwrite rfl⟩
  unfold editCell
  simp only [Nat.add_sub_cancel, hx, hy, hup, hleft, hdiagonal, Option.bind_eq_bind, Option.bind_some]
  rw [← hwrite]
  congr 1
  rw [hcell]
  unfold cost
  split_ifs <;> omega

/-- **One row** from the row before. -/
theorem editRow_ok (ha : i < a.length) (hb : b.length ≤ 62)
    (hprev : Filled (a.take i) b (b.length + 1) rows.1) :
    ∃ rows', editRow a b (i + 1) rows = some rows' ∧
      Filled (a.take (i + 1)) b (b.length + 1) rows'.1 := by
  obtain ⟨start, hwrite⟩ := write_some (by omega : 0 < 64) rows.2 (i + 1)
  have hstart : Filled (a.take (i + 1)) b 1 start := by
    have hnone : Filled (a.take (i + 1)) b 0 rows.2 := fun k hk => absurd hk (Nat.not_lt_zero k)
    refine filled_write hnone hwrite ?_
    rw [List.take_zero, distance_nil_right, List.length_take]
    omega
  obtain ⟨curr, hcells, hcurr⟩ := loop_ok (I := fun j => Filled (a.take (i + 1)) b j) (n := b.length)
    (fun j t hlow hj ht => by
      obtain ⟨j, rfl⟩ : ∃ j', j = j' + 1 := ⟨j - 1, by omega⟩
      exact editCell_ok ha hb (by omega) hprev ht) hstart
  have hnone : Filled (a.take (i + 1)) b 0 rows.1 := fun k hk => absurd hk (Nat.not_lt_zero k)
  have hcopies : ∀ j t, 0 ≤ j → j < 0 + (b.length + 1) → Filled (a.take (i + 1)) b j t →
      ∃ t', copyCell curr j t = some t' ∧ Filled (a.take (i + 1)) b (j + 1) t' := by
    intro j t _ hj ht
    obtain ⟨t', ht'⟩ := write_some (by omega : j < 64) t (distance (a.take (i + 1)) (b.take j))
    have hread := hcurr j (by omega)
    refine ⟨t', ?_, filled_write ht ht' rfl⟩
    unfold copyCell
    rw [hread]
    exact ht'
  obtain ⟨copied, hcopy, hcopied⟩ := loop_ok hcopies hnone
  refine ⟨(copied, curr), ?_, ?_⟩
  · unfold editRow
    simp only [hwrite, hcells, hcopy, Option.bind_eq_bind, Option.bind_some]
    rfl
  · rwa [Nat.zero_add] at hcopied

/-- **The distance that is computed is the least number of edits, for texts that the rows can hold.** -/
theorem cliEditDistance_eq (a b : Bytes) :
    cliEditDistance a b = some (if 62 < a.length ∨ 62 < b.length then 64 else distance a b) := by
  unfold cliEditDistance
  by_cases hlong : 62 < a.length ∨ 62 < b.length
  · rw [if_pos hlong, if_pos hlong]
  · rw [if_neg hlong, if_neg hlong]
    obtain ⟨prev, hfirst, hprev⟩ := first_row (b := b) (by omega)
    have hbody : ∀ i rows, 1 ≤ i → i < 1 + a.length →
        Filled (a.take (i - 1)) b (b.length + 1) rows.1 →
        ∃ rows', editRow a b i rows = some rows' ∧
          Filled (a.take (i + 1 - 1)) b (b.length + 1) rows'.1 := by
      intro i rows hlow hi hI
      obtain ⟨i, rfl⟩ : ∃ i', i = i' + 1 := ⟨i - 1, by omega⟩
      exact editRow_ok (by omega) (by omega) hI
    have hstart : Filled (a.take (1 - 1)) b (b.length + 1) (prev, blank 64 ℕ).1 := hprev
    obtain ⟨rows, hrows, hlast⟩ :=
      loop_ok (I := fun i (t : Row × Row) => Filled (a.take (i - 1)) b (b.length + 1) t.1) hbody hstart
    have hresult := hlast b.length (by omega)
    rw [Nat.add_sub_cancel_left, List.take_length, List.take_length] at hresult
    simp only [hfirst, hrows, Option.bind_eq_bind, Option.bind_some]
    exact hresult

/-- Two letters that have changed places are two edits. -/
example : cliEditDistance (ascii "lsit") (ascii "list") = some 2 := by decide +kernel

/-! ### The nearest command -/

/-- The first of the nearest within two edits. -/
def Nearest (names : List Bytes) (command n : Bytes) : Prop :=
  ∃ l l', names = l ++ n :: l' ∧ distance command n ≤ 2 ∧
    (∀ m ∈ l, distance command n < distance command m) ∧ ∀ m ∈ l', distance command n ≤ distance command m

/-- `best` is what the scan of these names has found. -/
def Scanned (command : Bytes) (names : List Bytes) : Option Bytes × ℕ → Prop
  | (none, d) => d = 3 ∧ ∀ m ∈ names, 2 < distance command m
  | (some n, d) => d = distance command n ∧ Nearest names command n

theorem nearest_concat {names : List Bytes} {command n m : Bytes} (h : Nearest names command n)
    (hm : distance command n ≤ distance command m) : Nearest (names ++ [m]) command n := by
  obtain ⟨l, l', rfl, hnear, hbefore, hafter⟩ := h
  refine ⟨l, l' ++ [m], by simp, hnear, hbefore, fun x hx => ?_⟩
  rcases List.mem_append.mp hx with hx | hx
  · exact hafter x hx
  · rwa [List.mem_singleton.mp hx]

/-- A name that is nearer than all before it. -/
theorem nearest_last {names : List Bytes} {command m : Bytes} (hnear : distance command m ≤ 2)
    (hbefore : ∀ x ∈ names, distance command m < distance command x) :
    Nearest (names ++ [m]) command m :=
  ⟨names, [], rfl, hnear, hbefore, fun _ hx => absurd hx List.not_mem_nil⟩

theorem Scanned.below {command : Bytes} {names : List Bytes} {best : Option Bytes × ℕ}
    (h : Scanned command names best) : best.2 ≤ 3 ∧ ∀ m ∈ names, best.2 ≤ distance command m := by
  obtain ⟨found, d⟩ := best
  cases found with
  | none =>
    obtain ⟨rfl, hfar⟩ := h
    exact ⟨le_rfl, fun m hm => hfar m hm⟩
  | some n =>
    obtain ⟨rfl, l, l', rfl, hnear, hbefore, hafter⟩ := h
    refine ⟨by simp only; omega, fun m hm => ?_⟩
    rcases List.mem_append.mp hm with hm | hm
    · exact le_of_lt (hbefore m hm)
    · rcases List.mem_cons.mp hm with rfl | hm
      · exact le_rfl
      · exact hafter m hm

/-- **One step of the scan.** -/
theorem scanned_step {command : Bytes} {names : List Bytes} {best : Option Bytes × ℕ} {n : Bytes}
    (h : Scanned command names best) :
    Scanned command (names ++ [n]) (if distance command n < best.2 then (some n, distance command n)
      else best) := by
  obtain ⟨hthree, hbelow⟩ := h.below
  split_ifs with hn
  · refine ⟨rfl, nearest_last (by omega) fun m hm => ?_⟩
    have hm := hbelow m hm
    omega
  · obtain ⟨found, d⟩ := best
    cases found with
    | none =>
      obtain ⟨rfl, hfar⟩ := h
      refine ⟨rfl, fun m hm => ?_⟩
      rcases List.mem_append.mp hm with hm | hm
      · exact hfar m hm
      · rw [List.mem_singleton.mp hm]
        exact not_lt.mp hn
    | some m =>
      obtain ⟨rfl, hm⟩ := h
      exact ⟨rfl, nearest_concat hm (by simpa using hn)⟩

/-- The names of the table. -/
def commandNames : List Bytes := cliCommandHelp.map Prod.fst

theorem commandNames_length : ∀ n ∈ commandNames, n.length ≤ 21 := by decide

/-- Whether a command is nearer than `k` is the same for the distance that is computed. -/
theorem closestStep_eq (command : Bytes) {entry : Bytes × Bytes} {best : Option Bytes × ℕ}
    (hentry : entry.1 ∈ commandNames) (hbest : best.2 ≤ 3) :
    closestStep command best entry =
      some (if distance command entry.1 < best.2 then (some entry.1, distance command entry.1) else best) := by
  have hlength := commandNames_length entry.1 hentry
  have happart := length_le_distance command entry.1
  unfold closestStep
  rw [cliEditDistance_eq]
  by_cases hlong : 62 < command.length
  · rw [if_pos (Or.inl hlong)]
    have hfar : ¬distance command entry.1 < best.2 := by omega
    have hcapped : ¬64 < best.2 := by omega
    simp only [Option.bind_eq_bind, Option.bind_some, if_neg hfar, if_neg hcapped]
    rfl
  · rw [if_neg (by omega)]
    rfl

theorem scanned_foldlM {command : Bytes} : ∀ (entries : List (Bytes × Bytes)) {names : List Bytes}
    {best : Option Bytes × ℕ}, Scanned command names best → (∀ e ∈ entries, e.1 ∈ commandNames) →
    ∃ best', entries.foldlM (closestStep command) best = some best' ∧
      Scanned command (names ++ entries.map Prod.fst) best'
  | [], names, best, h, _ => ⟨best, rfl, by simpa using h⟩
  | e :: entries, names, best, h, hentries => by
    have hstep := closestStep_eq command (hentries e List.mem_cons_self) h.below.1
    obtain ⟨best', hrest, hbest'⟩ :=
      scanned_foldlM entries (scanned_step (n := e.1) h) fun x hx =>
        hentries x (List.mem_cons_of_mem _ hx)
    refine ⟨best', ?_, ?_⟩
    · rw [List.foldlM_cons, hstep]
      exact hrest
    · simpa using hbest'

/-- **The hint is the first of the commands that are nearest, within two edits; without one there is
none.** -/
theorem cliClosestCommand_eq (command : Bytes) (hlength : 2 ≤ command.length) :
    ∃ hint, cliClosestCommand command = some hint ∧
      (∀ n ∈ hint, Nearest commandNames command n) ∧
      (hint = none → ∀ n ∈ commandNames, 2 < distance command n) := by
  have hstart : Scanned command [] (none, 3) := ⟨rfl, fun m hm => absurd hm List.not_mem_nil⟩
  obtain ⟨⟨hint, d⟩, hscan, hbest⟩ := scanned_foldlM cliCommandHelp hstart
    fun e he => List.mem_map_of_mem he
  refine ⟨hint, ?_, ?_, ?_⟩
  · unfold cliClosestCommand
    rw [if_neg (by omega), hscan]
    rfl
  · rintro n rfl
    exact hbest.2
  · rintro rfl
    exact hbest.2

/-! ### The report -/

/-- Lines on standard error; `usage` is the text of `cli_print_usage`. -/
inductive Line where
  | usage
  | error (text : Bytes)
  | hint (text : Bytes)
  deriving DecidableEq

/-- The lines about a command that is not known. -/
def unknownLines (command : Bytes) (guess : Option Bytes) : List Line :=
  .error (ascii "'" ++ command ++ ascii "' is not a fuin command") ::
    (guess.elim [] fun g => [.hint (ascii "did you mean 'fuin " ++ g ++ ascii "'?")]) ++
    [.hint (ascii "run 'fuin --help' to see all commands")]

/-- `cli_report_invalid_argument`. -/
def cliReportInvalidArgument (o : Options) : Option (List Line) :=
  if o.command.bytes = [] then some [.usage]
  else
    match cliCommandUsage o.command.bytes with
    | none => (cliClosestCommand o.command.bytes).map (unknownLines o.command.bytes)
    | some usage =>
      let missing := o.name.elim true fun name => name.bytes = []
      some [
        .error (o.command.bytes ++
          if cliCommandAcceptsName o.command.bytes ∧ missing then ascii ": missing secret NAME"
          else ascii ": missing or invalid arguments"),
        .hint (ascii "usage: fuin " ++ usage),
        .hint (ascii "details: fuin " ++ o.command.bytes ++ ascii " --help")]

theorem cliCommandUsage_none {command : Bytes} (h : command ∉ commandNames) :
    cliCommandUsage command = none := by
  unfold cliCommandUsage
  split_ifs
  · rfl
  · refine List.lookup_eq_none_iff.mpr fun e he => ?_
    rw [bne_iff_ne]
    rintro rfl
    exact h (List.mem_map_of_mem he)

/-- A command line with all that any command asks for. -/
def everyOption (command : CString) : Options :=
  let text := columnText (ascii "name")
  { agentOptions command (some text) with
    newPassword := some text, value := some text, scope := some text
    rootHex := some (columnText (ascii
      "0000000000000000000000000000000000000000000000000000000000000000"))
    proofHex := some (columnText []), signatureB64 := some (columnText [])
    recipientPath := some text, privateKeyPath := some text, publicKeyPath := some text
    publicOutPath := some text, privateOutPath := some text, inputPath := some text
    outputPath := some text, ttlSeconds := some 1, leafIndex := some 0, leafCount := some 1
    version := 1, entryId := 1 }

/-- The program does more than to refuse. -/
def proceeds : CliProg Unit → Bool
  | .fail _ => false
  | _ => true

theorem commands_proceed : ∀ n ∈ commandNames,
    proceeds (dispatch toyLibraries 0 (everyOption (columnText n))) = true := by decide +kernel

theorem noNul_commandNames : ∀ n ∈ commandNames, (0 : UInt8) ∉ n := by decide

/-- What `cli_dispatch` compares with is in the table. -/
theorem dispatch_unknown {L : Libraries} {fuel : ℕ} {o : Options} (h : o.command.bytes ∉ commandNames) :
    dispatch L fuel o = Prog.fail .invalidArgument := by
  have hnot : ∀ names, (∀ n ∈ names, n ∈ commandNames) → ¬o.is names := fun names hnames ho =>
    h (hnames _ ho)
  unfold dispatch
  simp (disch := decide) only [hnot, if_false, ite_self]

theorem known_of_dispatch {command : CString} (h : command.bytes ∈ commandNames) :
    ∃ L fuel o, o.command = command ∧ dispatch L fuel o ≠ Prog.fail .invalidArgument := by
  refine ⟨toyLibraries, 0, everyOption command, rfl, fun hfail => ?_⟩
  have hproceeds := commands_proceed command.bytes h
  rw [columnText_bytes, hfail] at hproceeds
  exact absurd hproceeds Bool.false_ne_true

/-- **What is refused whatever its options is what the table does not list, and the report names the
first of the commands that are nearest to it, if these are within two edits.** -/
theorem unknown_command (command : CString) (hlength : 2 ≤ command.bytes.length) :
    ((∀ L fuel o, o.command = command → dispatch L fuel o = Prog.fail .invalidArgument) ↔
      command.bytes ∉ commandNames) ∧
    (command.bytes ∉ commandNames → ∃ guess,
      (∀ o, o.command = command →
        cliReportInvalidArgument o = some (unknownLines command.bytes guess)) ∧
      (∀ n ∈ guess, Nearest commandNames command.bytes n) ∧
      (guess = none → ∀ n ∈ commandNames, 2 < distance command.bytes n)) := by
  constructor
  · constructor
    · intro hrefused hknown
      obtain ⟨L, fuel, o, ho, hproceeds⟩ := known_of_dispatch hknown
      exact hproceeds (hrefused L fuel o ho)
    · rintro hunknown L fuel o rfl
      exact dispatch_unknown hunknown
  · intro hunknown
    obtain ⟨guess, hguess, hnearest, hfar⟩ := cliClosestCommand_eq command.bytes hlength
    refine ⟨guess, ?_, hnearest, hfar⟩
    rintro o rfl
    have hsome : o.command.bytes ≠ [] := List.ne_nil_of_length_pos (by omega)
    unfold cliReportInvalidArgument
    rw [if_neg hsome, cliCommandUsage_none hunknown]
    simp only [hguess, Option.map_some]

/-- `fuin statsu-report`. -/
def misspelt : CString := columnText (ascii "statsu-report")

theorem misspelt_unknown : misspelt.bytes ∉ commandNames ∧
    ((∀ L fuel o, o.command = misspelt → dispatch L fuel o = Prog.fail .invalidArgument) ↔
      misspelt.bytes ∉ commandNames) ∧
    (misspelt.bytes ∉ commandNames → ∃ guess,
      (∀ o, o.command = misspelt →
        cliReportInvalidArgument o = some (unknownLines misspelt.bytes guess)) ∧
      (∀ n ∈ guess, Nearest commandNames misspelt.bytes n) ∧
      (guess = none → ∀ n ∈ commandNames, 2 < distance misspelt.bytes n)) :=
  ⟨by decide, unknown_command misspelt (by decide)⟩

end Fuin.Cli.Suggestions

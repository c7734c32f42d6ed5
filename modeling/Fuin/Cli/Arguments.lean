import Fuin.Cli.Durations
import Fuin.Cli.RootSignatures
import Fuin.Cli.Suggestions
import Fuin.Lib.Arguments

/-! # The options

`cli_parse_options`: from the arguments and the environment to `cli_options_t`. The command is the first
argument or the first operand, `getopt_long` finds the options, of which the last of a kind wins, and the
secrets that are not given are taken from the environment. `cliParseOptions_iff` says which command lines
are accepted and what they mean. No secret can be given by an argument, unless the environment allows
it. -/

namespace Fuin.Cli.Arguments

open Fuin.Utils Fuin.Lib.Numerals Fuin.Lib.Arguments Fuin.Audit.Encoding Fuin.Cli.Commands
open Fuin.Cli.Durations Fuin.Cli.RootSignatures Fuin.Cli.Suggestions

/-! ### The options there are -/

/-- The values of `long_options`. -/
inductive CliOption where
  | db | password | newPassword | version | algorithm | ttl | within | subject | scope | token
  | entryId | root | proof | leafIndex | entries | all | recipient | privateKey | publicOut
  | privateOut | input | out | length | noSymbols | copy | publicKey | signature | raw
  | keyPassphraseFile | name | value | stdin | help
  deriving DecidableEq

/-- `long_options`. -/
def longOptions : List (Text × CliOption) :=
  [(ascii "db", .db), (ascii "password", .password), (ascii "new-password", .newPassword),
    (ascii "version", .version), (ascii "algorithm", .algorithm), (ascii "ttl", .ttl),
    (ascii "within", .within), (ascii "subject", .subject), (ascii "scope", .scope),
    (ascii "token", .token), (ascii "entry-id", .entryId), (ascii "root", .root),
    (ascii "proof", .proof), (ascii "leaf-index", .leafIndex), (ascii "entries", .entries),
    (ascii "all", .all), (ascii "recipient", .recipient), (ascii "private-key", .privateKey),
    (ascii "public-out", .publicOut), (ascii "private-out", .privateOut), (ascii "input", .input),
    (ascii "out", .out), (ascii "length", .length), (ascii "no-symbols", .noSymbols),
    (ascii "copy", .copy), (ascii "public-key", .publicKey), (ascii "signature", .signature),
    (ascii "raw", .raw), (ascii "key-passphrase-file", .keyPassphraseFile), (ascii "name", .name),
    (ascii "value", .value), (ascii "stdin", .stdin), (ascii "help", .help)]

/-- The letters of `"d:p:n:v:sh"`. -/
def shortOptions : List (UInt8 × CliOption) :=
  [(100, .db), (112, .password), (110, .name), (118, .value), (115, .stdin), (104, .help)]

/-- `no_argument`. -/
def switches : List CliOption := [.all, .noSymbols, .copy, .raw, .stdin, .help]

def cliTable : Table CliOption where
  long := longOptions
  short c := shortOptions.lookup c
  takesValue w := decide (w ∉ switches)

theorem noDash_cliTable : cliTable.NoDash := by
  unfold Table.NoDash
  decide

/-! ### The fields -/

/-- `cli_options_t`; a number with a flag that says whether it is given is an option. -/
structure CliOptions where
  command : Option CString
  dbPath : CString
  password : Option CString
  newPassword : Option CString
  name : Option CString
  value : Option CString
  algorithm : Option CString
  subject : Option CString
  scope : Option CString
  token : Option CString
  positionalName : Option CString
  rootHex : Option CString
  proofHex : Option CString
  signatureB64 : Option CString
  recipientPath : Option CString
  privateKeyPath : Option CString
  publicKeyPath : Option CString
  keyPassphraseFile : Option CString
  publicOutPath : Option CString
  privateOutPath : Option CString
  inputPath : Option CString
  outputPath : Option CString
  ttlSeconds : Option ℕ
  withinSeconds : Option ℕ
  leafIndex : Option ℕ
  leafCount : Option ℕ
  version : ℤ
  entryId : ℤ
  generateLength : Option ℤ
  noSymbols : Bool
  copy : Bool
  raw : Bool
  showAll : Bool
  readStdin : Bool
  help : Bool

/-- `CLI_DEFAULT_DB_PATH`. -/
def defaultDbPath : CString := columnText (ascii "fuin.db")

theorem defaultDbPath_ne : defaultDbPath.bytes ≠ [] := by decide

/-- `cli_init_options`. -/
def cliInitOptions : CliOptions where
  command := none
  dbPath := defaultDbPath
  password := none
  newPassword := none
  name := none
  value := none
  algorithm := none
  subject := none
  scope := none
  token := none
  positionalName := none
  rootHex := none
  proofHex := none
  signatureB64 := none
  recipientPath := none
  privateKeyPath := none
  publicKeyPath := none
  keyPassphraseFile := none
  publicOutPath := none
  privateOutPath := none
  inputPath := none
  outputPath := none
  ttlSeconds := none
  withinSeconds := none
  leafIndex := none
  leafCount := none
  version := 0
  entryId := 0
  generateLength := none
  noSymbols := false
  copy := false
  raw := false
  showAll := false
  readStdin := false
  help := false

/-- The options of a command, as the functions of the commands get them. -/
def CliOptions.of (o : CliOptions) (command : CString) : Options where
  command := command
  password := o.password
  newPassword := o.newPassword
  name := o.name
  value := o.value
  algorithm := o.algorithm
  subject := o.subject
  scope := o.scope
  token := o.token
  rootHex := o.rootHex
  proofHex := o.proofHex
  signatureB64 := o.signatureB64
  recipientPath := o.recipientPath
  privateKeyPath := o.privateKeyPath
  publicKeyPath := o.publicKeyPath
  publicOutPath := o.publicOutPath
  privateOutPath := o.privateOutPath
  inputPath := o.inputPath
  outputPath := o.outputPath
  ttlSeconds := o.ttlSeconds
  withinSeconds := o.withinSeconds
  leafIndex := o.leafIndex
  leafCount := o.leafCount
  generateLength := o.generateLength
  version := o.version
  entryId := o.entryId
  noSymbols := o.noSymbols
  copy := o.copy
  raw := o.raw
  showAll := o.showAll
  readStdin := o.readStdin

/-! ### Numbers -/

/-- `isspace`. -/
def isSpace (c : UInt8) : Bool := decide (c = 32 ∨ 9 ≤ c ∧ c ≤ 13)

/-- The sign of a number, and what follows it. -/
def sign : Bytes → ℤ × Bytes
  | 45 :: s => (-1, s)
  | 43 :: s => (1, s)
  | s => (1, s)

/-- `strtol` with the base 10: the number, none if it is out of range, and where it ends. If there is no
digit, it ends where it begins. -/
def strtol (s : Bytes) : Option ℤ × Bytes :=
  let (factor, digits) := sign (s.dropWhile isSpace)
  let z := factor * numeral (digits.takeWhile isDigit)
  if digits.head?.any isDigit then
    (if -2 ^ 63 ≤ z ∧ z < 2 ^ 63 then some z else none, digits.dropWhile isDigit)
  else (some 0, s)

/-- `cli_parse_positive_int`. -/
def cliParsePositiveInt (value : CString) : Except Status ℤ := do
  require (value.bytes ≠ []) .invalidArgument
  let (read, rest) := strtol value.bytes
  let result ← read.elim (.error .invalidArgument) .ok
  require (rest ≠ value.bytes ∧ rest = [] ∧ 1 ≤ result ∧ result ≤ 2147483647) .invalidArgument
  return result

/-! ### The arguments -/

/-- The environment that is read. -/
structure Environment where
  /-- `FUIN_PASSWORD` -/
  password : Option CString
  /-- `FUIN_NEW_PASSWORD` -/
  newPassword : Option CString
  /-- `FUIN_TOKEN` -/
  token : Option CString
  /-- `FUIN_ALLOW_INSECURE_ARGS` -/
  allowInsecureArgs : Option CString
  /-- `POSIXLY_CORRECT` is there. -/
  posixlyCorrect : Bool

/-- `cli_sensitive_argv_allowed`. -/
def cliSensitiveArgvAllowed (env : Environment) : Bool :=
  env.allowInsecureArgs.any fun allowed => allowed.bytes = ascii "1"

/-- The `switch` of `cli_parse_with_getopt`. -/
def setOption (allowed : Bool) (o : CliOptions) (w : CliOption) (optarg : CString) :
    Except Status CliOptions :=
  match w with
  | .db => .ok { o with dbPath := optarg }
  | .password => do
    require (allowed = true) .invalidArgument
    return { o with password := some optarg }
  | .newPassword => do
    require (allowed = true) .invalidArgument
    return { o with newPassword := some optarg }
  | .version => do
    let version ← cliParsePositiveInt optarg
    return { o with version := version }
  | .algorithm => .ok { o with algorithm := some optarg }
  | .ttl => do
    let ttlSeconds ← parseDurationSeconds optarg
    return { o with ttlSeconds := some ttlSeconds }
  | .within => do
    let withinSeconds ← parseDurationSeconds optarg
    return { o with withinSeconds := some withinSeconds }
  | .subject => .ok { o with subject := some optarg }
  | .scope => .ok { o with scope := some optarg }
  | .token => do
    require (allowed = true) .invalidArgument
    return { o with token := some optarg }
  | .entryId => do
    let entryId ← cliParsePositiveInt optarg
    return { o with entryId := entryId }
  | .root => .ok { o with rootHex := some optarg }
  | .proof => .ok { o with proofHex := some optarg }
  | .leafIndex => do
    let leafIndex ← parseSizeValue optarg true
    return { o with leafIndex := some leafIndex }
  | .entries => do
    let leafCount ← parseSizeValue optarg false
    return { o with leafCount := some leafCount }
  | .all => .ok { o with showAll := true }
  | .recipient => .ok { o with recipientPath := some optarg }
  | .privateKey => .ok { o with privateKeyPath := some optarg }
  | .publicOut => .ok { o with publicOutPath := some optarg }
  | .privateOut => .ok { o with privateOutPath := some optarg }
  | .input => .ok { o with inputPath := some optarg }
  | .out => .ok { o with outputPath := some optarg }
  | .length => do
    let generateLength ← cliParsePositiveInt optarg
    return { o with generateLength := some generateLength }
  | .noSymbols => .ok { o with noSymbols := true }
  | .copy => .ok { o with copy := true }
  | .publicKey => .ok { o with publicKeyPath := some optarg }
  | .signature => .ok { o with signatureB64 := some optarg }
  | .raw => .ok { o with raw := true }
  | .keyPassphraseFile => .ok { o with keyPassphraseFile := some optarg }
  | .name => .ok { o with name := some optarg }
  | .value => do
    require (allowed = true) .invalidArgument
    return { o with value := some optarg }
  | .stdin => .ok { o with readStdin := true }
  | .help => .ok { o with help := true }

/-- One round of the loop; `optarg` of an option without a value is not read. -/
def setFound (allowed : Bool) (o : CliOptions) : Found CliOption → Except Status CliOptions
  | .option w optarg => setOption allowed o w (columnText (optarg.getD []))
  | .unknown => .error .invalidArgument

/-- `cli_parse_with_getopt`, of the arguments after the name of the program. -/
def cliParseWithGetopt (env : Environment) (args : List CString) (o : CliOptions) :
    Except Status CliOptions := do
  let (found, operands) := cliTable.scan env.posixlyCorrect none (args.map CString.bytes)
  let o ← found.foldlM (setFound (cliSensitiveArgvAllowed env)) o
  let (command, operands) := if o.command.isSome then (o.command, operands)
    else (operands.head?.map columnText, operands.tail)
  let o := { o with command := command, positionalName := operands.head?.map columnText }
  require (operands.tail = []) .invalidArgument
  return o

/-- The name of the secret, where it may be the operand after the command. -/
def placeName (positionalName command name : Option CString) : Except Status (Option CString) :=
  match positionalName, command with
  | none, _ => .ok name
  | some n, some command =>
    if cliCommandAcceptsName command.bytes = true ∧ name = none then .ok (some n)
    else if cliCommandUsage command.bytes = none then .ok name
    else .error .invalidArgument
  | some _, none => .error .invalidArgument

/-- The arguments, with the command that is the first of them unless this is an option. -/
def parseArguments (env : Environment) (args : List CString) : Except Status CliOptions :=
  if args.head?.any fun arg => arg.bytes.head? ≠ some 45 then
    cliParseWithGetopt env args.tail { cliInitOptions with command := args.head? }
  else cliParseWithGetopt env args cliInitOptions

/-- The secrets that are not given come from the environment. -/
def readEnvironment (env : Environment) (o : CliOptions) : CliOptions :=
  { o with
    password := o.password.or env.password
    newPassword := o.newPassword.or env.newPassword
    token := o.token.or env.token }

/-- The last checks of `cli_parse_options`. -/
def checkOptions (o : CliOptions) : Except Status CliOptions := do
  require (¬ (o.value.isSome = true ∧ o.readStdin = true)) .invalidArgument
  require (o.dbPath.bytes ≠ []) .invalidArgument
  let name ← placeName o.positionalName o.command o.name
  require (o.raw = true ∧ o.help = false →
    o.command.any (fun command => command.bytes = ascii "get") = true ∧ o.copy = false) .invalidArgument
  return { o with name := name }

/-- `cli_parse_options`, of `argv`. -/
def cliParseOptions (env : Environment) (argv : List CString) : Except Status CliOptions := do
  require (argv ≠ []) .invalidArgument
  let o ← parseArguments env argv.tail
  checkOptions (readEnvironment env o)

/-! ### What a number is -/

/-- A positive `int` in words: blanks, perhaps a plus, and digits. -/
def PositiveInt (text : Bytes) (z : ℤ) : Prop :=
  ∃ blanks plus digits, text = blanks ++ (plus ++ digits) ∧ (∀ c ∈ blanks, isSpace c = true) ∧
    plus ∈ [[], [43]] ∧ digits ≠ [] ∧ (∀ c ∈ digits, isDigit c = true) ∧ z = numeral digits ∧
    1 ≤ z ∧ z ≤ 2147483647

/-- A size in words: digits, and not zero unless it may be. -/
def Size (allowZero : Bool) (text : Bytes) (n : ℕ) : Prop :=
  text ≠ [] ∧ (∀ c ∈ text, isDigit c = true) ∧ n = numeral text ∧ (allowZero = true ∨ n ≠ 0) ∧
    n ≤ sizeMax

theorem isSpace_of_isDigit {c : UInt8} (h : isDigit c = true) : isSpace c = false := by
  simp only [isDigit, decide_eq_true_eq, UInt8.le_iff_toNat_le] at h
  simp only [isSpace, decide_eq_false_iff_not, UInt8.le_iff_toNat_le, ← UInt8.toNat_inj]
  simp only [UInt8.reduceToNat] at h ⊢
  omega

theorem sign_digits {digits : Bytes} (h : ∀ c ∈ digits, isDigit c = true) : sign digits = (1, digits) := by
  cases digits with
  | nil => rfl
  | cons c s =>
    have hc := h c (by simp)
    unfold sign
    split
    · rename_i heq
      obtain ⟨rfl, -⟩ := List.cons.inj heq
      exact absurd hc (by decide)
    · rename_i heq
      obtain ⟨rfl, -⟩ := List.cons.inj heq
      exact absurd hc (by decide)
    · rfl

/-- How a text is split at its sign. -/
theorem sign_eq (s : Bytes) : (∃ t, s = 45 :: t ∧ sign s = (-1, t)) ∨
    ∃ plus t, plus ∈ [[], [43]] ∧ s = plus ++ t ∧ sign s = (1, t) := by
  unfold sign
  split
  · exact Or.inl ⟨_, rfl, rfl⟩
  · exact Or.inr ⟨[43], _, by simp, rfl, rfl⟩
  · exact Or.inr ⟨[], _, by simp, rfl, rfl⟩

theorem digits_of_dropWhile {t : Bytes} (h : t.dropWhile isDigit = []) :
    (∀ c ∈ t, isDigit c = true) ∧ t.takeWhile isDigit = t := by
  have hall := List.dropWhile_eq_nil_iff.mp h
  exact ⟨hall, List.takeWhile_eq_self_iff.mpr hall⟩

/-- **Positive numbers**: exactly the texts of positive numbers are read, as their number. -/
theorem cliParsePositiveInt_eq_ok {value : CString} {z : ℤ} :
    cliParsePositiveInt value = .ok z ↔ PositiveInt value.bytes z := by
  constructor
  · intro h
    simp only [cliParsePositiveInt, bind_eq_ok, require_eq_ok, pure_eq_ok] at h
    obtain ⟨-, hne, result, hread, -, ⟨hrest, hend, hpos, hmax⟩, rfl⟩ := h
    have hread := elim_eq_ok.mp hread
    have hsplit := List.takeWhile_append_dropWhile (p := isSpace) (l := value.bytes)
    have hblanks : ∀ c ∈ value.bytes.takeWhile isSpace, isSpace c = true := fun c hc =>
      List.mem_takeWhile_imp hc
    unfold strtol at hread hrest hend
    rcases sign_eq (value.bytes.dropWhile isSpace) with ⟨t, ht, hsign⟩ | ⟨plus, t, hplus, ht, hsign⟩
    · rw [hsign] at hread hrest hend
      dsimp only at hread hrest hend
      split_ifs at hread hrest hend with hdigit hrange
      · have hz := Option.some.inj hread
        omega
      · exact absurd rfl hrest
    · rw [hsign] at hread hrest hend
      dsimp only at hread hrest hend
      split_ifs at hread hrest hend with hdigit hrange
      · obtain ⟨hdigits, htake⟩ := digits_of_dropWhile hend
        have hz := Option.some.inj hread
        rw [htake, one_mul] at hz
        refine ⟨_, plus, t, by rw [← ht, hsplit], hblanks, hplus, ?_, hdigits, hz.symm, hpos, hmax⟩
        rintro rfl
        simp at hdigit
      · exact absurd rfl hrest
  · rintro ⟨blanks, plus, digits, htext, hblanks, hplus, hne, hdigits, rfl, hpos, hmax⟩
    have hfirst : ∀ c ∈ (plus ++ digits).head?, isSpace c = false := by
      intro c hc
      simp only [List.mem_cons, List.not_mem_nil, or_false] at hplus
      rcases hplus with rfl | rfl
      · exact isSpace_of_isDigit (hdigits c (List.mem_of_mem_head? hc))
      · obtain rfl := Option.some.inj hc
        rfl
    have hdrop : (blanks ++ (plus ++ digits)).dropWhile isSpace = plus ++ digits := by
      rw [List.dropWhile_append_of_pos hblanks]
      exact List.dropWhile_eq_self_iff.mpr fun hl => by
        simpa using hfirst _ (List.head?_eq_some_head (List.length_pos_iff.mp hl) ▸ by simp [List.head_eq_getElem])
    have hsign : sign (plus ++ digits) = (1, digits) := by
      simp only [List.mem_cons, List.not_mem_nil, or_false] at hplus
      rcases hplus with rfl | rfl
      · exact sign_digits hdigits
      · rfl
    have htake : digits.takeWhile isDigit = digits := List.takeWhile_eq_self_iff.mpr hdigits
    have hend : digits.dropWhile isDigit = [] := List.dropWhile_eq_nil_iff.mpr hdigits
    have hhead : digits.head?.any isDigit = true := by
      rw [List.head?_eq_some_head hne]
      exact hdigits _ (List.head_mem hne)
    have hread : strtol value.bytes = (some (numeral digits : ℤ), []) := by
      unfold strtol
      rw [htext, hdrop, hsign]
      dsimp only
      rw [if_pos hhead, htake, hend, one_mul, if_pos (by omega)]
    have hnonempty : value.bytes ≠ [] := by
      rw [htext]
      simp [hne]
    simp only [cliParsePositiveInt, bind_eq_ok, require_eq_ok, pure_eq_ok, hread]
    exact ⟨(), hnonempty, _, rfl, (), ⟨hnonempty.symm, trivial, hpos, hmax⟩, rfl⟩

/-- **Sizes**: exactly the texts of sizes are read, as their number. -/
theorem parseSizeValue_eq_ok {value : CString} {allowZero : Bool} {n : ℕ} :
    parseSizeValue value allowZero = .ok n ↔ Size allowZero value.bytes n := by
  constructor
  · intro h
    simp only [parseSizeValue, bind_eq_ok, require_eq_ok, pure_eq_ok] at h
    obtain ⟨-, hhead, m, hread, -, ⟨hend, hzero, hmax⟩, rfl⟩ := h
    have hread := elim_eq_ok.mp hread
    unfold strtoull at hread hend
    obtain ⟨hdigits, htake⟩ := digits_of_dropWhile hend
    dsimp only at hread
    rw [htake] at hread
    split_ifs at hread
    refine ⟨?_, hdigits, (Option.some.inj hread).symm, hzero, hmax⟩
    rintro hnil
    rw [hnil] at hhead
    cases hhead
  · rintro ⟨hne, hdigits, rfl, hzero, hmax⟩
    have hhead : value.bytes.head?.any isDigit = true := by
      rw [List.head?_eq_some_head hne]
      exact hdigits _ (List.head_mem hne)
    have hread : strtoull value.bytes = (some (numeral value.bytes), []) := by
      have h := strtoull_append (s := value.bytes) (r := []) hdigits (by simp)
      unfold sizeMax at hmax
      rwa [List.append_nil, if_pos (by omega)] at h
    simp only [parseSizeValue, bind_eq_ok, require_eq_ok, pure_eq_ok, hread]
    exact ⟨(), hhead, _, rfl, (), ⟨trivial, hzero, hmax⟩, rfl⟩

/-! ### What a command line means -/

/-- The options of a command line, in their order. -/
abbrev Given := List (CliOption × Option Text)

/-- The last value that an option is given. -/
def Given.last (options : Given) (w : CliOption) : Option CString :=
  options.foldl (fun last p => if p.1 = w then some (columnText (p.2.getD [])) else last) none

/-- The option is given. -/
def Given.has (options : Given) (w : CliOption) : Bool := (options.last w).isSome

/-- The value is one that the option takes. -/
def Takes (allowed : Bool) : CliOption → CString → Prop
  | .password, _ => allowed = true
  | .newPassword, _ => allowed = true
  | .token, _ => allowed = true
  | .value, _ => allowed = true
  | .version, v => ∃ z, PositiveInt v.bytes z
  | .entryId, v => ∃ z, PositiveInt v.bytes z
  | .length, v => ∃ z, PositiveInt v.bytes z
  | .ttl, v => ∃ n, Duration v.bytes n
  | .within, v => ∃ n, Duration v.bytes n
  | .leafIndex, v => ∃ n, Size true v.bytes n
  | .entries, v => ∃ n, Size false v.bytes n
  | _, _ => True

/-- A number in the last value that an option is given. -/
def Given.number {α : Type} (options : Given) (w : CliOption) (parse : CString → Except Status α) :
    Option α :=
  (options.last w).bind fun v => (parse v).toOption

/-- What the options say, each by itself. -/
def Given.fields (options : Given) : CliOptions where
  command := none
  dbPath := (options.last .db).getD defaultDbPath
  password := options.last .password
  newPassword := options.last .newPassword
  name := options.last .name
  value := options.last .value
  algorithm := options.last .algorithm
  subject := options.last .subject
  scope := options.last .scope
  token := options.last .token
  positionalName := none
  rootHex := options.last .root
  proofHex := options.last .proof
  signatureB64 := options.last .signature
  recipientPath := options.last .recipient
  privateKeyPath := options.last .privateKey
  publicKeyPath := options.last .publicKey
  keyPassphraseFile := options.last .keyPassphraseFile
  publicOutPath := options.last .publicOut
  privateOutPath := options.last .privateOut
  inputPath := options.last .input
  outputPath := options.last .out
  ttlSeconds := options.number .ttl parseDurationSeconds
  withinSeconds := options.number .within parseDurationSeconds
  leafIndex := options.number .leafIndex (parseSizeValue · true)
  leafCount := options.number .entries (parseSizeValue · false)
  version := (options.number .version cliParsePositiveInt).getD 0
  entryId := (options.number .entryId cliParsePositiveInt).getD 0
  generateLength := options.number .length cliParsePositiveInt
  noSymbols := options.has .noSymbols
  copy := options.has .copy
  raw := options.has .raw
  showAll := options.has .all
  readStdin := options.has .stdin
  help := options.has .help

variable {allowed : Bool} {options : Given} {w w' : CliOption} {v : Option Text} {o : CliOptions}

theorem last_concat :
    Given.last (options ++ [(w, v)]) w' = if w = w' then some (columnText (v.getD [])) else options.last w' := by
  unfold Given.last
  rw [List.foldl_append]
  rfl

/-- Reading a number, and setting a field with it. -/
theorem bind_number {α : Type} {x : Except Status α} {P : α → Prop} {f : α → CliOptions}
    {g : Option α → CliOptions} (hx : ∀ n, x = .ok n ↔ P n) (hfg : ∀ n, f n = g (some n)) :
    (x >>= fun n => pure (f n)) = .ok o ↔ (∃ n, P n) ∧ o = g x.toOption := by
  cases x with
  | error e =>
    have hnone : ¬ ∃ n, P n := fun ⟨n, hn⟩ => by simpa using (hx n).mpr hn
    simp [hnone]
  | ok n =>
    have hsome : ∃ n, P n := ⟨n, (hx n).mp rfl⟩
    simp only [bind_eq_ok, pure_eq_ok, Except.ok.injEq, exists_eq_left', hfg, hsome, true_and]
    exact eq_comm

/-- **One more option** changes its own field. -/
theorem setOption_eq_ok (command : Option CString) :
    setOption allowed { options.fields with command := command } w (columnText (v.getD [])) = .ok o ↔
      Takes allowed w (columnText (v.getD [])) ∧
        o = { Given.fields (options ++ [(w, v)]) with command := command } := by
  simp only [Given.fields, Given.has, Given.number, last_concat]
  cases w
  case version =>
    exact bind_number (g := fun z => { options.fields with command, version := z.getD 0 })
      (fun _ => cliParsePositiveInt_eq_ok) fun _ => rfl
  case entryId =>
    exact bind_number (g := fun z => { options.fields with command, entryId := z.getD 0 })
      (fun _ => cliParsePositiveInt_eq_ok) fun _ => rfl
  case length =>
    exact bind_number (g := fun z => { options.fields with command, generateLength := z })
      (fun _ => cliParsePositiveInt_eq_ok) fun _ => rfl
  case ttl =>
    exact bind_number (g := fun n => { options.fields with command, ttlSeconds := n })
      (fun _ => parseDurationSeconds_eq_ok) fun _ => rfl
  case within =>
    exact bind_number (g := fun n => { options.fields with command, withinSeconds := n })
      (fun _ => parseDurationSeconds_eq_ok) fun _ => rfl
  case leafIndex =>
    exact bind_number (g := fun n => { options.fields with command, leafIndex := n })
      (fun _ => parseSizeValue_eq_ok) fun _ => rfl
  case entries =>
    exact bind_number (g := fun n => { options.fields with command, leafCount := n })
      (fun _ => parseSizeValue_eq_ok) fun _ => rfl
  case password | newPassword | token | value =>
    simp only [setOption, Takes, bind_eq_ok, require_eq_ok, pure_eq_ok]
    constructor
    · rintro ⟨-, h, ho⟩
      exact ⟨h, ho.symm⟩
    · rintro ⟨h, ho⟩
      exact ⟨(), h, ho.symm⟩
  all_goals simp [setOption, Takes, eq_comm]

/-- The loop of `cli_parse_with_getopt`, after some options. -/
theorem foldlM_eq_ok (done : Given) (command : Option CString) {found : List (Found CliOption)} :
    found.foldlM (setFound allowed) { done.fields with command := command } = .ok o ↔
      ∃ more : Given, found = more.map Found.of ∧
        (∀ p ∈ more, Takes allowed p.1 (columnText (p.2.getD []))) ∧
        o = { Given.fields (done ++ more) with command := command } := by
  induction found generalizing done with
  | nil =>
    rw [List.foldlM_nil, pure_eq_ok]
    constructor
    · rintro rfl
      exact ⟨[], rfl, by simp, by rw [List.append_nil]⟩
    · rintro ⟨more, hmore, -, rfl⟩
      obtain rfl := List.map_eq_nil_iff.mp hmore.symm
      rw [List.append_nil]
  | cons found rest ih =>
    rw [List.foldlM_cons, bind_eq_ok]
    constructor
    · rintro ⟨o', hfirst, hrest⟩
      cases found with
      | unknown => cases hfirst
      | option w v =>
        obtain ⟨htakes, rfl⟩ := (setOption_eq_ok command).mp hfirst
        obtain ⟨more, rfl, hmore, rfl⟩ := (ih _).mp hrest
        refine ⟨(w, v) :: more, rfl, ?_, by rw [List.append_assoc, List.singleton_append]⟩
        exact List.forall_mem_cons.mpr ⟨htakes, hmore⟩
    · rintro ⟨more, hfound, htakes, rfl⟩
      obtain ⟨⟨w, v⟩, more, rfl, rfl, rfl⟩ := List.map_eq_cons_iff.mp hfound.symm
      obtain ⟨hfirst, hrest⟩ := List.forall_mem_cons.mp htakes
      refine ⟨_, (setOption_eq_ok command).mpr ⟨hfirst, rfl⟩, (ih _).mpr ⟨more, rfl, hrest, ?_⟩⟩
      rw [List.append_assoc, List.singleton_append]

/-- The parts of a command line: the command, if it is the first argument, the options and the
operands. -/
structure CommandLine where
  first : Option CString
  options : Given
  operands : List Text

/-- The command: the first argument or the first operand. -/
def CommandLine.command (l : CommandLine) : Option CString :=
  l.first.or (l.operands.head?.map columnText)

/-- The operands after the command. -/
def CommandLine.rest (l : CommandLine) : List Text :=
  if l.first.isSome then l.operands else l.operands.tail

/-- `positional_name`. -/
def CommandLine.name (l : CommandLine) : Option CString := l.rest.head?.map columnText

/-- The arguments after the name of the program, as they are written. -/
structure CommandLine.Spelled (l : CommandLine) (posix : Bool) (args : List CString) : Prop where
  first : l.first = args.head?.filter fun arg => arg.bytes.head? ≠ some 45
  spells : cliTable.Spells posix ((if l.first.isSome then args.tail else args).map CString.bytes)
    l.options l.operands

/-- The command line can be accepted. -/
structure CommandLine.Valid (l : CommandLine) (allowed : Bool) : Prop where
  takes : ∀ p ∈ l.options, Takes allowed p.1 (columnText (p.2.getD []))
  operands : l.rest.tail = []
  value : l.options.has .value = true → l.options.has .stdin = false
  db : ∀ path ∈ l.options.last .db, path.bytes ≠ []
  /-- A name beside the command is one of a secret, or the command is unknown. -/
  name : l.name ≠ none → ∃ command ∈ l.command,
    cliCommandAcceptsName command.bytes = true ∧ l.options.last .name = none ∨
      command.bytes ∉ commandNames
  raw : l.options.has .raw = true → l.options.has .help = false →
    l.command.any (fun command => command.bytes = ascii "get") = true ∧ l.options.has .copy = false

/-- What the command line means: the fields by the last option for each, the secrets from the environment
if they are not given, and the name beside the command, if the command takes one. -/
def CommandLine.meaning (l : CommandLine) (env : Environment) : CliOptions :=
  { l.options.fields with
    command := l.command
    positionalName := l.name
    password := (l.options.last .password).or env.password
    newPassword := (l.options.last .newPassword).or env.newPassword
    token := (l.options.last .token).or env.token
    name := (l.options.last .name).or
      (if l.command.any fun command => cliCommandAcceptsName command.bytes then l.name else none) }

variable {env : Environment} {args : List CString}

/-- The result of `cli_parse_with_getopt`. -/
theorem cliParseWithGetopt_eq_ok {first : Option CString} :
    cliParseWithGetopt env args { cliInitOptions with command := first } = .ok o ↔
      ∃ l : CommandLine, l.first = first ∧
        cliTable.Spells env.posixlyCorrect (args.map CString.bytes) l.options l.operands ∧
        (∀ p ∈ l.options, Takes (cliSensitiveArgvAllowed env) p.1 (columnText (p.2.getD []))) ∧
        l.rest.tail = [] ∧
        o = { l.options.fields with command := l.command, positionalName := l.name } := by
  have hloop {found : List (Found CliOption)} {o' : CliOptions} :
      found.foldlM (setFound (cliSensitiveArgvAllowed env)) { cliInitOptions with command := first } =
        .ok o' ↔ ∃ more : Given, found = more.map Found.of ∧
          (∀ p ∈ more, Takes (cliSensitiveArgvAllowed env) p.1 (columnText (p.2.getD []))) ∧
          o' = { Given.fields ([] ++ more) with command := first } :=
    foldlM_eq_ok [] first
  constructor
  · intro h
    unfold cliParseWithGetopt at h
    simp only [bind_eq_ok, require_eq_ok, pure_eq_ok] at h
    obtain ⟨o', hfound, -, hoperands, rfl⟩ := h
    obtain ⟨options, hoptions, htakes, rfl⟩ := hloop.mp hfound
    rw [List.nil_append] at *
    have hspells := (scan_iff noDash_cliTable).mp (Prod.ext hoptions rfl)
    refine ⟨⟨first, options, _⟩, rfl, hspells, htakes, ?_, ?_⟩
    · cases first <;> exact hoperands
    · cases first <;> rfl
  · rintro ⟨l, rfl, hspells, htakes, hrest, rfl⟩
    have hscan := (scan_iff noDash_cliTable).mpr hspells
    unfold cliParseWithGetopt
    rw [hscan]
    simp only [bind_eq_ok, require_eq_ok, pure_eq_ok]
    refine ⟨_, hloop.mpr ⟨l.options, rfl, htakes, rfl⟩, (), ?_, ?_⟩
    · cases hl : l.first <;> simpa [CommandLine.rest, hl] using hrest
    · cases hl : l.first <;> simp [CommandLine.rest, CommandLine.command, CommandLine.name, hl]

/-- The first argument is the command if it is no option. -/
theorem parseArguments_eq : parseArguments env args =
    cliParseWithGetopt env
      (if (args.head?.filter fun arg => arg.bytes.head? ≠ some 45).isSome then args.tail else args)
      { cliInitOptions with command := args.head?.filter fun arg => arg.bytes.head? ≠ some 45 } := by
  unfold parseArguments
  cases args with
  | nil => rfl
  | cons arg args =>
    rw [List.head?_cons, Option.any_some, Option.filter_some]
    by_cases harg : arg.bytes.head? = some 45
    · have hfilter : ¬ decide (arg.bytes.head? ≠ some 45) = true := by simpa using harg
      rw [if_neg hfilter, if_neg hfilter, if_neg (by simp)]
      rfl
    · have hfilter : decide (arg.bytes.head? ≠ some 45) = true := by simpa using harg
      rw [if_pos hfilter, if_pos hfilter, if_pos (by simp)]

/-- The result of `parseArguments`. -/
theorem parseArguments_eq_ok : parseArguments env args = .ok o ↔
    ∃ l : CommandLine, l.Spelled env.posixlyCorrect args ∧
      (∀ p ∈ l.options, Takes (cliSensitiveArgvAllowed env) p.1 (columnText (p.2.getD []))) ∧
      l.rest.tail = [] ∧
      o = { l.options.fields with command := l.command, positionalName := l.name } := by
  rw [parseArguments_eq, cliParseWithGetopt_eq_ok]
  constructor
  · rintro ⟨l, hfirst, hspells, h⟩
    exact ⟨l, ⟨hfirst, hfirst ▸ hspells⟩, h⟩
  · rintro ⟨l, hspelled, h⟩
    exact ⟨l, hspelled.first, hspelled.first ▸ hspelled.spells, h⟩

theorem cliCommandUsage_eq_none {command : Bytes} :
    cliCommandUsage command = none ↔ command ∉ commandNames := by
  refine ⟨fun h hmem => ?_, cliCommandUsage_none⟩
  have hne : command ≠ [] := by
    rintro rfl
    exact absurd hmem (by decide)
  unfold cliCommandUsage at h
  rw [if_neg hne, List.lookup_eq_none_iff] at h
  obtain ⟨e, he, rfl⟩ := List.mem_map.mp hmem
  simpa using h e he

theorem accepts_known {command : Bytes} (h : cliCommandAcceptsName command = true) :
    command ∈ commandNames := by
  unfold cliCommandAcceptsName at h
  rw [List.contains_iff_mem] at h
  have hall : ∀ n ∈ [ascii "put", ascii "set", ascii "generate", ascii "gen", ascii "get", ascii "totp",
      ascii "delete", ascii "del", ascii "rollback"], n ∈ commandNames := by decide +kernel
  exact hall command h

/-- The result of `placeName`. -/
theorem placeName_eq_ok {positionalName command name r : Option CString} :
    placeName positionalName command name = .ok r ↔
      (positionalName ≠ none → ∃ c ∈ command,
        cliCommandAcceptsName c.bytes = true ∧ name = none ∨ c.bytes ∉ commandNames) ∧
      r = name.or (if command.any fun c => cliCommandAcceptsName c.bytes then positionalName else none) := by
  cases positionalName with
  | none => simp [placeName, @eq_comm _ r]
  | some n =>
    cases command with
    | none => simp [placeName]
    | some c =>
      by_cases haccepts : cliCommandAcceptsName c.bytes = true
      · have hknown : c.bytes ∈ commandNames := accepts_known haccepts
        have husage : ¬ cliCommandUsage c.bytes = none := fun h => cliCommandUsage_eq_none.mp h hknown
        cases name with
        | none => simp [placeName, haccepts, @eq_comm _ r]
        | some m => simp [placeName, haccepts, husage, hknown]
      · by_cases hknown : c.bytes ∈ commandNames
        · have husage : ¬ cliCommandUsage c.bytes = none := fun h => cliCommandUsage_eq_none.mp h hknown
          simp [placeName, haccepts, husage, hknown]
        · simp [placeName, haccepts, cliCommandUsage_none hknown, hknown, @eq_comm _ r]

/-- **The command lines that are accepted**, and what they mean. -/
theorem cliParseOptions_iff {program : CString} :
    cliParseOptions env (program :: args) = .ok o ↔
      ∃ l : CommandLine, l.Spelled env.posixlyCorrect args ∧ l.Valid (cliSensitiveArgvAllowed env) ∧
        o = l.meaning env := by
  unfold cliParseOptions checkOptions readEnvironment
  simp only [List.tail_cons, bind_eq_ok, require_eq_ok, pure_eq_ok, parseArguments_eq_ok,
    placeName_eq_ok]
  constructor
  · rintro ⟨-, -, o₁, ⟨l, hspelled, htakes, hrest, rfl⟩, -, hvalue, -, hdb, o₂, ⟨hname, rfl⟩, -, hraw, rfl⟩
    refine ⟨l, hspelled, ⟨htakes, hrest, ?_, ?_, ?_, ?_⟩, rfl⟩
    · intro hv
      simpa [Given.fields, Given.has] using fun hs => hvalue ⟨hv, hs⟩
    · intro path hpath
      simpa [Given.fields, Option.mem_def.mp hpath] using hdb
    · exact hname
    · exact fun hr hh => hraw ⟨hr, hh⟩
  · rintro ⟨l, hspelled, hvalid, rfl⟩
    refine ⟨(), by simp, _, ⟨l, hspelled, hvalid.takes, hvalid.operands, rfl⟩, (), ?_, (), ?_, _, ⟨?_, rfl⟩, (),
      ?_, rfl⟩
    · rintro ⟨hv, hs⟩
      exact Bool.false_ne_true ((hvalid.value hv).symm.trans hs)
    · cases hdb : l.options.last .db with
      | none => simpa [Given.fields, hdb] using defaultDbPath_ne
      | some path => simpa [Given.fields, hdb] using hvalid.db path hdb
    · exact hvalid.name
    · exact fun h => hvalid.raw h.1 h.2

end Fuin.Cli.Arguments

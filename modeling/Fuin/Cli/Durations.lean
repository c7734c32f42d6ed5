import Fuin.Clock
import Fuin.Lib.Numerals
import Fuin.Lib.Strings

/-! # From a duration to a deadline

`cli_parse_duration_seconds` reads the text of a duration, and `utils_now_plus_seconds_iso8601` adds
it to the clock. The sums of signed numbers are checked here: in C a sum out of range is undefined
(`Fault.overflow`), and `expires < now` is asked after the sum has been taken. So a deadline is defined
if the sum is in range, and this is all that is missing (`deadline_iff`). -/

namespace Fuin.Cli.Durations

open Fuin.Utils Fuin.Time Fuin.Clock Fuin.Lib.Numerals
open Fuin.Lib.Strings (ok_bind)

/-! ### The text -/

/-- The units: their text and what they multiply with. -/
def units : List (Bytes × ℕ) :=
  [([], 1), ([115], 1), ([109], 60), ([104], 3600), ([100], 86400)]

/-- The suffix of a duration: nothing, or one character that is a unit. -/
def multiplier (suffix : Bytes) : Option ℕ :=
  match suffix with
  | [] => some 1
  | [c] =>
    if c = 115 then some 1
    else if c = 109 then some 60
    else if c = 104 then some 3600
    else if c = 100 then some 86400
    else none
  | _ => none

/-- `cli_parse_duration_seconds`; the product has 64 bits. -/
def parseDurationSeconds (value : CString) : Except Status ℕ := do
  require (value.bytes.head?.any isDigit = true) .invalidArgument
  let (read, rest) := strtoull value.bytes
  let amount ← read.elim (.error .invalidArgument) .ok
  require (amount ≠ 0) .invalidArgument
  let multiplier ← (multiplier rest).elim (.error .invalidArgument) .ok
  require (amount ≤ (2 ^ 64 - 1) / multiplier) .invalidArgument
  return amount * multiplier % 2 ^ 64

/-- A duration in words: digits and a unit, not zero, and the product fits in 64 bits. -/
def Duration (text : Bytes) (n : ℕ) : Prop :=
  ∃ digits suffix m, text = digits ++ suffix ∧ digits ≠ [] ∧ (∀ c ∈ digits, isDigit c = true) ∧
    (suffix, m) ∈ units ∧ numeral digits ≠ 0 ∧ numeral digits * m < 2 ^ 64 ∧ n = numeral digits * m

theorem multiplier_eq_some {suffix : Bytes} {m : ℕ} :
    multiplier suffix = some m ↔ (suffix, m) ∈ units := by
  match suffix with
  | [] => simp [multiplier, units, eq_comm]
  | [c] =>
    unfold multiplier
    dsimp only
    split_ifs with h1 h2 h3 h4
    · subst h1
      simp [units, eq_comm]
    · subst h2
      simp [units, eq_comm]
    · subst h3
      simp [units, eq_comm]
    · subst h4
      simp [units, eq_comm]
    · simp [units, h1, h2, h3, h4]
  | _ :: _ :: _ => simp [multiplier, units]

/-- No unit is a digit or zero. -/
theorem units_spec : ∀ u ∈ units, 0 < u.2 ∧ ∀ c ∈ u.1.head?, isDigit c = false := by
  decide +kernel

/-- **Durations**: exactly the durations are read, as their number of seconds. -/
theorem parseDurationSeconds_eq_ok {value : CString} {n : ℕ} :
    parseDurationSeconds value = .ok n ↔ Duration value.bytes n := by
  have hbound {a m : ℕ} (hm : 0 < m) : a ≤ (2 ^ 64 - 1) / m ↔ a * m < 2 ^ 64 := by
    rw [Nat.le_div_iff_mul_le hm]
    omega
  constructor
  · intro h
    unfold parseDurationSeconds at h
    simp only [bind_eq_ok, require_eq_ok, pure_eq_ok] at h
    obtain ⟨_, hhead, amount, hread, _, hne, m, hunit, _, hfits, rfl⟩ := h
    have hm := elim_eq_ok.mp hunit
    rw [multiplier_eq_some] at hm
    have hfits' := (hbound (units_spec _ hm).1).mp hfits
    have hamount := elim_eq_ok.mp hread
    unfold strtoull at hamount
    dsimp only at hamount
    split_ifs at hamount with hlt
    obtain rfl := Option.some.inj hamount
    refine ⟨_, _, m, List.takeWhile_append_dropWhile.symm, ?_, ?_, hm, hne, hfits',
      Nat.mod_eq_of_lt hfits'⟩
    · intro hnil
      obtain ⟨bytes, hnul⟩ := value
      cases bytes with
      | nil => simp at hhead
      | cons c bytes =>
        rw [List.takeWhile_cons_of_pos (by simpa using hhead)] at hnil
        exact List.cons_ne_nil _ _ hnil
    · exact fun c hc => List.mem_takeWhile_imp hc
  · rintro ⟨digits, suffix, m, htext, hne, hdigits, hunit, hnz, hfits, rfl⟩
    have hspec := units_spec _ hunit
    have hread := strtoull_append hdigits hspec.2
    have hlt : numeral digits < 2 ^ 64 := lt_of_le_of_lt (Nat.le_mul_of_pos_right _ hspec.1) hfits
    have hhead : value.bytes.head?.any isDigit = true := by
      obtain ⟨c, digits, rfl⟩ := List.exists_cons_of_ne_nil hne
      rw [htext, List.cons_append, List.head?_cons]
      exact hdigits c (by simp)
    unfold parseDurationSeconds
    rw [htext, hread, if_pos hlt] at *
    simp only [bind_eq_ok, require_eq_ok, pure_eq_ok]
    refine ⟨(), hhead, _, rfl, (), hnz, m, ?_, (), (hbound hspec.1).mpr hfits, Nat.mod_eq_of_lt hfits⟩
    rw [multiplier_eq_some.mpr hunit]
    rfl

/-! ### The sum -/

/-- How a call can fail to end with a value: with a status, or with what C leaves undefined. -/
inductive Fault where
  | status (e : Status)
  | overflow
  deriving DecidableEq

/-- A computation with signed numbers. -/
abbrev Signed (α : Type) := Except Fault α

/-- The sum of two signed numbers of `w` bits. -/
def addSigned (w : ℕ) (a b : ℤ) : Signed ℤ :=
  if -2 ^ (w - 1) ≤ a + b ∧ a + b < 2 ^ (w - 1) then .ok (a + b) else .error .overflow

/-- `utils_format_iso8601`, with the sums that undo the offsets of a `struct tm`. -/
def formatTimestamp (t : ℤ) : Signed CString := do
  let tm := gmtime t
  if tm.year - 1900 < -2147483648 ∨ 2147483647 < tm.year - 1900 then .error (.status .storage)
  else do
    let year ← addSigned 32 (tm.year - 1900) 1900
    let month ← addSigned 32 (tm.month - 1) 1
    let tm' := { tm with year := year, month := month }
    if 21 ≤ (isoText tm').length then .error (.status .invalidArgument)
    else .ok ⟨isoText tm', isoText_noNul tm'⟩

/-- `utils_now_plus_seconds_iso8601`; the clock is none if `time` failed. -/
def nowPlusSeconds (seconds : ℕ) (clock : Option ℤ) : Signed CString :=
  if int64Max < seconds then .error (.status .invalidArgument)
  else
    match clock with
    | none => .error (.status .storage)
    | some now => do
      let offset : ℤ := seconds
      if offset < 0 then .error (.status .invalidArgument)
      else do
        let expires ← addSigned 64 now offset
        if expires < now then .error (.status .invalidArgument) else formatTimestamp expires

/-- The instants of the years whose `tm_year` is an `int`, and which are not. -/
def Late (t : ℤ) : Prop := 2147483647 < (gmtime t).year ∧ (gmtime t).year ≤ 2147485547

/-- **Formatting**: undefined in the late years, and elsewhere what the text of the instant is. -/
theorem formatTimestamp_late {t : ℤ} (h : Late t) : formatTimestamp t = .error .overflow := by
  obtain ⟨h1, h2⟩ := h
  have hyear : addSigned 32 ((gmtime t).year - 1900) 1900 = .error .overflow := by
    unfold addSigned
    rw [if_neg (by omega)]
  unfold formatTimestamp
  dsimp only
  rw [if_neg (by omega), hyear]
  rfl

theorem formatTimestamp_eq {t : ℤ} (h : ¬ Late t) :
    formatTimestamp t = (formatIso8601 t).mapError Fault.status := by
  have hmonth := (gmtime_valid t).month
  unfold Late at h
  unfold formatTimestamp formatIso8601
  generalize gmtime t = tm at h hmonth ⊢
  dsimp only
  by_cases hint : tm.year - 1900 < -2147483648 ∨ 2147483647 < tm.year - 1900
  · rw [if_pos hint, if_pos hint]
    rfl
  · have hyear : addSigned 32 (tm.year - 1900) 1900 = .ok tm.year := by
      unfold addSigned
      rw [if_pos (by omega), Int.sub_add_cancel]
    have hmon : addSigned 32 (tm.month - 1) 1 = .ok tm.month := by
      unfold addSigned
      rw [if_pos (by omega), Int.sub_add_cancel]
    rw [if_neg hint, if_neg hint, hyear, hmon]
    simp only [ok_bind]
    by_cases hlen : 21 ≤ (isoText tm).length
    · rw [if_pos hlen, if_pos hlen]
      rfl
    · rw [if_neg hlen, if_neg hlen]
      rfl

/-! ### The deadlines -/

/-- The callers, and the guard of each: `vault_put_with_options` compares with `INT64_MAX`,
`vault_check_expiry` takes any 64 bits, and the other two have an interval from a column. -/
inductive Caller where
  | put
  | checkExpiry
  | rollback
  | autoRotate

/-- The number of seconds gets to the sum. -/
def Caller.Passes : Caller → ℕ → Prop
  | .put, seconds => 0 < seconds ∧ (seconds : ℤ) ≤ int64Max
  | .checkExpiry, seconds => 0 < seconds ∧ seconds < 2 ^ 64
  | .rollback, seconds => 0 < seconds ∧ (seconds : ℤ) ≤ int64Max
  | .autoRotate, seconds => 0 < seconds ∧ (seconds : ℤ) ≤ int64Max

/-- An error, or the text of exactly this instant. -/
def Exact (seconds : ℕ) (now : ℤ) (r : Signed CString) : Prop :=
  (∃ e, r = .error (.status e)) ∨ ∃ s, r = .ok s ∧ s.bytes = isoText (gmtime (now + seconds))

/-- The number of seconds is refused, or the sum and the year of the sum are in range. -/
def InRange (seconds : ℕ) (now : ℤ) : Prop :=
  int64Max < seconds ∨ now + seconds ≤ int64Max ∧ ¬ Late (now + seconds)

variable {seconds : ℕ} {now : ℤ}

/-- Where nothing overflows, this is the sum of unbounded numbers. -/
theorem nowPlusSeconds_eq (h0 : 0 ≤ now) (h : InRange seconds now) :
    nowPlusSeconds seconds (some now) =
      (plusSecondsIso8601 seconds (some now)).mapError Fault.status := by
  unfold nowPlusSeconds plusSecondsIso8601
  dsimp only
  by_cases hmax : int64Max < seconds
  · rw [if_pos hmax, if_pos (by omega)]
    rfl
  · obtain ⟨hsum, hlate⟩ := h.resolve_left hmax
    have hadd : addSigned 64 now seconds = .ok (now + seconds) := by
      unfold int64Max at hsum
      unfold addSigned
      rw [if_pos (by omega)]
    rw [if_neg hmax, if_neg (by omega), hadd, if_neg (by omega), ← formatTimestamp_eq hlate]
    show (if now + seconds < now then _ else _) = _
    rw [if_neg (by omega)]

theorem nowPlusSeconds_overflow (h0 : 0 ≤ now) (h : ¬ InRange seconds now) :
    nowPlusSeconds seconds (some now) = .error .overflow := by
  obtain ⟨hmax, hrange⟩ := not_or.mp h
  unfold nowPlusSeconds
  dsimp only
  rw [if_neg hmax, if_neg (by omega)]
  by_cases hsum : now + seconds ≤ int64Max
  · have hadd : addSigned 64 now seconds = .ok (now + seconds) := by
      unfold int64Max at hsum
      unfold addSigned
      rw [if_pos (by omega)]
    rw [hadd]
    show (if now + seconds < now then _ else _) = _
    rw [if_neg (by omega)]
    exact formatTimestamp_late (not_not.mp fun hlate => hrange ⟨hsum, hlate⟩)
  · have hadd : addSigned 64 now seconds = .error .overflow := by
      unfold int64Max at hsum
      unfold addSigned
      rw [if_neg (by omega)]
    rw [hadd]
    rfl

/-- **Deadlines**: a text is read if and only if it is a duration, as its number of seconds. For every
caller, every number that passes its guard and every clock, the deadline is an error or exactly the
instant if and only if the number is refused or its sum with the clock is in range. -/
theorem deadline_iff (value : CString) (n : ℕ) (caller : Caller) (seconds : ℕ) (now : ℤ)
    (_ : caller.Passes seconds) (h0 : 0 ≤ now) (_ : now ≤ int64Max) :
    (parseDurationSeconds value = .ok n ↔ Duration value.bytes n) ∧
      (Exact seconds now (nowPlusSeconds seconds (some now)) ↔ InRange seconds now) := by
  refine ⟨parseDurationSeconds_eq_ok, ?_⟩
  refine ⟨fun h => ?_, fun h => ?_⟩
  · by_contra hrange
    rw [nowPlusSeconds_overflow h0 hrange] at h
    rcases h with ⟨e, he⟩ | ⟨s, hs, -⟩
    · cases he
    · cases hs
  · rw [nowPlusSeconds_eq h0 h]
    unfold plusSecondsIso8601
    dsimp only
    split_ifs with hmax
    · exact .inl ⟨.invalidArgument, rfl⟩
    · cases hformat : formatIso8601 (now + seconds) with
      | error e => exact .inl ⟨e, rfl⟩
      | ok s =>
        refine .inr ⟨s, rfl, ?_⟩
        unfold formatIso8601 at hformat
        dsimp only at hformat
        split_ifs at hformat
        cases hformat
        rfl

/-- One hour after the start of the epoch. -/
theorem deadline_iff_hour :
    Exact 3600 0 (nowPlusSeconds 3600 (some 0)) :=
  (deadline_iff ⟨ascii "1h", by decide⟩ 3600 .put 3600 0 ⟨by decide, by decide⟩ (by decide)
    (by decide)).2.mpr (.inr ⟨by decide, by unfold Late; decide +kernel⟩)

/-- The largest duration that passes the guard of `vault_put_with_options`, at second 1: the sum is
undefined. -/
theorem largest_duration_overflows :
    ¬ ∀ (value : CString) (n : ℕ) (caller : Caller) (now : ℤ), parseDurationSeconds value = .ok n →
      caller.Passes n → 0 ≤ now → now ≤ int64Max → Exact n now (nowPlusSeconds n (some now)) := by
  intro h
  have hsum := h ⟨ascii "9223372036854775807", by decide⟩ 9223372036854775807 .put 1
    (by decide) ⟨by decide, by decide⟩ (by decide) (by decide)
  have hover : nowPlusSeconds 9223372036854775807 (some 1) = .error .overflow := by decide +kernel
  rw [hover] at hsum
  rcases hsum with ⟨e, he⟩ | ⟨s, hs, -⟩
  · cases he
  · cases hs

end Fuin.Cli.Durations

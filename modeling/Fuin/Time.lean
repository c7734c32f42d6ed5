import Fuin.Utils

/-! # Timestamps

`utils_format_iso8601` and the two functions built on it. `gmtime` is the calendar computation of
the C library, on the proleptic Gregorian calendar; a timestamp that would need more than the 20
characters of the buffer is an error. The two readings of the clock get the reply of `time(NULL)` as
an argument, `none` if the call failed. -/

namespace Fuin.Time

open Fuin.Utils

/-- A broken-down time. -/
structure Tm where
  year : ℤ
  month : ℤ
  day : ℤ
  hour : ℤ
  min : ℤ
  sec : ℤ

/-- `gmtime_r`: years are counted from March, in cycles of 400 years. -/
def gmtime (t : ℤ) : Tm :=
  let z := t / 86400 + 719468
  let s := t % 86400
  let doe := z % 146097
  let yoe := (doe - doe / 1460 + doe / 36524 - doe / 146096) / 365
  let doy := doe - (365 * yoe + yoe / 4 - yoe / 100)
  let mp := (5 * doy + 2) / 153
  let m := if mp < 10 then mp + 3 else mp - 9
  { year := yoe + z / 146097 * 400 + if m ≤ 2 then 1 else 0
    month := m
    day := doy - (153 * mp + 2) / 5 + 1
    hour := s / 3600
    min := s / 60 % 60
    sec := s % 60 }

/-- `%0wd`. -/
def paddedInt (w : ℕ) (z : ℤ) : Bytes :=
  if z < 0 then 45 :: padded (w - 1) z.natAbs else padded w z.natAbs

/-- The text of a broken-down time, however long. -/
def isoText (tm : Tm) : Bytes :=
  paddedInt 4 tm.year ++ [45] ++ paddedInt 2 tm.month ++ [45] ++ paddedInt 2 tm.day ++ [84] ++
    paddedInt 2 tm.hour ++ [58] ++ paddedInt 2 tm.min ++ [58] ++ paddedInt 2 tm.sec ++ [90]

theorem decimal_noNul (n : ℕ) : (0 : UInt8) ∉ decimal n := by
  intro h
  obtain ⟨c, hc, h0⟩ := List.mem_map.mp h
  have hd := Nat.isDigit_of_mem_toDigits (by omega) (by omega) hc
  unfold Char.isDigit at hd
  simp only [Bool.and_eq_true, decide_eq_true_eq] at hd
  have h1 : 48 ≤ c.toNat := hd.1
  have h2 : c.toNat ≤ 57 := hd.2
  have h3 := congrArg UInt8.toNat h0
  rw [UInt8.toNat_ofNat'] at h3
  simp only [UInt8.toNat_zero] at h3
  omega

theorem padded_noNul (w n : ℕ) : (0 : UInt8) ∉ padded w n := by
  simp [padded, decimal_noNul]

theorem paddedInt_noNul (w : ℕ) (z : ℤ) : (0 : UInt8) ∉ paddedInt w z := by
  unfold paddedInt
  split_ifs
  · simp [padded_noNul]
  · exact padded_noNul w _

theorem isoText_noNul (tm : Tm) : (0 : UInt8) ∉ isoText tm := by
  simp [isoText, paddedInt_noNul]

/-- `utils_format_iso8601` with the buffer of `UTILS_ISO8601_UTC_BUFFER_LEN` bytes. -/
def formatIso8601 (t : ℤ) : Except Status CString :=
  let tm := gmtime t
  if tm.year - 1900 < -2147483648 ∨ 2147483647 < tm.year - 1900 then .error .storage
  else if 21 ≤ (isoText tm).length then .error .invalidArgument
  else .ok ⟨isoText tm, isoText_noNul tm⟩

/-- A timestamp fits its buffer and is not empty. -/
theorem formatIso8601_length {t : ℤ} {s : CString} (h : formatIso8601 t = .ok s) :
    s.bytes.length < 21 ∧ s.bytes ≠ [] := by
  unfold formatIso8601 at h
  simp only at h
  split_ifs at h with h1 h2
  cases h
  refine ⟨by simpa using h2, ?_⟩
  simp [isoText]

/-- `utils_now_iso8601`. -/
def nowIso8601 : Option ℤ → Except Status CString
  | none => .error .storage
  | some now => formatIso8601 now

theorem nowIso8601_length {now : Option ℤ} {s : CString} (h : nowIso8601 now = .ok s) :
    s.bytes.length < 21 ∧ s.bytes ≠ [] := by
  cases now with
  | none => nomatch h
  | some t => exact formatIso8601_length h

/-- `utils_now_plus_seconds_iso8601`, after the check of `seconds` against `LONG_MAX`. -/
def plusSecondsIso8601 (seconds : ℕ) : Option ℤ → Except Status CString
  | none => .error .storage
  | some now =>
    if int64Max < now + seconds then .error .invalidArgument else formatIso8601 (now + seconds)

/-- `vault_expiry_is_due`. -/
def expiryIsDue (expiresAt now : CString) : Bool :=
  expiresAt.bytes ≠ [] && now.bytes ≠ [] && decide (expiresAt.bytes ≤ now.bytes)

example : (nowIso8601 (some 1735689599)).map CString.bytes = .ok (ascii "2024-12-31T23:59:59Z") := by
  decide +kernel

end Fuin.Time

import Fuin.Clock
import Fuin.Lib.Strings
import Fuin.Store.Expiry

/-! # Comparing timestamps

An instant of the years 0 to 9999 is printed in exactly 20 characters, a later one is refused. So
`strcmp` of two timestamps is the comparison of their instants, and both tests of the program, the
one in C and the one in SQL, find a secret due when its time has come (`timestamp_order`). -/

namespace Fuin.Store.Timestamps

open Fuin.Utils Fuin.Time Fuin.Clock Fuin.Lib.Buffer Fuin.Lib.Strings Fuin.Store.Secrets
open Fuin.Store.Expiry

/-- The instant lies in a year of at most four digits. -/
def InYears (t : ℤ) : Prop := 0 ≤ (gmtime t).year ∧ (gmtime t).year ≤ 9999

instance (t : ℤ) : Decidable (InYears t) := inferInstanceAs (Decidable (_ ∧ _))

variable {t t' : ℤ} {s s' : CString}

theorem length_isoText {tm : Tm} (hv : Valid tm) (h0 : 0 ≤ tm.year) (h1 : tm.year < 10000) :
    (isoText tm).length = 20 := by
  obtain ⟨hm, hd, hh, hmin, hs⟩ := hv
  rw [isoText_eq]
  simp only [List.length_append, List.length_cons, List.length_nil]
  rw [length_paddedInt (w := 4) (by norm_num) h0 h1,
    length_paddedInt (w := 2) (by norm_num) (by omega) (by omega),
    length_paddedInt (w := 2) (by norm_num) (by omega) (by omega),
    length_paddedInt (w := 2) (by norm_num) (by omega) (by omega),
    length_paddedInt (w := 2) (by norm_num) (by omega) (by omega),
    length_paddedInt (w := 2) (by norm_num) (by omega) (by omega)]

/-- **An instant of these years** is printed in 20 characters. -/
theorem formatIso8601_inYears (h : InYears t) :
    ∃ s, formatIso8601 t = .ok s ∧ s.bytes.length = 20 := by
  obtain ⟨h0, h1⟩ := h
  have hlen := length_isoText (gmtime_valid t) h0 (by omega)
  refine ⟨⟨isoText (gmtime t), isoText_noNul _⟩, ?_, hlen⟩
  unfold formatIso8601
  dsimp only
  rw [if_neg (by omega), if_neg (by omega)]

/-- A later instant does not fit. -/
theorem formatIso8601_late (h : 10000 ≤ (gmtime t).year) : ∃ e, formatIso8601 t = .error e := by
  cases hf : formatIso8601 t with
  | error e => exact ⟨e, rfl⟩
  | ok s =>
    have hyear := (year_lt hf (by omega)).1
    omega

theorem formatIso8601_le_iff (hs : formatIso8601 t = .ok s) (hs' : formatIso8601 t' = .ok s')
    (h : InYears t) (h' : InYears t') : s.bytes ≤ s'.bytes ↔ t ≤ t' := by
  constructor
  · intro hle
    by_contra hlt
    exact hle (formatIso8601_lt hs' hs h'.1 (not_le.mp hlt))
  · exact formatIso8601_le hs hs' h.1

/-- `strcmp` compares the instants. -/
theorem strcmp_timestamps (hs : formatIso8601 t = .ok s) (hs' : formatIso8601 t' = .ok s')
    (h : InYears t) (h' : InYears t') :
    (strcmp (s.bytes ++ [0]) (s'.bytes ++ [0]) : Checked Status _) = .ok (compare t t') := by
  rcases lt_trichotomy t t' with hlt | rfl | hgt
  · rw [strcmp_lt s.noNul s'.noNul (formatIso8601_lt hs hs' h.1 hlt), compare_lt_iff_lt.mpr hlt]
  · cases hs.symm.trans hs'
    rw [strcmp_self s.noNul, compare_eq_iff_eq.mpr rfl]
  · rw [strcmp_gt s.noNul s'.noNul (formatIso8601_lt hs' hs h'.1 hgt), compare_gt_iff_gt.mpr hgt]

/-- **Timestamps are ordered as instants**: from year 10000 on there is none, and two timestamps
compare as their instants do, in `strcmp`, in `vault_expiry_is_due` and in the queries. -/
theorem timestamp_order :
    (∀ t, 10000 ≤ (gmtime t).year → ∃ e, formatIso8601 t = .error e) ∧
      ∀ t t', InYears t → InYears t' → ∃ s s',
        formatIso8601 t = .ok s ∧ formatIso8601 t' = .ok s' ∧
          s.bytes.length = 20 ∧ s'.bytes.length = 20 ∧
          (strcmp (s.bytes ++ [0]) (s'.bytes ++ [0]) : Checked Status _) = .ok (compare t t') ∧
          (expiryIsDue s s' = true ↔ t ≤ t') ∧
          ∀ (table : SecretTable) (r : SecretRow), r.expiresAt = some s.bytes →
            (isDue table s'.bytes r = true ↔ table.Current r ∧ t ≤ t') := by
  refine ⟨fun t h => formatIso8601_late h, fun t t' h h' => ?_⟩
  obtain ⟨s, hs, hlen⟩ := formatIso8601_inYears h
  obtain ⟨s', hs', hlen'⟩ := formatIso8601_inYears h'
  have hle := formatIso8601_le_iff hs hs' h h'
  refine ⟨s, s', hs, hs', hlen, hlen', strcmp_timestamps hs hs' h h', ?_, fun table r hr => ?_⟩
  · have hne := (formatIso8601_length hs).2
    have hne' := (formatIso8601_length hs').2
    simp only [expiryIsDue, Bool.and_eq_true, decide_eq_true_eq, ne_eq, hne, hne', not_false_eq_true,
      true_and, hle]
  · rw [isDue_iff, hr]
    refine and_congr_right fun _ => ⟨?_, fun h => ⟨s.bytes, rfl, hle.mpr h⟩⟩
    rintro ⟨e, he, hee⟩
    cases he
    exact hle.mp hee

/-- The last second of 1999 and the first of 2000. -/
theorem millennium_order : ∃ s s',
    formatIso8601 946684799 = .ok s ∧ formatIso8601 946684800 = .ok s' ∧
      s.bytes.length = 20 ∧ s'.bytes.length = 20 ∧
      (strcmp (s.bytes ++ [0]) (s'.bytes ++ [0]) : Checked Status _) =
        .ok (compare (946684799 : ℤ) 946684800) ∧
      (expiryIsDue s s' = true ↔ (946684799 : ℤ) ≤ 946684800) ∧
      ∀ (table : SecretTable) (r : SecretRow), r.expiresAt = some s.bytes →
        (isDue table s'.bytes r = true ↔ table.Current r ∧ (946684799 : ℤ) ≤ 946684800) :=
  timestamp_order.2 _ _ (by decide) (by decide)

end Fuin.Store.Timestamps

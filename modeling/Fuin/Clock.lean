import Fuin.Time
import Mathlib.Data.List.Lex
import Mathlib.Order.Defs.LinearOrder
import Mathlib.Tactic.NormNum
import Mathlib.Tactic.Linarith

/-! # Timestamps are ordered as times

The program compares timestamps as texts. From the year 0 on this is the order of time
(`formatIso8601_lt`): the fields have a fixed width, so the texts are ordered as the fields are,
lexicographically, and the fields as the days and the seconds. Days are counted as in `gmtime`, in
years that begin in March; `start y` is the first day of such a year. -/

namespace Fuin.Clock

open Fuin.Utils Fuin.Time

/-! ### Digits -/

theorem append_lt_append {a b : Bytes} (c d : Bytes) : a.length = b.length →
    (a ++ c < b ++ d ↔ a < b ∨ a = b ∧ c < d) := by
  induction a generalizing b with
  | nil =>
    intro h
    obtain rfl := List.length_eq_zero_iff.mp h.symm
    simp
  | cons x a ih =>
    intro h
    cases b with
    | nil => nomatch h
    | cons y b =>
      rw [List.cons_append, List.cons_append, List.cons_lt_cons_iff, List.cons_lt_cons_iff,
        ih (Nat.succ.inj h), List.cons.injEq]
      tauto

/-- The byte of a digit. -/
def digit (d : ℕ) : UInt8 := UInt8.ofNat (48 + d)

theorem digit_lt {d e : ℕ} (hd : d < 10) (he : e < 10) : digit d < digit e ↔ d < e := by
  unfold digit
  rw [UInt8.lt_iff_toNat_lt, UInt8.toNat_ofNat', UInt8.toNat_ofNat']
  omega

theorem ofNat_digitChar {d : ℕ} (h : d < 10) : UInt8.ofNat (Nat.digitChar d).toNat = digit d := by
  rw [Nat.toNat_digitChar_of_lt_ten h]
  rfl

theorem decimal_eq (n : ℕ) :
    decimal n = if n < 10 then [digit n] else decimal (n / 10) ++ [digit (n % 10)] := by
  unfold decimal
  rw [Nat.toDigits_eq_if (by omega)]
  split_ifs with h
  · rw [List.map_singleton, ofNat_digitChar h]
  · rw [List.map_append, List.map_singleton, ofNat_digitChar (by omega)]

/-- The digits of a number, one after the other. -/
theorem padded_succ {w : ℕ} (hw : 0 < w) (n : ℕ) :
    padded (w + 1) n = padded w (n / 10) ++ [digit (n % 10)] := by
  unfold padded
  rw [decimal_eq n]
  split_ifs with h
  · rw [Nat.div_eq_of_lt h, Nat.mod_eq_of_lt h, decimal_eq 0, if_pos (by omega)]
    simp only [List.length_singleton, Nat.add_sub_cancel]
    obtain ⟨v, rfl⟩ : ∃ v, w = v + 1 := ⟨w - 1, by omega⟩
    rw [List.replicate_succ', Nat.add_sub_cancel]
    rfl
  · rw [List.length_append, List.length_singleton, Nat.add_sub_add_right, List.append_assoc]

theorem length_padded {w n : ℕ} (hw : 0 < w) (h : n < 10 ^ w) : (padded w n).length = w := by
  have hle : (decimal n).length ≤ w := by
    rw [decimal, List.length_map]
    exact (Nat.length_toDigits_le_iff (by omega) hw).mpr h
  rw [padded, List.length_append, List.length_replicate]
  omega

/-- The larger number has the larger text. -/
theorem padded_lt {w n m : ℕ} (hw : 0 < w) (hn : n < 10 ^ w) (hm : m < 10 ^ w) (h : n < m) :
    padded w n < padded w m := by
  induction w, hw using Nat.le_induction generalizing n m with
  | base =>
    unfold padded
    rw [decimal_eq n, decimal_eq m, if_pos (by omega), if_pos (by omega)]
    refine List.cons_lt_cons_iff.mpr (Or.inl ?_)
    exact (digit_lt (by omega) (by omega)).mpr h
  | succ w hw ih =>
    have hn' : n / 10 < 10 ^ w := by rw [pow_succ] at hn; omega
    have hm' : m / 10 < 10 ^ w := by rw [pow_succ] at hm; omega
    rw [padded_succ hw, padded_succ hw,
      append_lt_append _ _ (by rw [length_padded hw hn', length_padded hw hm'])]
    rcases Nat.lt_or_eq_of_le (Nat.div_le_div_right (c := 10) h.le) with hlt | heq
    · exact Or.inl (ih hn' hm' hlt)
    · refine Or.inr ⟨by rw [heq], List.cons_lt_cons_iff.mpr (Or.inl ?_)⟩
      exact (digit_lt (by omega) (by omega)).mpr (by omega)

/-! ### Days -/

/-- The year of a cycle of 400 years, by the day of the cycle. -/
def yearOf (doe : ℤ) : ℤ := (doe - doe / 1460 + doe / 36524 - doe / 146096) / 365

/-- The first day of a year. -/
def start (y : ℤ) : ℤ := 365 * y + y / 4 - y / 100 + y / 400

theorem yearOf_succ {doe : ℤ} (h0 : 0 ≤ doe) (h1 : doe < 146096) :
    yearOf doe ≤ yearOf (doe + 1) := by
  refine Int.ediv_le_ediv (by norm_num) ?_
  have hcentury : doe / 36524 ≤ (doe + 1) / 36524 := by omega
  by_cases hlast : doe = 146095
  · subst hlast
    norm_num
  · have hfour : (doe + 1) / 1460 ≤ doe / 1460 + 1 := by omega
    have hcycle : (doe + 1) / 146096 = 0 := by omega
    have hcycle' : doe / 146096 = 0 := by omega
    omega

theorem yearOf_mono {a b : ℤ} (h0 : 0 ≤ a) (hab : a ≤ b) (h1 : b ≤ 146096) :
    yearOf a ≤ yearOf b := by
  induction b, hab using Int.leInduction with
  | base => exact le_rfl
  | succ b hb ih => exact (ih (by omega)).trans (yearOf_succ (by omega) (by omega))

/-- The years of the cycle begin and end where `yearOf` changes. -/
theorem yearOf_start : ∀ y < 400, yearOf (start (y : ℕ)) = y ∧
    (0 < y → yearOf (start (y : ℕ) - 1) < y) := by
  decide +kernel

theorem yearOf_bounds {doe : ℤ} (h0 : 0 ≤ doe) (h1 : doe ≤ 146096) :
    0 ≤ yearOf doe ∧ yearOf doe ≤ 399 := by
  have hfirst := yearOf_mono (by norm_num) h0 h1
  have hlast := yearOf_mono h0 h1 (by norm_num)
  rw [show yearOf 0 = 0 by decide] at hfirst
  rw [show yearOf 146096 = 399 by decide] at hlast
  exact ⟨hfirst, hlast⟩

/-- **A day lies in its year.** -/
theorem start_le {doe : ℤ} (h0 : 0 ≤ doe) (h1 : doe ≤ 146096) :
    start (yearOf doe) ≤ doe ∧ doe < start (yearOf doe + 1) := by
  obtain ⟨hy0, hy1⟩ := yearOf_bounds h0 h1
  obtain ⟨y, hy⟩ := Int.eq_ofNat_of_zero_le hy0
  rw [hy] at hy1 ⊢
  constructor
  · by_contra hlt
    have hbefore := yearOf_mono h0 (Int.le_sub_one_of_lt (not_le.mp hlt))
      (by unfold start; omega)
    have hpos : 0 < y := by
      unfold start at hlt
      omega
    have hless := (yearOf_start y (by omega)).2 hpos
    rw [hy] at hbefore
    exact absurd hbefore (not_le.mpr hless)
  · by_contra hge
    by_cases hlast : y = 399
    · subst hlast
      unfold start at hge
      omega
    · have hafter := yearOf_mono (by unfold start; omega) (not_lt.mp hge) h1
      have := (yearOf_start (y + 1) (by omega)).1
      push_cast at this
      omega

/-- The year of a day; it begins in March. -/
def yearOfDay (z : ℤ) : ℤ := yearOf (z % 146097) + z / 146097 * 400

/-- The day of the year. -/
def dayOfYear (z : ℤ) : ℤ := z - start (yearOfDay z)

theorem start_succ (y : ℤ) : start y + 365 ≤ start (y + 1) ∧ start (y + 1) ≤ start y + 366 := by
  unfold start
  omega

theorem start_mono {a b : ℤ} (h : a ≤ b) : start a ≤ start b := by
  induction b, h using Int.leInduction with
  | base => exact le_rfl
  | succ b hb ih => linarith [(start_succ b).1]

theorem start_add (y n : ℤ) : start (y + n * 400) = start y + n * 146097 := by
  unfold start
  omega

theorem yearOfDay_bounds (z : ℤ) : start (yearOfDay z) ≤ z ∧ z < start (yearOfDay z + 1) := by
  have hpos : 0 ≤ z % 146097 := Int.emod_nonneg z (by norm_num)
  have hlt : z % 146097 < 146097 := Int.emod_lt_of_pos z (by norm_num)
  have hday := start_le hpos (Int.le_of_lt_add_one hlt)
  unfold yearOfDay
  rw [add_right_comm, start_add, start_add]
  omega

theorem yearOfDay_mono {z z' : ℤ} (h : z ≤ z') : yearOfDay z ≤ yearOfDay z' := by
  by_contra hlt
  have hstart := start_mono (Int.add_one_le_of_lt (not_le.mp hlt))
  have hz := (yearOfDay_bounds z).1
  have hz' := (yearOfDay_bounds z').2
  omega

theorem dayOfYear_bounds (z : ℤ) : 0 ≤ dayOfYear z ∧ dayOfYear z ≤ 365 := by
  have hz := yearOfDay_bounds z
  have hlong := (start_succ (yearOfDay z)).2
  unfold dayOfYear
  omega

/-- The month of a day of the year, from March. -/
def monthOf (d : ℤ) : ℤ := (5 * d + 2) / 153

/-- `gmtime` gives the day of the year. -/
theorem gmtime_doy (z : ℤ) :
    z % 146097 - (365 * yearOf (z % 146097) + yearOf (z % 146097) / 4 - yearOf (z % 146097) / 100) =
      dayOfYear z := by
  have hpos : 0 ≤ z % 146097 := Int.emod_nonneg z (by norm_num)
  have hlt : z % 146097 < 146097 := Int.emod_lt_of_pos z (by norm_num)
  have hyear := yearOf_bounds hpos (Int.le_of_lt_add_one hlt)
  unfold dayOfYear yearOfDay
  rw [start_add]
  unfold start
  omega

/-- The day on which a time lies, counted as in `gmtime`. -/
def dayOf (t : ℤ) : ℤ := t / 86400 + 719468

theorem gmtime_eq (t : ℤ) :
    let d := dayOfYear (dayOf t)
    let m := if monthOf d < 10 then monthOf d + 3 else monthOf d - 9
    gmtime t =
      { year := yearOfDay (dayOf t) + if m ≤ 2 then 1 else 0
        month := m
        day := d - (153 * monthOf d + 2) / 5 + 1
        hour := t % 86400 / 3600
        min := t % 86400 / 60 % 60
        sec := t % 86400 % 60 } := by
  intro d m
  have hd : d = dayOfYear (dayOf t) := rfl
  rw [← gmtime_doy] at hd
  unfold gmtime
  rw [show t / 86400 + 719468 = dayOf t from rfl]
  dsimp only
  rw [show (dayOf t % 146097 - dayOf t % 146097 / 1460 + dayOf t % 146097 / 36524 -
    dayOf t % 146097 / 146096) / 365 = yearOf (dayOf t % 146097) from rfl, ← hd]
  rfl

/-! ### Fields -/

/-- The fields of a time of the calendar. -/
structure Valid (tm : Tm) : Prop where
  month : 1 ≤ tm.month ∧ tm.month ≤ 12
  day : 1 ≤ tm.day ∧ tm.day ≤ 31
  hour : 0 ≤ tm.hour ∧ tm.hour ≤ 23
  min : 0 ≤ tm.min ∧ tm.min ≤ 59
  sec : 0 ≤ tm.sec ∧ tm.sec ≤ 59

/-- The fields in the order of the text. -/
def fields (tm : Tm) : List ℤ := [tm.year, tm.month, tm.day, tm.hour, tm.min, tm.sec]

theorem gmtime_valid (t : ℤ) : Valid (gmtime t) := by
  have hd := dayOfYear_bounds (dayOf t)
  rw [gmtime_eq]
  generalize dayOfYear (dayOf t) = d at hd
  have hm : 0 ≤ monthOf d ∧ monthOf d ≤ 11 := by
    unfold monthOf
    omega
  refine ⟨?_, ?_, ?_, ?_, ?_⟩
  · dsimp only
    split_ifs <;> omega
  · unfold monthOf
    dsimp only
    omega
  all_goals
    dsimp only
    omega

/-- **Later times have larger fields.** -/
theorem gmtime_lt {t t' : ℤ} (h : t < t') : fields (gmtime t) < fields (gmtime t') := by
  have hle : dayOf t ≤ dayOf t' := by
    unfold dayOf
    omega
  rcases hle.lt_or_eq with hday | hday
  · have hyear := yearOfDay_mono hle
    have hd := dayOfYear_bounds (dayOf t)
    have hd' := dayOfYear_bounds (dayOf t')
    have hnext : yearOfDay (dayOf t) = yearOfDay (dayOf t') →
        dayOfYear (dayOf t) < dayOfYear (dayOf t') := fun e => by
      unfold dayOfYear
      rw [e]
      omega
    rw [gmtime_eq, gmtime_eq]
    generalize dayOfYear (dayOf t) = d at hd hnext
    generalize dayOfYear (dayOf t') = d' at hd' hnext
    have hm : 0 ≤ monthOf d ∧ monthOf d ≤ 11 := by
      unfold monthOf
      omega
    have hm' : 0 ≤ monthOf d' ∧ monthOf d' ≤ 11 := by
      unfold monthOf
      omega
    have hmonth : d < d' → monthOf d ≤ monthOf d' := fun hlt => by
      unfold monthOf
      omega
    have hdate : d < d' → monthOf d = monthOf d' →
        d - (153 * monthOf d + 2) / 5 + 1 < d' - (153 * monthOf d' + 2) / 5 + 1 := fun hlt e => by
      rw [e]
      omega
    generalize yearOfDay (dayOf t) = y at hyear hnext
    generalize yearOfDay (dayOf t') = y' at hyear hnext
    generalize monthOf d = m at hm hmonth hdate
    generalize monthOf d' = m' at hm' hmonth hdate
    dsimp only [fields]
    simp only [List.cons_lt_cons_iff]
    rcases hyear.lt_or_eq with hlt | rfl
    · split_ifs <;> omega
    · have hd1 := hnext rfl
      rcases (hmonth hd1).lt_or_eq with hlt | rfl
      · split_ifs <;> omega
      · exact Or.inr ⟨rfl, Or.inr ⟨rfl, Or.inl (hdate hd1 rfl)⟩⟩
  · have hsec : t % 86400 < t' % 86400 := by
      unfold dayOf at hday
      omega
    rw [gmtime_eq, gmtime_eq, hday]
    dsimp only [fields]
    simp only [List.cons_lt_cons_iff, lt_irrefl, true_and, false_or]
    omega

/-! ### Texts -/

theorem paddedInt_of_nonneg {z : ℤ} (w : ℕ) (h : 0 ≤ z) : paddedInt w z = padded w z.natAbs :=
  if_neg (not_lt.mpr h)

theorem length_paddedInt {w : ℕ} {z : ℤ} (hw : 0 < w) (h0 : 0 ≤ z) (h1 : z < 10 ^ w) :
    (paddedInt w z).length = w := by
  rw [paddedInt_of_nonneg w h0]
  exact length_padded hw (by zify; rwa [abs_of_nonneg h0])

/-- One field, and what follows it. -/
theorem field_lt {w : ℕ} {z z' : ℤ} {s s' : Bytes} (hw : 0 < w) (h0 : 0 ≤ z) (h1 : z < 10 ^ w)
    (h0' : 0 ≤ z') (h1' : z' < 10 ^ w) (h : z < z' ∨ z = z' ∧ s < s') :
    paddedInt w z ++ s < paddedInt w z' ++ s' := by
  rw [append_lt_append _ _ (by rw [length_paddedInt hw h0 h1, length_paddedInt hw h0' h1'])]
  rcases h with h | ⟨rfl, h⟩
  · left
    rw [paddedInt_of_nonneg w h0, paddedInt_of_nonneg w h0']
    refine padded_lt hw ?_ ?_ (by omega) <;> zify
    · rwa [abs_of_nonneg h0]
    · rwa [abs_of_nonneg h0']
  · exact Or.inr ⟨rfl, h⟩

theorem cons_lt {c : UInt8} {s s' : Bytes} (h : s < s') : c :: s < c :: s' :=
  List.cons_lt_cons_iff.mpr (Or.inr ⟨rfl, h⟩)

theorem isoText_eq (tm : Tm) :
    isoText tm = paddedInt 4 tm.year ++ 45 :: (paddedInt 2 tm.month ++ 45 :: (paddedInt 2 tm.day ++
      84 :: (paddedInt 2 tm.hour ++ 58 :: (paddedInt 2 tm.min ++ 58 :: (paddedInt 2 tm.sec ++
        [90]))))) := by
  simp only [isoText, List.append_assoc, List.cons_append, List.nil_append]

/-- **Texts are ordered as the fields are.** -/
theorem isoText_lt {tm tm' : Tm} (hv : Valid tm) (hv' : Valid tm')
    (hy : 0 ≤ tm.year ∧ tm.year < 10000) (hy' : 0 ≤ tm'.year ∧ tm'.year < 10000)
    (h : fields tm < fields tm') : isoText tm < isoText tm' := by
  obtain ⟨hm, hd, hh, hmin, hs⟩ := hv
  obtain ⟨hm', hd', hh', hmin', hs'⟩ := hv'
  simp only [fields, List.cons_lt_cons_iff, lt_irrefl, and_false, or_false] at h
  rw [isoText_eq, isoText_eq]
  refine field_lt (by norm_num) hy.1 hy.2 hy'.1 hy'.2 (h.imp_right (And.imp_right fun h => ?_))
  refine cons_lt (field_lt (by norm_num) (by omega) (by omega) (by omega) (by omega)
    (h.imp_right (And.imp_right fun h => ?_)))
  refine cons_lt (field_lt (by norm_num) (by omega) (by omega) (by omega) (by omega)
    (h.imp_right (And.imp_right fun h => ?_)))
  refine cons_lt (field_lt (by norm_num) (by omega) (by omega) (by omega) (by omega)
    (h.imp_right (And.imp_right fun h => ?_)))
  refine cons_lt (field_lt (by norm_num) (by omega) (by omega) (by omega) (by omega)
    (h.imp_right (And.imp_right fun h => ?_)))
  exact cons_lt (field_lt (by norm_num) (by omega) (by omega) (by omega) (by omega) (Or.inl h))

/-- A text that fits the buffer has a year of four digits. -/
theorem year_lt {t : ℤ} {s : CString} (h : formatIso8601 t = .ok s) (h0 : 0 ≤ (gmtime t).year) :
    (gmtime t).year < 10000 ∧ s.bytes = isoText (gmtime t) := by
  obtain ⟨hm, hd, hh, hmin, hs⟩ := gmtime_valid t
  have hlen := (formatIso8601_length h).1
  have hs : s.bytes = isoText (gmtime t) := by
    unfold formatIso8601 at h
    dsimp only at h
    split_ifs at h
    cases h
    rfl
  refine ⟨?_, hs⟩
  rw [hs, isoText_eq] at hlen
  simp only [List.length_append, List.length_cons, List.length_nil] at hlen
  rw [length_paddedInt (w := 2) (by norm_num) (by omega) (by omega),
    length_paddedInt (w := 2) (by norm_num) (by omega) (by omega),
    length_paddedInt (w := 2) (by norm_num) (by omega) (by omega),
    length_paddedInt (w := 2) (by norm_num) (by omega) (by omega),
    length_paddedInt (w := 2) (by norm_num) (by omega) (by omega),
    paddedInt_of_nonneg 4 h0, padded, List.length_append] at hlen
  have hdigits := (Nat.length_toDigits_le_iff (b := 10) (n := (gmtime t).year.natAbs) (k := 4)
    (by norm_num) (by norm_num)).mp (by rw [decimal, List.length_map] at hlen; omega)
  omega

/-- **From the year 0 on, timestamps are ordered as times.** -/
theorem formatIso8601_lt {t t' : ℤ} {s s' : CString} (h : formatIso8601 t = .ok s)
    (h' : formatIso8601 t' = .ok s') (h0 : 0 ≤ (gmtime t).year) (hlt : t < t') :
    s.bytes < s'.bytes := by
  have hfields := gmtime_lt hlt
  have h0' : 0 ≤ (gmtime t').year := by
    refine h0.trans ?_
    simp only [fields, List.cons_lt_cons_iff] at hfields
    omega
  obtain ⟨hy, hs⟩ := year_lt h h0
  obtain ⟨hy', hs'⟩ := year_lt h' h0'
  rw [hs, hs']
  exact isoText_lt (gmtime_valid t) (gmtime_valid t') ⟨h0, hy⟩ ⟨h0', hy'⟩ hfields

theorem formatIso8601_le {t t' : ℤ} {s s' : CString} (h : formatIso8601 t = .ok s)
    (h' : formatIso8601 t' = .ok s') (h0 : 0 ≤ (gmtime t).year) (hle : t ≤ t') :
    s.bytes ≤ s'.bytes := by
  rcases hle.lt_or_eq with hlt | rfl
  · exact List.le_of_lt (formatIso8601_lt h h' h0 hlt)
  · rw [Except.ok.inj (h.symm.trans h')]
    exact List.le_refl _

end Fuin.Clock

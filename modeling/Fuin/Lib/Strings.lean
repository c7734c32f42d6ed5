import Mathlib.Data.List.Infix
import Fuin.Lib.Buffer

/-! # Strings in C

A pointer into a string is what the object holds from there on; it only moves forward. The functions
of the C library read it byte by byte (`byteAt`), and a read past the end of the object stops with
`outOfBounds`. The lemmas say what they return for a text that is ended by a NUL, or of which at
least the bytes they may look at are there, and that they then stay inside. -/

namespace Fuin.Lib.Strings

open Fuin.Lib.Buffer

variable {ε : Type}

/-- `p[i]`. -/
def byteAt (p : List UInt8) (i : ℕ) : Checked ε UInt8 :=
  match p[i]? with
  | some c => .ok c
  | none => .error .outOfBounds

/-- `p + n`, at most one past the end of the object. -/
def advance (p : List UInt8) (n : ℕ) : Checked ε (List UInt8) :=
  if n ≤ p.length then .ok (p.drop n) else .error .outOfBounds

/-- `p && x`, where `x` is not evaluated if `p` fails. -/
def both (p : Prop) [Decidable p] (x : Checked ε Bool) : Checked ε Bool :=
  if p then x else .ok false

/-- `b || x`, where `x` is not evaluated if `b` holds. -/
def either (b : Bool) (x : Checked ε Bool) : Checked ε Bool := if b then .ok true else x

/-- `strlen`. -/
def strlen : List UInt8 → Checked ε ℕ
  | [] => .error .outOfBounds
  | x :: p => if x = 0 then .ok 0 else (strlen p).map (· + 1)

/-- `strchr`: how far away the byte is. -/
def strchr (c : UInt8) : List UInt8 → Checked ε (Option ℕ)
  | [] => .error .outOfBounds
  | x :: p =>
    if x = c then .ok (some 0)
    else if x = 0 then .ok none
    else (strchr c p).map (Option.map (· + 1))

/-- `memchr`, within `n` bytes. -/
def memchr (c : UInt8) : List UInt8 → ℕ → Checked ε (Option ℕ)
  | _, 0 => .ok none
  | [], _ + 1 => .error .outOfBounds
  | x :: p, n + 1 =>
    if x = c then .ok (some 0) else (memchr c p n).map (Option.map (· + 1))

/-- The sign of `strncmp`: up to `n` bytes, and none after a NUL. -/
def strncmp : List UInt8 → List UInt8 → ℕ → Checked ε Ordering
  | _, _, 0 => .ok .eq
  | x :: p, y :: q, n + 1 =>
    if x ≠ y then .ok (compare x.toNat y.toNat) else if x = 0 then .ok .eq else strncmp p q n
  | _, _, _ + 1 => .error .outOfBounds

/-- The sign of `strcmp`. -/
def strcmp : List UInt8 → List UInt8 → Checked ε Ordering
  | x :: p, y :: q =>
    if x ≠ y then .ok (compare x.toNat y.toNat) else if x = 0 then .ok .eq else strcmp p q
  | _, _ => .error .outOfBounds

/-- `p[i] = c`. -/
def store (p : List UInt8) (i : ℕ) (c : UInt8) : Checked ε (List UInt8) :=
  if i < p.length then .ok (p.set i c) else .error .outOfBounds

/-- `memcpy(p + i, s, n)`, where `s` are the `n` bytes. -/
def memcpy (p : List UInt8) (i : ℕ) (s : List UInt8) : Checked ε (List UInt8) :=
  if i + s.length ≤ p.length then .ok (p.take i ++ s ++ p.drop (i + s.length))
  else .error .outOfBounds

/-! ### What they return -/

theorem ok_bind {ε α β : Type} {a : α} {f : α → Except ε β} : (Except.ok a >>= f) = f a := rfl

theorem map_ok {α β : Type} {a : α} {f : α → β} :
    (Except.ok a : Checked ε α).map f = .ok (f a) := rfl

variable {s r t u : List UInt8} {c : UInt8}

theorem byteAt_of_lt {i : ℕ} (h : i < s.length) :
    (byteAt (s ++ t) i : Checked ε UInt8) = .ok s[i] := by
  unfold byteAt
  rw [List.getElem?_append_left h, List.getElem?_eq_getElem h]

/-- The byte after a part of the text. -/
theorem byteAt_length : (byteAt (s ++ c :: t) s.length : Checked ε UInt8) = .ok c := by
  unfold byteAt
  rw [List.getElem?_append_right le_rfl, Nat.sub_self]
  rfl

/-- The last byte of a part of the text. -/
theorem byteAt_last (h : s ≠ []) :
    (byteAt (s ++ t) (s.length - 1) : Checked ε UInt8) = .ok (s.getLast h) := by
  have hpos := List.length_pos_iff.mpr h
  rw [byteAt_of_lt (by omega), List.getLast_eq_getElem]

/-- Going on after a byte. -/
theorem advance_length : (advance (s ++ c :: t) (s.length + 1) : Checked ε _) = .ok t := by
  unfold advance
  rw [if_pos (by simp), List.drop_append]
  simp

/-- Writing the byte after a part. -/
theorem store_length {d : UInt8} :
    (store (s ++ c :: t) s.length d : Checked ε _) = .ok (s ++ d :: t) := by
  unfold store
  rw [if_pos (by simp), List.set_append_right _ _ le_rfl, Nat.sub_self]
  rfl

/-- Copying over the bytes after a part. -/
theorem memcpy_length (h : r.length ≤ t.length) :
    (memcpy (s ++ t) s.length r : Checked ε _) = .ok (s ++ r ++ t.drop r.length) := by
  unfold memcpy
  rw [if_pos (by rw [List.length_append]; omega), List.take_left, List.drop_append,
    List.drop_eq_nil_of_le (by omega), List.nil_append, Nat.add_sub_cancel_left]

theorem memcpy_start (h : r.length ≤ t.length) :
    (memcpy t 0 r : Checked ε _) = .ok (r ++ t.drop r.length) := memcpy_length (s := []) h

theorem both_pos {p : Prop} [Decidable p] {x : Checked ε Bool} (h : p) : both p x = x := if_pos h

theorem both_neg {p : Prop} [Decidable p] {x : Checked ε Bool} (h : ¬p) : both p x = .ok false :=
  if_neg h

/-- Whether a slice is one byte. -/
theorem both_single :
    both (s.length = 1) ((byteAt (s ++ t) 0).map (· == c)) =
      (.ok (decide (s = [c])) : Checked ε Bool) := by
  match s with
  | [] => rfl
  | [x] =>
    rw [both_pos (List.length_singleton)]
    show Except.ok (x == c) = _
    simp only [List.cons.injEq, and_true, beq_eq_decide]
  | x :: y :: s => rw [both_neg (by simp), decide_eq_false (by simp)]

/-- What the last byte of a slice is, if there is one. -/
theorem both_last {f : UInt8 → Bool} :
    both (0 < s.length) ((byteAt (s ++ t) (s.length - 1)).map f) =
      (.ok (s.getLast?.any f) : Checked ε Bool) := by
  by_cases hs : s = []
  · rw [hs]
    rfl
  · rw [both_pos (List.length_pos_iff.mpr hs), byteAt_last hs, List.getLast?_eq_some_getLast hs]
    rfl

theorem strlen_eq (h : (0 : UInt8) ∉ s) :
    (strlen (s ++ 0 :: t) : Checked ε ℕ) = .ok s.length := by
  induction s with
  | nil => rfl
  | cons x s ih =>
    obtain ⟨hx, hs⟩ := List.ne_and_not_mem_of_not_mem_cons h
    rw [List.cons_append, strlen, if_neg (Ne.symm hx), ih hs]
    rfl

/-- The first place of a byte. -/
theorem strchr_found (h : (0 : UInt8) ∉ s) (hc : c ∉ s) :
    (strchr c (s ++ c :: t) : Checked ε _) = .ok (some s.length) := by
  induction s with
  | nil => rw [List.nil_append, strchr, if_pos rfl]; rfl
  | cons x s ih =>
    obtain ⟨hx, hs⟩ := List.ne_and_not_mem_of_not_mem_cons h
    obtain ⟨hxc, hsc⟩ := List.ne_and_not_mem_of_not_mem_cons hc
    rw [List.cons_append, strchr, if_neg (Ne.symm hxc), if_neg (Ne.symm hx), ih hs hsc]
    rfl

theorem strchr_none (h0 : c ≠ 0) (h : (0 : UInt8) ∉ s) (hc : c ∉ s) :
    (strchr c (s ++ 0 :: t) : Checked ε _) = .ok none := by
  induction s with
  | nil => rw [List.nil_append, strchr, if_neg (Ne.symm h0), if_pos rfl]
  | cons x s ih =>
    obtain ⟨hx, hs⟩ := List.ne_and_not_mem_of_not_mem_cons h
    obtain ⟨hxc, hsc⟩ := List.ne_and_not_mem_of_not_mem_cons hc
    rw [List.cons_append, strchr, if_neg (Ne.symm hxc), if_neg (Ne.symm hx), ih hs hsc]
    rfl

theorem memchr_found (hc : c ∉ s) {n : ℕ} (hn : s.length < n) :
    (memchr c (s ++ c :: t) n : Checked ε _) = .ok (some s.length) := by
  induction s generalizing n with
  | nil =>
    obtain ⟨n, rfl⟩ := Nat.exists_eq_add_one.mpr hn
    rw [List.nil_append, memchr, if_pos rfl]
    rfl
  | cons x s ih =>
    obtain ⟨n, rfl⟩ := Nat.exists_eq_add_one.mpr (Nat.zero_lt_of_lt hn)
    obtain ⟨hxc, hsc⟩ := List.ne_and_not_mem_of_not_mem_cons hc
    rw [List.cons_append, memchr, if_neg (Ne.symm hxc), ih hsc (Nat.lt_of_succ_lt_succ hn)]
    rfl

theorem memchr_none (hc : c ∉ s) : (memchr c (s ++ t) s.length : Checked ε _) = .ok none := by
  induction s with
  | nil => rw [List.length_nil, memchr]
  | cons x s ih =>
    obtain ⟨hxc, hsc⟩ := List.ne_and_not_mem_of_not_mem_cons hc
    rw [List.cons_append, List.length_cons, memchr, if_neg (Ne.symm hxc), ih hsc]
    rfl

/-- Comparing as many bytes as a part of a text has with a text that is ended by a NUL. -/
theorem strncmp_prefix (h : (0 : UInt8) ∉ s) :
    ∃ o, (strncmp (s ++ t) (r ++ 0 :: u) s.length : Checked ε _) = .ok o ∧
      (o = .eq ↔ s <+: r) := by
  induction s generalizing r with
  | nil => exact ⟨.eq, by rw [List.length_nil, strncmp], by simp⟩
  | cons x s ih =>
    obtain ⟨hx, hs⟩ := List.ne_and_not_mem_of_not_mem_cons h
    cases r with
    | nil =>
      refine ⟨compare x.toNat (0 : UInt8).toNat, ?_, ?_⟩
      · rw [List.cons_append, List.nil_append, List.length_cons, strncmp, if_pos (Ne.symm hx)]
      · rw [Nat.compare_eq_eq, UInt8.toNat_inj]
        exact ⟨fun e => absurd e.symm hx, fun e => absurd (List.prefix_nil.mp e) (by simp)⟩
    | cons y r =>
      rw [List.cons_append, List.cons_append, List.length_cons, strncmp, List.cons_prefix_cons]
      by_cases hxy : x = y
      · obtain ⟨o, ho, hiff⟩ := ih hs (r := r)
        rw [if_neg (by simpa using hxy), if_neg (Ne.symm hx)]
        exact ⟨o, ho, hiff.trans ⟨fun hp => ⟨hxy, hp⟩, fun hp => hp.2⟩⟩
      · refine ⟨compare x.toNat y.toNat, if_pos hxy, ?_⟩
        rw [Nat.compare_eq_eq, UInt8.toNat_inj]
        exact ⟨fun e => absurd e hxy, fun e => e.1⟩

/-- The first of two texts comes before the second. -/
theorem strcmp_lt (h : (0 : UInt8) ∉ s) (hr : (0 : UInt8) ∉ r) (hlt : s < r) :
    (strcmp (s ++ 0 :: t) (r ++ 0 :: u) : Checked ε _) = .ok .lt := by
  induction s generalizing r with
  | nil =>
    cases r with
    | nil => exact absurd hlt (List.lt_irrefl _)
    | cons y r =>
      obtain ⟨hy, -⟩ := List.ne_and_not_mem_of_not_mem_cons hr
      rw [List.nil_append, List.cons_append, strcmp, if_pos hy, Nat.compare_eq_lt.mpr]
      exact Nat.pos_of_ne_zero fun e => hy (UInt8.toNat_inj.mp e).symm
  | cons x s ih =>
    cases r with
    | nil => exact absurd hlt (List.not_lt_nil _)
    | cons y r =>
      obtain ⟨hx, hs⟩ := List.ne_and_not_mem_of_not_mem_cons h
      rw [List.cons_append, List.cons_append, strcmp]
      rcases List.cons_lt_cons_iff.mp hlt with hxy | ⟨rfl, hrest⟩
      · have hnat := UInt8.lt_iff_toNat_lt.mp hxy
        rw [if_pos fun e => Nat.lt_irrefl _ (e ▸ hnat), Nat.compare_eq_lt.mpr hnat]
      · rw [if_neg (not_not.mpr rfl), if_neg (Ne.symm hx)]
        exact ih hs (List.ne_and_not_mem_of_not_mem_cons hr).2 hrest

theorem strcmp_self (h : (0 : UInt8) ∉ s) :
    (strcmp (s ++ 0 :: t) (s ++ 0 :: u) : Checked ε _) = .ok .eq := by
  induction s with
  | nil => rw [List.nil_append, List.nil_append, strcmp, if_neg (not_not.mpr rfl), if_pos rfl]
  | cons x s ih =>
    obtain ⟨hx, hs⟩ := List.ne_and_not_mem_of_not_mem_cons h
    rw [List.cons_append, List.cons_append, strcmp, if_neg (not_not.mpr rfl), if_neg (Ne.symm hx)]
    exact ih hs

theorem strcmp_gt (h : (0 : UInt8) ∉ s) (hr : (0 : UInt8) ∉ r) (hlt : r < s) :
    (strcmp (s ++ 0 :: t) (r ++ 0 :: u) : Checked ε _) = .ok .gt := by
  have hswap : ∀ p q : List UInt8,
      (strcmp p q : Checked ε _) = (strcmp q p).map Ordering.swap := by
    intro p
    induction p with
    | nil => intro q; cases q <;> rfl
    | cons x p ih =>
      intro q
      cases q with
      | nil => rfl
      | cons y q =>
        rw [strcmp, strcmp]
        by_cases hxy : x = y
        · subst hxy
          rw [if_neg (not_not.mpr rfl), if_neg (not_not.mpr rfl)]
          split_ifs
          · rfl
          · exact ih q
        · rw [if_pos hxy, if_pos (Ne.symm hxy), map_ok, Nat.compare_swap]
  rw [hswap, strcmp_lt hr h hlt]
  rfl

/-- Comparing a slice with as many bytes of a text. -/
theorem both_strncmp {q : List UInt8} (h : (0 : UInt8) ∉ s) :
    both (s.length = r.length)
      ((strncmp (s ++ t) (r ++ q ++ 0 :: u) r.length).map (· == Ordering.eq)) =
        (.ok (decide (s = r)) : Checked ε Bool) := by
  by_cases hlen : s.length = r.length
  · obtain ⟨o, ho, hiff⟩ := strncmp_prefix (ε := ε) (t := t) (r := r ++ q) (u := u) h
    rw [both_pos hlen, ← hlen, ho, map_ok, beq_eq_decide]
    refine congrArg _ (decide_eq_decide.mpr (hiff.trans ⟨fun hp => ?_, ?_⟩))
    · exact (List.prefix_of_prefix_length_le hp (List.prefix_append r q) hlen.le).eq_of_length hlen
    · rintro rfl
      exact List.prefix_append s q
  · rw [both_neg hlen, decide_eq_false]
    rintro rfl
    exact hlen rfl

end Fuin.Lib.Strings

import Mathlib.Data.List.DropRight
import Fuin.Utils
import Fuin.Lib.Strings

/-! # The passphrase of a key, from a file

The usage text promises the first line of the file. `cli_read_key_passphrase_file` reads a block,
takes it as a C string and removes line ends from its end, so a second line stays
(`readKeyPassphraseFile_owner`); `first_line_iff` says for which files this is the first line. -/

namespace Fuin.Cli.Passphrases

open Fuin.Utils Fuin.Lib.Buffer Fuin.Lib.Strings

/-- A check over strings: it has no errors of its own. -/
abbrev Reads (α : Type) := Checked Empty α

/-- What `open` and `fstat` find at the path, and how reading and closing end. -/
structure Found where
  regular : Bool
  owner : ℕ
  mode : ℕ
  content : Bytes
  readFails : Bool
  closeFails : Bool

/-- `cli_fopen_owner_only_read`; nothing is found if the path cannot be resolved or opened. -/
def fopenOwnerOnlyRead (uid : ℕ) (found : Option Found) : Except Status Found := do
  let file ← found.elim (.error .storage) .ok
  require (file.regular = true ∧ file.owner = uid ∧ file.mode % 64 = 0) .storage
  return file

/-- LF or CR. -/
def isLineEnd (c : UInt8) : Bool := c == 10 || c == 13

/-- The loop that shortens the string: the buffer and the length. -/
def stripLineEnds (out : Bytes) : ℕ → Reads (Bytes × ℕ)
  | 0 => .ok (out, 0)
  | len + 1 => do
    let c ← byteAt out len
    if isLineEnd c then do
      let out ← store out len 0
      stripLineEnds out len
    else .ok (out, len + 1)

/-- What is done with the open file, up to `cleanup`. -/
def readPassphrase (file : Found) (out : Bytes) : Reads (Except Status Unit × Bytes) := do
  let space := out.length - 1
  let nread := min file.content.length space
  let out ← memcpy out 0 (file.content.take nread)
  if file.readFails then .ok (.error .storage, out)
  else if nread = space ∧ nread < file.content.length then .ok (.error .inputTooLarge, out)
  else do
    let out ← store out nread 0
    let len ← strlen out
    let (out, len) ← stripLineEnds out len
    .ok (if len = 0 then .error .invalidArgument else .ok (), out)

/-- `cli_read_key_passphrase_file`: the status and the buffer. -/
def readKeyPassphraseFile (uid : ℕ) (found : Option Found) (out : Bytes) :
    Reads (Except Status Unit × Bytes) := do
  if out.length < 2 then .ok (.error .invalidArgument, out)
  else do
    let zeros := List.replicate out.length 0
    match fopenOwnerOnlyRead uid found with
    | .error e => .ok (.error e, zeros)
    | .ok file => do
      let (status, text) ← readPassphrase file zeros
      let status := if file.closeFails then .error .storage else status
      match status with
      | .ok () => .ok (.ok (), text)
      | .error e => .ok (.error e, zeros)

/-! ### What it returns -/

/-- A regular file that only its owner can use, and that can be read. -/
structure OwnerOnly (uid : ℕ) (file : Found) : Prop where
  regular : file.regular = true
  owner : file.owner = uid
  mode : file.mode % 64 = 0
  reads : file.readFails = false
  closes : file.closeFails = false

/-- The text the code takes: up to the first NUL, without the line ends at the end. -/
def taken (content : Bytes) : Bytes := (content.takeWhile (· ≠ 0)).rdropWhile isLineEnd

/-- The line ends are overwritten with zeros. -/
theorem stripLineEnds_eq (s : Bytes) : ∀ t : Bytes,
    ∃ z, stripLineEnds (s ++ t) s.length = .ok
        (s.rdropWhile isLineEnd ++ (List.replicate z 0 ++ t), (s.rdropWhile isLineEnd).length) := by
  induction s using List.reverseRecOn with
  | nil => exact fun t => ⟨0, rfl⟩
  | append_singleton s c ih =>
    intro t
    rw [List.length_append, List.length_singleton, stripLineEnds, List.append_assoc,
      List.singleton_append, byteAt_length, ok_bind]
    by_cases hc : isLineEnd c = true
    · obtain ⟨z, hz⟩ := ih (0 :: t)
      refine ⟨z + 1, ?_⟩
      rw [if_pos hc, store_length, ok_bind, hz, List.rdropWhile_concat_pos _ _ _ hc,
        List.replicate_succ', List.append_assoc]
      rfl
    · refine ⟨0, ?_⟩
      rw [if_neg hc, List.rdropWhile_concat_neg _ _ _ hc]
      simp

variable {uid : ℕ} {file : Found}

theorem fopenOwnerOnlyRead_owner (h : OwnerOnly uid file) :
    fopenOwnerOnlyRead uid (some file) = .ok file := by
  have hcheck : require (file.regular = true ∧ file.owner = uid ∧ file.mode % 64 = 0) .storage =
      .ok () := require_eq_ok.mpr ⟨h.regular, h.owner, h.mode⟩
  unfold fopenOwnerOnlyRead
  show (require _ _ >>= _) = _
  rw [hcheck]
  rfl

/-- A file that does not fit. -/
theorem readPassphrase_large (h : OwnerOnly uid file) (out : Bytes)
    (hlen : out.length ≤ file.content.length)
    (hout : 2 ≤ out.length) :
    ∃ b, readPassphrase file out = .ok (.error .inputTooLarge, b) := by
  have hread : min file.content.length (out.length - 1) = out.length - 1 := by omega
  have htake : (file.content.take (out.length - 1)).length = out.length - 1 := by
    rw [List.length_take, Nat.min_comm, hread]
  refine ⟨file.content.take (out.length - 1) ++ out.drop (out.length - 1), ?_⟩
  unfold readPassphrase
  dsimp only
  rw [hread, memcpy_start (by omega), ok_bind, h.reads, if_neg Bool.false_ne_true,
    if_pos ⟨rfl, by omega⟩, htake]

/-- A text ends at its first NUL. -/
theorem takeWhile_nul (s r : Bytes) : ∃ u, s ++ 0 :: r = s.takeWhile (· ≠ 0) ++ 0 :: u := by
  have hs := (List.takeWhile_append_dropWhile (p := (· ≠ (0 : UInt8))) (l := s)).symm
  cases hd : s.dropWhile (· ≠ 0) with
  | nil =>
    rw [hd, List.append_nil] at hs
    exact ⟨r, by rw [← hs]⟩
  | cons c d =>
    obtain rfl : c = 0 := by
      have hc := List.head?_dropWhile_not (· ≠ (0 : UInt8)) s
      rw [hd] at hc
      simpa using hc
    rw [hd] at hs
    refine ⟨d ++ 0 :: r, ?_⟩
    conv_lhs => rw [hs]
    rw [List.append_assoc, List.cons_append]

/-- A file that fits: its text without the line ends, and whether there is any. -/
theorem readPassphrase_fits (h : OwnerOnly uid file) (out : Bytes)
    (hlen : file.content.length < out.length) :
    ∃ w, readPassphrase file out =
      .ok (if taken file.content = [] then .error .invalidArgument else .ok (),
        taken file.content ++ 0 :: w) := by
  have hread : min file.content.length (out.length - 1) = file.content.length := by omega
  obtain ⟨c, d, hd⟩ := List.exists_cons_of_ne_nil
    (List.ne_nil_of_length_pos (l := out.drop file.content.length) (by rw [List.length_drop]; omega))
  obtain ⟨u, hu⟩ := takeWhile_nul file.content d
  obtain ⟨z, hz⟩ := stripLineEnds_eq (file.content.takeWhile (· ≠ 0)) (0 :: u)
  have hnoNul : (0 : UInt8) ∉ file.content.takeWhile (· ≠ 0) := (columnText file.content).noNul
  obtain ⟨w, hw⟩ : ∃ w, List.replicate z (0 : UInt8) ++ 0 :: u = 0 :: w := by
    cases z with
    | zero => exact ⟨u, rfl⟩
    | succ z => exact ⟨List.replicate z 0 ++ 0 :: u, rfl⟩
  refine ⟨w, ?_⟩
  unfold readPassphrase
  dsimp only
  rw [hread, List.take_length, memcpy_start hlen.le, ok_bind, h.reads, if_neg Bool.false_ne_true,
    if_neg (by omega), hd, store_length, ok_bind, hu, strlen_eq hnoNul, ok_bind, hz, ok_bind, hw]
  dsimp only
  rw [← taken]
  simp only [List.length_eq_zero_iff]

/-- **What is read**: the text of a file that fits, without the line ends at its end, if something is
left; otherwise the buffer is cleared. -/
theorem readKeyPassphraseFile_owner (h : OwnerOnly uid file) (out : Bytes)
    (hout : 2 ≤ out.length) :
    (file.content.length < out.length ∧ taken file.content ≠ [] ∧
      ∃ w, readKeyPassphraseFile uid (some file) out = .ok (.ok (), taken file.content ++ 0 :: w)) ∨
    ((out.length ≤ file.content.length ∨ taken file.content = []) ∧
      ∃ e, readKeyPassphraseFile uid (some file) out =
        .ok (.error e, List.replicate out.length 0)) := by
  have hlength : (List.replicate out.length (0 : UInt8)).length = out.length := List.length_replicate
  unfold readKeyPassphraseFile
  rw [if_neg (by omega), fopenOwnerOnlyRead_owner h]
  dsimp only
  rcases Nat.lt_or_ge file.content.length out.length with hfits | hlarge
  · obtain ⟨w, hw⟩ := readPassphrase_fits h (List.replicate out.length 0) (by omega)
    rw [hw, ok_bind]
    dsimp only
    rw [h.closes]
    by_cases hempty : taken file.content = []
    · refine .inr ⟨.inr hempty, .invalidArgument, ?_⟩
      rw [if_pos hempty]
      rfl
    · refine .inl ⟨hfits, hempty, w, ?_⟩
      rw [if_neg hempty]
      rfl
  · obtain ⟨b, hb⟩ := readPassphrase_large h (List.replicate out.length 0) (by omega)
      (by omega)
    refine .inr ⟨.inl hlarge, .inputTooLarge, ?_⟩
    rw [hb, ok_bind]
    dsimp only
    rw [h.closes]
    rfl

/-! ### The first line -/

/-- The bytes before the first LF. -/
def beforeNewline (content : Bytes) : Bytes := content.takeWhile (· ≠ 10)

/-- The first line: a CR at its end does not belong to it. -/
def firstLine (content : Bytes) : Bytes :=
  if (beforeNewline content).getLast? = some 13 then (beforeNewline content).dropLast
  else beforeNewline content

/-- After the first line, up to a NUL, there are only line ends; and the line has no NUL and does not
end in a second CR. -/
structure OnlyLine (content : Bytes) : Prop where
  noNul : 0 ∉ beforeNewline content
  noReturn : (firstLine content).getLast? ≠ some 13
  after : ∀ x ∈ (content.dropWhile (· ≠ 10)).takeWhile (· ≠ 0), isLineEnd x = true

theorem beforeNewline_cases (c : Bytes) :
    beforeNewline c = firstLine c ∨ beforeNewline c = firstLine c ++ [13] := by
  unfold firstLine
  split_ifs with h
  · exact .inr (List.dropLast_append_getLast? 13 h).symm
  · exact .inl rfl

theorem not_mem_firstLine (c : Bytes) : (10 : UInt8) ∉ firstLine c := by
  have hbefore : (10 : UInt8) ∉ beforeNewline c := by
    intro h
    simpa using List.mem_takeWhile_imp h
  rcases beforeNewline_cases c with h | h
  · rwa [← h]
  · exact fun hmem => hbefore (h ▸ List.mem_append_left _ hmem)

variable {c : Bytes}

/-- Without a NUL the text goes on after the first line. -/
theorem takeWhile_noNul (h : (0 : UInt8) ∉ beforeNewline c) :
    c.takeWhile (· ≠ 0) = beforeNewline c ++ (c.dropWhile (· ≠ 10)).takeWhile (· ≠ 0) := by
  conv_lhs => rw [← List.takeWhile_append_dropWhile (p := (· ≠ (10 : UInt8))) (l := c)]
  refine List.takeWhile_append_of_pos fun x hx => ?_
  exact decide_eq_true fun h0 => h (h0 ▸ hx)

/-- Line ends at the end go, whatever is before them. -/
theorem rdropWhile_append {s r : Bytes} :
    (s ++ r).rdropWhile isLineEnd =
      if r.rdropWhile isLineEnd = [] then s.rdropWhile isLineEnd
      else s ++ r.rdropWhile isLineEnd := by
  simp only [List.rdropWhile, List.reverse_append, List.dropWhile_append, List.reverse_eq_nil_iff,
    List.isEmpty_iff]
  split_ifs
  · rfl
  · rw [List.reverse_append, List.reverse_reverse]

theorem last_not_lineEnd {s : Bytes} {x : UInt8} (h : (s.rdropWhile isLineEnd).getLast? = some x) :
    isLineEnd x = false := by
  have hne : s.rdropWhile isLineEnd ≠ [] := fun hnil => by simp [hnil] at h
  rw [List.getLast?_eq_some_getLast hne] at h
  rw [← Option.some.inj h]
  exact Bool.eq_false_iff.mpr (List.rdropWhile_last_not _ _ hne)

/-- What is left after the first line starts with its LF. -/
theorem newline_mem (h : ((c.dropWhile (· ≠ 10)).takeWhile (· ≠ 0)).rdropWhile isLineEnd ≠ []) :
    10 ∈ ((c.dropWhile (· ≠ 10)).takeWhile (· ≠ 0)).rdropWhile isLineEnd := by
  have hpre := List.rdropWhile_prefix isLineEnd ((c.dropWhile (· ≠ 10)).takeWhile (· ≠ 0))
  obtain ⟨x, r, hx⟩ := List.exists_cons_of_ne_nil h
  rw [hx] at hpre ⊢
  cases hd : c.dropWhile (· ≠ 10) with
  | nil =>
    rw [hd] at hpre
    exact absurd (List.prefix_nil.mp hpre) (List.cons_ne_nil x r)
  | cons y d =>
    obtain rfl : y = 10 := by
      have hy := List.head?_dropWhile_not (· ≠ (10 : UInt8)) c
      rw [hd] at hy
      simpa using hy
    rw [hd, List.takeWhile_cons_of_pos (by decide)] at hpre
    rw [(List.cons_prefix_cons.mp hpre).1]
    exact List.mem_cons_self

/-- **The first line**: it is what is taken if and only if it is the only one. -/
theorem taken_eq_firstLine_iff : taken c = firstLine c ↔ OnlyLine c := by
  constructor
  · intro h
    have hsub : ∀ x ∈ firstLine c, x ≠ 0 := by
      intro x hx
      rw [← h] at hx
      simpa using List.mem_takeWhile_imp ((List.rdropWhile_prefix _ _).subset hx)
    have hnul : (0 : UInt8) ∉ beforeNewline c := by
      intro hmem
      rcases beforeNewline_cases c with hb | hb
      · exact hsub 0 (hb ▸ hmem) rfl
      · rw [hb, List.mem_append, List.mem_singleton] at hmem
        exact hsub 0 (hmem.resolve_right (by decide)) rfl
    refine ⟨hnul, fun hlast => ?_, ?_⟩
    · rw [← h] at hlast
      exact absurd (last_not_lineEnd hlast) (by decide)
    · by_contra hafter
      have hne : ((c.dropWhile (· ≠ 10)).takeWhile (· ≠ 0)).rdropWhile isLineEnd ≠ [] :=
        fun hnil => hafter (List.rdropWhile_eq_nil_iff.mp hnil)
      have htaken : taken c = beforeNewline c ++
          ((c.dropWhile (· ≠ 10)).takeWhile (· ≠ 0)).rdropWhile isLineEnd := by
        rw [taken, takeWhile_noNul hnul, rdropWhile_append, if_neg hne]
      have hmem : (10 : UInt8) ∈ firstLine c := by
        rw [← h, htaken]
        exact List.mem_append_right _ (newline_mem hne)
      exact not_mem_firstLine c hmem
  · intro h
    have hnil : ((c.dropWhile (· ≠ 10)).takeWhile (· ≠ 0)).rdropWhile isLineEnd = [] :=
      List.rdropWhile_eq_nil_iff.mpr h.after
    have hline : (firstLine c).rdropWhile isLineEnd = firstLine c := by
      refine List.rdropWhile_eq_self_iff.mpr fun hne hlast => ?_
      rcases Bool.or_eq_true _ _ ▸ hlast with h10 | h13
      · exact not_mem_firstLine c (eq_of_beq h10 ▸ List.getLast_mem hne)
      · exact h.noReturn (eq_of_beq h13 ▸ List.getLast?_eq_some_getLast hne)
    rw [taken, takeWhile_noNul h.noNul, rdropWhile_append, if_pos hnil]
    rcases beforeNewline_cases c with hb | hb
    · rw [hb, hline]
    · rw [hb, List.rdropWhile_concat_pos _ _ _ (by decide), hline]

/-! ### The law -/

/-- What the usage text promises: the first line, as the string in the buffer; without one, an error
and a cleared buffer. -/
def Law (uid : ℕ) (file : Found) (out : Bytes) : Prop :=
  (firstLine file.content ≠ [] → (firstLine file.content).length < out.length →
    ∃ (s : CString) (w : Bytes), s.bytes = firstLine file.content ∧
      readKeyPassphraseFile uid (some file) out = .ok (.ok (), s.bytes ++ 0 :: w)) ∧
  (firstLine file.content = [] → ∃ e,
    readKeyPassphraseFile uid (some file) out = .ok (.error e, List.replicate out.length 0))

/-- The whole file fits and has only this line; without one, it does not fit or has only line ends. -/
def Fits (content : Bytes) (n : ℕ) : Prop :=
  (firstLine content ≠ [] → (firstLine content).length < n → content.length < n ∧ OnlyLine content) ∧
  (firstLine content = [] →
    n ≤ content.length ∨ ∀ x ∈ content.takeWhile (· ≠ 0), isLineEnd x = true)

theorem taken_noNul (c : Bytes) : (0 : UInt8) ∉ taken c := fun h =>
  (columnText c).noNul ((List.rdropWhile_prefix _ _).subset h)

/-- A buffer holds one string. -/
theorem string_unique {s t w w' : Bytes} (hs : (0 : UInt8) ∉ s) (ht : (0 : UInt8) ∉ t)
    (h : s ++ 0 :: w = t ++ 0 :: w') : s = t := by
  have hcut {s w : Bytes} (hs : (0 : UInt8) ∉ s) : (s ++ 0 :: w).takeWhile (· ≠ 0) = s := by
    refine (List.takeWhile_append_of_pos fun x hx => ?_).trans (by simp)
    exact decide_eq_true fun h0 => hs (h0 ▸ hx)
  rw [← hcut (w := w) hs, h, hcut ht]

/-- **The first line of the file**: for every file of its owner and every buffer, the law holds if and
only if the file is not longer than this line, up to line ends. -/
theorem first_line_iff (uid : ℕ) (file : Found) (out : Bytes) (h : OwnerOnly uid file)
    (hout : 2 ≤ out.length) : Law uid file out ↔ Fits file.content out.length := by
  have htaken : taken file.content = [] ↔
      ∀ x ∈ file.content.takeWhile (· ≠ 0), isLineEnd x = true := List.rdropWhile_eq_nil_iff
  rcases readKeyPassphraseFile_owner h out hout with
    ⟨hfits, hne, w, hrun⟩ | ⟨hbad, e, hrun⟩
  · unfold Law Fits
    rw [hrun]
    refine and_congr ?_ ?_
    · refine forall_congr' fun hline => forall_congr' fun hsize => ?_
      constructor
      · rintro ⟨s, w', hs, heq⟩
        obtain hbuf := congrArg Prod.snd (Except.ok.inj heq)
        have hsame := string_unique (taken_noNul _) s.noNul hbuf
        exact ⟨hfits, taken_eq_firstLine_iff.mp (hsame.trans hs)⟩
      · rintro ⟨-, honly⟩
        exact ⟨⟨taken file.content, taken_noNul _⟩, w, taken_eq_firstLine_iff.mpr honly, rfl⟩
    · refine forall_congr' fun hline => ?_
      rw [← htaken]
      constructor
      · rintro ⟨e, he⟩
        cases he
      · rintro (hlarge | hnil)
        · exact absurd hlarge (by omega)
        · exact absurd hnil hne
  · unfold Law Fits
    rw [hrun]
    refine and_congr ?_ ?_
    · refine forall_congr' fun hline => forall_congr' fun hsize => ?_
      constructor
      · rintro ⟨s, w', hs, heq⟩
        cases heq
      · rintro ⟨hfits, honly⟩
        rcases hbad with hlarge | hnil
        · exact absurd hlarge (by omega)
        · exact absurd ((taken_eq_firstLine_iff.mpr honly).symm.trans hnil) hline
    · refine forall_congr' fun hline => ⟨fun _ => ?_, fun _ => ⟨e, rfl⟩⟩
      rw [← htaken]
      exact hbad

/-- A file of the user 0 with the mode 600. -/
def ownFile (content : Bytes) : Found := ⟨true, 0, 0o600, content, false, false⟩

/-- One line, with CR and LF. -/
theorem first_line_iff_crlf :
    Law 0 (ownFile (ascii "pass
")) (List.replicate 8 7) :=
  (first_line_iff 0 (ownFile (ascii "pass
")) (List.replicate 8 7) ⟨rfl, rfl, rfl, rfl, rfl⟩
    (by decide)).mpr ⟨fun _ _ => ⟨by decide, ⟨by decide, by decide, by decide +kernel⟩⟩,
      fun h => absurd h (by decide)⟩

/-- **Counterexample**: of two lines both are returned. -/
theorem second_line_stays : ¬ ∀ (uid : ℕ) (file : Found) (out : Bytes), OwnerOnly uid file →
    2 ≤ out.length → Law uid file out := by
  intro h
  obtain ⟨s, w, hs, hrun⟩ := (h 0 (ownFile (ascii "pass
second
")) (List.replicate 16 0)
    ⟨rfl, rfl, rfl, rfl, rfl⟩ (by decide)).1 (by decide) (by decide)
  have hboth : readKeyPassphraseFile 0 (some (ownFile (ascii "pass
second
")))
      (List.replicate 16 0) = .ok (.ok (), ascii "pass
second" ++ [0, 0, 0, 0, 0]) := by decide
  have hbuf := congrArg Prod.snd (Except.ok.inj (hboth.symm.trans hrun))
  have hsame := string_unique (by decide) s.noNul hbuf
  exact absurd (hsame.trans hs) (by decide)

end Fuin.Cli.Passphrases

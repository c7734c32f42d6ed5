import Fuin.Utils
import Fuin.Lib.Strings
import Fuin.Lib.Utf8

/-! # Names in a listing

`cli_format_list_name` replaces the control characters of a name and cuts it to the width of its
column; the strings are walked byte by byte, and the output is a buffer of its own length. The code
scans a text of any bytes (`scan_inside`); if it is UTF-8, it stops where the longest part that fits
ends (`scan_fitting`). -/

namespace Fuin.Cli.Display

open Fuin.Utils Fuin.Lib.Buffer Fuin.Lib.Strings Fuin.Lib.Utf8

/-- A check over strings with the codes of the program. -/
abbrev Reads (α : Type) := Checked Status α

/-- What `cli_sanitize_display_text` writes for a byte. -/
def displayByte (c : UInt8) : UInt8 := if c < 0x20 ∨ c = 0x7F then 63 else c

/-- The loop of `cli_sanitize_display_text`. -/
def sanitizeFrom : Bytes → Bytes → ℕ → Reads Bytes
  | [], _, _ => .error .outOfBounds
  | c :: input, output, out =>
    if c ≠ 0 ∧ out + 1 < output.length then do
      let output ← store output out (displayByte c)
      sanitizeFrom input output (out + 1)
    else do
      let output ← store output out 0
      check (c = 0) .inputTooLarge
      return output

/-- `cli_sanitize_display_text`; the output is the buffer. -/
def sanitizeDisplayText (input output : Bytes) : Reads Bytes := do
  check (output ≠ []) .invalidArgument
  sanitizeFrom input output 0

/-- `char_len`. -/
def charLen (c : UInt8) : ℕ :=
  if c < 0x80 then 1
  else if c &&& 0xE0 = 0xC0 then 2
  else if c &&& 0xF0 = 0xE0 then 3
  else if c &&& 0xF8 = 0xF0 then 4
  else 1

/-- The inner loop of `cli_utf8_prefix_len`, which looks at the bytes `i`, `i + 1`, … of a character
that starts at `offset`; it is false if the function returns there. -/
def trailing (text : Bytes) (maxBytes offset : ℕ) : ℕ → ℕ → Reads Bool
  | _, 0 => .ok true
  | i, left + 1 =>
    if maxBytes ≤ offset + i then .ok false
    else do
      let cc ← byteAt text (offset + i)
      if cc = 0 ∨ cc &&& 0xC0 ≠ 0x80 then .ok false
      else trailing text maxBytes offset (i + 1) left

theorem charLen_pos (c : UInt8) : 0 < charLen c := by
  unfold charLen
  split_ifs <;> decide

/-- The loop of `cli_utf8_prefix_len`. -/
def utf8PrefixFrom (text : Bytes) (maxBytes offset : ℕ) : Reads ℕ := do
  let c ← byteAt text offset
  if _hmore : c ≠ 0 ∧ offset < maxBytes then do
    if ← trailing text maxBytes offset 1 (charLen c - 1) then
      if maxBytes < offset + charLen c then .ok offset
      else utf8PrefixFrom text maxBytes (offset + charLen c)
    else .ok offset
  else .ok offset
termination_by maxBytes - offset
decreasing_by
  have hpos := charLen_pos c
  omega

/-- `cli_utf8_prefix_len`. -/
def utf8PrefixLen (text : Bytes) (maxBytes : ℕ) : Reads ℕ := utf8PrefixFrom text maxBytes 0

/-- A call whose errors are all answered with `e`. -/
def answering {α : Type} (e : Status) : Reads α → Reads α
  | .error (.fail _) => .error (.fail e)
  | x => x

/-- `CLI_LIST_NAME_WIDTH`. -/
def listNameWidth : ℕ := 28

/-- `CLI_LIST_NAME_ELLIPSIS`. -/
def ellipsis : Bytes := [46, 46, 46]

/-- `CLI_DISPLAY_NAME_MAX`. -/
def displayNameMax : ℕ := 512

/-- `cli_format_list_name`; the output is the buffer. -/
def formatListName (name output : Bytes) : Reads Bytes := do
  check (listNameWidth + 1 ≤ output.length) .invalidArgument
  let safeName ← answering .storage (sanitizeDisplayText name (List.replicate displayNameMax 0))
  let nameLen ← strlen safeName
  if nameLen ≤ listNameWidth then do
    -- `snprintf` writes what fits, and a NUL
    let text ← slice safeName 0 nameLen
    let output' ← memcpy output 0 (text.take (output.length - 1) ++ [0])
    check (nameLen < output.length) .storage
    return output'
  else do
    let clean ← utf8PrefixLen safeName (listNameWidth - ellipsis.length)
    let prefixLen := if clean = 0 then listNameWidth - ellipsis.length else clean
    let head ← slice safeName 0 prefixLen
    let output ← memcpy output 0 head
    memcpy output prefixLen (ellipsis ++ [0])

/-! ### Bytes -/

/-- A fact about bytes is checked on the numbers below 256. -/
theorem forall_byte {P : UInt8 → Prop} (h : ∀ n < 256, P (UInt8.ofNat n)) (c : UInt8) : P c := by
  have hc := h c.toNat c.toNat_lt
  rwa [UInt8.ofNat_toNat] at hc

/-- What is written is neither a control character nor a NUL. -/
theorem displayByte_clean (c : UInt8) : 0x20 ≤ displayByte c ∧ displayByte c ≠ 0x7F :=
  forall_byte (P := fun c => 0x20 ≤ displayByte c ∧ displayByte c ≠ 0x7F) (by decide +kernel) c

theorem trails_mask {c : UInt8} (h : Trails c) : ¬ (c = 0 ∨ c &&& 0xC0 ≠ 0x80) := by
  have hall := forall_byte (P := fun c => 0x80 ≤ c ∧ c < 0xC0 → ¬ (c = 0 ∨ c &&& 0xC0 ≠ 0x80))
    (by decide +kernel) c
  exact hall h

theorem leads_charLen {c : UInt8} : ∀ {n : ℕ}, Leads c n → charLen c = n
  | 1, h => if_pos h
  | 2, h => forall_byte (P := fun c => 0xC0 ≤ c ∧ c < 0xE0 → charLen c = 2) (by decide +kernel) c h
  | 3, h => forall_byte (P := fun c => 0xE0 ≤ c ∧ c < 0xF0 → charLen c = 3) (by decide +kernel) c h
  | 4, h => forall_byte (P := fun c => 0xF0 ≤ c ∧ c < 0xF8 → charLen c = 4) (by decide +kernel) c h

/-! ### The copy without control characters -/

/-- **Sanitising**: a text that fits is copied, byte by byte, up to its NUL. -/
theorem sanitizeFrom_eq {s t : Bytes} (h : (0 : UInt8) ∉ s) :
    ∀ pre rest : Bytes, s.length < rest.length →
      sanitizeFrom (s ++ 0 :: t) (pre ++ rest) pre.length =
        .ok (pre ++ s.map displayByte ++ 0 :: rest.drop (s.length + 1)) := by
  induction s with
  | nil =>
    intro pre rest hlen
    cases rest with
    | nil => exact absurd hlen (Nat.lt_irrefl 0)
    | cons d rest =>
      rw [List.nil_append, sanitizeFrom, if_neg (fun h => h.1 rfl), store_length]
      simp [ok_bind, check]
  | cons c s ih =>
    intro pre rest hlen
    obtain ⟨hc, hs⟩ := List.ne_and_not_mem_of_not_mem_cons h
    cases rest with
    | nil => exact absurd hlen (Nat.not_lt_zero _)
    | cons d rest =>
      simp only [List.length_cons] at hlen
      have hroom : c ≠ 0 ∧ pre.length + 1 < (pre ++ d :: rest).length := by
        refine ⟨Ne.symm hc, ?_⟩
        rw [List.length_append, List.length_cons]
        omega
      have hnext := ih hs (pre ++ [displayByte c]) rest (by omega)
      rw [List.length_append, List.length_singleton, List.append_assoc, List.singleton_append] at hnext
      rw [List.cons_append, sanitizeFrom, if_pos hroom, store_length, ok_bind, hnext]
      simp

theorem sanitizeDisplayText_eq {s t output : Bytes} (h : (0 : UInt8) ∉ s)
    (hlen : s.length < output.length) :
    sanitizeDisplayText (s ++ 0 :: t) output =
      .ok (s.map displayByte ++ 0 :: output.drop (s.length + 1)) := by
  have hne : output ≠ [] := List.ne_nil_of_length_pos (by omega)
  unfold sanitizeDisplayText
  rw [check_pos hne, ok_bind]
  exact sanitizeFrom_eq h [] output hlen

/-! ### Where a text is cut -/

variable {s t : Bytes} {m offset : ℕ}

/-- The bytes of a character are read up to the NUL at most. -/
theorem trailing_inside (left : ℕ) : ∀ {i : ℕ}, offset + i ≤ s.length →
    ∃ b, trailing (s ++ 0 :: t) m offset i left = .ok b ∧
      (b = true → offset + i + left ≤ s.length) := by
  induction left with
  | zero => exact fun h => ⟨true, rfl, fun _ => h⟩
  | succ left ih =>
    intro i h
    rw [trailing]
    by_cases hmax : m ≤ offset + i
    · exact ⟨false, if_pos hmax, nofun⟩
    · rw [if_neg hmax]
      rcases h.lt_or_eq with hlt | heq
      · rw [byteAt_of_lt hlt, ok_bind]
        by_cases hcc : s[offset + i] = 0 ∨ s[offset + i] &&& 0xC0 ≠ 0x80
        · exact ⟨false, if_pos hcc, nofun⟩
        · obtain ⟨b, hb, hle⟩ := ih (i := i + 1) (by omega)
          refine ⟨b, (if_neg hcc).trans hb, fun h => ?_⟩
          have := hle h
          omega
      · rw [heq, byteAt_length, ok_bind]
        exact ⟨false, if_pos (.inl rfl), nofun⟩

/-- **Any bytes**: the scan stays inside, and stops within the bound and the text. -/
theorem scan_inside {offset : ℕ} (hs : offset ≤ s.length) (hmax : offset ≤ m) :
    ∃ n, utf8PrefixFrom (s ++ 0 :: t) m offset = .ok n ∧ n ≤ s.length ∧ n ≤ m := by
  rw [utf8PrefixFrom]
  rcases hs.lt_or_eq with hlt | heq
  · rw [byteAt_of_lt hlt, ok_bind]
    by_cases hmore : s[offset] ≠ 0 ∧ offset < m
    · rw [dif_pos hmore]
      have hpos := charLen_pos s[offset]
      obtain ⟨b, hb, hle⟩ := trailing_inside (t := t) (charLen s[offset] - 1)
        (show offset + 1 ≤ s.length by omega)
      rw [hb, ok_bind]
      cases b with
      | false => exact ⟨offset, rfl, hs, hmax⟩
      | true =>
        by_cases hfit : m < offset + charLen s[offset]
        · exact ⟨offset, by simp [hfit], hs, hmax⟩
        · have hnext := hle rfl
          obtain ⟨n, hn, hbounds⟩ := scan_inside
            (show offset + charLen s[offset] ≤ s.length by omega) (Nat.le_of_not_lt hfit)
          exact ⟨n, by simp [hfit, hn], hbounds⟩
    · exact ⟨offset, dif_neg hmore, hs, hmax⟩
  · rw [heq, byteAt_length, ok_bind, dif_neg (fun h => h.1 rfl)]
    exact ⟨s.length, rfl, le_rfl, heq ▸ hmax⟩
termination_by m - offset

/-- The bytes after the first one of a character are read if they are within the bound. -/
theorem trailing_char {r tail : Bytes} : ∀ {u : Bytes} {i : ℕ}, u.length = offset + i →
    (∀ x ∈ tail, Trails x) →
    trailing (u ++ tail ++ r) m offset i tail.length =
      .ok (decide (tail = [] ∨ offset + i + tail.length ≤ m)) := by
  induction tail with
  | nil =>
    intro u i _ _
    rfl
  | cons x tail ih =>
    intro u i hu h
    rw [List.length_cons, trailing]
    by_cases hmax : m ≤ offset + i
    · rw [if_pos hmax, decide_eq_false (by simp; omega)]
    · have hnext := ih (u := u ++ [x]) (i := i + 1) (by rw [List.length_append, hu]; rfl)
        fun y hy => h y (List.mem_cons_of_mem x hy)
      rw [List.append_assoc u, List.singleton_append] at hnext
      rw [if_neg hmax, List.append_assoc, List.cons_append, ← hu, byteAt_length, ok_bind,
        if_neg (trails_mask (h x (by simp))), ← List.cons_append, ← List.append_assoc, hnext, hu]
      congr 1
      rw [decide_eq_decide]
      cases tail with
      | nil => simp; omega
      | cons y tail => simp; omega

/-- **UTF-8**: the scan stops where the longest part that fits ends. -/
theorem scan_fitting {cs : List Char} : ∀ {u : Bytes}, (0 : UInt8) ∉ encode cs →
    utf8PrefixFrom (u ++ encode cs ++ 0 :: t) m u.length =
      .ok (u.length + (encode (fitting (m - u.length) cs)).length) := by
  induction cs with
  | nil =>
    intro u _
    rw [utf8PrefixFrom, encode_nil, List.append_nil, byteAt_length, ok_bind,
      dif_neg (fun h => h.1 rfl)]
    rfl
  | cons c cs ih =>
    intro u h0
    obtain ⟨b, tail, hparts, hlead, htrails⟩ := encodeChar_parts c
    rw [encode_cons, hparts, List.cons_append, List.mem_cons, not_or, List.mem_append, not_or] at h0
    obtain ⟨hb, -, hcs⟩ := h0
    have hlen := leads_charLen hlead
    have htext : u ++ encode (c :: cs) ++ 0 :: t = u ++ b :: (tail ++ (encode cs ++ 0 :: t)) := by
      rw [encode_cons, hparts]
      simp
    have htail := trailing_char (u := u ++ [b]) (r := encode cs ++ 0 :: t) (m := m)
      (show (u ++ [b]).length = u.length + 1 from List.length_append) htrails
    have hnext := ih (u := u ++ b :: tail) hcs
    rw [htext, utf8PrefixFrom, byteAt_length, ok_bind, fitting, hparts]
    have hassoc : u ++ b :: (tail ++ (encode cs ++ 0 :: t)) =
        u ++ [b] ++ tail ++ (encode cs ++ 0 :: t) := by simp
    by_cases hmore : b ≠ 0 ∧ u.length < m
    · rw [dif_pos hmore, hassoc, hlen, Nat.add_sub_cancel, htail, ok_bind, ← hassoc]
      by_cases hfit : u.length + (tail.length + 1) ≤ m
      · have hyes : decide (tail = [] ∨ u.length + 1 + tail.length ≤ m) = true :=
          decide_eq_true (.inr (by omega))
        have hshort : (b :: tail).length ≤ m - u.length := by
          rw [List.length_cons]
          omega
        have hpast : u.length + (tail.length + 1) = (u ++ b :: tail).length := by simp
        have hagain : u ++ b :: (tail ++ (encode cs ++ 0 :: t)) =
            u ++ b :: tail ++ encode cs ++ 0 :: t := by simp
        rw [hyes, if_pos rfl, if_neg (by omega), if_pos hshort, encode_cons, hparts, hpast, hagain,
          hnext, List.length_append, List.length_append, Nat.sub_sub, Nat.add_assoc]
      · have hlong : ¬ (b :: tail).length ≤ m - u.length := by
          rw [List.length_cons]
          omega
        rw [if_neg hlong, if_pos (show m < u.length + (tail.length + 1) by omega), ite_self]
        rfl
    · have hfull : ¬ (b :: tail).length ≤ m - u.length := by
        rw [List.length_cons]
        have hmax : ¬ u.length < m := fun h => hmore ⟨Ne.symm hb, h⟩
        omega
      rw [dif_neg hmore, if_neg hfull]
      rfl

/-! ### The name that is shown -/

/-- A character without control characters. -/
def displayChar (c : Char) : Char := if c.toNat < 0x20 ∨ c.toNat = 0x7F then '?' else c

theorem displayByte_ofNat : ∀ n < 128, displayByte (UInt8.ofNat n) =
    if n < 0x20 ∨ n = 0x7F then 63 else UInt8.ofNat n := by
  decide +kernel

/-- Only characters of one byte are replaced. -/
theorem displayByte_high {c : UInt8} (h : 0x80 ≤ c) : displayByte c = c :=
  forall_byte (P := fun c => 0x80 ≤ c → displayByte c = c) (by decide +kernel) c h

theorem leads_high {c : UInt8} : ∀ {n : ℕ}, Leads c (n + 2) → 0x80 ≤ c
  | 0, h => UInt8.le_trans (by decide) h.1
  | 1, h => UInt8.le_trans (by decide) h.1
  | 2, h => UInt8.le_trans (by decide) h.1

theorem displayByte_char (c : Char) :
    (String.utf8EncodeChar c).map displayByte = String.utf8EncodeChar (displayChar c) := by
  unfold displayChar
  by_cases hascii : c.toNat < 0x80
  · rw [encodeChar_ascii hascii, List.map_singleton, displayByte_ofNat _ hascii]
    split_ifs
    · rfl
    · exact (encodeChar_ascii hascii).symm
  · obtain ⟨b, tail, hparts, hne, hlead, htrails⟩ := encodeChar_long (Nat.le_of_not_lt hascii)
    obtain ⟨x, tail, rfl⟩ := List.exists_cons_of_ne_nil hne
    rw [if_neg (by omega), hparts, List.map_cons, displayByte_high (leads_high hlead)]
    have htail : (x :: tail).map displayByte = (x :: tail).map id :=
      List.map_congr_left fun y hy => displayByte_high (htrails y hy).1
    rw [htail, List.map_id]

/-- Sanitising keeps the characters apart. -/
theorem map_displayByte (cs : List Char) :
    (encode cs).map displayByte = encode (cs.map displayChar) := by
  induction cs with
  | nil => rfl
  | cons c cs ih => rw [encode_cons, List.map_append, ih, displayByte_char, List.map_cons, encode_cons]

theorem map_displayByte_noNul (s : Bytes) : (0 : UInt8) ∉ s.map displayByte := by
  intro h
  obtain ⟨c, -, hc⟩ := List.mem_map.mp h
  have hclean := (displayByte_clean c).1
  rw [hc] at hclean
  exact absurd hclean (by decide)

/-- What the name is before it is cut. -/
theorem sanitised_name {name : Bytes} (h : (0 : UInt8) ∉ name)
    (hlen : name.length ≤ 256) :
    sanitizeDisplayText (name ++ [0]) (List.replicate displayNameMax 0) =
      .ok (name.map displayByte ++ 0 :: List.replicate (511 - name.length) 0) := by
  rw [sanitizeDisplayText_eq h (by rw [List.length_replicate, displayNameMax]; omega),
    List.drop_replicate]
  congr 4
  rw [displayNameMax]
  omega

theorem slice_take {r : Bytes} {n : ℕ} (h : n ≤ s.length) :
    (slice (s ++ r) 0 n : Reads Bytes) = .ok (s.take n) := by
  unfold slice
  rw [if_pos (by rw [List.length_append]; omega), List.drop_zero, List.take_append_of_le_length h]

/-- A short name is shown as it is. -/
theorem formatListName_short {name output : Bytes} (h : (0 : UInt8) ∉ name)
    (hlen : name.length ≤ 28) (hout : 29 ≤ output.length) :
    formatListName (name ++ [0]) output =
      .ok (name.map displayByte ++ 0 :: output.drop (name.length + 1)) := by
  have hmap : (name.map displayByte).length = name.length := List.length_map _
  have hshort : name.length < output.length := by omega
  have hfits : (name.map displayByte).take (output.length - 1) = name.map displayByte :=
    List.take_of_length_le (by omega)
  have htext : (name.map displayByte).take name.length = name.map displayByte :=
    List.take_of_length_le (by omega)
  unfold formatListName
  rw [check_pos (show listNameWidth + 1 ≤ output.length from hout), ok_bind,
    sanitised_name h (by omega)]
  show (strlen _ >>= _) = _
  rw [strlen_eq (map_displayByte_noNul name), ok_bind, hmap,
    if_pos (show name.length ≤ listNameWidth from hlen), slice_take hmap.ge, ok_bind, htext, hfits,
    memcpy_start (by rw [List.length_append, hmap]; exact hshort), ok_bind, check_pos hshort]
  simp only [List.length_append, hmap, List.length_singleton, List.append_assoc,
    List.singleton_append]
  rfl

/-- Where a long name is cut. -/
def cut (clean : ℕ) : ℕ := if clean = 0 then 25 else clean

/-- A long name is cut, and dots follow. -/
theorem formatListName_long {name output : Bytes} {clean : ℕ} (h : (0 : UInt8) ∉ name)
    (hlong : 28 < name.length) (hlen : name.length ≤ 256) (hout : 29 ≤ output.length)
    (hscan : utf8PrefixLen (name.map displayByte ++ 0 :: List.replicate (511 - name.length) 0) 25 =
      .ok clean) (hclean : clean ≤ 25) :
    formatListName (name ++ [0]) output =
      .ok ((name.map displayByte).take (cut clean) ++ ellipsis ++ 0 ::
        output.drop (cut clean + 4)) := by
  have hmap : (name.map displayByte).length = name.length := List.length_map _
  have hcut : cut clean ≤ 25 := by
    unfold cut
    split_ifs
    · exact le_rfl
    · exact hclean
  have htake : ((name.map displayByte).take (cut clean)).length = cut clean := by
    rw [List.length_take]
    omega
  have hdots := memcpy_length (ε := Status) (s := (name.map displayByte).take (cut clean))
    (t := output.drop (cut clean)) (r := ellipsis ++ [0])
    (by rw [List.length_drop]; show 4 ≤ _; omega)
  unfold formatListName
  rw [check_pos (show listNameWidth + 1 ≤ output.length from hout), ok_bind, sanitised_name h hlen]
  show (strlen _ >>= _) = _
  rw [strlen_eq (map_displayByte_noNul name), ok_bind, hmap,
    if_neg (show ¬ name.length ≤ listNameWidth from Nat.not_le.mpr hlong)]
  show (utf8PrefixLen _ 25 >>= _) = _
  rw [hscan, ok_bind]
  show (slice _ 0 (cut clean) >>= _) = _
  rw [slice_take (by omega), ok_bind, memcpy_start (by omega), ok_bind, htake]
  show memcpy _ (cut clean) _ = _
  rw [htake] at hdots
  rw [hdots, List.drop_drop]
  simp [ellipsis]

theorem encode_dots : encode ['.', '.', '.'] = ellipsis := by decide

/-- **Names in a listing**: every name is shown, in at most 28 bytes and without control characters. A
name of at most 28 bytes is shown as it is, but for `?`s; of a longer one a part of at most 25 bytes is
shown, with dots, and if the name is UTF-8 this is the longest part of whole characters, so that what
is shown is UTF-8 too. -/
theorem list_name (name : CString) (output : Bytes) (hlen : name.bytes.length ≤ 256)
    (hout : 29 ≤ output.length) :
    ∃ shown, formatListName (name.bytes ++ [0]) output =
        .ok (shown ++ 0 :: output.drop (shown.length + 1)) ∧
      shown.length ≤ 28 ∧ (∀ c ∈ shown, 0x20 ≤ c ∧ c ≠ 0x7F) ∧
      (name.bytes.length ≤ 28 → shown = name.bytes.map displayByte) ∧
      (28 < name.bytes.length → ∃ p, p <+: name.bytes.map displayByte ∧ p.length ≤ 25 ∧
        shown = p ++ ellipsis ∧
        ∀ cs, name.bytes = encode cs → ∃ front, front <+: cs.map displayChar ∧
          p = encode front ∧ shown = encode (front ++ ['.', '.', '.']) ∧
          ∀ q, q <+: cs.map displayChar → (encode q).length ≤ 25 → q <+: front) := by
  obtain ⟨name, h⟩ := name
  dsimp only at hlen ⊢
  have hmap : (name.map displayByte).length = name.length := List.length_map _
  have hclean : ∀ c ∈ name.map displayByte, 0x20 ≤ c ∧ c ≠ 0x7F := by
    intro c hc
    obtain ⟨x, -, rfl⟩ := List.mem_map.mp hc
    exact displayByte_clean x
  rcases Nat.lt_or_ge 28 name.length with hlong | hshort
  · obtain ⟨clean, hscan, -, hmax⟩ := scan_inside (s := name.map displayByte)
      (t := List.replicate (511 - name.length) 0) (m := 25) (Nat.zero_le _) (Nat.zero_le _)
    have hcut : cut clean ≤ 25 := by
      unfold cut
      split_ifs
      · exact le_rfl
      · exact hmax
    have htake : ((name.map displayByte).take (cut clean)).length = cut clean := by
      rw [List.length_take]
      omega
    refine ⟨(name.map displayByte).take (cut clean) ++ ellipsis, ?_, ?_, ?_, fun h => by omega,
      fun _ => ⟨_, List.take_prefix _ _, htake.le.trans hcut, rfl, fun cs hcs => ?_⟩⟩
    · rw [formatListName_long h hlong hlen hout hscan hmax, List.length_append, htake]
      rfl
    · rw [List.length_append, htake]
      show _ + 3 ≤ 28
      omega
    · intro c hc
      rcases List.mem_append.mp hc with hc | hc
      · exact hclean c (List.mem_of_mem_take hc)
      · exact (show ∀ c ∈ ellipsis, 0x20 ≤ c ∧ c ≠ 0x7F by decide +kernel) c hc
    · have hshown := hcs ▸ map_displayByte cs
      rw [hshown] at hmap hscan ⊢
      have hne : cs.map displayChar ≠ [] := by
        intro hnil
        rw [hnil] at hmap
        exact absurd hmap (by rw [encode_nil, List.length_nil]; omega)
      have h0 : (0 : UInt8) ∉ encode (cs.map displayChar) := hshown ▸ map_displayByte_noNul name
      have hstop : clean = (encode (fitting 25 (cs.map displayChar))).length := by
        have hscan' := scan_fitting (u := []) (t := List.replicate (511 - name.length) 0)
          (m := 25) h0
        rw [List.nil_append, List.length_nil, Nat.sub_zero, Nat.zero_add] at hscan'
        exact Except.ok.inj (hscan.symm.trans hscan')
      have hfront : (encode (cs.map displayChar)).take (cut clean) =
          encode (fitting 25 (cs.map displayChar)) := by
        have hpos := List.length_pos_iff.mpr (fitting_ne_nil (n := 25) (by decide) hne)
        unfold cut
        rw [if_neg (by omega), hstop]
        exact (List.prefix_iff_eq_take.mp (encode_front (fitting_isPrefix _ _))).symm
      refine ⟨fitting 25 (cs.map displayChar), fitting_isPrefix _ _, hfront, ?_,
        fun q hq hsize => prefix_fitting hq hsize⟩
      rw [hfront, encode_append, encode_dots]
  · refine ⟨name.map displayByte, ?_, by omega, hclean, fun _ => rfl, fun h => by omega⟩
    rw [formatListName_short h hshort hout, hmap]

/-- Fifteen characters of two bytes: twelve of them fit before the dots. -/
theorem list_name_fifteen :
    formatListName (encode (List.replicate 15 'é') ++ [0]) (List.replicate 29 0) =
      .ok (encode (List.replicate 12 'é') ++ ellipsis ++ [0, 0]) := by
  obtain ⟨shown, hrun, -, -, -, hlong⟩ := list_name ⟨encode (List.replicate 15 'é'), by decide⟩
    (List.replicate 29 0) (by decide) (by decide)
  obtain ⟨p, -, hp, rfl, hutf8⟩ := hlong (by decide)
  obtain ⟨front, hfront, rfl, -, hmax⟩ := hutf8 _ rfl
  have htwelve : List.replicate 12 'é' <+: front := hmax _ (by decide) (by decide)
  have hall : (List.replicate 15 'é').map displayChar = List.replicate 15 'é' := by decide
  have hfifteen : ∀ k ≤ 15, 12 ≤ k → (encode ((List.replicate 15 'é').take k)).length ≤ 25 →
      k = 12 := by decide
  rw [hall] at hfront
  rw [List.prefix_iff_eq_take.mp hfront] at hp
  have hcount := hfifteen front.length hfront.length_le htwelve.length_le hp
  obtain rfl : List.replicate 12 'é' = front := htwelve.eq_of_length hcount.symm
  exact hrun

end Fuin.Cli.Display

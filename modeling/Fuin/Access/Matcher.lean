import Fuin.Access.Scope
import Fuin.Lib.Strings

/-! # The language of scopes

`access_scope_allows` as it walks over its two strings: the patterns of the token are slices without
an end of their own, compared with a string that has one. It reads nothing past the NUL of either,
returns what `scopeAllows` says of the texts (`accessScopeAllows_eq`), and this is the language
`Grants` of the patterns between the commas (`scope_language`). -/

namespace Fuin.Access.Matcher

open Fuin.Utils Fuin.Access.Scope Fuin.Lib.Buffer Fuin.Lib.Strings

/-- A check over strings: it has no errors of its own. -/
abbrev Reads (α : Type) := Checked Empty α

/-- `access_resource_matches`. -/
def accessResourceMatches (allowed : Bytes) (allowedLen : ℕ) (required : Bytes) : Reads Bool := do
  if ← both (allowedLen = 1) ((byteAt allowed 0).map (· == star)) then .ok true
  else do
    let requiredLen ← strlen required
    if ← both (0 < allowedLen) ((byteAt allowed (allowedLen - 1)).map (· == star)) then do
      let prefixLen := allowedLen - 1
      if (← strncmp allowed required prefixLen) ≠ .eq then .ok false
      else do
        if ← both (0 < prefixLen) ((byteAt allowed (prefixLen - 1)).map (· != slash)) then
          (byteAt required prefixLen).map fun next => next == 0 || next == slash
        else .ok true
    else
      both (allowedLen = requiredLen) ((strncmp allowed required requiredLen).map (· == .eq))

/-- `access_one_scope_allows`. -/
def accessOneScopeAllows (tokenScope : Bytes) (tokenScopeLen : ℕ) (requiredScope : Bytes) :
    Reads Bool := do
  if tokenScopeLen = 0 then .ok false
  else do
    if ← both (tokenScopeLen = 1) ((byteAt tokenScope 0).map (· == star)) then .ok true
    else do
      let tokenColon ← memchr colon tokenScope tokenScopeLen
      let requiredColon ← strchr colon requiredScope
      match tokenColon, requiredColon with
      | some tokenActionLen, some requiredActionLen =>
        if tokenActionLen = 0 ∨ requiredActionLen = 0 then .ok false
        else do
          let anyAction ← both (tokenActionLen = 1) ((byteAt tokenScope 0).map (· == star))
          if ← either anyAction (both (tokenActionLen = requiredActionLen)
              ((strncmp tokenScope requiredScope requiredActionLen).map (· == .eq))) then do
            let tokenResource ← advance tokenScope (tokenActionLen + 1)
            let requiredResource ← advance requiredScope (requiredActionLen + 1)
            let tokenResourceLen := tokenScopeLen - tokenActionLen - 1
            accessResourceMatches tokenResource tokenResourceLen requiredResource
          else .ok false
      | _, _ => .ok false

/-- The loop of `access_scope_allows`; it ends at a NUL. -/
def accessAnyScopeAllows (cursor requiredScope : Bytes) : Reads Bool :=
  match cursor with
  | [] => .error .outOfBounds
  | c :: rest =>
    if c = 0 then .ok false
    else do
      let found ← strchr comma (c :: rest)
      let scopeLen ← match found with
        | some n => .ok n
        | none => strlen (c :: rest)
      if ← accessOneScopeAllows (c :: rest) scopeLen requiredScope then .ok true
      else match found with
        | some n => accessAnyScopeAllows (rest.drop n) requiredScope
        | none => .ok false
termination_by cursor.length
decreasing_by
  rw [List.length_drop, List.length_cons]
  omega

/-- `access_scope_allows`. -/
def accessScopeAllows (tokenScope requiredScope : Bytes) : Reads Bool := do
  if (← byteAt tokenScope 0) = 0 then .ok false
  else do
    if (← byteAt requiredScope 0) = 0 then .ok false
    else accessAnyScopeAllows tokenScope requiredScope

/-! ### The language -/

/-- The text `c` is `a`, a colon and `r`, and this is its first colon. -/
structure FirstColon (c a r : Bytes) : Prop where
  text : c = a ++ colon :: r
  first : colon ∉ a

/-- The resource `r` of a pattern covers the resource `s`: all of them, this one, or those at and
below a stem. -/
def Covers (r s : Bytes) : Prop :=
  r = [star] ∨ (r.getLast? ≠ some star ∧ r = s) ∨
    ∃ p, p ≠ [] ∧ r = p ++ [star] ∧
      (s = p ∨ (∃ x, s = p ++ slash :: x) ∨ (p.getLast? = some slash ∧ p <+: s))

/-- The pattern `c` allows the scope `required`. -/
def Allows (c required : Bytes) : Prop :=
  c = [star] ∨ ∃ a r b s, FirstColon c a r ∧ FirstColon required b s ∧ a ≠ [] ∧ b ≠ [] ∧
    (a = b ∨ a = [star]) ∧ Covers r s

/-- **The language of scopes**: one of the patterns between the commas allows it. -/
def Grants (token required : Bytes) : Prop :=
  token ≠ [] ∧ required ≠ [] ∧ ∃ c ∈ token.splitOn comma, Allows c required

/-! ### The texts -/

theorem FirstColon.splitColon {c a r : Bytes} (h : FirstColon c a r) :
    splitColon c = some (a, r) := by
  rw [h.text]
  exact splitColon_append fun x hx e => h.first (e ▸ hx)

theorem firstColon_of_mem {c : Bytes} (h : colon ∈ c) : ∃ a r, FirstColon c a r := by
  obtain ⟨a, r, hc, ha⟩ := List.eq_append_cons_of_mem h
  exact ⟨a, r, hc, ha⟩

theorem splitColon_eq_none {c : Bytes} (h : colon ∉ c) : splitColon c = none := by
  have hp : ∀ x ∈ c, (x != colon) = true := fun x hx => bne_iff_ne.mpr fun e => h (e ▸ hx)
  rw [Scope.splitColon, List.dropWhile_eq_nil_iff.mpr hp]

theorem splitColon_eq_some {c a r : Bytes} : splitColon c = some (a, r) ↔ FirstColon c a r := by
  refine ⟨fun h => ?_, FirstColon.splitColon⟩
  by_cases hc : colon ∈ c
  · obtain ⟨a', r', h'⟩ := firstColon_of_mem hc
    rw [h'.splitColon] at h
    cases h
    exact h'
  · rw [splitColon_eq_none hc] at h
    nomatch h

/-- A resource with a star at its end has a stem. -/
theorem stem_of_star {r : Bytes} (h : r.getLast? = some star) (hne : r ≠ [star]) :
    ∃ p, p ≠ [] ∧ r = p ++ [star] := by
  obtain ⟨p, rfl⟩ := List.getLast?_eq_some_iff.mp h
  refine ⟨p, ?_, rfl⟩
  rintro rfl
  exact hne rfl

/-- What stands after a stem. -/
theorem segmentEnds_iff {p x : Bytes} (hp : p ≠ []) : segmentEnds p x = true ↔
    x = [] ∨ (∃ y, x = slash :: y) ∨ p.getLast? = some slash := by
  unfold segmentEnds
  by_cases hslash : p.getLast? = some slash
  · rw [if_neg fun h => h.2 hslash]
    exact ⟨fun _ => Or.inr (Or.inr hslash), fun _ => rfl⟩
  · rw [if_pos ⟨hp, hslash⟩]
    cases x with
    | nil => simp
    | cons c y => simp [hslash]

theorem resourceMatches_iff {r s : Bytes} : resourceMatches r s = true ↔ Covers r s := by
  unfold resourceMatches Covers
  split_ifs with hall hstar
  · exact ⟨fun _ => Or.inl hall, fun _ => rfl⟩
  · obtain ⟨p, hp, rfl⟩ := stem_of_star hstar hall
    rw [List.dropLast_concat, Bool.and_eq_true, decide_eq_true_eq, segmentEnds_iff hp]
    constructor
    · rintro ⟨⟨x, rfl⟩, hx⟩
      rw [List.drop_left] at hx
      refine Or.inr (Or.inr ⟨p, hp, rfl, ?_⟩)
      rcases hx with rfl | ⟨y, rfl⟩ | hslash
      · exact Or.inl (List.append_nil p)
      · exact Or.inr (Or.inl ⟨y, rfl⟩)
      · exact Or.inr (Or.inr ⟨hslash, List.prefix_append p x⟩)
    · rintro (h | ⟨h, -⟩ | ⟨q, -, hq, h⟩)
      · exact absurd h hall
      · exact absurd hstar h
      · obtain rfl := List.append_inj_left' hq rfl
        rcases h with rfl | ⟨x, rfl⟩ | ⟨hslash, hpre⟩
        · exact ⟨List.prefix_rfl, Or.inl List.drop_length⟩
        · exact ⟨List.prefix_append p _, Or.inr (Or.inl ⟨x, List.drop_left⟩)⟩
        · exact ⟨hpre, Or.inr (Or.inr hslash)⟩
  · rw [decide_eq_true_eq]
    constructor
    · exact fun h => Or.inr (Or.inl ⟨hstar, h⟩)
    · rintro (h | ⟨-, h⟩ | ⟨q, -, rfl, -⟩)
      · exact absurd h hall
      · exact h
      · exact absurd List.getLast?_concat hstar

theorem oneScopeAllows_iff {c required : Bytes} :
    oneScopeAllows c required = true ↔ Allows c required := by
  unfold oneScopeAllows Allows
  split_ifs with hnil hall
  · refine ⟨fun h => (nomatch h), ?_⟩
    rintro (h | ⟨a, r, b, s, hc, -⟩)
    · exact nomatch hnil ▸ h
    · have htext := hc.text
      rw [hnil] at htext
      exact absurd htext.symm (by simp)
  · exact ⟨fun _ => Or.inl hall, fun _ => rfl⟩
  · refine Iff.trans ?_ (or_iff_right hall).symm
    constructor
    · intro h
      split at h
      · rename_i a r b s hc hr
        simp only [Bool.and_eq_true, decide_eq_true_eq] at h
        obtain ⟨⟨⟨ha, hb⟩, hab⟩, hm⟩ := h
        exact ⟨a, r, b, s, splitColon_eq_some.mp hc, splitColon_eq_some.mp hr, ha, hb,
          hab.symm, resourceMatches_iff.mp hm⟩
      · nomatch h
    · rintro ⟨a, r, b, s, hc, hr, ha, hb, hab, hm⟩
      simp only [hc.splitColon, hr.splitColon, Bool.and_eq_true, decide_eq_true_eq]
      exact ⟨⟨⟨ha, hb⟩, hab.symm⟩, resourceMatches_iff.mpr hm⟩

/-- The first pattern, and the rest after a comma. -/
theorem anyScopeAllows_comma {c rest required : Bytes} (hc : comma ∉ c) :
    anyScopeAllows (c ++ comma :: rest) required =
      (oneScopeAllows c required || anyScopeAllows rest required) := by
  have hp : ∀ x ∈ c, (x != comma) = true := fun x hx => bne_iff_ne.mpr fun e => hc (e ▸ hx)
  rw [anyScopeAllows, if_neg (by simp), List.takeWhile_append_of_pos hp,
    List.dropWhile_append_of_pos hp]
  simp

/-- The empty pattern allows nothing. -/
theorem not_allows_nil {required : Bytes} : ¬ Allows [] required :=
  fun h => nomatch oneScopeAllows_iff.mpr h

theorem anyScopeAllows_iff (required cursor : Bytes) :
    anyScopeAllows cursor required = true ↔ ∃ c ∈ cursor.splitOn comma, Allows c required := by
  by_cases hm : comma ∈ cursor
  · obtain ⟨c, rest, hcursor, hc⟩ := List.eq_append_cons_of_mem hm
    have ih := anyScopeAllows_iff required rest
    rw [hcursor, anyScopeAllows_comma hc, List.splitOn_append_cons_self_of_not_mem hc,
      Bool.or_eq_true, oneScopeAllows_iff, ih, List.exists_mem_cons_iff]
  · rw [List.splitOn_eq_singleton hm]
    simp only [List.mem_singleton, exists_eq_left]
    by_cases hnil : cursor = []
    · rw [hnil, anyScopeAllows, if_pos rfl]
      exact ⟨fun h => (nomatch h), fun h => absurd h not_allows_nil⟩
    · rw [anyScopeAllows_of_noComma hnil hm, oneScopeAllows_iff]
termination_by cursor.length
decreasing_by
  rw [hcursor, List.length_append, List.length_cons]
  omega

theorem scopeAllows_iff (token required : CString) :
    scopeAllows token required = true ↔ Grants token.bytes required.bytes := by
  rw [scopeAllows, Bool.and_eq_true, decide_eq_true_eq, anyScopeAllows_iff]
  exact and_assoc

/-! ### The walk over the strings -/

section Walk

variable {s t u : Bytes}

/-- The byte after a stem decides, as the end of the text or a slash does. -/
theorem next_eq_segmentEnds {p x : Bytes} (hp : p ≠ []) (hx : (0 : UInt8) ∉ x)
    (hslash : p.getLast? ≠ some slash) :
    (byteAt (p ++ (x ++ 0 :: u)) p.length).map (fun next => next == 0 || next == slash) =
      (.ok (segmentEnds p x) : Reads Bool) := by
  unfold segmentEnds
  rw [if_pos ⟨hp, hslash⟩]
  cases x with
  | nil =>
    rw [List.nil_append, byteAt_length]
    rfl
  | cons c x =>
    have hc : (c == 0) = false := beq_eq_false_iff_ne.mpr (Ne.symm (List.ne_of_not_mem_cons hx))
    rw [List.cons_append, byteAt_length, map_ok, hc, Bool.false_or, beq_eq_decide]

theorem accessResourceMatches_eq {r : Bytes} (hr : (0 : UInt8) ∉ r) (hs : (0 : UInt8) ∉ s) :
    accessResourceMatches (r ++ t) r.length (s ++ 0 :: u) = .ok (resourceMatches r s) := by
  unfold accessResourceMatches resourceMatches
  rw [both_single, ok_bind]
  by_cases hall : r = [star]
  · rw [if_pos hall, if_pos (by simpa using hall)]
  rw [if_neg hall, if_neg (by simpa using hall), strlen_eq hs, ok_bind, both_last, ok_bind]
  by_cases hstar : r.getLast? = some star
  · obtain ⟨p, hp, rfl⟩ := stem_of_star hstar hall
    have hp0 : (0 : UInt8) ∉ p := fun h => hr (List.mem_append_left _ h)
    rw [if_pos hstar, if_pos (by rw [hstar]; rfl), List.dropLast_concat, List.length_append,
      List.length_singleton, Nat.add_sub_cancel, List.append_assoc]
    obtain ⟨o, ho, hiff⟩ := strncmp_prefix (ε := Empty) (t := [star] ++ t) (r := s) (u := u) hp0
    dsimp only
    rw [ho, ok_bind]
    by_cases hpre : p <+: s
    · obtain ⟨x, rfl⟩ := hpre
      have hx : (0 : UInt8) ∉ x := fun h => hs (List.mem_append_right _ h)
      rw [if_neg (not_not.mpr (hiff.mpr (List.prefix_append p x))), both_last, ok_bind,
        List.drop_left, decide_eq_true (List.prefix_append p x), Bool.true_and, List.append_assoc]
      by_cases hslash : p.getLast? = some slash
      · rw [hslash, if_neg (by simp), (segmentEnds_iff hp).mpr (Or.inr (Or.inr hslash))]
      · have hany : p.getLast?.any (· != slash) = true := by
          rw [List.getLast?_eq_some_getLast hp] at hslash ⊢
          simpa using hslash
        rw [hany, if_pos rfl, next_eq_segmentEnds hp hx hslash]
    · rw [if_pos (mt hiff.mp hpre), decide_eq_false hpre, Bool.false_and]
  · have hany : ¬ r.getLast?.any (· == Scope.star) = true := by
      cases hl : r.getLast? with
      | none => simp
      | some c => simpa [hl] using hstar
    rw [if_neg hstar, if_neg hany]
    have heq := both_strncmp (ε := Empty) (t := t) (r := s) (q := []) (u := u) hr
    rwa [List.append_nil] at heq

theorem accessOneScopeAllows_eq {c : Bytes} (hc : (0 : UInt8) ∉ c) (hs : (0 : UInt8) ∉ s) :
    accessOneScopeAllows (c ++ t) c.length (s ++ 0 :: u) = .ok (oneScopeAllows c s) := by
  unfold accessOneScopeAllows oneScopeAllows
  by_cases hnil : c = []
  · rw [if_pos hnil, if_pos (List.length_eq_zero_iff.mpr hnil)]
  rw [if_neg hnil, if_neg (mt List.length_eq_zero_iff.mp hnil), both_single, ok_bind]
  by_cases hall : c = [star]
  · rw [if_pos hall, if_pos (by simpa using hall)]
  rw [if_neg hall, if_neg (by simpa using hall)]
  by_cases htoken : colon ∈ c
  · obtain ⟨a, r, rfl, ha⟩ := firstColon_of_mem htoken
    have ha0 : (0 : UInt8) ∉ a := fun h => hc (List.mem_append_left _ h)
    have hr0 : (0 : UInt8) ∉ r := fun h => hc (List.mem_append_right _ (List.mem_cons_of_mem _ h))
    have hlen : a.length < (a ++ colon :: r).length := by simp
    rw [List.append_assoc, List.cons_append, memchr_found ha hlen, ok_bind,
      FirstColon.splitColon ⟨rfl, ha⟩]
    by_cases hreq : colon ∈ s
    · obtain ⟨b, q, rfl, hb⟩ := firstColon_of_mem hreq
      have hb0 : (0 : UInt8) ∉ b := fun h => hs (List.mem_append_left _ h)
      have hq0 : (0 : UInt8) ∉ q := fun h => hs (List.mem_append_right _ (List.mem_cons_of_mem _ h))
      have hfound : strchr colon (b ++ colon :: q ++ 0 :: u) = (.ok (some b.length) : Reads _) := by
        rw [List.append_assoc, List.cons_append, strchr_found hb0 hb]
      rw [hfound, ok_bind, FirstColon.splitColon ⟨rfl, hb⟩]
      dsimp only
      by_cases hne : a = [] ∨ b = []
      · rw [if_pos (by simpa using hne), decide_eq_false (by tauto)]
        rfl
      rw [if_neg (by simpa using hne), decide_eq_true (by tauto), Bool.true_and, both_single,
        ok_bind]
      rw [both_strncmp ha0]
      have haction : either (decide (a = [star])) (.ok (decide (a = b))) =
          (.ok (decide (a = [star] ∨ a = b)) : Reads Bool) := by
        by_cases hstar : a = [star] <;> simp [either, hstar]
      rw [haction, ok_bind]
      by_cases hact : a = [star] ∨ a = b
      · have hrest : (a ++ colon :: r).length - a.length - 1 = r.length := by simp
        have hnext : advance (b ++ colon :: q ++ 0 :: u) (b.length + 1) =
            (.ok (q ++ 0 :: u) : Reads _) := by
          rw [List.append_assoc, List.cons_append, advance_length]
        rw [decide_eq_true hact, if_pos rfl, Bool.true_and, advance_length, ok_bind, hnext,
          ok_bind, hrest, accessResourceMatches_eq hr0 hq0]
      · rw [decide_eq_false hact, if_neg (by simp), Bool.false_and]
    · rw [strchr_none (by decide) hs hreq, ok_bind, splitColon_eq_none hreq]
  · rw [memchr_none htoken, ok_bind, splitColon_eq_none htoken]
    obtain ⟨o, ho⟩ : ∃ o, strchr colon (s ++ 0 :: u) = (.ok o : Reads _) := by
      by_cases hreq : colon ∈ s
      · obtain ⟨b, q, rfl, hb⟩ := firstColon_of_mem hreq
        exact ⟨_, by
          rw [List.append_assoc, List.cons_append, strchr_found _ hb]
          exact fun h => hs (List.mem_append_left _ h)⟩
      · exact ⟨_, strchr_none (by decide) hs hreq⟩
    rw [ho]
    rfl

/-- The loop, over what is left of the scopes of the token. -/
theorem accessAnyScopeAllows_eq (hs : (0 : UInt8) ∉ s) (cursor : Bytes)
    (hcursor : (0 : UInt8) ∉ cursor) :
    accessAnyScopeAllows (cursor ++ 0 :: t) (s ++ 0 :: u) = .ok (anyScopeAllows cursor s) := by
  match hm : cursor with
  | [] => rw [List.nil_append, accessAnyScopeAllows, if_pos rfl, anyScopeAllows, if_pos rfl]
  | x :: rest =>
    have hx : x ≠ 0 := Ne.symm (List.ne_of_not_mem_cons hcursor)
    rw [List.cons_append, accessAnyScopeAllows, if_neg hx, ← List.cons_append]
    by_cases hcomma : comma ∈ x :: rest
    · obtain ⟨c, r, hc, hnot⟩ := List.eq_append_cons_of_mem hcomma
      have hdrop : (rest ++ 0 :: t).drop c.length = r ++ 0 :: t := by
        have h := congrArg (fun l => (l ++ 0 :: t).drop (c.length + 1)) hc
        simpa using h
      rw [hc] at hcursor ⊢
      have hc0 : (0 : UInt8) ∉ c := fun h => hcursor (List.mem_append_left _ h)
      have hr0 : (0 : UInt8) ∉ r :=
        fun h => hcursor (List.mem_append_right _ (List.mem_cons_of_mem _ h))
      have ih := accessAnyScopeAllows_eq hs r hr0
      rw [List.append_assoc, List.cons_append, strchr_found hc0 hnot, ok_bind]
      dsimp only
      rw [ok_bind, accessOneScopeAllows_eq hc0 hs, ok_bind, anyScopeAllows_comma hnot, hdrop, ih]
      cases oneScopeAllows c s <;> rfl
    · rw [strchr_none (by decide) hcursor hcomma, ok_bind]
      dsimp only
      rw [strlen_eq hcursor, ok_bind, accessOneScopeAllows_eq hcursor hs, ok_bind,
        anyScopeAllows_of_noComma (List.cons_ne_nil x rest) hcomma]
      cases oneScopeAllows (x :: rest) s <;> rfl
termination_by cursor.length
decreasing_by
  rw [hc, List.length_append, List.length_cons]
  omega

/-- The first byte of a string is its end if the string is empty. -/
theorem byteAt_zero_iff (hs : (0 : UInt8) ∉ s) :
    ∃ c, byteAt (s ++ 0 :: u) 0 = (.ok c : Reads _) ∧ (c = 0 ↔ s = []) := by
  cases s with
  | nil => exact ⟨0, rfl, by simp⟩
  | cons c s => exact ⟨c, rfl, by simpa using Ne.symm (List.ne_of_not_mem_cons hs)⟩

end Walk

/-- **The language of scopes**: `access_scope_allows` reads nothing past the end of its strings and
returns whether one of the patterns of the token allows the scope. -/
theorem scope_language (token required : CString) (t u : Bytes) :
    accessScopeAllows (token.bytes ++ 0 :: t) (required.bytes ++ 0 :: u) =
        .ok (scopeAllows token required) ∧
      (scopeAllows token required = true ↔ Grants token.bytes required.bytes) := by
  refine ⟨?_, scopeAllows_iff token required⟩
  obtain ⟨c, hc, hcnil⟩ := byteAt_zero_iff (u := t) token.noNul
  obtain ⟨d, hd, hdnil⟩ := byteAt_zero_iff (u := u) required.noNul
  unfold accessScopeAllows scopeAllows
  rw [hc, ok_bind, hd]
  by_cases htoken : token.bytes = []
  · rw [if_pos (hcnil.mpr htoken), decide_eq_false fun h => h.1 htoken, Bool.false_and]
  · rw [if_neg (mt hcnil.mp htoken), ok_bind]
    by_cases hrequired : required.bytes = []
    · rw [if_pos (hdnil.mpr hrequired), decide_eq_false fun h => h.2 hrequired, Bool.false_and]
    · rw [if_neg (mt hdnil.mp hrequired), decide_eq_true ⟨htoken, hrequired⟩, Bool.true_and,
        accessAnyScopeAllows_eq required.noNul token.bytes token.noNul]

end Fuin.Access.Matcher

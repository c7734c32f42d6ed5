import Fuin.Vault.Rows

/-! # Scopes

A token carries a list of patterns separated by commas; a pattern is an action and a resource,
separated by the first colon, and a star at the end of a resource stands for what follows at a
segment. The scope that a command needs is an action and the name of a secret, and names may contain
all of these characters.

A scope made of an action and a name that does not end in a star grants exactly this action on this
name if and only if the name contains no comma (`scope_exact_iff`). -/

namespace Fuin.Access.Scope

open Fuin.Utils Fuin.Vault.Rows

/-- `,` -/
def comma : UInt8 := 44

/-- `:` -/
def colon : UInt8 := 58

/-- `*` -/
def star : UInt8 := 42

/-- `/` -/
def slash : UInt8 := 47

/-- What comes after the prefix of a pattern: the end, or a slash unless the prefix ends in one. -/
def segmentEnds (stem rest : Bytes) : Bool :=
  if stem ≠ [] ∧ stem.getLast? ≠ some slash then
    match rest with
    | [] => true
    | c :: _ => c = slash
  else true

/-- `access_resource_matches`. -/
def resourceMatches (allowed required : Bytes) : Bool :=
  if allowed = [star] then true
  else if allowed.getLast? = some star then
    decide (allowed.dropLast <+: required) &&
      segmentEnds allowed.dropLast (required.drop allowed.dropLast.length)
  else decide (allowed = required)

/-- The action and the resource, separated by the first colon. -/
def splitColon (s : Bytes) : Option (Bytes × Bytes) :=
  match s.dropWhile (· != colon) with
  | [] => none
  | _ :: resource => some (s.takeWhile (· != colon), resource)

/-- `access_one_scope_allows`. -/
def oneScopeAllows (token required : Bytes) : Bool :=
  if token = [] then false
  else if token = [star] then true
  else match splitColon token, splitColon required with
    | some (action, resource), some (requiredAction, requiredResource) =>
      decide (action ≠ [] ∧ requiredAction ≠ []) &&
        decide (action = [star] ∨ action = requiredAction) &&
        resourceMatches resource requiredResource
    | _, _ => false

/-- The loop of `access_scope_allows`. -/
def anyScopeAllows (cursor required : Bytes) : Bool :=
  if cursor = [] then false
  else oneScopeAllows (cursor.takeWhile (· != comma)) required ||
    anyScopeAllows (cursor.dropWhile (· != comma)).tail required
termination_by cursor.length
decreasing_by
  have hsub := (List.dropWhile_sublist (l := cursor) (p := (· != comma))).length_le
  have hpos := List.length_pos_iff.mpr ‹cursor ≠ []›
  rw [List.length_tail]
  omega

/-- `access_scope_allows`. -/
def scopeAllows (token required : CString) : Bool :=
  decide (token.bytes ≠ [] ∧ required.bytes ≠ []) && anyScopeAllows token.bytes required.bytes

/-- The operations a token can be asked for. -/
inductive Operation where
  | read
  | write
  | delete
  deriving DecidableEq, Repr

/-- The text of an operation. -/
def Operation.text : Operation → Bytes
  | .read => ascii "read"
  | .write => ascii "write"
  | .delete => ascii "delete"

/-- The text that `cli_required_scope` prints: the operation, a colon and the name. -/
def requiredScope (op : Operation) (name : CString) : CString :=
  ⟨op.text ++ colon :: name.bytes, fun h => by
    rcases List.mem_append.mp h with h | h
    · cases op <;> exact absurd h (by decide)
    · rcases List.mem_cons.mp h with h | h
      · exact absurd h (by decide)
      · exact name.noNul h⟩

/-! ### Scopes of one secret -/

theorem text_inj {op op' : Operation} (h : op.text = op'.text) : op = op' := by
  cases op <;> cases op' <;> first | rfl | exact absurd h (by decide)

theorem colon_notMem_text (op : Operation) : ∀ c ∈ op.text, c ≠ colon := by
  cases op <;> decide +kernel

theorem comma_notMem_text (op : Operation) : comma ∉ op.text := by
  cases op <;> decide

theorem text_ne (op : Operation) : op.text ≠ [] ∧ op.text ≠ [star] := by
  cases op <;> decide

/-- A text with an action in front is split after it. -/
theorem splitColon_append {action resource : Bytes} (h : ∀ c ∈ action, c ≠ colon) :
    splitColon (action ++ colon :: resource) = some (action, resource) := by
  have hp : ∀ c ∈ action, (c != colon) = true := fun c hc => bne_iff_ne.mpr (h c hc)
  rw [splitColon, List.dropWhile_append_of_pos hp, List.takeWhile_append_of_pos hp]
  simp

theorem splitColon_requiredScope (op : Operation) (name : CString) :
    splitColon (requiredScope op name).bytes = some (op.text, name.bytes) :=
  splitColon_append (colon_notMem_text op)

/-- The parts of a split are parts of the text. -/
theorem splitColon_subset {s action resource : Bytes} (h : splitColon s = some (action, resource)) :
    ∀ c ∈ resource, c ∈ s := by
  unfold splitColon at h
  split at h
  · nomatch h
  · rename_i rest hd
    cases h
    intro c hc
    exact (List.dropWhile_sublist _).subset (hd ▸ List.mem_cons_of_mem _ hc)

/-- A text without a comma is one pattern. -/
theorem anyScopeAllows_of_noComma {cursor required : Bytes} (hne : cursor ≠ [])
    (h : comma ∉ cursor) : anyScopeAllows cursor required = oneScopeAllows cursor required := by
  have hp : ∀ c ∈ cursor, (c != comma) = true := fun c hc => by
    refine bne_iff_ne.mpr ?_
    rintro rfl
    exact h hc
  rw [anyScopeAllows, if_neg hne, List.takeWhile_eq_self_iff.mpr hp,
    List.dropWhile_eq_nil_iff.mpr hp, List.tail_nil, anyScopeAllows, if_pos rfl, Bool.or_false]

/-- What allows a scope is one of the patterns, which contains no comma. -/
theorem exists_pattern {required : Bytes} : ∀ {cursor : Bytes},
    anyScopeAllows cursor required = true →
      ∃ pattern, comma ∉ pattern ∧ oneScopeAllows pattern required = true ∧
        ∀ required', oneScopeAllows pattern required' = true → anyScopeAllows cursor required' = true
  | cursor, h => by
    rw [anyScopeAllows] at h
    split_ifs at h with hne
    rcases Bool.or_eq_true _ _ ▸ h with h | h
    · refine ⟨_, fun hc => ?_, h, fun required' h' => ?_⟩
      · simpa using List.mem_takeWhile_imp hc
      · rw [anyScopeAllows, if_neg hne, h', Bool.true_or]
    · obtain ⟨pattern, hc, hp, hall⟩ := exists_pattern h
      refine ⟨pattern, hc, hp, fun required' h' => ?_⟩
      rw [anyScopeAllows, if_neg hne, hall required' h', Bool.or_true]
termination_by cursor => cursor.length
decreasing_by
  have hsub := (List.dropWhile_sublist (l := cursor) (p := (· != comma))).length_le
  have hpos := List.length_pos_iff.mpr hne
  rw [List.length_tail]
  omega

/-- A resource without a star at its end matches itself only. -/
theorem resourceMatches_exact {allowed required : Bytes} (h : allowed.getLast? ≠ some star) :
    resourceMatches allowed required = true ↔ required = allowed := by
  have hne : allowed ≠ [star] := by
    rintro rfl
    exact h rfl
  rw [resourceMatches, if_neg hne, if_neg h, decide_eq_true_eq, eq_comm]

/-- A pattern that matches a resource with a comma matches another one, which is a part of it. -/
theorem resourceMatches_other {allowed required : Bytes} (hc : comma ∉ allowed)
    (hr : comma ∈ required) (h : resourceMatches allowed required = true) :
    (∀ other, resourceMatches allowed other = true) ∨
      ∃ other, other <+: required ∧ other ≠ [] ∧ comma ∉ other ∧
        resourceMatches allowed other = true := by
  unfold resourceMatches at h
  split_ifs at h with hall hstar
  · exact Or.inl fun other => by rw [resourceMatches, if_pos hall]
  · rw [Bool.and_eq_true, decide_eq_true_eq] at h
    have hstem : allowed.dropLast ≠ [] := fun hnil => by
      obtain ⟨l, rfl⟩ := List.getLast?_eq_some_iff.mp hstar
      rw [List.dropLast_concat] at hnil
      exact hall (by rw [hnil]; rfl)
    refine Or.inr ⟨_, h.1, hstem, fun hm => hc (List.dropLast_subset _ hm), ?_⟩
    rw [resourceMatches, if_neg hall, if_pos hstar, List.drop_length]
    simp [segmentEnds]
  · rw [decide_eq_true_eq] at h
    exact absurd (h ▸ hr) hc

/-- A part of a clean name is clean. -/
theorem nameIsClean_prefix {name : CString} {stem : Bytes} (h : nameIsClean name = true)
    (hstem : stem <+: name.bytes) (hne : stem ≠ []) :
    ∃ other : CString, other.bytes = stem ∧ nameIsClean other = true := by
  refine ⟨⟨stem, fun h0 => name.noNul (hstem.subset h0)⟩, rfl, ?_⟩
  simp only [nameIsClean, Bool.and_eq_true, decide_eq_true_eq, List.all_eq_true] at h ⊢
  obtain ⟨⟨-, hlen⟩, hall⟩ := h
  exact ⟨⟨hne, hstem.length_le.trans hlen⟩, fun c hc => hall c (hstem.subset hc)⟩

/-- A scope made of an action and a name is one pattern with these parts. -/
theorem oneScopeAllows_requiredScope {op op' : Operation} {n m : CString} :
    oneScopeAllows (requiredScope op n).bytes (requiredScope op' m).bytes = true ↔
      op' = op ∧ resourceMatches n.bytes m.bytes = true := by
  have hne : (requiredScope op n).bytes ≠ [] := by simp [requiredScope]
  have hlen : (requiredScope op n).bytes ≠ [star] := by cases op <;> simp [requiredScope, Operation.text, ascii]
  rw [oneScopeAllows, if_neg hne, if_neg hlen, splitColon_requiredScope, splitColon_requiredScope]
  simp only [Bool.and_eq_true, decide_eq_true_eq]
  constructor
  · rintro ⟨⟨-, h⟩, hr⟩
    exact ⟨(text_inj (h.resolve_left (text_ne op).2)).symm, hr⟩
  · rintro ⟨rfl, hr⟩
    exact ⟨⟨⟨(text_ne _).1, (text_ne _).1⟩, Or.inr rfl⟩, hr⟩

theorem scopeAllows_requiredScope {token : CString} {op : Operation} {m : CString} :
    scopeAllows token (requiredScope op m) = true ↔
      anyScopeAllows token.bytes (requiredScope op m).bytes = true := by
  have hne : (requiredScope op m).bytes ≠ [] := by simp [requiredScope]
  rw [scopeAllows, Bool.and_eq_true, decide_eq_true_eq]
  refine ⟨fun h => h.2, fun h => ⟨⟨?_, hne⟩, h⟩⟩
  rintro hnil
  rw [hnil, anyScopeAllows, if_pos rfl] at h
  exact Bool.false_ne_true h

/-- **A pattern that allows an action on a name with a comma** allows it on another name. -/
theorem oneScopeAllows_other {pattern : Bytes} {op : Operation} {n : CString}
    (hn : nameIsClean n = true) (hc : comma ∉ pattern) (hr : comma ∈ n.bytes)
    (h : oneScopeAllows pattern (requiredScope op n).bytes = true) :
    ∃ m, nameIsClean m = true ∧ m ≠ n ∧ oneScopeAllows pattern (requiredScope op m).bytes = true := by
  have hx : nameIsClean ⟨[120], by decide⟩ = true := by decide
  have hxn : (⟨[120], by decide⟩ : CString) ≠ n := fun e => by
    rw [← e] at hr
    exact absurd hr (by decide)
  unfold oneScopeAllows at h ⊢
  split_ifs at h ⊢ with h1 h2
  · exact ⟨_, hx, hxn, rfl⟩
  · simp only [splitColon_requiredScope] at h ⊢
    cases hs : splitColon pattern with
    | none => simp [hs] at h
    | some parts =>
      obtain ⟨action, resource⟩ := parts
      simp only [hs, Bool.and_eq_true] at h ⊢
      rcases resourceMatches_other (fun hm => hc (splitColon_subset hs _ hm)) hr h.2 with hall | h'
      · exact ⟨_, hx, hxn, h.1, hall _⟩
      · obtain ⟨stem, hstem, hne, hcs, hm⟩ := h'
        obtain ⟨m, rfl, hclean⟩ := nameIsClean_prefix hn hstem hne
        exact ⟨m, hclean, fun e => hcs (e ▸ hr), h.1, hm⟩

/-- **The scope of one secret** grants this operation on this secret and nothing else, if and only if
the name contains no comma. -/
theorem scope_exact_iff {op : Operation} {n : CString} (hn : nameIsClean n = true)
    (hstar : n.bytes.getLast? ≠ some star) :
    (∀ op' m, nameIsClean m = true →
      (scopeAllows (requiredScope op n) (requiredScope op' m) = true ↔ op' = op ∧ m = n)) ↔
        comma ∉ n.bytes := by
  constructor
  · intro h hc
    have hself := scopeAllows_requiredScope.mp ((h op n hn).mpr ⟨rfl, rfl⟩)
    obtain ⟨pattern, hp, hallows, hany⟩ := exists_pattern hself
    obtain ⟨m, hm, hne, hother⟩ := oneScopeAllows_other hn hp hc hallows
    exact hne ((h op m hm).mp (scopeAllows_requiredScope.mpr (hany _ hother))).2
  · intro hc op' m _
    have hnc : comma ∉ (requiredScope op n).bytes := by
      simp only [requiredScope, List.mem_append, List.mem_cons, not_or]
      exact ⟨comma_notMem_text op, by decide, hc⟩
    rw [scopeAllows_requiredScope, anyScopeAllows_of_noComma (by simp [requiredScope]) hnc,
      oneScopeAllows_requiredScope, resourceMatches_exact hstar]
    exact and_congr_right fun _ => ⟨fun e => CString.ext e, fun e => by rw [e]⟩

/-- `db/prod` -/
def prodName : CString := ⟨ascii "db/prod", by decide⟩

theorem scope_exact_prod : comma ∉ prodName.bytes ∧ ∀ op' m, nameIsClean m = true →
    (scopeAllows (requiredScope .read prodName) (requiredScope op' m) = true ↔
      op' = .read ∧ m = prodName) :=
  ⟨by decide, (scope_exact_iff (by decide) (by decide)).mpr (by decide)⟩

/-- **Not every scope of one secret is exact**: after a comma a name goes on as another pattern. -/
theorem scope_not_exact :
    ¬ ∀ (op : Operation) (n : CString), nameIsClean n = true → n.bytes.getLast? ≠ some star →
      ∀ op' m, nameIsClean m = true →
        (scopeAllows (requiredScope op n) (requiredScope op' m) = true ↔ op' = op ∧ m = n) := by
  intro h
  have hallows := (h .read ⟨ascii "a,write:b", by decide⟩ (by decide) (by decide) .write
    ⟨ascii "b", by decide⟩ (by decide)).mp (by decide +kernel)
  exact absurd hallows.1 (by decide)

end Fuin.Access.Scope

import Mathlib.Data.List.Forall2
import Mathlib.Data.List.MinMax
import Mathlib.Data.Int.Order.Basic

/-! # Lists that count and lists that grow

A list counts by `f` if the values of `f` along it are `1, 2, 3, …` (`Counted`): so every number up
to the length occurs once, and the largest is the length. A list grows into another one along `R`
if every element is replaced by one that `R` relates to it and new elements are added at the end
(`Grows`): nothing is removed or moved. -/

namespace Fuin.Lib.Growth

variable {α : Type} {R S : α → α → Prop} {f : α → ℤ} {l l' l'' : List α} {a b : α}

/-! ### Counting -/

/-- The values of `f` are `1, 2, 3, …`. -/
def Counted (f : α → ℤ) (l : List α) : Prop := ∀ i (h : i < l.length), f l[i] = i + 1

theorem counted_nil : Counted f ([] : List α) := fun _ h => nomatch h

/-- Counting goes on with the next number. -/
theorem Counted.concat (h : Counted f l) (ha : f a = l.length + 1) : Counted f (l ++ [a]) := by
  intro i hi
  simp only [List.length_append, List.length_singleton] at hi
  by_cases hlast : i < l.length
  · rw [List.getElem_append_left hlast]
    exact h i hlast
  · obtain rfl : i = l.length := by omega
    rw [List.getElem_concat_length rfl]
    exact ha

theorem Counted.mem (h : Counted f l) (ha : a ∈ l) : 1 ≤ f a ∧ f a ≤ l.length := by
  obtain ⟨i, hi, rfl⟩ := List.getElem_of_mem ha
  rw [h i hi]
  omega

/-- Every number up to the length occurs. -/
theorem Counted.exists_mem (h : Counted f l) {v : ℤ} (h1 : 1 ≤ v) (hv : v ≤ l.length) :
    ∃ a ∈ l, f a = v := by
  have hi : (v - 1).toNat < l.length := by omega
  refine ⟨l[(v - 1).toNat], List.getElem_mem hi, ?_⟩
  rw [h _ hi]
  omega

/-- The largest number is the length. -/
theorem Counted.max_eq (h : Counted f l) : ((l.map f).max?).getD 0 = l.length := by
  rcases List.eq_nil_or_concat' l with rfl | ⟨k, a, rfl⟩
  · rfl
  · have hlast : f a = (k ++ [a]).length := by
      have := h k.length (by simp)
      rw [List.getElem_concat_length rfl] at this
      rw [this]
      simp
    have hmax : ((k ++ [a]).map f).max? = some ((k ++ [a]).length : ℤ) := by
      refine List.max?_eq_some_iff.mpr ⟨?_, fun b hb => ?_⟩
      · rw [← hlast]
        exact List.mem_map.mpr ⟨a, by simp, rfl⟩
      · obtain ⟨c, hc, rfl⟩ := List.mem_map.mp hb
        exact (h.mem hc).2
    rw [hmax]
    rfl

theorem Counted.of_forall₂ (h : Counted f l) (hl : List.Forall₂ R l l')
    (hR : ∀ a b, R a b → f b = f a) : Counted f l' := by
  intro i hi
  have hi' : i < l.length := by rw [hl.length_eq]; exact hi
  exact (hR _ _ (hl.get hi' hi)).trans (h i hi')

/-! ### Growing -/

/-- Every element is replaced along `R`, and new ones are added at the end. -/
def Grows (R : α → α → Prop) (l l' : List α) : Prop :=
  ∃ old new, l' = old ++ new ∧ List.Forall₂ R l old

theorem Grows.of_forall₂ (h : List.Forall₂ R l l') : Grows R l l' := ⟨l', [], by simp, h⟩

theorem Grows.refl (hR : ∀ a, R a a) (l : List α) : Grows R l l :=
  .of_forall₂ (List.forall₂_same.mpr fun a _ => hR a)

theorem Grows.concat (h : List.Forall₂ R l l') (a : α) : Grows R l (l' ++ [a]) :=
  ⟨l', [a], rfl, h⟩

theorem forall₂_trans {β γ : Type} {P : α → β → Prop} {Q : β → γ → Prop} {T : α → γ → Prop}
    (hT : ∀ a b c, P a b → Q b c → T a c) : ∀ {l : List α} {l' : List β} {l'' : List γ},
      List.Forall₂ P l l' → List.Forall₂ Q l' l'' → List.Forall₂ T l l''
  | [], _, _, .nil, .nil => .nil
  | _ :: _, _, _, .cons h1 h2, .cons h3 h4 => .cons (hT _ _ _ h1 h3) (forall₂_trans hT h2 h4)

theorem Grows.trans (hR : ∀ a b c, R a b → R b c → R a c) (h : Grows R l l')
    (h' : Grows R l' l'') : Grows R l l'' := by
  obtain ⟨old, new, rfl, h1⟩ := h
  obtain ⟨old', new', rfl, h2⟩ := h'
  have h3 := List.forall₂_take old.length h2
  rw [List.take_left] at h3
  refine ⟨old'.take old.length, old'.drop old.length ++ new', ?_, forall₂_trans hR h1 h3⟩
  rw [← List.append_assoc, List.take_append_drop]

theorem Grows.mono (h : Grows R l l') (hRS : ∀ a b, R a b → S a b) : Grows S l l' := by
  obtain ⟨old, new, rfl, h1⟩ := h
  exact ⟨old, new, rfl, h1.imp hRS⟩

theorem Grows.length_le (h : Grows R l l') : l.length ≤ l'.length := by
  obtain ⟨old, new, rfl, h1⟩ := h
  rw [h1.length_eq, List.length_append]
  omega

/-- What became of an element. -/
theorem Grows.getElem (h : Grows R l l') {i : ℕ} (hi : i < l.length) :
    ∃ hi' : i < l'.length, R l[i] l'[i] := by
  obtain ⟨old, new, rfl, h1⟩ := h
  have hi' : i < old.length := by rw [← h1.length_eq]; exact hi
  refine ⟨by rw [List.length_append]; omega, ?_⟩
  rw [List.getElem_append_left hi']
  exact h1.get hi hi'

theorem Grows.exists_mem (h : Grows R l l') (ha : a ∈ l) : ∃ b ∈ l', R a b := by
  obtain ⟨i, hi, rfl⟩ := List.getElem_of_mem ha
  obtain ⟨hi', hR⟩ := h.getElem hi
  exact ⟨l'[i], List.getElem_mem hi', hR⟩

/-- Where an element comes from. -/
theorem forall₂_mem_right {β γ : Type} {T : β → γ → Prop} {c : γ} :
    ∀ {l : List β} {l' : List γ}, List.Forall₂ T l l' → c ∈ l' → ∃ b ∈ l, T b c
  | _, _, .nil, hc => nomatch hc
  | b :: l, d :: l', .cons h1 h2, hc => by
    rcases List.mem_cons.mp hc with rfl | hc
    · exact ⟨b, List.mem_cons_self, h1⟩
    · obtain ⟨e, he, hT⟩ := forall₂_mem_right h2 hc
      exact ⟨e, List.mem_cons_of_mem _ he, hT⟩

/-- Related elements are elements of the lists. -/
theorem forall₂_with_mem {β γ : Type} {T : β → γ → Prop} {l : List β} {l' : List γ}
    (h : List.Forall₂ T l l') : List.Forall₂ (fun b c => b ∈ l ∧ c ∈ l' ∧ T b c) l l' :=
  List.forall₂_of_length_eq_of_get h.length_eq fun _ h1 h2 =>
    ⟨List.get_mem .., List.get_mem .., h.get h1 h2⟩

theorem forall₂_filter {p : α → Bool} (hp : ∀ a b, R a b → p b = p a) :
    ∀ {l l' : List α}, List.Forall₂ R l l' → List.Forall₂ R (l.filter p) (l'.filter p)
  | [], _, .nil => .nil
  | a :: l, b :: l', .cons h1 h2 => by
    have hab := hp a b h1
    cases hpa : p a with
    | true =>
      rw [List.filter_cons_of_pos hpa, List.filter_cons_of_pos (hab.trans hpa)]
      exact .cons h1 (forall₂_filter hp h2)
    | false =>
      rw [List.filter_cons_of_neg (by simp [hpa]), List.filter_cons_of_neg (by simp [hab, hpa])]
      exact forall₂_filter hp h2

/-- A part of the list that `R` respects grows as well. -/
theorem Grows.filter {p : α → Bool} (h : Grows R l l') (hp : ∀ a b, R a b → p b = p a) :
    Grows R (l.filter p) (l'.filter p) := by
  obtain ⟨old, new, rfl, h1⟩ := h
  exact ⟨old.filter p, new.filter p, List.filter_append .., forall₂_filter hp h1⟩

end Fuin.Lib.Growth

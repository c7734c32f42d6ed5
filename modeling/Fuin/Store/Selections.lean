import Fuin.Store.Expiry

/-! # What the queries select

The condition `VAULT_SQL_ACTIVE_ROW` chooses at most one row of a name, so the point query, the
listing and the counts select the same rows: those of the names that have one (`listed_of_name`,
`length_current_add`). The first row of the expiry scan is the least (`nextExpired_least`). -/

namespace Fuin.Store.Selections

open Fuin.Utils Fuin.Store.Secrets Fuin.Store.Expiry

variable {t : SecretTable} {now n : Bytes} {r s : SecretRow}

theorem mem_current : r ∈ current t ↔ r ∈ t.rows ∧ t.Current r := by
  rw [current, List.mem_filter, decide_eq_true_eq]

/-- Current rows have different names. -/
theorem current_pairwise (t : SecretTable) : (current t).Pairwise fun r s => r.name ≠ s.name :=
  List.pairwise_filter.mpr (t.compatible.imp fun hrs hr hs hn =>
    hrs.2.2 ⟨hn, (of_decide_eq_true hr).1, (of_decide_eq_true hs).1⟩)

/-- Of rows with different names, those of one name are at most one. -/
theorem filter_name_eq {l : List SecretRow} (hl : l.Pairwise fun r s => r.name ≠ s.name) (n : Bytes) :
    l.filter (fun r => r.name = n) = (l.find? fun r => r.name = n).toList := by
  induction l with
  | nil => rfl
  | cons r l ih =>
    obtain ⟨hr, hl⟩ := List.pairwise_cons.mp hl
    by_cases hn : r.name = n
    · have hnone : l.filter (fun s => s.name = n) = [] :=
        List.filter_eq_nil_iff.mpr fun s hs => by simpa [hn] using (hr s hs).symm
      rw [List.filter_cons_of_pos (by simpa using hn), List.find?_cons_of_pos (by simpa using hn), hnone]
      rfl
    · rw [List.filter_cons_of_neg (by simpa using hn), List.find?_cons_of_neg (by simpa using hn), ih hl]

theorem activeRow_eq : t.activeRow n = (current t).find? fun r => r.name = n := by
  unfold SecretTable.activeRow current
  rw [List.find?_filter]
  congr 1
  funext r
  rw [Bool.decide_and, decide_eq_decide.mpr decide_eq_true_iff]
  simp only [Bool.decide_eq_true]
  exact Bool.and_comm _ _

/-- **The listing and the point query**: the rows of a name in the listing are its current row. -/
theorem listed_of_name (t : SecretTable) (n : Bytes) :
    (t.listed false).filter (fun r => r.name = n) = (t.activeRow n).toList := by
  have hperm : ((t.listed false).filter fun r => r.name = n).Perm
      ((current t).filter fun r => r.name = n) := by
    refine List.Perm.filter _ ((List.mergeSort_perm _ _).trans (.of_eq ?_))
    rfl
  rw [filter_name_eq (current_pairwise t), ← activeRow_eq] at hperm
  cases hrow : t.activeRow n with
  | none =>
    rw [hrow] at hperm
    exact hperm.eq_nil
  | some r =>
    rw [hrow] at hperm
    exact List.perm_singleton.mp hperm

/-! ### Counts -/

/-- Two conditions that exclude each other. -/
theorem length_filter_add_le {α : Type} {p q : α → Bool} (h : ∀ a, q a = true → p a = false)
    (l : List α) : (l.filter p).length + (l.filter q).length ≤ l.length := by
  have hsub := (List.monotone_filter_right l (p := q) (q := fun a => !p a)
    fun a ha => by simp [h a ha]).length_le
  have hall := List.length_eq_length_filter_add (l := l) p
  omega

/-- Three values, of which each element has one. -/
theorem length_filter_three {α β : Type} [DecidableEq β] {f : α → β} {x y z : β} (hxy : x ≠ y)
    (hxz : x ≠ z) (hyz : y ≠ z) {l : List α} (h : ∀ a ∈ l, f a ∈ [x, y, z]) :
    (l.filter fun a => f a = x).length + (l.filter fun a => f a = y).length +
      (l.filter fun a => f a = z).length = l.length := by
  induction l with
  | nil => rfl
  | cons a l ih =>
    have ih := ih fun b hb => h b (List.mem_cons_of_mem a hb)
    have ha := h a List.mem_cons_self
    simp only [List.mem_cons, List.not_mem_nil, or_false] at ha
    rcases ha with ha | ha | ha
    · simp only [List.filter_cons, ha, hxy, hxz, decide_true, decide_false, if_true, if_false,
        List.length_cons, Bool.false_eq_true]
      omega
    · simp only [List.filter_cons, ha, hxy.symm, hyz, decide_true, decide_false, if_true, if_false,
        List.length_cons, Bool.false_eq_true]
      omega
    · simp only [List.filter_cons, ha, hxz.symm, hyz.symm, decide_true, decide_false, if_true,
        if_false, List.length_cons, Bool.false_eq_true]
      omega

/-- The names of the table, each once. -/
theorem nodup_eraseDups {α : Type} [BEq α] [LawfulBEq α] : ∀ l : List α, l.eraseDups.Nodup
  | [] => List.nodup_nil
  | a :: l => by
    rw [List.eraseDups_cons, List.nodup_cons]
    refine ⟨?_, nodup_eraseDups _⟩
    rw [List.mem_eraseDups, List.mem_filter]
    simp
termination_by l => l.length
decreasing_by
  exact Nat.lt_succ_of_le (List.length_filter_le _ _)

/-- **Active and deleted names**: a name has a current row or has none. -/
theorem length_current_add (t : SecretTable) {l : List Bytes} (hl : l.Nodup)
    (hmem : ∀ n, n ∈ l ↔ ∃ r ∈ t.rows, r.name = n) :
    (current t).length + (l.filter fun n => (t.activeRow n).isNone).length = l.length := by
  have hperm : ((current t).map SecretRow.name).Perm
      (l.filter fun n => !(t.activeRow n).isNone) := by
    refine (List.perm_ext_iff_of_nodup ?_ (hl.filter _)).mpr fun n => ?_
    · exact List.pairwise_map.mpr (current_pairwise t)
    · rw [List.mem_map, List.mem_filter, hmem]
      constructor
      · rintro ⟨r, hr, rfl⟩
        obtain ⟨hrow, hcur⟩ := mem_current.mp hr
        refine ⟨⟨r, hrow, rfl⟩, ?_⟩
        cases hact : t.activeRow r.name with
        | none => exact absurd hcur (SecretTable.activeRow_eq_none.mp hact r hrow rfl)
        | some s => rfl
      · rintro ⟨-, hsome⟩
        cases hact : t.activeRow n with
        | none =>
          rw [hact] at hsome
          cases hsome
        | some s =>
          obtain ⟨hrow, hname, hcur⟩ := SecretTable.activeRow_eq_some hact
          exact ⟨s, mem_current.mpr ⟨hrow, hcur⟩, hname⟩
  have hlen := hperm.length_eq
  rw [List.length_map] at hlen
  rw [hlen, List.length_eq_length_filter_add (l := l) fun n => (t.activeRow n).isNone]
  exact Nat.add_comm _ _

/-! ### The order of the expiry scan -/

/-- What the scan compares. -/
def expiryKey (r : SecretRow) : Bytes × Bytes := (r.expiresAt.getD [], r.name)

/-- By time, then by name. -/
def keyLe (a b : Bytes × Bytes) : Bool :=
  decide (a.1 < b.1) || (a.1 = b.1 && decide (a.2 ≤ b.2))

theorem keyLe_iff {a b : Bytes × Bytes} : keyLe a b = true ↔ a.1 < b.1 ∨ a.1 = b.1 ∧ a.2 ≤ b.2 := by
  simp only [keyLe, Bool.or_eq_true, Bool.and_eq_true, decide_eq_true_eq]

theorem keyLe_trans (a b c : Bytes × Bytes) (hab : keyLe a b) (hbc : keyLe b c) : keyLe a c := by
  rw [keyLe_iff] at *
  rcases hab with h1 | ⟨h1, h1'⟩
  · rcases hbc with h2 | ⟨h2, -⟩
    · exact .inl (List.lt_trans h1 h2)
    · exact .inl (h2 ▸ h1)
  · rcases hbc with h2 | ⟨h2, h2'⟩
    · exact .inl (h1 ▸ h2)
    · exact .inr ⟨h1.trans h2, List.le_trans h1' h2'⟩

theorem keyLe_total (a b : Bytes × Bytes) : keyLe a b || keyLe b a := by
  rw [Bool.or_eq_true, keyLe_iff, keyLe_iff]
  by_cases hab : a.1 < b.1
  · exact .inl (.inl hab)
  · by_cases hba : b.1 < a.1
    · exact .inr (.inl hba)
    · have heq : a.1 = b.1 := List.le_antisymm hba hab
      rcases List.le_total a.2 b.2 with h | h
      · exact .inl (.inr ⟨heq, h⟩)
      · exact .inr (.inr ⟨heq.symm, h⟩)

/-- **The scan starts with the least**: nothing that is due comes before it by time and name. -/
theorem nextExpired_least (h : t.nextExpired now = some r) (hs : s ∈ due t now) :
    keyLe (expiryKey r) (expiryKey s) := by
  have hagree : ∀ a ∈ due t now, ∀ b ∈ due t now,
      SecretTable.expiryLe a b = keyLe (expiryKey a) (expiryKey b) := by
    intro a ha b hb
    obtain ⟨-, -, e, he, -⟩ := mem_due.mp ha
    obtain ⟨-, -, e', he', -⟩ := mem_due.mp hb
    simp [SecretTable.expiryLe, keyLe, expiryKey, he, he']
  have hmap := List.map_mergeSort hagree
  have hsorted := List.pairwise_mergeSort keyLe_trans keyLe_total ((due t now).map expiryKey)
  rw [← hmap, List.pairwise_map] at hsorted
  obtain ⟨rest, hrest⟩ := List.head?_eq_some_iff.mp h
  have hmem : s ∈ (due t now).mergeSort SecretTable.expiryLe := List.mem_mergeSort.mpr hs
  unfold due isDue at hsorted hmem
  rw [hrest] at hsorted hmem
  rcases List.mem_cons.mp hmem with rfl | hmem
  · have := keyLe_total (expiryKey s) (expiryKey s)
    simpa using this
  · exact (List.pairwise_cons.mp hsorted).1 s hmem

end Fuin.Store.Selections

import Fuin.Store.Versions

/-! # The secrets that are due

The rows the expiry scan chooses from (`due`). They have different names, and when a row is replaced
by a version that is not due itself, the rows that are due are the others (`due_insert`): so their
number decreases. -/

namespace Fuin.Store.Expiry

open Fuin.Utils Fuin.Store.Secrets Fuin.Store.Versions

/-- The current rows. -/
def current (t : SecretTable) : List SecretRow := t.rows.filter fun r => t.Current r

/-- The row is current, and `expires_at <= now`. -/
def isDue (t : SecretTable) (now : Bytes) (r : SecretRow) : Bool :=
  t.Current r && r.expiresAt.any fun e => decide (e ≤ now)

/-- The rows that are due. -/
def due (t : SecretTable) (now : Bytes) : List SecretRow := t.rows.filter (isDue t now)

variable {t u : SecretTable} {now n time : Bytes} {r s : SecretRow}

theorem isDue_iff : isDue t now r ↔ t.Current r ∧ ∃ e, r.expiresAt = some e ∧ e ≤ now := by
  simp only [isDue, Bool.and_eq_true, decide_eq_true_eq, Option.any_eq_true]

theorem mem_due : r ∈ due t now ↔
    r ∈ t.rows ∧ t.Current r ∧ ∃ e, r.expiresAt = some e ∧ e ≤ now := by
  rw [due, List.mem_filter, isDue_iff]

/-- What is due is current. -/
theorem length_due_le (t : SecretTable) (now : Bytes) :
    (due t now).length ≤ (current t).length := by
  have hsub : due t now =
      (current t).filter fun r => r.expiresAt.any fun e => decide (e ≤ now) := by
    unfold due current
    rw [List.filter_filter]
    exact List.filter_congr fun r _ => Bool.and_comm _ _
  rw [hsub]
  exact List.length_filter_le _ _

theorem nextExpired_eq_some (h : t.nextExpired now = some r) : r ∈ due t now :=
  List.mem_mergeSort.mp (List.mem_of_head? h)

theorem nextExpired_eq_none : t.nextExpired now = none ↔ due t now = [] := by
  unfold SecretTable.nextExpired
  rw [List.head?_eq_none_iff, ← List.length_eq_zero_iff, List.length_mergeSort,
    List.length_eq_zero_iff]
  rfl

/-- Rows that are due have different names. -/
theorem due_pairwise (t : SecretTable) (now : Bytes) :
    (due t now).Pairwise fun r s => r.name ≠ s.name :=
  List.pairwise_filter.mpr (t.compatible.imp fun hrs hr hs hn =>
    hrs.2.2 ⟨hn, (isDue_iff.mp hr).1.1, (isDue_iff.mp hs).1.1⟩)

/-- One of several rows with different names, and the others. -/
theorem length_others {l : List SecretRow} (hl : l.Pairwise fun r s => r.name ≠ s.name)
    (hr : r ∈ l) : (l.filter fun s => s.name ≠ r.name).length + 1 = l.length := by
  induction l with
  | nil => nomatch hr
  | cons s l ih =>
    obtain ⟨hs, hl⟩ := List.pairwise_cons.mp hl
    rcases List.mem_cons.mp hr with rfl | hr
    · have hall : l.filter (fun s => s.name ≠ r.name) = l :=
        List.filter_eq_self.mpr fun s hsl => decide_eq_true (Ne.symm (hs s hsl))
      rw [List.filter_cons_of_neg (by simp), hall, List.length_cons]
    · rw [List.filter_cons_of_pos (by simpa using hs r hr), List.length_cons, List.length_cons,
        ih hl hr]

/-- After the archiving no row of the name is active. -/
theorem archiveRow_archived (h : s.name = n) :
    (SecretTable.archiveRow n time s).isArchived = true := by
  unfold SecretTable.archiveRow SecretTable.isActiveOf
  split_ifs with hact
  · rfl
  · simpa [h] using hact

/-- A row of another name is current as before. -/
theorem current_insert (hu : (t.archive n time).insert r = some u) (hn : r.name = n)
    (hs : s.name ≠ n) : u.Current s ↔ t.Current s := by
  unfold SecretTable.Current
  rw [(SecretTable.insert_eq_some.mp hu).2.2, SecretTable.archive_rows]
  refine and_congr_right fun _ => ⟨fun h x hx hxn => ?_, fun h x hx hxn => ?_⟩
  · have := h _ (List.mem_append_left _ (List.mem_map_of_mem hx)) ((name_archiveRow n time x).trans hxn)
    rwa [(SecretTable.archiveRow_keepsKeys n time).version] at this
  · rcases List.mem_append.mp hx with hx | hx
    · obtain ⟨y, hy, rfl⟩ := List.mem_map.mp hx
      rw [(SecretTable.archiveRow_keepsKeys n time).version]
      exact h y hy ((name_archiveRow n time y).symm.trans hxn)
    · rw [List.mem_singleton.mp hx] at hxn
      exact absurd (hxn.symm.trans hn) hs

/-- **A version that is not due replaces the active one**: the other rows are due as before. -/
theorem due_insert (hu : (t.archive n time).insert r = some u) (hn : r.name = n)
    (hexp : ∀ e ∈ r.expiresAt, ¬ e ≤ now) :
    due u now = (due t now).filter fun s => s.name ≠ n := by
  have hnew : ¬ isDue u now r := fun h => by
    obtain ⟨-, e, he, hle⟩ := isDue_iff.mp h
    exact hexp e he hle
  have hold : ∀ s ∈ t.rows, (isDue u now ∘ SecretTable.archiveRow n time) s =
      (decide (s.name ≠ n) && isDue t now s) := by
    intro s _
    dsimp only [Function.comp_apply]
    by_cases hs : s.name = n
    · have hnot : isDue u now (SecretTable.archiveRow n time s) = false :=
        Bool.eq_false_iff.mpr fun h =>
          nomatch (archiveRow_archived hs).symm.trans (isDue_iff.mp h).1.1
      rw [hnot, decide_eq_false (not_not.mpr hs), Bool.false_and]
    · rw [archiveRow_of_ne hs, decide_eq_true hs, Bool.true_and, isDue, isDue,
        decide_eq_decide.mpr (current_insert hu hn hs)]
  unfold due
  rw [(SecretTable.insert_eq_some.mp hu).2.2, SecretTable.archive_rows, List.filter_append,
    List.filter_cons_of_neg hnew, List.filter_nil, List.append_nil, List.filter_map,
    List.filter_congr hold, List.filter_filter]
  refine (List.map_congr_left fun s hs => archiveRow_of_ne ?_).trans (List.map_id _)
  exact of_decide_eq_true (Bool.and_eq_true_iff.mp (List.mem_filter.mp hs).2).1

/-- What is due decreases. -/
theorem length_due_insert (hu : (t.archive n time).insert r = some u) (hn : r.name = n)
    (hexp : ∀ e ∈ r.expiresAt, ¬ e ≤ now) (hs : s ∈ due t now) (hsn : s.name = n) :
    (due u now).length + 1 = (due t now).length := by
  rw [due_insert hu hn hexp, ← hsn]
  exact length_others (due_pairwise t now) hs

end Fuin.Store.Expiry

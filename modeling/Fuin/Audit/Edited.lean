import Fuin.Audit.Rearranged

/-! # Editing one column

One column of one row of a verified log is replaced by another value that the schema admits. The
verifier notices the change exactly when the column then reads differently (`noticed_iff_visible`,
`Visible`): texts are read up to their first NUL, an empty actor as the default actor, a version
modulo `2 ^ 32`. So some edits go unnoticed (`not_all_edits_noticed`). -/

namespace Fuin.Audit.Edited

open Fuin.Utils Fuin.Crypto Fuin.Lib.Program Fuin.Lib.Chain
open Fuin.Store.Database Fuin.Audit.Table Fuin.Audit.Encoding Fuin.Audit.Verify Fuin.Audit.Log
open Fuin.Audit.Rearranged

variable {so : Sodium} {key : Block 32}

/-- A row with one column replaced. -/
inductive Edit (r : AuditRow) : AuditRow → Prop
  | entryId (v : ℤ) : Edit r { r with entryId := v }
  | timestamp (v : Bytes) : Edit r { r with timestamp := v }
  | action (v : Bytes) : Edit r { r with action := v }
  | actor (v : Bytes) : Edit r { r with actor := v }
  | target (v : Bytes) : Edit r { r with target := v }
  | targetVersion (v : Option ℤ) : Edit r { r with targetVersion := v }
  | result (v : Bytes) : Edit r { r with result := v }
  | prevHash (v : Bytes) : Edit r { r with prevHash := v }
  | entryHash (v : Bytes) : Edit r { r with entryHash := v }
  | hmacSignature (v : Bytes) : Edit r { r with hmacSignature := v }

/-- Two rows that do not read the same: texts up to their first NUL, an empty actor as the default
one, the version as an `int`, everything else as it is stored. -/
def Visible (r r' : AuditRow) : Prop :=
  r'.entryId ≠ r.entryId ∨ columnText r'.timestamp ≠ columnText r.timestamp ∨
    columnText r'.action ≠ columnText r.action ∨
    actorValue (columnText r'.actor) ≠ actorValue (columnText r.actor) ∨
    columnText r'.target ≠ columnText r.target ∨
    r'.targetVersion.map columnInt ≠ r.targetVersion.map columnInt ∨
    columnText r'.result ≠ columnText r.result ∨ r'.prevHash ≠ r.prevHash ∨
    r'.entryHash ≠ r.entryHash ∨ r'.hmacSignature ≠ r.hmacSignature

/-- The version that is read tells `NULL` from a number, and numbers modulo `2 ^ 32`. -/
theorem columnVersion_eq_iff {o o' : Option ℤ} {v : ℤ} (h : columnVersion o = .ok v) :
    columnVersion o' = .ok v ↔ o'.map columnInt = o.map columnInt := by
  unfold columnVersion at h ⊢
  cases o with
  | none =>
    cases h
    cases o' with
    | none => simp
    | some w =>
      simp only [Option.map_some, Option.map_none]
      split_ifs with hw
      · simp
      · simp only [Except.ok.injEq]
        refine iff_of_false (by omega) (by simp)
  | some u =>
    simp only at h
    split_ifs at h with hu
    cases h
    cases o' with
    | none =>
      simp only [Option.map_some, Option.map_none, Except.ok.injEq]
      refine iff_of_false (by omega) (by simp)
    | some w =>
      simp only [Option.map_some, Option.some.injEq]
      split_ifs with hw
      · refine iff_of_false (fun e => nomatch e) (by omega)
      · rw [Except.ok.injEq]

/-- The version of a row that was read is none or at least 1. -/
theorem columnVersion_nonneg {o : Option ℤ} {v : ℤ} (h : columnVersion o = .ok v) : 0 ≤ v := by
  unfold columnVersion at h
  cases o with
  | none => cases h; exact le_rfl
  | some u =>
    simp only at h
    split_ifs at h with hu
    cases h
    omega

/-- **Two rows read differently** exactly when the entries read from them differ after the
defaults. -/
theorem visible_iff {r r' : AuditRow} {s s' : Signed} (h : readRow r = .ok s)
    (h' : readRow r' = .ok s') : Visible r r' ↔ s'.norm ≠ s.norm := by
  simp only [readRow, bind_eq_ok, require_eq_ok, pure_eq_ok] at h h'
  obtain ⟨_, -, v, hv, p, hp, k, hk, q, hq, rfl⟩ := h
  obtain ⟨_, -, v', hv', p', hp', k', hk', q', hq', rfl⟩ := h'
  rw [columnHash_eq_ok] at hp hk hq hp' hk' hq'
  have hn : (if 0 < v then v else 0) = v := by
    have := columnVersion_nonneg hv
    split_ifs <;> omega
  have hn' : (if 0 < v' then v' else 0) = v' := by
    have := columnVersion_nonneg hv'
    split_ifs <;> omega
  have hver : r'.targetVersion.map columnInt = r.targetVersion.map columnInt ↔ v' = v := by
    rw [← columnVersion_eq_iff hv, hv', Except.ok.injEq]
  simp only [Visible, Signed.norm, Entry.norm, hn, hn', hver, hp, hk, hq, hp', hk', hq', ne_eq,
    Signed.mk.injEq, Entry.mk.injEq, Subtype.ext_iff]
  tauto

/-- A row that reads like one that can be read can be read. -/
theorem read_of_not_visible {r r' : AuditRow} {s : Signed} (h : readRow r = .ok s)
    (hv : ¬ Visible r r') : ∃ s', readRow r' = .ok s' := by
  simp only [Visible, not_or, not_not] at hv
  obtain ⟨h1, -, -, -, -, h6, -, h8, h9, h10⟩ := hv
  simp only [readRow, bind_eq_ok, pure_eq_ok] at h ⊢
  obtain ⟨u, hid, v, hver, p, hp, k, hk, q, hq, rfl⟩ := h
  rw [h1, h8, h9, h10]
  exact ⟨_, u, hid, v, (columnVersion_eq_iff hver).mpr h6, p, hp, k, hk, q, hq, rfl⟩

theorem view_eq_of_not_visible {r r' : AuditRow} {s : Signed} (h : readRow r = .ok s)
    (hv : ¬ Visible r r') : view r' = view r := by
  obtain ⟨s', hs'⟩ := read_of_not_visible h hv
  have hnorm : s'.norm = s.norm := by
    by_contra hne
    exact hv ((visible_iff h hs').mpr hne)
  rw [view_eq_ok.mpr ⟨s', hs', hnorm⟩, view_eq_ok.mpr ⟨s, h, rfl⟩]

/-- A row put back with the id it had keeps its place. -/
theorem place_middle {P K : List AuditRow} {r r' : AuditRow}
    (h : (P ++ r :: K).Pairwise fun r s => r.entryId < s.entryId) (hid : r'.entryId = r.entryId) :
    AuditTable.place (P ++ K) r' = P ++ r' :: K := by
  obtain ⟨-, hK, hPK⟩ := List.pairwise_append.mp h
  have hP : ∀ p ∈ P, p.entryId < r'.entryId := fun p hp => hid ▸ hPK p hp r (by simp)
  have hK' : ∀ k ∈ K, ¬ k.entryId < r'.entryId := fun k hk => by
    have := (List.pairwise_cons.mp hK).1 k hk
    omega
  unfold AuditTable.place
  rw [List.takeWhile_append_of_pos (by simpa using hP), List.dropWhile_append_of_pos (by simpa using hP)]
  cases K with
  | nil => simp
  | cons k K =>
    have hk := hK' k (by simp)
    simp [hk]

/-- Equal hashes of two entries: without a collision the entries agree after the defaults. -/
theorem norm_eq_of_hash {r r' : AuditRow} {s s' : Signed} (hr : r.Admitted) (hr' : r'.Admitted)
    (h : readRow r = .ok s) (h' : readRow r' = .ok s') (hh : s.HashOk so) (hh' : s'.HashOk so)
    (hsha : so.CollisionFree (hashedMessages [r, r'])) (heq : s.hash = s'.hash) :
    s.entry.norm = s'.entry.norm ∧ s.prev = s'.prev := by
  obtain ⟨m, hm, ha⟩ := hashOk_iff.mp hh
  obtain ⟨m', hm', ha'⟩ := hashOk_iff.mp hh'
  obtain rfl : m = m' := hsha ⟨r, by simp, s, h, hm⟩ ⟨r', by simp, s', h', hm'⟩
    (by rw [ha, ha', heq])
  obtain ⟨h1, h2, -⟩ := buildEntryBytes_inj (inRange_of_read hr h) (inRange_of_read hr' h') hm hm'
  exact ⟨h1, h2⟩

/-- The hash column decides nothing else that is read. -/
theorem same_but_hash {r : AuditRow} {v : Bytes} {s s' : Signed} (h : readRow r = .ok s)
    (h' : readRow { r with entryHash := v } = .ok s') :
    s'.entry = s.entry ∧ s'.prev = s.prev ∧ s'.sig = s.sig := by
  simp only [readRow, bind_eq_ok, pure_eq_ok] at h h'
  obtain ⟨_, -, w, hw, p, hp, k, hk, q, hq, rfl⟩ := h
  obtain ⟨_, -, w', hw', p', hp', k', hk', q', hq', rfl⟩ := h'
  rw [hw] at hw'
  rw [hp] at hp'
  rw [hq] at hq'
  cases hw'
  cases hp'
  cases hq'
  exact ⟨rfl, rfl, rfl⟩

/-- An accepted row is signed under the key of its place. -/
theorem sigOk_of_place : ∀ {P K : List AuditRow} {r : AuditRow} {ss : List Signed} {s : Signed}
    {key prev : Block 32}, (P ++ r :: K).map readRow = ss.map .ok → Accepted so key prev ss →
      readRow r = .ok s → s.SigOk so (deriveRatchetKey so key P.length)
  | _, _, _, [], _, _, _, hss, _, _ => by simp at hss
  | [], _, _, u :: us, s, _, _, hss, hacc, hr => by
    simp only [List.nil_append, List.map_cons, List.cons.injEq] at hss
    have hu : s = u := Except.ok.inj (hr.symm.trans hss.1)
    rw [hu]
    exact hacc.2.2.1
  | p :: P, K, r, u :: us, s, _, _, hss, hacc, hr => by
    simp only [List.cons_append, List.map_cons, List.cons.injEq] at hss
    have hP := sigOk_of_place hss.2 hacc.2.2.2 hr
    exact hP

/-- The signature is determined by the rest of the entry. -/
theorem sig_eq_of_norm {s s' : Signed} (h : s.SigOk so key) (h' : s'.SigOk so key)
    (he : s.entry.norm = s'.entry.norm) (hp : s.prev = s'.prev) (hh : s.hash = s'.hash) :
    s.sig = s'.sig := by
  obtain ⟨m, hm, ha⟩ := sigOk_iff.mp h
  obtain ⟨m', hm', ha'⟩ := sigOk_iff.mp h'
  rw [← buildEntryBytes_norm, he, hp, hh, buildEntryBytes_norm, hm'] at hm
  cases hm
  rw [← ha, ← ha']

/-- A row that reads the same changes nothing for the verifier. -/
theorem verifyChain_of_not_visible {t t' : AuditTable} {P K : List AuditRow} {r r' : AuditRow}
    (ht : verifyChain so key t = .ok ()) (hrows : t.rows = P ++ r :: K)
    (hrows' : t'.rows = P ++ r' :: K) (hvis : ¬ Visible r r') :
    verifyChain so key t' = .ok () := by
  obtain ⟨ss, hss, hacc⟩ := verifyChain_eq_ok.mp ht
  obtain ⟨s, hs, hrs⟩ := mem_of_read hss (r := r) (by rw [hrows]; simp)
  have hview : t'.rows.map view = t.rows.map view := by
    rw [hrows, hrows', List.map_append, List.map_append, List.map_cons, List.map_cons,
      view_eq_of_not_visible hrs hvis]
  rw [map_view hss] at hview
  obtain ⟨us, hus, hnorms⟩ := readable_of_view hview
  exact verifyChain_eq_ok.mpr ⟨us, hus, (accepted_norm hnorms).mpr hacc⟩

/-- **The change of one column of one row is noticed** exactly when the row reads differently. -/
theorem noticed_iff_visible {t t' : AuditTable} {r r' : AuditRow}
    (ht : verifyChain so key t = .ok ()) (hr : r ∈ t.rows) (he : Edit r r')
    (ht' : t'.rows = AuditTable.place (t.rows.erase r) r')
    (hsha : so.CollisionFree (hashedMessages [r, r'])) :
    verifyChain so key t' ≠ .ok () ↔ Visible r r' := by
  obtain ⟨P, K, -, hrows, herase⟩ := List.exists_erase_eq hr
  have hsorted := t.sorted
  rw [hrows] at hsorted
  rw [herase] at ht'
  have hsplit (hid : r'.entryId = r.entryId) : t'.rows = P ++ r' :: K := by
    rw [ht', place_middle hsorted hid]
  obtain ⟨ss, hss, hacc⟩ := verifyChain_eq_ok.mp ht
  obtain ⟨s, hs, hrs⟩ := mem_of_read hss hr
  constructor
  · intro hrej
    by_contra hvis
    have hid : r'.entryId = r.entryId := by
      unfold Visible at hvis
      tauto
    exact hrej (verifyChain_of_not_visible ht hrows (hsplit hid) hvis)
  · intro hvis hok
    obtain ⟨us, hus, hacc'⟩ := verifyChain_eq_ok.mp hok
    have hr' : r' ∈ t'.rows := by
      rw [ht']
      exact AuditTable.mem_place.mpr (Or.inl rfl)
    obtain ⟨s', hs', hrs'⟩ := mem_of_read hus hr'
    have hh := hacc.hashOk s hs
    have hh' := hacc'.hashOk s' hs'
    have hnorm (h1 : s'.entry.norm = s.entry.norm) (h2 : s'.prev = s.prev) (h3 : s'.hash = s.hash)
        (h4 : s'.sig = s.sig) : False := by
      refine (visible_iff hrs hrs').mp hvis ?_
      cases s
      cases s'
      simp only at h1 h2 h3 h4
      simp only [Signed.norm, h1, h2, h3, h4]
    -- a row with its hash column unchanged is the row that was hashed
    have hkey (heq : r'.entryHash = r.entryHash) :
        s'.hash = s.hash ∧ s'.entry.norm = s.entry.norm ∧ s'.prev = s.prev := by
      have h3 : s'.hash = s.hash := by
        apply Subtype.ext
        rw [← hash_of_read hrs, ← hash_of_read hrs', heq]
      obtain ⟨h1, h2⟩ := norm_eq_of_hash (t.admitted r hr) (t'.admitted r' hr') hrs hrs' hh hh'
        hsha h3.symm
      exact ⟨h3, h1.symm, h2.symm⟩
    have hsig (heq : r'.hmacSignature = r.hmacSignature) : s'.sig = s.sig := by
      apply Subtype.ext
      rw [← sig_of_read hrs, ← sig_of_read hrs', heq]
    cases he with
    | entryHash v =>
      obtain ⟨h1, h2, h4⟩ := same_but_hash hrs hrs'
      refine hnorm (by rw [h1]) h2 ?_ h4
      unfold Signed.HashOk at hh hh'
      rw [h1, h2, hh] at hh'
      exact (Except.ok.inj hh').symm
    | hmacSignature v =>
      obtain ⟨h3, h1, h2⟩ := hkey rfl
      rw [hrows] at hss
      rw [hsplit rfl] at hus
      exact hnorm h1 h2 h3
        (sig_eq_of_norm (sigOk_of_place hus hacc' hrs') (sigOk_of_place hss hacc hrs) h1 h2 h3)
    | _ =>
      obtain ⟨h3, h1, h2⟩ := hkey rfl
      exact hnorm h1 h2 h3 (hsig rfl)

/-- The sample log with the actor emptied. -/
def emptiedRow : AuditRow := { sampleRow with actor := [] }

def emptiedTable : AuditTable := ⟨[emptiedRow], List.pairwise_singleton _ _, by decide +kernel⟩

theorem emptied_place : emptiedTable.rows =
    AuditTable.place (sampleDb.audit.rows.erase sampleRow) emptiedRow := by
  rw [sampleDb_rows]
  decide +kernel

theorem emptied_not_visible : ¬ Visible sampleRow emptiedRow := by
  simp only [Visible]
  decide +kernel

theorem emptied_view : view emptiedRow = view sampleRow := by decide +kernel

/-- Emptying the actor of the sample log is noticed if and only if it is visible. -/
theorem sample_noticed_iff_visible :
    verifyChain toy sampleKey emptiedTable ≠ .ok () ↔ Visible sampleRow emptiedRow :=
  noticed_iff_visible sampleDb_logged.verifyChain (by rw [sampleDb_rows]; simp) (.actor [])
    emptied_place ((hashedMessages_subsingleton emptied_view).injOn _)

/-- **Not every edit is noticed**, even without any collision: emptying an actor that is the default
actor is not. -/
theorem not_all_edits_noticed :
    ¬ ∀ (so : Sodium) (key : Block 32) (t t' : AuditTable) (r r' : AuditRow),
      verifyChain so key t = .ok () → r ∈ t.rows → Edit r r' → r' ≠ r →
      t'.rows = AuditTable.place (t.rows.erase r) r' →
      so.CollisionFree (hashedMessages [r, r']) →
      Set.InjOn (fun p : Block 32 × Bytes => so.auth p.1 p.2)
        (macMessages so key t ∪ macMessages so key t') →
      verifyChain so key t' ≠ .ok () := by
  intro h
  refine h toy sampleKey sampleDb.audit emptiedTable sampleRow emptiedRow
    sampleDb_logged.verifyChain (by rw [sampleDb_rows]; simp) (.actor []) (by decide +kernel)
    emptied_place ((hashedMessages_subsingleton emptied_view).injOn _)
    ((macMessages_subsingleton sampleDb_rows rfl emptied_view).injOn _) ?_
  exact verifyChain_of_not_visible sampleDb_logged.verifyChain
    (show _ = [] ++ sampleRow :: [] from sampleDb_rows) rfl emptied_not_visible

end Fuin.Audit.Edited

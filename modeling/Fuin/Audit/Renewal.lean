import Fuin.Audit.Rearranged
import Fuin.Audit.Resign
import Fuin.Store.Success

/-! # Which logs are signed again

`audit_resign_chain` reads the ids of the entries as 64-bit integers and names the rows that it
updates by 32-bit ones. So a log that verifies is signed again under another key if and only if its
ids are `int`s (`resign_iff`). If the last id is not, its signature goes to another entry or to none.
A log with a broken link is left as it is. -/

namespace Fuin.Audit.Renewal

open Fuin.Utils Fuin.Crypto Fuin.Lib.Program Fuin.Store.Database Fuin.Store.Success
open Fuin.Audit.Table Fuin.Audit.Encoding Fuin.Audit.Verify Fuin.Audit.Log Fuin.Audit.Resign
open Fuin.Audit.Rearranged

/-- Every row points to the entry hash of the row before it, the first one to `prev`. -/
def HashLinked : Bytes → List AuditRow → Prop
  | _, [] => True
  | prev, r :: rs => r.prevHash = prev ∧ HashLinked r.entryHash rs

/-- A link of the log is broken. -/
def BrokenLink (t : AuditTable) : Prop := ¬ HashLinked (Block.zero 32).1 t.rows

/-- **The log is signed again** in every run in which nothing fails: it verifies under the new key,
and nothing but its signatures has changed. -/
def SignsAgain (so : Sodium) (key : Block 32) (db : Db) : Prop :=
  ∀ es, Faultless es → ∃ t : AuditTable,
    (resignChain so key).run Stmt.exec es db = ({ db with audit := t }, .ok ()) ∧
      List.Forall₂ SameEntry db.audit.rows t.rows ∧ verifyChain so key t = .ok ()

/-- No two of these entries have one signature under the key. -/
def DistinctSignatures (so : Sodium) (key : Block 32) (t : AuditTable) : Prop :=
  ∀ u : AuditTable, List.Forall₂ SameEntry t.rows u.rows → verifyChain so key u = .ok () →
    (u.rows.map AuditRow.hmacSignature).Nodup

variable {so : Sodium} {key key' prev : Block 32} {db db' : Db}

/-! ### The first loop -/

/-- An accepted row passes the checks of the first loop, whatever the new key. -/
theorem resignItem_of_readRow (key' : Block 32) {r : AuditRow} {s : Signed}
    (hr : readRow r = .ok s) (hh : s.HashOk so) (hs : s.SigOk so key) :
    ∃ sig, resignItem so key' s.prev r = .ok (s.hash, sig) := by
  obtain ⟨m, hm, -⟩ := sigOk_iff.mp hs
  simp only [readRow, bind_eq_ok, pure_eq_ok] at hr
  obtain ⟨_, hid, version, hver, stored, hst, hash, hhash, sig, -, rfl⟩ := hr
  refine ⟨so.auth key' m, ?_⟩
  simp only [resignItem, bind_eq_ok, pure_eq_ok]
  refine ⟨(), require_eq_ok.mpr (require_eq_ok.mp hid), version, hver, stored, hst, hash, hhash, (),
    require_eq_ok.mpr rfl, hash, hh, (), require_eq_ok.mpr rfl, so.auth key' m, ?_, rfl⟩
  simp only [computeSignature, bind_eq_ok, pure_eq_ok]
  exact ⟨m, hm, rfl⟩

/-- **The first loop succeeds** on the rows of an accepted log. -/
theorem resignItems_of_accepted : ∀ {rs : List AuditRow} {ss : List Signed} {key prev : Block 32}
    (key' : Block 32), rs.map readRow = ss.map .ok → Accepted so key prev ss →
      ∃ items, resignItems so key' prev rs = .ok items
  | [], _, _, _, _, _, _ => ⟨[], rfl⟩
  | _ :: _, [], _, _, _, h, _ => nomatch h
  | r :: rs, s :: ss, key, prev, key', h, hacc => by
    rw [List.map_cons, List.map_cons, List.cons.injEq] at h
    obtain ⟨rfl, hh, hs, hrest⟩ := hacc
    obtain ⟨sig, hitem⟩ := resignItem_of_readRow key' h.1 hh hs
    obtain ⟨items, hitems⟩ := resignItems_of_accepted (advanceRatchetKey so key') h.2 hrest
    refine ⟨(r.entryId, sig) :: items, ?_⟩
    simp only [resignItems, bind_eq_ok, pure_eq_ok]
    exact ⟨_, hitem, items, hitems, rfl⟩

/-- What the first loop accepts is linked. -/
theorem hashLinked_of_resignItems : ∀ {rs : List AuditRow} {key prev : Block 32}
    {items : List (ℤ × Block 32)}, resignItems so key prev rs = .ok items → HashLinked prev.1 rs
  | [], _, _, _, _ => trivial
  | r :: rs, key, prev, items, h => by
    simp only [resignItems, bind_eq_ok] at h
    obtain ⟨⟨hash, sig⟩, hitem, items', hitems, -⟩ := h
    simp only [resignItem, bind_eq_ok, require_eq_ok, pure_eq_ok, Prod.mk.injEq] at hitem
    obtain ⟨-, -, -, -, stored, hst, hash', hh, -, rfl, -, -, -, -, -, -, rfl, -⟩ := hitem
    refine ⟨columnHash_eq_ok.mp hst, ?_⟩
    rw [columnHash_eq_ok.mp hh]
    exact hashLinked_of_resignItems hitems

/-- **A log with a broken link** is left as it is, in every run. -/
theorem resignChain_broken (h : BrokenLink db.audit) (es : ℕ → Input) :
    ∃ e, (resignChain so key).run Stmt.exec es db = (db, .error e) := by
  obtain ⟨e, he⟩ : ∃ e, resignItems so key (Block.zero 32) db.audit.rows = .error e := by
    cases hitems : resignItems so key (Block.zero 32) db.audit.rows with
    | error e => exact ⟨e, rfl⟩
    | ok items => exact absurd (hashLinked_of_resignItems hitems) h
  unfold resignChain
  simp only [Prog.bind_def]
  rcases run_lib_cases with hrun | hrun
  · exact ⟨_, hrun⟩
  · rw [hrun]
    rcases run_select_cases with hrun | hrun
    · exact ⟨_, hrun⟩
    · rw [hrun, he]
      exact ⟨e, rfl⟩

/-! ### Accepted logs of the same entries -/

/-- What is read from two rows of one entry differs in the signature only. -/
theorem readRow_same {r r' : AuditRow} {s s' : Signed} (h : SameEntry r r')
    (hr : readRow r = .ok s) (hr' : readRow r' = .ok s') :
    s'.entry = s.entry ∧ s'.prev = s.prev ∧ s'.hash = s.hash ∧ r.hmacSignature = s.sig.1 ∧
      r'.hmacSignature = s'.sig.1 := by
  rw [h] at hr'
  simp only [readRow, bind_eq_ok, require_eq_ok, pure_eq_ok] at hr hr'
  obtain ⟨-, -, v, hv, p, hp, e, he, g, hg, rfl⟩ := hr
  obtain ⟨-, -, v', hv', p', hp', e', he', g', hg', rfl⟩ := hr'
  cases hv.symm.trans hv'
  cases hp.symm.trans hp'
  cases he.symm.trans he'
  exact ⟨rfl, rfl, rfl, columnHash_eq_ok.mp hg, columnHash_eq_ok.mp hg'⟩

theorem same_of_same {rs as bs : List AuditRow} (ha : List.Forall₂ SameEntry rs as)
    (hb : List.Forall₂ SameEntry rs bs) : List.Forall₂ SameEntry as bs := by
  induction ha generalizing bs with
  | nil =>
    cases hb
    exact .nil
  | cons ha _ ih =>
    cases hb with
    | cons hb hbs =>
      refine .cons ?_ (ih hbs)
      unfold SameEntry at ha hb ⊢
      rw [ha, hb]

/-- **The signatures are determined**: two logs of the same entries that verify under one key are
the same. -/
theorem rows_unique : ∀ {rs rs' : List AuditRow} {ss ss' : List Signed} {key prev : Block 32},
    List.Forall₂ SameEntry rs rs' → rs.map readRow = ss.map .ok → rs'.map readRow = ss'.map .ok →
      Accepted so key prev ss → Accepted so key prev ss' → rs' = rs := by
  intro rs rs' ss ss' key prev h
  induction h generalizing ss ss' key prev with
  | nil => exact fun _ _ _ _ => rfl
  | @cons r r' rs rs' hr _ ih =>
    intro hss hss' hacc hacc'
    cases ss with
    | nil => nomatch hss
    | cons s ss =>
      cases ss' with
      | nil => nomatch hss'
      | cons s' ss' =>
        rw [List.map_cons, List.map_cons, List.cons.injEq] at hss hss'
        obtain ⟨hentry, hprev, hhash, hsig, hsig'⟩ := readRow_same hr hss.1 hss'.1
        obtain ⟨-, -, hs, hrest⟩ := hacc
        obtain ⟨-, -, hs', hrest'⟩ := hacc'
        have heq : s'.sig = s.sig := by
          unfold Signed.SigOk at hs hs'
          rw [hentry, hprev, hhash, hs] at hs'
          exact (Except.ok.inj hs').symm
        have hrow : r' = r := by
          rw [hr, hsig', heq, ← hsig]
        rw [hhash] at hrest'
        rw [hrow, ih hss.2 hss'.2 hrest hrest']

/-! ### The second loop -/

/-- One row has the id of a row. -/
theorem matching_self {t : AuditTable} {r : AuditRow} (h : r ∈ t.rows) :
    t.matching r.entryId = 1 := by
  obtain ⟨before, after, hrows⟩ := List.append_of_mem h
  have hsorted := t.sorted
  rw [hrows, List.pairwise_append, List.pairwise_cons] at hsorted
  obtain ⟨-, ⟨hafter, -⟩, hbefore⟩ := hsorted
  have h1 : before.filter (fun x => x.entryId = r.entryId) = [] :=
    List.filter_eq_nil_iff.mpr fun x hx => by simpa using (hbefore x hx r (by simp)).ne
  have h2 : after.filter (fun x => x.entryId = r.entryId) = [] :=
    List.filter_eq_nil_iff.mpr fun x hx => by simpa using (hafter x hx).ne'
  unfold AuditTable.matching
  rw [hrows, List.filter_append, List.filter_cons_of_pos (by simp), h1, h2]
  rfl

/-- **The second loop on ids that are `int`s** signs the rows that are left. -/
theorem updateSignatures_run : ∀ {ss : List Signed} (before : List AuditRow)
    {rs : List AuditRow} (db : Db) {es : ℕ → Input}, Faultless es → db.audit.rows = before ++ rs → ss.length = rs.length →
      (∀ r ∈ rs, 1 ≤ r.entryId ∧ r.entryId ≤ intMax) →
        ∃ t : AuditTable, (updateSignatures (List.zipWith (fun r s => (r.entryId, s.sig)) rs ss)).run
          Stmt.exec es db = ({ db with audit := t }, .ok ()) ∧ t.rows = before ++ resignRows rs ss
  | [], before, [], db, es, _, hrows, _, _ => ⟨db.audit, rfl, hrows⟩
  | [], _, _ :: _, _, _, _, _, hlen, _ => nomatch hlen
  | _ :: _, _, [], _, _, _, _, hlen, _ => nomatch hlen
  | s :: ss, before, r :: rs, db, es, hes, hrows, hlen, hint => by
    have hmem : r ∈ db.audit.rows := by rw [hrows]; simp
    have hcol : columnInt r.entryId = r.entryId := by
      obtain ⟨h1, h2⟩ := hint r List.mem_cons_self
      unfold intMax at h2
      exact columnInt_of_lt (by omega) (by omega)
    have hsplit : (db.audit.sign r.entryId s.sig.1).rows = (before ++ [resigned r s.sig]) ++ rs := by
      rw [sign_rows hrows, List.append_assoc]
      rfl
    have hwrite : (Write.updateSignature (columnInt r.entryId) s.sig.1).apply db =
        some ({ db with audit := db.audit.sign r.entryId s.sig.1 }, 1) := by
      simp only [Write.apply, hcol, matching_self hmem]
    obtain ⟨t, hrun, ht⟩ := updateSignatures_run _
      { db with audit := db.audit.sign r.entryId s.sig.1 } ((hes.drop 1).drop 1) hsplit
      (Nat.succ.inj hlen) fun x hx => hint x (List.mem_cons_of_mem r hx)
    refine ⟨t, ?_, by rw [ht, List.append_assoc]; rfl⟩
    simp only [List.zipWith_cons_cons, updateSignatures, Prog.bind_def]
    rw [run_write_bind hes hwrite, run_require_bind rfl, run_lib_bind (hes.drop 1)]
    exact hrun

/-- **A log whose ids are `int`s is signed again.** -/
theorem signsAgain_of_int (hv : verifyChain so key db.audit = .ok ())
    (h : ∀ r ∈ db.audit.rows, r.entryId ≤ intMax) : SignsAgain so key' db := by
  intro es hes
  obtain ⟨us, hus, hacc⟩ := verifyChain_eq_ok.mp hv
  obtain ⟨items, hitems⟩ := resignItems_of_accepted key' hus hacc
  obtain ⟨ss, hss, hacc', hlen, rfl⟩ := resignItems_eq_ok hitems
  have hint : ∀ r ∈ db.audit.rows, 1 ≤ r.entryId ∧ r.entryId ≤ intMax := fun r hr => by
    have hread : readRow r ∈ us.map (Except.ok : Signed → Except Status Signed) :=
      hus ▸ List.mem_map_of_mem hr
    obtain ⟨u, -, hu⟩ := List.mem_map.mp hread
    obtain ⟨_, hid, -⟩ := bind_eq_ok.mp hu.symm
    exact ⟨require_eq_ok.mp hid, h r hr⟩
  obtain ⟨t, hrun, ht⟩ := updateSignatures_run [] _ (((hes.drop 1).drop 1).drop 3) rfl hlen
    hint
  refine ⟨t, ?_, ?_, verifyChain_eq_ok.mpr ⟨ss, ?_, hacc'⟩⟩
  · unfold resignChain
    simp only [Prog.bind_def]
    rw [run_lib_bind hes, run_select_bind (hes.drop 1), hitems, Prog.ofExcept_ok, Prog.ret_bind,
      run_libs_bind ((hes.drop 1).drop 1)]
    obtain ⟨k, hk⟩ := Prog.run_bind_ok (fun _ => Sql.lib .storage) hrun
    exact hk.trans (run_lib ((((hes.drop 1).drop 1).drop 3).drop k))
  · rw [ht]
    exact resignRows_same hlen
  · rw [ht]
    exact hss

/-- What the last update does. -/
theorem updateSignatures_concat {id : ℤ} {sig : Block 32} : ∀ {items : List (ℤ × Block 32)} {db : Db},
    (updateSignatures (items ++ [(id, sig)])).Runs Stmt.exec db db' (.ok ()) →
      ∃ t : AuditTable, t.matching (columnInt id) = 1 ∧ db'.audit = t.sign (columnInt id) sig.1
  | [], db, h => by
    obtain ⟨db₁, n, hw, h1⟩ := Sql.runs_write_bind h
    obtain ⟨_, hn, h2⟩ := Prog.runs_ofExcept_bind h1
    simp only [Write.apply, Option.some.injEq, Prod.mk.injEq] at hw
    obtain ⟨rfl, rfl⟩ := hw
    obtain ⟨rfl, -⟩ := Prog.runs_ret (Sql.runs_lib_bind h2)
    exact ⟨db.audit, require_eq_ok.mp hn, rfl⟩
  | (_, _) :: _, db, h => by
    obtain ⟨db₁, n, -, h1⟩ := Sql.runs_write_bind h
    obtain ⟨_, -, h2⟩ := Prog.runs_ofExcept_bind h1
    exact updateSignatures_concat (Sql.runs_lib_bind h2)

/-- **If the last id is no `int`**, its signature goes to another entry or to none. -/
theorem int_of_signsAgain (hd : DistinctSignatures so key db.audit) (h : SignsAgain so key db) :
    ∀ r ∈ db.audit.rows, r.entryId ≤ intMax := by
  intro r hr
  by_contra hbig
  obtain ⟨t, hrun, hsame, hv⟩ := h (fun _ => ⟨false, none, Block.zero⟩) fun _ => rfl
  have hnodup := hd t hsame hv
  obtain ⟨us, hus, hacc⟩ := verifyChain_eq_ok.mp hv
  have hruns : (resignChain so key).Runs Stmt.exec db { db with audit := t } (.ok ()) := ⟨_, hrun⟩
  obtain ⟨items, hitems, h1⟩ := Sql.runs_select_bind (Sql.runs_lib_bind hruns)
  obtain ⟨_, db₁, h2, h3⟩ := Prog.runs_bind (Sql.runs_libs_bind h1)
  obtain rfl := Sql.readOnly_lib.runs h3
  obtain ⟨ss, hss, hacc', hlen, rfl⟩ := resignItems_eq_ok hitems
  have hrows : t.rows = resignRows db.audit.rows ss :=
    rows_unique (same_of_same (resignRows_same hlen) hsame) hss hus hacc' hacc
  -- The last id is the greatest.
  obtain ⟨last, hlast⟩ : ∃ last, db.audit.lastRow = some last := by
    cases hl : db.audit.lastRow with
    | none => exact absurd (List.getLast?_eq_none_iff.mp hl ▸ hr) List.not_mem_nil
    | some last => exact ⟨last, rfl⟩
  have hle := AuditTable.le_last hlast hr
  obtain ⟨l, hl⟩ := List.getLast?_eq_some_iff.mp hlast
  obtain ⟨sl, s, rfl⟩ : ∃ sl s, ss = sl ++ [s] := by
    refine (List.eq_nil_or_concat' ss).resolve_left fun hnil => ?_
    rw [hnil, hl] at hlen
    simp at hlen
  have hlen' : l.length = sl.length := by
    rw [hl] at hlen
    simpa using hlen.symm
  rw [hl, List.zipWith_append hlen'] at h2
  obtain ⟨t₁, hone, ht⟩ := updateSignatures_concat h2
  -- The row that was signed last has its signature, and so has the last one.
  obtain ⟨q, hq⟩ := List.exists_mem_of_length_pos (Nat.lt_of_lt_of_eq Nat.one_pos hone.symm)
  obtain ⟨hqmem, hqid⟩ := List.mem_filter.mp hq
  have hqid : q.entryId = columnInt last.entryId := of_decide_eq_true hqid
  have hqt : { q with hmacSignature := s.sig.1 } ∈ t.rows := by
    have hmap := List.mem_map_of_mem
      (f := fun x : AuditRow => if x.entryId = columnInt last.entryId then
        { x with hmacSignature := s.sig.1 } else x) hqmem
    rw [if_pos hqid] at hmap
    have htrows : t.rows = (t₁.sign (columnInt last.entryId) s.sig.1).rows := congrArg _ ht
    rw [htrows]
    exact hmap
  have hlt : resigned last s.sig ∈ t.rows := by
    rw [hrows, hl, resignRows, List.zipWith_append hlen']
    simp
  have heq := List.inj_on_of_nodup_map hnodup hqt hlt rfl
  have hid := congrArg AuditRow.entryId heq
  simp only [resigned] at hid
  have hcol := (columnInt_lt last.entryId).2
  unfold intMax at hbig
  omega

/-- **Which logs are signed again**: a log that verifies is signed again under another key, one that
gives no two entries the same signature, if and only if its ids are `int`s; and a log with a broken
link is left as it is, with an error. -/
theorem resign_iff (hv : verifyChain so key db.audit = .ok ())
    (hd : DistinctSignatures so key' db.audit) :
    (SignsAgain so key' db ↔ ∀ r ∈ db.audit.rows, r.entryId ≤ intMax) ∧
      ∀ broken : Db, BrokenLink broken.audit → ∀ es, ∃ e,
        (resignChain so key').run Stmt.exec es broken = (broken, .error e) :=
  ⟨⟨int_of_signsAgain hd, signsAgain_of_int hv⟩, fun _ hb es => resignChain_broken hb es⟩

/-! ### Two logs of one entry -/

/-- One entry has one signature. -/
theorem distinctSignatures_singleton {t : AuditTable} {r : AuditRow} (h : t.rows = [r]) :
    DistinctSignatures so key t := by
  intro u hu _
  have hlen := hu.length_eq
  rw [h, List.length_singleton] at hlen
  obtain ⟨s, hs⟩ := List.length_eq_one_iff.mp hlen.symm
  rw [hs]
  exact List.nodup_singleton _

/-- Another key. -/
def otherKey : Block 32 := Block.fill 32 9

theorem sampleDb_signed_again : SignsAgain toy otherKey sampleDb :=
  (resign_iff sampleDb_logged.verifyChain (distinctSignatures_singleton sampleDb_rows)).1.mpr
    fun r hr => by
      rw [sampleDb_rows, List.mem_singleton] at hr
      rw [hr]
      decide

/-- An entry whose id is no `int`. -/
def largeRow : AuditRow := { sampleRow with
  entryId := 2147483648
  entryHash := [124, 74, 33, 105, 12, 20, 233, 211, 121, 12, 10, 49, 216, 155, 104, 212, 80, 129,
    104, 98, 127, 91, 158, 166, 35, 109, 72, 79, 198, 226, 108, 20]
  hmacSignature := [125, 180, 118, 86, 180, 128, 75, 195, 6, 219, 142, 121, 205, 147, 181, 238, 248,
    18, 197, 173, 229, 20, 157, 197, 202, 65, 18, 13, 149, 75, 81, 217] }

/-- The log with this entry. -/
def largeDb : Db where
  secrets := .empty
  audit := ⟨[largeRow], List.pairwise_singleton _ _, fun r hr => by
    rw [List.mem_singleton.mp hr]
    decide⟩
  metadata _ := none
  authFailures := []

/-- **Not every log that verifies is signed again.** -/
theorem large_id_not_signed :
    ¬ ∀ (so : Sodium) (key key' : Block 32) (db : Db), verifyChain so key db.audit = .ok () →
      SignsAgain so key' db := by
  intro h
  have hagain := h toy sampleKey otherKey largeDb (by decide +kernel)
  have hint := int_of_signsAgain (distinctSignatures_singleton rfl) hagain largeRow
    List.mem_cons_self
  exact absurd hint (by decide)

end Fuin.Audit.Renewal

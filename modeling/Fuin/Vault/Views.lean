import Fuin.Store.Selections
import Fuin.Vault.Calls
import Fuin.Vault.Reports

/-! # What is active, in every view

The point queries, the listing, the expiry scans and the security report ask for the active rows with
the same condition. Over a table whose rows are as the program writes them, apart from which of them
are archived, they all describe the same rows, and the counts of the report add up
(`views_agree`). -/

namespace Fuin.Vault.Views

open Fuin.Utils Fuin.Time Fuin.Crypto Fuin.Lib.Program Fuin.Store.Secrets Fuin.Store.Database
open Fuin.Store.Expiry Fuin.Store.Selections Fuin.Kdf Fuin.Vault.Rows Fuin.Vault.Transactions
open Fuin.Vault.Operations Fuin.Vault.Observed Fuin.Vault.Reports Fuin.Vault.Rules
open Fuin.Vault.Calls (run_sql)

/-! ### Rows -/

/-- A row with columns as the program writes them. -/
structure WellFormed (so : Sodium) (keys : Subkeys) (r : SecretRow) : Prop where
  name : r.name ≠ [] ∧ (0 : UInt8) ∉ r.name
  display : ∃ name, decryptDisplayName so keys (columnText r.name) r.nameNonce r.encryptedName =
    .ok name
  version : 1 ≤ r.version ∧ r.version ≤ intMax
  expiry : ∀ e ∈ r.expiresAt, ∃ t s, formatIso8601 t = .ok s ∧ e = s.bytes
  id : (columnText r.id).bytes.length < 37
  createdAt : (columnText r.createdAt).bytes.length < 21
  nonceCounter : 0 ≤ r.nonceCounter
  contents : r.ciphertext ≠ [] ∧ r.encryptedDek ≠ [] ∧ r.nonce ≠ [] ∧ r.dekNonce ≠ []
  nonces : r.nonce.length ≤ 32 ∧ r.dekNonce.length ≤ 32
  commitment : r.keyCommitment.length = 64

variable {so : Sodium} {keys : Subkeys} {r : SecretRow} {text : CString} {t : SecretTable}

theorem WellFormed.columnInt_version (h : WellFormed so keys r) : columnInt r.version = r.version := by
  obtain ⟨h1, h2⟩ := h.version
  unfold intMax at h2
  exact columnInt_of_lt (by omega) (by omega)

theorem WellFormed.lengths (h : WellFormed so keys r) :
    r.nameNonce.length = 24 ∧ 16 < r.encryptedName.length ∧ r.encryptedName.length ≤ 272 := by
  obtain ⟨name, hname⟩ := h.display
  simp only [decryptDisplayName, bind_eq_ok, require_eq_ok] at hname
  obtain ⟨_, ⟨-, hlengths⟩, -⟩ := hname
  exact hlengths

theorem rotationInterval_nonneg (h : r.Admitted) : 0 ≤ r.rotationInterval.getD 0 := by
  cases hi : r.rotationInterval with
  | none => exact le_rfl
  | some i => exact (h.2 i hi).le

/-- A time of expiry is read as it was written. -/
theorem WellFormed.columnText_expiry (h : WellFormed so keys r) {e : Bytes} (he : r.expiresAt = some e) :
    ∃ s, columnText e = s ∧ s.bytes = e ∧ s.bytes.length < 21 ∧ s.bytes ≠ [] := by
  obtain ⟨t, s, hs, rfl⟩ := h.expiry e he
  exact ⟨s, columnText_of_noNul s.noNul, rfl, formatIso8601_length hs⟩

/-- **The metadata of a row** can be read. -/
theorem WellFormed.readMetadata_ok (h : WellFormed so keys r) (hadm : r.Admitted) :
    ∃ m, readMetadata r = .ok m ∧ m.version = r.version := by
  have hexpires : ∃ e, r.expiresAt.mapM (copyText 21) = .ok e := by
    cases he : r.expiresAt with
    | none => exact ⟨none, rfl⟩
    | some e =>
      obtain ⟨s, hs, -, hlen, -⟩ := h.columnText_expiry he
      have hcopy : copyText 21 e = .ok s := copyText_eq_ok.mpr ⟨hs.symm, hlen⟩
      exact ⟨some s, by rw [Option.mapM_some, hcopy]; rfl⟩
  obtain ⟨expires, hexpires⟩ := hexpires
  refine ⟨⟨columnText r.id, columnInt r.version, r.nonceCounter, r.nameNonce, r.encryptedName,
    columnText r.createdAt, expires, r.rotationInterval.getD 0⟩, ?_, h.columnInt_version⟩
  have hversion : 1 ≤ columnInt r.version := by rw [h.columnInt_version]; exact h.version.1
  simp only [readMetadata, bind_eq_ok, pure_eq_ok, require_eq_ok, copyText_eq_ok]
  exact ⟨_, ⟨rfl, h.id⟩, (), h.lengths, _, ⟨rfl, h.createdAt⟩, expires, hexpires, (),
    rotationInterval_nonneg hadm, (), ⟨hversion, h.nonceCounter⟩, rfl⟩

/-- **The row** can be loaded. -/
theorem WellFormed.copySecretRow_ok (h : WellFormed so keys r) (hadm : r.Admitted) :
    ∃ row, copySecretRow r = .ok row ∧ row.version = r.version := by
  have halgorithm : (columnText r.algorithm).bytes.length < 32 := by
    have hall : ∀ a ∈ algorithmNames, (columnText a).bytes.length < 32 := by decide
    exact hall _ hadm.1
  have hversion : 1 ≤ columnInt r.version := by rw [h.columnInt_version]; exact h.version.1
  refine ⟨⟨columnText r.id, columnInt r.version, ⟨columnText r.algorithm, r.ciphertext,
    r.encryptedDek, r.nonce, r.dekNonce, r.keyCommitment⟩⟩, ?_, h.columnInt_version⟩
  simp only [copySecretRow, bind_eq_ok, pure_eq_ok, require_eq_ok, copyText_eq_ok]
  exact ⟨_, ⟨rfl, h.id⟩, (), hversion, _, ⟨rfl, halgorithm⟩, (), h.contents, (), h.nonces, (),
    h.commitment, rfl⟩

/-- What the listing shows of a row. -/
structure Shows (so : Sodium) (keys : Subkeys) (text : CString) (r : SecretRow) (item : ListItem) :
    Prop where
  name : decryptDisplayName so keys (columnText r.name) r.nameNonce r.encryptedName = .ok item.name
  version : item.version = r.version
  archived : item.isArchived = r.isArchived
  expired : item.isExpired = true ↔
    r.isArchived = false ∧ ∃ e, r.expiresAt = some e ∧ e ≤ text.bytes

theorem WellFormed.expiryIsDue_iff (h : WellFormed so keys r) (htext : text.bytes ≠ []) {e : Bytes}
    (he : r.expiresAt = some e) : expiryIsDue (columnText e) text = true ↔ e ≤ text.bytes := by
  obtain ⟨s, hs, rfl, -, hne⟩ := h.columnText_expiry he
  rw [hs]
  simp [expiryIsDue, hne, htext]

/-- A row of the listing, if its columns can be shown. -/
theorem listItem_ok {name : CString} (hadm : r.Admitted)
    (hcolumns : r.name ≠ [] ∧ r.nameNonce ≠ [] ∧ r.encryptedName ≠ [])
    (hname : decryptDisplayName so keys (columnText r.name) r.nameNonce r.encryptedName = .ok name)
    (hversion : 1 ≤ columnInt r.version) :
    listItem so keys text r = .ok ⟨name, columnInt r.version, columnText r.algorithm,
      columnText r.createdAt, columnText r.updatedAt, r.expiresAt.map columnText,
      r.rotationInterval.getD 0, r.isArchived,
      !r.isArchived && (r.expiresAt.map columnText).any fun t => expiryIsDue t text⟩ := by
  simp only [listItem, bind_eq_ok, pure_eq_ok, require_eq_ok]
  exact ⟨(), hcolumns, name, hname, (), rotationInterval_nonneg hadm, (), hversion, rfl⟩

/-- **A row of the listing.** -/
theorem WellFormed.listItem_ok (h : WellFormed so keys r) (hadm : r.Admitted) (htext : text.bytes ≠ []) :
    ∃ item, listItem so keys text r = .ok item ∧ Shows so keys text r item := by
  obtain ⟨name, hname⟩ := h.display
  obtain ⟨h24, h16, -⟩ := h.lengths
  have hversion : 1 ≤ columnInt r.version := by rw [h.columnInt_version]; exact h.version.1
  have hcolumns : r.name ≠ [] ∧ r.nameNonce ≠ [] ∧ r.encryptedName ≠ [] :=
    ⟨h.name.1, List.ne_nil_of_length_pos (by omega), List.ne_nil_of_length_pos (by omega)⟩
  refine ⟨_, Views.listItem_ok hadm hcolumns hname hversion, hname, h.columnInt_version, rfl, ?_⟩
  simp only [Bool.and_eq_true, Bool.not_eq_true', Option.any_map, Option.any_eq_true]
  refine and_congr_right fun _ => exists_congr fun e => and_congr_right fun he => ?_
  exact h.expiryIsDue_iff htext he

/-- **A row of the expiry scan.** -/
theorem WellFormed.expiryItem_ok (h : WellFormed so keys r) (htext : text.bytes ≠ [])
    (hdue : isDue t text.bytes r = true) :
    ∃ x, expiryItem so keys text r = .ok x ∧ x.version = r.version ∧ x.isExpired = true ∧
      decryptDisplayName so keys (columnText r.name) r.nameNonce r.encryptedName = .ok x.name := by
  obtain ⟨name, hname⟩ := h.display
  obtain ⟨h24, h16, -⟩ := h.lengths
  obtain ⟨-, e, he, hle⟩ := isDue_iff.mp hdue
  have hversion : 1 ≤ columnInt r.version := by rw [h.columnInt_version]; exact h.version.1
  have hcolumns : r.name ≠ [] ∧ r.nameNonce ≠ [] ∧ r.encryptedName ≠ [] ∧ 1 ≤ columnInt r.version :=
    ⟨h.name.1, List.ne_nil_of_length_pos (by omega), List.ne_nil_of_length_pos (by omega), hversion⟩
  refine ⟨⟨name, columnInt r.version, columnText e, expiryIsDue (columnText e) text⟩, ?_,
    h.columnInt_version, (h.expiryIsDue_iff htext he).mpr hle, hname⟩
  simp only [expiryItem, bind_eq_ok, pure_eq_ok, require_eq_ok, he, Option.getD_some]
  exact ⟨(), hcolumns, name, hname, rfl⟩

/-- A computation that succeeds for every element succeeds for the list. -/
theorem mapM_forall₂ {α β : Type} {f : α → Except Status β} {P : α → β → Prop} :
    ∀ {l : List α}, (∀ a ∈ l, ∃ b, f a = .ok b ∧ P a b) → ∃ bs, l.mapM f = .ok bs ∧ List.Forall₂ P l bs
  | [], _ => ⟨[], rfl, .nil⟩
  | a :: l, h => by
    obtain ⟨b, hb, hP⟩ := h a List.mem_cons_self
    obtain ⟨bs, hbs, hall⟩ := mapM_forall₂ fun x hx => h x (List.mem_cons_of_mem a hx)
    refine ⟨b :: bs, ?_, .cons hP hall⟩
    rw [List.mapM_cons, hb, hbs]
    rfl

/-! ### Calls while nothing fails and the clock stands -/

/-- An outside world in which nothing fails, and the clock says `now`. -/
structure Still (now : ℤ) (es : ℕ → Input) : Prop where
  fault : ∀ n, (es n).fault = false
  now : ∀ n, (es n).now = some now

variable {now : ℤ} {es : ℕ → Input} {db : Db}

theorem Still.shift (hes : Still now es) : Still now fun n => es (n + 1) :=
  ⟨fun n => hes.fault (n + 1), fun n => hes.now (n + 1)⟩

theorem run_select {α : Type} {q : Db → Except Status α} (hes : Still now es) :
    (Sql.select q).run Stmt.exec es db = (db, q db) := by
  have hexec : Stmt.exec (es 0) .select db = (db, some db) := by
    simp only [Stmt.exec, hes.fault 0]
    rfl
  unfold Sql.select Prog.run
  rw [hexec]
  show Prog.run Stmt.exec (Prog.ofExcept (q db)) _ db = _
  cases q db with
  | ok a => rfl
  | error e => rfl

theorem run_currentTime_bind {α : Type} (f : CString → Sql α) (es : ℕ → Input) (hclock : (es 0).now = some now)
    (htext : formatIso8601 now = .ok text) :
    (currentTime.bind f).run Stmt.exec es db =
      (f text).run Stmt.exec (fun n => es (n + 1)) db := by
  have hnow : nowIso8601 (es 0).now = .ok text := by rw [hclock]; exact htext
  show ((Prog.ofExcept (nowIso8601 (es 0).now)).bind f).run Stmt.exec _ db = _
  rw [hnow]
  rfl

theorem run_loadSecretRow {name : CString} (db : Db) (hes : Still now es) (hname : name.bytes ≠ []) :
    (loadSecretRow name .active).run Stmt.exec es db = (db, loadedRow name .active db) := by
  have hcheck : require (name.bytes ≠ [] ∧ Which.valid .active) .invalidArgument = .ok () :=
    require_eq_ok.mpr ⟨hname, rfl⟩
  unfold loadSecretRow
  rw [hcheck]
  exact run_select hes

theorem run_checkExpiry (hes : Still now es) (htext : formatIso8601 now = .ok text) :
    (checkExpiry so keys 0).run Stmt.exec es db =
      (db, (expiring db.secrets text.bytes).mapM (expiryItem so keys text)) :=
  (run_currentTime_bind _ es (hes.now 0) htext).trans (run_select hes.shift)

theorem run_listSecrets {ess : ℕ → ℕ → Input} (hess : ∀ n, Still now (ess n))
    (htext : formatIso8601 now = .ok text) :
    (listSecrets so keys false).run (Cmd.exec so) ess db =
      (db, (db.secrets.listed false).mapM (listItem so keys text)) := by
  have hes : Still now fun n => ess n 0 := ⟨fun n => (hess n).fault 0, fun n => (hess n).now 0⟩
  unfold listSecrets
  rw [run_sql, Prog.bind_def, run_currentTime_bind _ (fun n => ess n 0) (hes.now 0) htext]
  exact run_select hes.shift

/-- A report is made of the counts at its first reading of the clock. -/
theorem run_securityReport {db' : Db} {report : SecurityReport} (hclock : ∀ n, (es n).now = some now)
    (htext : formatIso8601 now = .ok text)
    (h : (securityReport so keys).run Stmt.exec es db = (db', .ok report)) :
    ∃ soon, report.counts = secretCounts db.secrets text.bytes soon ∧
      report.deletedNames = deletedNames db.secrets := by
  have h : _ = _ := (run_currentTime_bind _ es (hclock 0) htext).symm.trans h
  obtain ⟨soon, d₁, h1, h2⟩ := Prog.runs_bind ⟨_, h⟩
  obtain rfl := readOnly_timeAfter.runs h1
  obtain ⟨counts, d₂, h3, h4⟩ := Prog.runs_bind h2
  obtain ⟨rfl, hcounts⟩ := Sql.runs_select h3
  obtain ⟨deleted, d₃, h5, h6⟩ := Prog.runs_bind h4
  obtain ⟨rfl, hdeleted⟩ := Sql.runs_select h5
  obtain ⟨entries, d₄, -, h7⟩ := Prog.runs_bind h6
  obtain ⟨_, d₅, -, h8⟩ := Prog.runs_bind h7
  obtain ⟨root, d₆, -, h9⟩ := Prog.runs_bind h8
  obtain ⟨-, hreport⟩ := Prog.runs_ret h9
  cases hreport
  cases hcounts
  cases hdeleted
  exact ⟨soon.bytes, rfl, rfl⟩

/-! ### The counts -/

/-- The counts of a report add up. -/
structure Balanced (c : SecretCounts) (deletedNames : ℕ) : Prop where
  names : c.activeSecrets + deletedNames = c.distinctNames
  versions : c.activeSecrets + c.archivedVersions = c.totalVersions
  expiry : c.expiredActive + c.expiringSoon ≤ c.activeSecrets
  ttl : c.ttlActive ≤ c.activeSecrets
  algorithms : c.activeAes256Gcm + c.activeXchacha20Poly1305 + c.activeAegis256 = c.activeSecrets

theorem mem_names {n : Bytes} : n ∈ names t ↔ ∃ r ∈ t.rows, r.name = n := by
  rw [names, List.mem_eraseDups, List.mem_map]

/-- **The counts of every table add up.** -/
theorem secretCounts_balanced (t : SecretTable) (now soon : Bytes) :
    Balanced (secretCounts t now soon) (deletedNames t) where
  names := length_current_add t (nodup_eraseDups _) fun _ => mem_names
  versions := (List.length_eq_length_filter_add _).symm
  expiry := by
    refine length_filter_add_le (fun r h => ?_) _
    obtain ⟨e, he, h⟩ := (Option.any_eq_true _ _).mp h
    obtain ⟨hlt, -⟩ := Bool.and_eq_true_iff.mp h
    have hlt : ¬e ≤ now := List.not_le.mpr (of_decide_eq_true hlt)
    rw [he, Option.any_some, decide_eq_false hlt]
  ttl := List.length_filter_le _ _
  algorithms := by
    refine (length_filter_three ?_ ?_ ?_ fun r hr => ?_)
    · decide
    · decide
    · decide
    · exact (t.admitted r (List.mem_of_mem_filter hr)).1

theorem expiredActive_eq (t : SecretTable) (now soon : Bytes) :
    (secretCounts t now soon).expiredActive = (due t now).length := by
  show ((t.rows.filter fun r => t.Current r).filter _).length = _
  rw [List.filter_filter]
  congr 1
  refine List.filter_congr fun r _ => ?_
  exact Bool.and_comm _ _

/-! ### The views -/

/-- What the two point queries say of a name: no row, or a row of this version. -/
structure Finds (es : ℕ → Input) (db : Db) (name : CString) (version : Option ℤ) : Prop where
  metadata : ∃ m, (findSecretMetadata name).run Stmt.exec es db = (db, .ok m) ∧
    m.map SecretMetadata.version = version
  notFound : version = none → (loadSecretRow name .active).run Stmt.exec es db = (db, .error .notFound)
  loaded : ∀ v ∈ version, ∃ row,
    (loadSecretRow name .active).run Stmt.exec es db = (db, .ok row) ∧ row.version = v

variable (hrows : ∀ r ∈ db.secrets.rows, WellFormed so keys r) (htext : formatIso8601 now = .ok text)

include hrows in
/-- **The point queries** find the current row. -/
theorem finds (hes : Still now es) {name : CString} (hname : name.bytes ≠ []) :
    Finds es db name ((db.secrets.activeRow name.bytes).map SecretRow.version) := by
  have hmeta : (findSecretMetadata name).run Stmt.exec es db = (db, metadataOf name db) :=
    run_select hes
  have hload := run_loadSecretRow db hes hname
  unfold metadataOf at hmeta
  unfold loadedRow Which.row at hload
  cases hact : db.secrets.activeRow name.bytes with
  | none =>
    rw [hact] at hmeta hload
    exact ⟨⟨none, hmeta, rfl⟩, fun _ => hload, fun v hv => absurd hv (Option.not_mem_none v)⟩
  | some r =>
    obtain ⟨hr, -, -⟩ := SecretTable.activeRow_eq_some hact
    obtain ⟨m, hm, hmv⟩ := (hrows r hr).readMetadata_ok (db.secrets.admitted r hr)
    obtain ⟨row, hrow, hrowv⟩ := (hrows r hr).copySecretRow_ok (db.secrets.admitted r hr)
    rw [hact] at hmeta hload
    rw [Option.mapM_some, hm] at hmeta
    have hload : _ = (db, copySecretRow r) := hload
    rw [hrow] at hload
    refine ⟨⟨some m, hmeta, congrArg some hmv⟩, (nomatch ·), fun v hv => ?_⟩
    exact ⟨row, hload, hrowv.trans (Option.some.inj hv)⟩

theorem mem_listed (h : r ∈ t.listed false) : r ∈ t.rows ∧ t.Current r :=
  mem_current.mp (List.mem_mergeSort.mp h)

theorem mem_listed_of_due (hr : r ∈ due t text.bytes) : r ∈ t.listed false := by
  obtain ⟨hrow, hcur, -⟩ := mem_due.mp hr
  exact List.mem_mergeSort.mpr (mem_current.mpr ⟨hrow, hcur⟩)

include hrows htext in
/-- **The listing** marks the current rows that are due. -/
theorem listSecrets_views {ess : ℕ → ℕ → Input} (hess : ∀ n, Still now (ess n)) :
    ∃ items, (listSecrets so keys false).run (Cmd.exec so) ess db = (db, .ok items) ∧
      List.Forall₂ (fun r item => Shows so keys text r item ∧
        (item.isExpired = true ↔ r ∈ due db.secrets text.bytes)) (db.secrets.listed false) items := by
  have hitem : ∀ r ∈ db.secrets.listed false, ∃ item, listItem so keys text r = .ok item ∧
      Shows so keys text r item ∧ (item.isExpired = true ↔ r ∈ due db.secrets text.bytes) := by
    intro r hr
    obtain ⟨hrow, hcur⟩ := mem_listed hr
    obtain ⟨item, hitem, hshows⟩ := (hrows r hrow).listItem_ok (db.secrets.admitted r hrow)
      (formatIso8601_length htext).2
    refine ⟨item, hitem, hshows, hshows.expired.trans ?_⟩
    rw [mem_due]
    exact ⟨fun h => ⟨hrow, hcur, h.2⟩, fun h => ⟨hcur.1, h.2.2⟩⟩
  obtain ⟨items, hitems, hshows⟩ := mapM_forall₂ hitem
  exact ⟨items, (run_listSecrets hess htext).trans (by rw [hitems]), hshows⟩

include hrows htext in
/-- **The expiry scan** goes over the rows that are due. -/
theorem checkExpiry_views (hes : Still now es) :
    ∃ expired rows, (checkExpiry so keys 0).run Stmt.exec es db = (db, .ok expired) ∧
      rows.Perm (due db.secrets text.bytes) ∧ List.Forall₂ (fun r x =>
        x.version = r.version ∧ x.isExpired = true ∧
          decryptDisplayName so keys (columnText r.name) r.nameNonce r.encryptedName = .ok x.name)
        rows expired := by
  have hperm : (expiring db.secrets text.bytes).Perm (due db.secrets text.bytes) :=
    List.mergeSort_perm _ _
  have hitem : ∀ r ∈ expiring db.secrets text.bytes, ∃ x, expiryItem so keys text r = .ok x ∧
      x.version = r.version ∧ x.isExpired = true ∧
        decryptDisplayName so keys (columnText r.name) r.nameNonce r.encryptedName = .ok x.name := by
    intro r hr
    obtain ⟨hrow, hdue⟩ := List.mem_filter.mp (hperm.mem_iff.mp hr)
    exact (hrows r hrow).expiryItem_ok (formatIso8601_length htext).2 hdue
  obtain ⟨expired, hexpired, hscan⟩ := mapM_forall₂ hitem
  refine ⟨expired, _, ?_, hperm, hscan⟩
  rw [run_checkExpiry hes htext, hexpired]

include hrows in
/-- **The next expired name** is that of the least row that is due. -/
theorem findNextExpired_views (hes : Still now es) :
    ∃ next, (findNextExpired text).run Stmt.exec es db = (db, .ok next) ∧
      (next = none ↔ due db.secrets text.bytes = []) ∧
      ∀ n ∈ next, ∃ r ∈ due db.secrets text.bytes, n.bytes = r.name ∧
        ∀ s ∈ due db.secrets text.bytes, keyLe (expiryKey r) (expiryKey s) := by
  have hrun : (findNextExpired text).run Stmt.exec es db = (db, nextExpiredName text db) :=
    run_select hes
  unfold nextExpiredName at hrun
  cases hnext : db.secrets.nextExpired text.bytes with
  | none =>
    rw [hnext] at hrun
    have hnil : due db.secrets text.bytes = [] := nextExpired_eq_none.mp hnext
    exact ⟨none, hrun, iff_of_true rfl hnil, fun n hn => absurd hn (Option.not_mem_none n)⟩
  | some r =>
    have hdue : r ∈ due db.secrets text.bytes := nextExpired_eq_some hnext
    obtain ⟨hrow, -, -⟩ := mem_due.mp hdue
    obtain ⟨hne, hnul⟩ := (hrows r hrow).name
    have hcheck : require (r.name ≠ []) .storage = .ok () := require_eq_ok.mpr hne
    rw [hnext, Option.mapM_some, hcheck] at hrun
    refine ⟨some (columnText r.name), hrun, ?_, fun n hn => ⟨r, hdue, ?_, fun s hs =>
      nextExpired_least hnext hs⟩⟩
    · exact iff_of_false (nomatch ·) (List.ne_nil_of_mem hdue)
    · rw [← Option.some.inj hn, columnText_of_noNul hnul]

/-- All views of the secrets, in one outside world. -/
structure Agree (so : Sodium) (keys : Subkeys) (now : ℤ) (text : CString) (es : ℕ → Input)
    (ess : ℕ → ℕ → Input) (db : Db) : Prop where
  /-- The listing shows the current rows, and marks those that are due. -/
  listing : ∃ items, (listSecrets so keys false).run (Cmd.exec so) ess db = (db, .ok items) ∧
    List.Forall₂ (fun r item => Shows so keys text r item ∧
      (item.isExpired = true ↔ r ∈ due db.secrets text.bytes)) (db.secrets.listed false) items
  /-- A name has one row in the listing, the one that the point queries find, or none. -/
  names : ∀ name : CString, name.bytes ≠ [] → ∃ o : Option SecretRow,
    (db.secrets.listed false).filter (fun r => r.name = name.bytes) = o.toList ∧
      Finds es db name (o.map SecretRow.version)
  dueListed : ∀ r ∈ due db.secrets text.bytes, r ∈ db.secrets.listed false
  /-- The expiry scan shows the rows that are due. -/
  scan : ∃ expired rows, (checkExpiry so keys 0).run Stmt.exec es db = (db, .ok expired) ∧
    rows.Perm (due db.secrets text.bytes) ∧ List.Forall₂ (fun r x =>
      x.version = r.version ∧ x.isExpired = true ∧
        decryptDisplayName so keys (columnText r.name) r.nameNonce r.encryptedName = .ok x.name)
      rows expired
  next : ∃ next, (findNextExpired text).run Stmt.exec es db = (db, .ok next) ∧
    (next = none ↔ due db.secrets text.bytes = []) ∧
    ∀ n ∈ next, ∃ r ∈ due db.secrets text.bytes, n.bytes = r.name ∧
      ∀ s ∈ due db.secrets text.bytes, keyLe (expiryKey r) (expiryKey s)
  /-- The report counts the rows that are due, and its counts add up. -/
  report : ∀ es' db' report, (∀ n, (es' n).now = some now) →
    (securityReport so keys).run Stmt.exec es' db = (db', .ok report) →
      report.counts.expiredActive = (due db.secrets text.bytes).length ∧
        Balanced report.counts report.deletedNames

include hrows htext in
/-- **All views agree on what is active**, and on what has expired. -/
theorem views_agree {ess : ℕ → ℕ → Input} (hes : Still now es) (hess : ∀ n, Still now (ess n)) :
    Agree so keys now text es ess db where
  listing := listSecrets_views hrows htext hess
  names _ hname := ⟨_, listed_of_name _ _, finds hrows hes hname⟩
  dueListed _ hr := mem_listed_of_due hr
  scan := checkExpiry_views hrows htext hes
  next := findNextExpired_views hrows hes
  report es' db' report hclock hreport := by
    obtain ⟨soon, hcounts, hdeleted⟩ := run_securityReport hclock htext hreport
    rw [hcounts, hdeleted]
    exact ⟨expiredActive_eq _ _ _, secretCounts_balanced _ _ _⟩

/-! ### A tampered table -/

/-- A row of the table below. -/
def sampleRow (id name : Bytes) (version : ℤ) (isArchived : Bool) : SecretRow :=
  let nonce := List.replicate 24 7
  { id, name, version, isArchived
    nameNonce := nonce
    encryptedName := toy.encrypt .xchacha20Poly1305 toyKeys.kekMeta nonce name name
    algorithm := ascii "AEGIS-256"
    ciphertext := [1]
    encryptedDek := [2]
    nonce := [3]
    dekNonce := [4]
    keyCommitment := List.replicate 64 5
    nonceCounter := version
    createdAt := ascii "1970-01-01T00:00:00Z"
    updatedAt := ascii "1970-01-01T00:00:00Z"
    expiresAt := some (ascii "1970-01-01T00:00:00Z")
    rotationInterval := some 60 }

/-- The first version of `a` was brought back in place of the second. -/
def tampered : Db :=
  { Db.empty with secrets :=
    { rows := [sampleRow [1] (ascii "a") 1 false, sampleRow [2] (ascii "a") 2 true,
        sampleRow [3] (ascii "b") 1 false]
      compatible := by decide +kernel
      admitted := by decide +kernel } }

theorem exists_of_isOk {α : Type} {x : Except Status α} (h : x.isOk) : ∃ a, x = .ok a := by
  cases x with
  | error e => cases h
  | ok a => exact ⟨a, rfl⟩

theorem tampered_wellFormed : ∀ r ∈ tampered.secrets.rows, WellFormed toy toyKeys r := by
  have hdisplay : ∀ r ∈ tampered.secrets.rows,
      (decryptDisplayName toy toyKeys (columnText r.name) r.nameNonce r.encryptedName).isOk := by
    decide +kernel
  have hexpiry : ∀ r ∈ tampered.secrets.rows,
      r.expiresAt = (formatIso8601 0).toOption.map CString.bytes := by
    decide +kernel
  have hcolumns : ∀ r ∈ tampered.secrets.rows, (r.name ≠ [] ∧ (0 : UInt8) ∉ r.name) ∧
      (1 ≤ r.version ∧ r.version ≤ intMax) ∧ (columnText r.id).bytes.length < 37 ∧
      (columnText r.createdAt).bytes.length < 21 ∧ 0 ≤ r.nonceCounter := by
    decide +kernel
  have hcontents : ∀ r ∈ tampered.secrets.rows,
      (r.ciphertext ≠ [] ∧ r.encryptedDek ≠ [] ∧ r.nonce ≠ [] ∧ r.dekNonce ≠ []) ∧
      (r.nonce.length ≤ 32 ∧ r.dekNonce.length ≤ 32) ∧ r.keyCommitment.length = 64 := by
    decide +kernel
  intro r hr
  obtain ⟨hname, hversion, hid, hcreatedAt, hcounter⟩ := hcolumns r hr
  obtain ⟨hnonempty, hnonces, hcommitment⟩ := hcontents r hr
  refine ⟨hname, ?_, hversion, ?_, hid, hcreatedAt, hcounter, hnonempty, hnonces, hcommitment⟩
  · exact exists_of_isOk (hdisplay r hr)
  · intro e he
    obtain ⟨s, hs⟩ := exists_of_isOk (x := formatIso8601 0) (by decide +kernel)
    rw [hs] at hexpiry
    exact ⟨0, s, hs, Option.some.inj (he.symm.trans (hexpiry r hr))⟩

theorem tampered_views : ∃ text, formatIso8601 1735689600 = .ok text ∧
    Agree toy toyKeys 1735689600 text (calm 1735689600 1) (fun _ => calm 1735689600 1) tampered := by
  obtain ⟨text, htext⟩ := exists_of_isOk (x := formatIso8601 1735689600) (by decide +kernel)
  exact ⟨text, htext, views_agree tampered_wellFormed htext ⟨fun _ => rfl, fun _ => rfl⟩
    fun _ => ⟨fun _ => rfl, fun _ => rfl⟩⟩

end Fuin.Vault.Views

import Fuin.Backup.Files

/-! # Key generation and the files that were there

`backup_pqc_keygen` and `backup_mldsa_keygen` create the file of the private keys, then that of the
public keys, both with `O_EXCL`. When anything fails after the keys were generated, both paths are
removed, whether the call has created them or not; so the files that were there before survive a
failure only if neither path names one (`keygen_keeps_iff`). -/

namespace Fuin.Backup.Keygen

open Fuin.Utils Fuin.Lib.Program Fuin.Backup.Files

/-- The texts that OpenSSL prints for a key. -/
structure PemLibrary where
  /-- `PEM_write_PrivateKey`, encrypted under a passphrase. -/
  privateKey : Bytes → CString → Bytes
  /-- `PEM_write_PUBKEY`. -/
  publicKey : Bytes → Bytes

/-- `backup_write_encrypted_private_key`. -/
def writeEncryptedPrivateKey (pem : PemLibrary) (entry key : Bytes) (passphrase : CString) :
    FileProg Unit := do
  Prog.ofExcept (require ((passphrase.bytes.length : ℤ) ≤ intMax) .invalidArgument)
  check .crypto (.write entry (pem.privateKey key passphrase))

/-- One step for each key, in a row. -/
def forKeys (step : Bytes → FileProg Unit) : List Bytes → FileProg Unit
  | [] => .ret ()
  | key :: keys => (step key).bind fun _ => forKeys step keys

/-- The two files of a key generation. -/
def writeKeyFiles (A : Access) (pem : PemLibrary) (keys : List Bytes)
    (publicPath privatePath passphrase : CString) : FileProg Unit := do
  let privateEntry ← fopenExclusive A privatePath.bytes
  forKeys (fun key => writeEncryptedPrivateKey pem privateEntry key passphrase) keys
  check .storage (.close privateEntry)
  let publicEntry ← fopenExclusive A publicPath.bytes
  forKeys (fun key => check .crypto (.write publicEntry (pem.publicKey key))) keys
  check .storage (.close publicEntry)

/-- The generation of some keys: what `backup_pqc_keygen` and `backup_mldsa_keygen` have in common,
the cleanup included. -/
def keygen (A : Access) (pem : PemLibrary) (keys : List Bytes)
    (publicPath privatePath passphrase : CString) : FileProg Unit := do
  Prog.ofExcept (require (publicPath.bytes ≠ [] ∧ privatePath.bytes ≠ [] ∧ passphrase.bytes ≠ [])
    .invalidArgument)
  -- `EVP_PKEY_Q_keygen`
  forKeys (fun _ => check .crypto .lib) keys
  match ← Prog.attempt (writeKeyFiles A pem keys publicPath privatePath passphrase) with
  | .ok () => return ()
  | .error e => do
    removePath A publicPath.bytes
    removePath A privatePath.bytes
    .fail e

/-- `backup_pqc_keygen`. -/
def pqcKeygen (A : Access) (pem : PemLibrary) (kemKey x25519Key : Bytes)
    (publicPath privatePath passphrase : CString) : FileProg Unit :=
  keygen A pem [kemKey, x25519Key] publicPath privatePath passphrase

/-- `backup_mldsa_keygen`. -/
def mldsaKeygen (A : Access) (pem : PemLibrary) (key : Bytes)
    (publicPath privatePath passphrase : CString) : FileProg Unit :=
  keygen A pem [key] publicPath privatePath passphrase

/-! ### What a failure leaves -/

/-- **The files that were there are still there**, and nothing that was not. -/
structure Kept (files files' : Disk) : Prop where
  stays : ∀ entry node, files entry = some node → node ≠ .directory → files' entry = some node
  nothing_new : ∀ entry, files entry = none → files' entry = none

/-- No file that the process may remove is named by the path. -/
def Spared (A : Access) (files : Disk) (path : Bytes) : Prop :=
  ∀ entry node, resolveParentPath A path = .ok entry → files entry = some node →
    node ≠ .directory → A.writable entry = false

variable {A : Access} {pem : PemLibrary} {keys : List Bytes} {files files₁ files₂ files' : Disk}
  {S : Bytes → Prop}

theorem Kept.refl : Kept files files := ⟨fun _ _ h _ => h, fun _ h => h⟩

theorem forKeys_runs {step : Bytes → FileProg Unit}
    (hstep : ∀ {key d₁ d₂ r}, (step key).Runs (FileCmd.exec A) d₁ d₂ r → Touched A S files d₁ →
      Touched A S files d₂) : ∀ {keys : List Bytes} {d₁ d₂ : Disk} {r : Except Status Unit},
      (forKeys step keys).Runs (FileCmd.exec A) d₁ d₂ r → Touched A S files d₁ →
        Touched A S files d₂
  | [], _, _, _, h, ht => by
    obtain ⟨rfl, -⟩ := Prog.runs_ret h
    exact ht
  | _ :: _, _, _, _, h, ht => by
    rcases Prog.runs_bind_cases h with ⟨_, -, h1⟩ | ⟨_, _, h1, h2⟩
    · exact hstep h1 ht
    · exact forKeys_runs hstep h2 (hstep h1 ht)

theorem check_write_runs {e : Status} {entry data : Bytes} {r : Except Status Unit}
    (h : (check e (.write entry data)).Runs (FileCmd.exec A) files₁ files₂ r)
    (ht : Touched A S files files₁) (hS : S entry) (hfresh : Fresh A files entry) :
    Touched A S files files₂ := by
  obtain ⟨i, rfl, -⟩ := runs_check h
  simp only [FileCmd.exec]
  split_ifs
  · exact ht.rewrite hS hfresh
  · exact ht.rewrite hS hfresh

theorem check_close_runs {e : Status} {entry : Bytes} {r : Except Status Unit}
    (h : (check e (.close entry)).Runs (FileCmd.exec A) files₁ files₂ r)
    (ht : Touched A S files files₁) (hS : S entry) (hfresh : Fresh A files entry) :
    Touched A S files files₂ := by
  obtain ⟨i, rfl, -⟩ := runs_check h
  simp only [FileCmd.exec]
  split_ifs
  · exact ht.rewrite hS hfresh
  · exact ht

theorem writeEncryptedPrivateKey_runs {entry key : Bytes} {passphrase : CString}
    {r : Except Status Unit}
    (h : (writeEncryptedPrivateKey pem entry key passphrase).Runs (FileCmd.exec A) files₁ files₂ r)
    (ht : Touched A S files files₁) (hS : S entry) (hfresh : Fresh A files entry) :
    Touched A S files files₂ := by
  rcases Prog.runs_bind_cases h with ⟨_, -, h1⟩ | ⟨_, _, h1, h2⟩
  · obtain ⟨rfl, -⟩ := Prog.runs_ofExcept h1
    exact ht
  · obtain ⟨rfl, -⟩ := Prog.runs_ofExcept h1
    exact check_write_runs h2 ht hS hfresh

/-- The entries the two paths name. -/
def Named (A : Access) (publicPath privatePath : CString) (entry : Bytes) : Prop :=
  resolveParentPath A publicPath.bytes = .ok entry ∨
    resolveParentPath A privatePath.bytes = .ok entry

/-- **Writing the key files** creates files where nothing was, at most at the two entries. -/
theorem writeKeyFiles_runs {publicPath privatePath passphrase : CString} {r : Except Status Unit}
    (h : (writeKeyFiles A pem keys publicPath privatePath passphrase).Runs (FileCmd.exec A)
      files files' r) : Touched A (Named A publicPath privatePath) files files' := by
  rcases Prog.runs_bind_cases h with ⟨_, -, h1⟩ | ⟨privateEntry, d₁, h1, h⟩
  · exact (fopenExclusive_runs h1 .refl fun _ => Or.inr).1
  obtain ⟨ht, hentry⟩ := fopenExclusive_runs h1 .refl fun _ => Or.inr
  obtain ⟨hprivate, hfresh⟩ := hentry _ rfl
  have hkeys {d r} (h : (forKeys (fun key =>
      writeEncryptedPrivateKey pem privateEntry key passphrase) keys).Runs (FileCmd.exec A) d₁ d r) :=
    forKeys_runs (fun h ht => writeEncryptedPrivateKey_runs h ht (Or.inr hprivate) hfresh) h ht
  rcases Prog.runs_bind_cases h with ⟨_, -, h2⟩ | ⟨_, d₂, h2, h⟩
  · exact hkeys h2
  have ht := hkeys h2
  rcases Prog.runs_bind_cases h with ⟨_, -, h3⟩ | ⟨_, d₃, h3, h⟩
  · exact check_close_runs h3 ht (Or.inr hprivate) hfresh
  have ht := check_close_runs h3 ht (Or.inr hprivate) hfresh
  rcases Prog.runs_bind_cases h with ⟨_, -, h4⟩ | ⟨publicEntry, d₄, h4, h⟩
  · exact (fopenExclusive_runs h4 ht fun _ => Or.inl).1
  obtain ⟨ht, hentry⟩ := fopenExclusive_runs h4 ht fun _ => Or.inl
  obtain ⟨hpublic, hfresh'⟩ := hentry _ rfl
  have hkeys' {d r} (h : (forKeys (fun key =>
      check .crypto (.write publicEntry (pem.publicKey key))) keys).Runs (FileCmd.exec A) d₄ d r) :=
    forKeys_runs (fun h ht => check_write_runs h ht (Or.inl hpublic) hfresh') h ht
  rcases Prog.runs_bind_cases h with ⟨_, -, h5⟩ | ⟨_, d₅, h5, h⟩
  · exact hkeys' h5
  exact check_close_runs h (hkeys' h5) (Or.inl hpublic) hfresh'

/-- What `remove` of a path does to the entries. -/
structure Removes (A : Access) (path : Bytes) (files files' : Disk) : Prop where
  gone : ∀ entry node, resolveParentPath A path = .ok entry → files entry = some node →
    node ≠ .directory → A.writable entry = true → files' entry = none
  same : ∀ entry, resolveParentPath A path ≠ .ok entry ∨ A.writable entry = false →
    files entry ≠ some .directory → files' entry = files entry
  absent : ∀ entry, files entry = none → files' entry = none

theorem removePath_runs {path : Bytes} {r : Except Status Unit}
    (h : (removePath A path).Runs (FileCmd.exec A) files₁ files₂ r) :
    r = .ok () ∧ Removes A path files₁ files₂ := by
  unfold removePath at h
  cases hp : resolveParentPath A path with
  | error e =>
    simp only [hp] at h
    obtain ⟨rfl, rfl⟩ := Prog.runs_ret h
    refine ⟨rfl, ?_, fun _ _ _ => rfl, fun _ h => h⟩
    intro entry node he
    nomatch hp.symm.trans he
  | ok entry =>
    simp only [hp] at h
    obtain ⟨i, h⟩ := Prog.runs_cmd h
    obtain ⟨rfl, rfl⟩ := Prog.runs_ret h
    refine ⟨rfl, ?_⟩
    simp only [FileCmd.exec]
    have hnode (p : Bytes) (hp' : resolveParentPath A path = .ok p) : entry = p :=
      Except.ok.inj (hp.symm.trans hp')
    constructor
    · intro p node he hfound hfile hw
      obtain rfl := hnode p he
      rw [erase_file hfound hfile, if_pos hw]
    · intro p hor hdir
      by_cases hpe : p = entry
      · subst hpe
        cases hfound : files₁ p with
        | none => rw [erase_absent hfound, hfound]
        | some node =>
          have hfile : node ≠ .directory := fun e => hdir (e ▸ hfound)
          have hw : A.writable p = false := hor.resolve_left fun hne => hne hp
          rw [erase_file hfound hfile, hw, if_neg (by simp), hfound]
      · exact erase_of_ne hpe
    · intro p hnone
      by_cases hpe : p = entry
      · subst hpe
        rw [erase_absent hnone, hnone]
      · rw [erase_of_ne hpe, hnone]

/-- **After the cleanup** the files are as before if and only if neither path named one. -/
theorem kept_iff_spared {publicPath privatePath : CString}
    (ht : Touched A (Named A publicPath privatePath) files files₁)
    (h1 : Removes A publicPath.bytes files₁ files₂) (h2 : Removes A privatePath.bytes files₂ files') :
    Kept files files' ↔ Spared A files publicPath.bytes ∧ Spared A files privatePath.bytes := by
  have hstays {entry node} (h : files entry = some node) : files₁ entry = some node := by
    rcases ht entry with he | ⟨-, hfresh, -⟩
    · exact he.trans h
    · nomatch hfresh.absent.symm.trans h
  constructor
  · intro hkept
    constructor
    · intro entry node hp hnode hfile
      by_contra hw
      have hgone := h1.gone entry node hp (hstays hnode) hfile (by simpa using hw)
      nomatch (h2.absent entry hgone).symm.trans (hkept.stays entry node hnode hfile)
    · intro entry node hp hnode hfile
      by_contra hw
      have hgone : files' entry = none := by
        cases hm : files₂ entry with
        | none => exact h2.absent entry hm
        | some node' =>
          by_cases hpub : resolveParentPath A publicPath.bytes = .ok entry
          · exact h2.absent entry (h1.gone entry node hpub (hstays hnode) hfile (by simpa using hw))
          · have hsame := h1.same entry (Or.inl hpub)
              (by rw [hstays hnode]; simpa using hfile)
            exact h2.gone entry node hp (hsame.trans (hstays hnode)) hfile (by simpa using hw)
      nomatch hgone.symm.trans (hkept.stays entry node hnode hfile)
  · rintro ⟨hpub, hpriv⟩
    constructor
    · intro entry node hnode hfile
      have hspared {path : Bytes} (h : Spared A files path) :
          resolveParentPath A path ≠ .ok entry ∨ A.writable entry = false := by
        by_cases hp : resolveParentPath A path = .ok entry
        · exact Or.inr (h entry node hp hnode hfile)
        · exact Or.inl hp
      have hm := (h1.same entry (hspared hpub) (by rw [hstays hnode]; simpa using hfile)).trans
        (hstays hnode)
      exact (h2.same entry (hspared hpriv) (by rw [hm]; simpa using hfile)).trans hm
    · intro entry hnone
      rcases ht entry with he | ⟨hnamed, hfresh, content, hfile⟩
      · exact h2.absent entry (h1.absent entry (he.trans hnone))
      · by_cases hp : resolveParentPath A publicPath.bytes = .ok entry
        · exact h2.absent entry (h1.gone entry _ hp hfile (by simp) hfresh.writable)
        · have hm := (h1.same entry (Or.inl hp) (by rw [hfile]; simp)).trans hfile
          exact h2.gone entry _ (hnamed.resolve_left hp) hm (by simp) hfresh.writable

/-- The keys are generated, unless that fails for one of them. -/
theorem run_generate {α : Type} {f : Unit → FileProg α} {keys : List Bytes} {es : ℕ → FileInput} :
    ((forKeys (fun _ => check .crypto .lib) keys).bind f).run (FileCmd.exec A) es files =
      if ∃ n < keys.length, (es n).fault = true then (files, .error .crypto)
      else (f ()).run (FileCmd.exec A) (fun n => es (n + keys.length)) files := by
  induction keys generalizing es with
  | nil =>
    rw [if_neg (by simp)]
    rfl
  | cons key keys ih =>
    have hstep : ((forKeys (fun _ => check .crypto .lib) (key :: keys)).bind f).run (FileCmd.exec A) es
        files = if (es 0).fault = true then (files, .error .crypto) else
          ((forKeys (fun _ => check .crypto .lib) keys).bind f).run (FileCmd.exec A)
            (fun n => es (n + 1)) files := by
      show Prog.run _ (Prog.bind (Prog.bind _ _) _) _ _ = _
      rw [Prog.bind_assoc]
      cases hf : (es 0).fault with
      | true => simp [check, Prog.run, FileCmd.exec, hf]
      | false => simp [check, Prog.run, FileCmd.exec, hf]
    rw [hstep, ih]
    by_cases h0 : (es 0).fault = true
    · rw [if_pos h0, if_pos ⟨0, by simp, h0⟩]
    · rw [if_neg h0]
      congr 1
      · refine propext ?_
        constructor
        · rintro ⟨n, hn, h⟩
          exact ⟨n + 1, by simpa using hn, h⟩
        · rintro ⟨n, hn, h⟩
          cases n with
          | zero => exact absurd h h0
          | succ n => exact ⟨n, by simpa using hn, h⟩

/-- The failures that leave the files as they were: those before the first file is opened, and all of
them if neither path names a file that the process may remove. -/
def Harmless (A : Access) (files : Disk) (es : ℕ → FileInput) (count : ℕ)
    (publicPath privatePath passphrase : CString) : Prop :=
  (publicPath.bytes = [] ∨ privatePath.bytes = [] ∨ passphrase.bytes = []) ∨
    (∃ n < count, (es n).fault = true) ∨
    Spared A files publicPath.bytes ∧ Spared A files privatePath.bytes

/-- A key generation that fails keeps the files if and only if the failure is harmless. -/
theorem keygen_kept_iff {es : ℕ → FileInput} {publicPath privatePath passphrase : CString} {e : Status}
    (h : (keygen A pem keys publicPath privatePath passphrase).run (FileCmd.exec A) es files =
      (files', .error e)) :
    Kept files files' ↔ Harmless A files es keys.length publicPath privatePath passphrase := by
  have hargs : publicPath.bytes = [] ∨ privatePath.bytes = [] ∨ passphrase.bytes = [] →
      (keygen A pem keys publicPath privatePath passphrase).run (FileCmd.exec A) es files =
        (files, .error .invalidArgument) := by
    intro hempty
    unfold keygen require
    rw [if_neg (by tauto)]
    rfl
  by_cases hempty : publicPath.bytes = [] ∨ privatePath.bytes = [] ∨ passphrase.bytes = []
  · cases (hargs hempty).symm.trans h
    exact iff_of_true .refl (Or.inl hempty)
  unfold keygen require at h
  rw [if_pos (by tauto)] at h
  have h : _ = _ := (@run_generate A files _ _ keys es).symm.trans h
  split_ifs at h with hfault
  · cases h
    exact iff_of_true .refl (Or.inr (Or.inl hfault))
  have hruns : Prog.Runs (FileCmd.exec A) _ files files' (.error e) := ⟨_, h⟩
  rcases Prog.runs_bind_cases hruns with ⟨_, -, h1⟩ | ⟨x, files₁, h1, h2⟩
  · obtain ⟨_, hx, -⟩ := Prog.runs_attempt h1
    nomatch hx
  obtain ⟨_, hx, hbody⟩ := Prog.runs_attempt h1
  cases hx
  have ht := writeKeyFiles_runs hbody
  cases x with
  | ok u => nomatch (Prog.runs_ret h2).2
  | error e' =>
    rcases Prog.runs_bind_cases h2 with ⟨_, -, h3⟩ | ⟨_, files₂, h3, h4⟩
    · nomatch (removePath_runs h3).1
    rcases Prog.runs_bind_cases h4 with ⟨_, -, h5⟩ | ⟨_, files₃, h5, h6⟩
    · nomatch (removePath_runs h5).1
    obtain ⟨rfl, -⟩ := Prog.runs_fail h6
    rw [kept_iff_spared ht (removePath_runs h3).2 (removePath_runs h5).2]
    unfold Harmless
    rw [or_iff_right hempty, or_iff_right hfault]

/-- **A key generation that fails keeps the files that were there** if and only if the failure is
harmless. -/
theorem keygen_keeps_iff (A : Access) (pem : PemLibrary) (files files' : Disk) (es : ℕ → FileInput)
    (publicPath privatePath passphrase : CString) (e : Status) :
    (∀ kemKey x25519Key,
      (pqcKeygen A pem kemKey x25519Key publicPath privatePath passphrase).run (FileCmd.exec A) es
          files = (files', .error e) →
        (Kept files files' ↔ Harmless A files es 2 publicPath privatePath passphrase)) ∧
      ∀ key,
        (mldsaKeygen A pem key publicPath privatePath passphrase).run (FileCmd.exec A) es files =
            (files', .error e) →
          (Kept files files' ↔ Harmless A files es 1 publicPath privatePath passphrase) :=
  ⟨fun _ _ h => keygen_kept_iff h, fun _ h => keygen_kept_iff h⟩

/-- A working directory. -/
def workDir : Access where
  realpath parent := if parent = ascii "." then some (ascii "/work") else none
  writable _ := true

/-- Keys that are printed as they are. -/
def toyPem : PemLibrary where
  privateKey key passphrase := ascii "PRIVATE" ++ key ++ passphrase.bytes
  publicKey key := ascii "PUBLIC" ++ key

def publicName : CString := ⟨ascii "backup.pub", by decide⟩

def privateName : CString := ⟨ascii "backup.key", by decide⟩

def samplePassphrase : CString := ⟨ascii "pass", by decide⟩

/-- The key generation in a directory with given files, where the calls from `n` on fail. -/
def keygenIn (files : Disk) (n : ℕ) : Disk × Except Status Unit :=
  (pqcKeygen workDir toyPem [1] [2] publicName privateName samplePassphrase).run
    (FileCmd.exec workDir) (fun i => ⟨n ≤ i, 0⟩) files

theorem failed_close_keeps : Kept (fun _ => none) (keygenIn (fun _ => none) 8).1 ↔
    Harmless workDir (fun _ => none) (fun i => ⟨8 ≤ i, 0⟩) 2 publicName privateName
      samplePassphrase :=
  (keygen_keeps_iff workDir toyPem _ _ _ publicName privateName samplePassphrase .storage).1 [1] [2]
    (Prod.ext rfl (by decide +kernel))

/-- A private key from before. -/
def oldKey : Disk := fun entry => if entry = ascii "/work/backup.key" then some (.file [7]) else none

/-- **Not every failure keeps the files**: the private key that was there is gone. -/
theorem old_key_destroyed :
    ¬ ∀ (A : Access) (pem : PemLibrary) (files files' : Disk) (es : ℕ → FileInput)
      (kemKey x25519Key : Bytes) (publicPath privatePath passphrase : CString) (e : Status),
      (pqcKeygen A pem kemKey x25519Key publicPath privatePath passphrase).run (FileCmd.exec A) es
        files = (files', .error e) → Kept files files' := by
  intro h
  have hkept := h workDir toyPem oldKey (keygenIn oldKey 100).1 _ [1] [2] publicName privateName
    samplePassphrase .storage (Prod.ext rfl (by decide +kernel))
  have hgone : (keygenIn oldKey 100).1 (ascii "/work/backup.key") = none := by decide +kernel
  nomatch hgone.symm.trans (hkept.stays _ (.file [7]) (by decide) (by decide))

end Fuin.Backup.Keygen

import Mathlib.Data.Nat.Notation
import Mathlib.Tactic.Ring
import Mathlib.Algebra.Order.Group.Nat

/-! # Little-endian numbers and length-prefixed frames

`leBytes k n` are the low `k` bytes of `n`, least significant first; it determines `n` modulo
`256 ^ k` (`leBytes_inj`). A frame is the length of its content in `k` bytes followed by the
content; a sequence of frames can be cut again into its contents as long as every length fits into
the `k` bytes (`frames_append_inj`, `frames_inj`), so a list of fields is determined by its
encoding. -/

namespace Fuin.Lib.Frames

/-- The low `k` bytes of `n`, least significant first. -/
def leBytes : ℕ → ℕ → List UInt8
  | 0, _ => []
  | k + 1, n => UInt8.ofNat n :: leBytes k (n / 256)

/-- The number written in the bytes, least significant first. -/
def ofLeBytes : List UInt8 → ℕ
  | [] => 0
  | b :: bs => b.toNat + 256 * ofLeBytes bs

@[simp] theorem length_leBytes : ∀ k n, (leBytes k n).length = k
  | 0, _ => rfl
  | k + 1, n => by simp [leBytes, length_leBytes k]

theorem ofLeBytes_leBytes : ∀ k n, ofLeBytes (leBytes k n) = n % 256 ^ k
  | 0, n => by simp [leBytes, ofLeBytes, Nat.mod_one]
  | k + 1, n => by
    have hpow : 256 ^ (k + 1) = 256 * 256 ^ k := Nat.pow_succ'
    rw [leBytes, ofLeBytes, ofLeBytes_leBytes k, UInt8.toNat_ofNat', hpow, Nat.mod_mul]

theorem leBytes_ofLeBytes : ∀ bs : List UInt8, leBytes bs.length (ofLeBytes bs) = bs
  | [] => rfl
  | b :: bs => by
    have hb : b.toNat < 256 := b.toNat_lt
    have h1 : UInt8.ofNat (b.toNat + 256 * ofLeBytes bs) = b := by
      apply UInt8.toNat_inj.mp
      rw [UInt8.toNat_ofNat']
      omega
    have h2 : (b.toNat + 256 * ofLeBytes bs) / 256 = ofLeBytes bs := by omega
    simp only [List.length_cons, leBytes, ofLeBytes, h1, h2, leBytes_ofLeBytes bs]

theorem ofLeBytes_lt : ∀ bs : List UInt8, ofLeBytes bs < 256 ^ bs.length
  | [] => by simp [ofLeBytes]
  | b :: bs => by
    have hb : b.toNat < 256 := b.toNat_lt
    have hbs := ofLeBytes_lt bs
    rw [ofLeBytes, List.length_cons, Nat.pow_succ']
    omega

theorem leBytes_inj {k n m : ℕ} (hn : n < 256 ^ k) (hm : m < 256 ^ k)
    (h : leBytes k n = leBytes k m) : n = m := by
  have h' := congrArg ofLeBytes h
  rwa [ofLeBytes_leBytes, ofLeBytes_leBytes, Nat.mod_eq_of_lt hn, Nat.mod_eq_of_lt hm] at h'

variable {k : ℕ}

/-- A content with its length in front. -/
def frame (k : ℕ) (d : List UInt8) : List UInt8 := leBytes k d.length ++ d

/-- A sequence of contents, each with its length in front. -/
def frames (k : ℕ) (ds : List (List UInt8)) : List UInt8 := ds.flatMap (frame k)

@[simp] theorem frames_nil : frames k [] = [] := rfl
@[simp] theorem frames_cons (d : List UInt8) (ds : List (List UInt8)) :
    frames k (d :: ds) = frame k d ++ frames k ds := rfl

theorem length_frame (d : List UInt8) : (frame k d).length = k + d.length := by simp [frame]

theorem frames_append (ds es : List (List UInt8)) :
    frames k (ds ++ es) = frames k ds ++ frames k es := by simp [frames]

/-- **A frame determines its content and its end.** -/
theorem frame_append_inj {d e r s : List UInt8} (hd : d.length < 256 ^ k)
    (he : e.length < 256 ^ k) (h : frame k d ++ r = frame k e ++ s) : d = e ∧ r = s := by
  unfold frame at h
  rw [List.append_assoc, List.append_assoc] at h
  obtain ⟨h1, h2⟩ := List.append_inj h (by simp)
  obtain ⟨h3, h4⟩ := List.append_inj h2 (leBytes_inj hd he h1)
  exact ⟨h3, h4⟩

/-- **Equally many frames determine their contents and their end.** -/
theorem frames_append_inj : ∀ {ds es : List (List UInt8)} {r s : List UInt8},
    ds.length = es.length → (∀ d ∈ ds, d.length < 256 ^ k) → (∀ e ∈ es, e.length < 256 ^ k) →
      frames k ds ++ r = frames k es ++ s → ds = es ∧ r = s
  | [], [], r, s, _, _, _, h => ⟨rfl, by simpa using h⟩
  | [], _ :: _, _, _, hl, _, _, _ => by simp at hl
  | _ :: _, [], _, _, hl, _, _, _ => by simp at hl
  | d :: ds, e :: es, r, s, hl, hd, he, h => by
    simp only [frames_cons, List.append_assoc] at h
    obtain ⟨rfl, h'⟩ := frame_append_inj (hd d (by simp)) (he e (by simp)) h
    obtain ⟨rfl, rfl⟩ := frames_append_inj (by simpa using hl)
      (fun x hx => hd x (by simp [hx])) (fun x hx => he x (by simp [hx])) h'
    exact ⟨rfl, rfl⟩

/-- **A sequence of frames determines its contents.** -/
theorem frames_inj (hk : 0 < k) : ∀ {ds es : List (List UInt8)},
    (∀ d ∈ ds, d.length < 256 ^ k) → (∀ e ∈ es, e.length < 256 ^ k) →
      frames k ds = frames k es → ds = es
  | [], [], _, _, _ => rfl
  | [], e :: es, _, _, h => by
    have h' := congrArg List.length h
    simp only [frames_cons, frames_nil, List.length_append, length_frame, List.length_nil] at h'
    omega
  | d :: ds, [], _, _, h => by
    have h' := congrArg List.length h
    simp only [frames_cons, frames_nil, List.length_append, length_frame, List.length_nil] at h'
    omega
  | d :: ds, e :: es, hd, he, h => by
    obtain ⟨rfl, h'⟩ := frame_append_inj (hd d (by simp)) (he e (by simp)) h
    rw [frames_inj hk (fun x hx => hd x (by simp [hx])) (fun x hx => he x (by simp [hx])) h']

end Fuin.Lib.Frames

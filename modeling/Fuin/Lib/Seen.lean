import Fuin.Lib.Program
import Mathlib.Tactic.SplitIfs

/-! # The states a program has seen

`Prog.Sees` is `Prog.RunsIn` with the list of the states in which the commands of interest are
issued, in their order. What a program returns is a matter of these states; a condition on them says
when what it has read at different moments belongs together. -/

namespace Fuin.Lib.Program.Prog

open Fuin.Lib.Program

variable {C : Type} {Rep : C → Type} {ε α β σ E : Type}

/-- A run in some surroundings, with the states in which the commands that `w` picks are issued. -/
def Sees (exec : E → (c : C) → σ → σ × Rep c) (M : Ambient σ E) (w : C → Bool) :
    Prog Rep ε α → σ → List σ → σ → Except ε α → Prop
  | ret a, s, seen, s', r => seen = [] ∧ s' = s ∧ r = .ok a
  | fail e, s, seen, s', r => seen = [] ∧ s' = s ∧ r = .error e
  | cmd c k, s, seen, s', r => ∃ s₁ e rest, M.rely s s₁ ∧ M.inv s₁ ∧ M.allow e ∧
      seen = (if w c then s₁ :: rest else rest) ∧
      (k (exec e c s₁).2).Sees exec M w (exec e c s₁).1 rest s' r

variable {exec : E → (c : C) → σ → σ × Rep c} {M : Ambient σ E} {w : C → Bool} {s s' : σ}
  {seen : List σ}

/-- Every run sees something. -/
theorem RunsIn.sees {p : Prog Rep ε α} {r : Except ε α} (h : p.RunsIn exec M s s' r) :
    ∃ seen, p.Sees exec M w s seen s' r := by
  induction p generalizing s with
  | ret a => exact ⟨[], rfl, h⟩
  | fail e => exact ⟨[], rfl, h⟩
  | cmd c k ih =>
    obtain ⟨s₁, e, h1, h2, h3, h4⟩ := h
    obtain ⟨rest, h5⟩ := ih _ h4
    exact ⟨_, s₁, e, rest, h1, h2, h3, rfl, h5⟩

theorem Sees.runsIn {p : Prog Rep ε α} {r : Except ε α} (h : p.Sees exec M w s seen s' r) :
    p.RunsIn exec M s s' r := by
  induction p generalizing s seen with
  | ret a => exact h.2
  | fail e => exact h.2
  | cmd c k ih =>
    obtain ⟨s₁, e, rest, h1, h2, h3, -, h5⟩ := h
    exact ⟨s₁, e, h1, h2, h3, ih _ h5⟩

/-- What a program that changes nothing sees lies between its start and its end. -/
theorem Sees.mem {p : Prog Rep ε α} {r : Except ε α} (hp : p.ReadOnly exec)
    (h : p.Sees exec M w s seen s' r) {z : σ} (hz : z ∈ seen) :
    M.rely s z ∧ M.inv z ∧ M.rely z s' := by
  induction p generalizing s seen with
  | ret a =>
    rw [h.1] at hz
    nomatch hz
  | fail e =>
    rw [h.1] at hz
    nomatch hz
  | cmd c k ih =>
    obtain ⟨s₁, e, rest, h1, h2, -, rfl, h5⟩ := h
    have hend := h5.runsIn.rely (hp e s₁).2
    rw [(hp e s₁).1] at h5 hend
    have hrest (hz : z ∈ rest) : M.rely s z ∧ M.inv z ∧ M.rely z s' := by
      obtain ⟨h6, h7⟩ := ih _ (hp e s₁).2 h5 hz
      exact ⟨M.trans h1 h6, h7⟩
    split_ifs at hz
    · rcases List.mem_cons.mp hz with rfl | hz
      · exact ⟨h1, h2, hend⟩
      · exact hrest hz
    · exact hrest hz

/-- The states are seen in the order in which the others lead through them. -/
theorem Sees.pairwise {p : Prog Rep ε α} {r : Except ε α} (hp : p.ReadOnly exec)
    (h : p.Sees exec M w s seen s' r) : seen.Pairwise M.rely := by
  induction p generalizing s seen with
  | ret a => exact h.1 ▸ .nil
  | fail e => exact h.1 ▸ .nil
  | cmd c k ih =>
    obtain ⟨s₁, e, rest, -, -, -, rfl, h5⟩ := h
    rw [(hp e s₁).1] at h5
    have hrest := ih _ (hp e s₁).2 h5
    split_ifs
    · exact .cons (fun z hz => (h5.mem (hp e s₁).2 hz).1) hrest
    · exact hrest

/-- **A sequence** sees what its parts see. -/
theorem sees_bind {p : Prog Rep ε α} {f : α → Prog Rep ε β} {b : β}
    (h : (p.bind f).Sees exec M w s seen s' (.ok b)) :
    ∃ a s₁ seen₁ seen₂, seen = seen₁ ++ seen₂ ∧ p.Sees exec M w s seen₁ s₁ (.ok a) ∧
      (f a).Sees exec M w s₁ seen₂ s' (.ok b) := by
  induction p generalizing s seen with
  | ret a => exact ⟨a, s, [], seen, rfl, ⟨rfl, rfl, rfl⟩, h⟩
  | fail e => nomatch h.2.2
  | cmd c k ih =>
    obtain ⟨s₁, e, rest, h1, h2, h3, rfl, h5⟩ := h
    obtain ⟨a, s₂, seen₁, seen₂, rfl, h6, h7⟩ := ih _ h5
    refine ⟨a, s₂, _, seen₂, ?_, ⟨s₁, e, seen₁, h1, h2, h3, rfl, h6⟩, h7⟩
    split_ifs <;> rfl

theorem sees_ofExcept {x : Except ε α} {r : Except ε α}
    (h : (ofExcept x : Prog Rep ε α).Sees exec M w s seen s' r) : seen = [] ∧ s' = s ∧ r = x := by
  cases x with
  | ok a => exact h
  | error e => exact h

theorem sees_ofExcept_bind {x : Except ε α} {f : α → Prog Rep ε β} {b : β}
    (h : ((ofExcept x).bind f).Sees exec M w s seen s' (.ok b)) :
    ∃ a, x = .ok a ∧ (f a).Sees exec M w s seen s' (.ok b) := by
  obtain ⟨a, s₁, seen₁, seen₂, rfl, h1, h2⟩ := sees_bind h
  obtain ⟨rfl, rfl, hx⟩ := sees_ofExcept h1
  exact ⟨a, hx.symm, h2⟩

/-- The run in which the commands are issued in given states. -/
def replay (exec : E → (c : C) → σ → σ × Rep c) (w : C → Bool) :
    Prog Rep ε α → (ℕ → σ) → (ℕ → E) → σ → List σ × σ × Except ε α
  | ret a, _, _, s => ([], s, .ok a)
  | fail e, _, _, s => ([], s, .error e)
  | cmd c k, states, es, _ =>
    let later := (k (exec (es 0) c (states 0)).2).replay exec w (fun n => states (n + 1))
      (fun n => es (n + 1)) (states 0)
    (if w c then states 0 :: later.1 else later.1, later.2)

theorem mem_replay {p : Prog Rep ε α} {states : ℕ → σ} {es : ℕ → E} {z : σ}
    (hz : z ∈ (p.replay exec w states es s).1) : ∃ n, z = states n := by
  induction p generalizing s states es with
  | ret a => nomatch hz
  | fail e => nomatch hz
  | cmd c k ih =>
    simp only [replay] at hz
    split_ifs at hz
    · rcases List.mem_cons.mp hz with rfl | hz
      · exact ⟨0, rfl⟩
      · exact (ih _ hz).imp' (· + 1) fun _ h => h
    · exact (ih _ hz).imp' (· + 1) fun _ h => h

/-- States that the others lead through are states that a program can see. -/
theorem sees_replay {p : Prog Rep ε α} {states : ℕ → σ} {es : ℕ → E} (hp : p.ReadOnly exec)
    (hs : M.rely s (states 0)) (hstates : ∀ n, M.rely (states n) (states (n + 1)))
    (hinv : ∀ n, M.inv (states n)) (hes : ∀ n, M.allow (es n)) :
    p.Sees exec M w s (p.replay exec w states es s).1 (p.replay exec w states es s).2.1
      (p.replay exec w states es s).2.2 := by
  induction p generalizing s states es with
  | ret a => exact ⟨rfl, rfl, rfl⟩
  | fail e => exact ⟨rfl, rfl, rfl⟩
  | cmd c k ih =>
    have hlater := @ih _ _ (fun n => states (n + 1)) (fun n => es (n + 1))
      (hp (es 0) (states 0)).2 (hstates 0) (fun n => hstates (n + 1)) (fun n => hinv (n + 1))
      fun n => hes (n + 1)
    refine ⟨states 0, es 0, _, hs, hinv 0, hes 0, rfl, ?_⟩
    rw [(hp (es 0) (states 0)).1]
    exact hlater

end Fuin.Lib.Program.Prog

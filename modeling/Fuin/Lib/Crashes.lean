import Fuin.Lib.Program

/-! # Programs that are cut short

A process may die between two commands. What it has done to the store until then is what a run would
have done whose later commands are all refused, if there is an answer of the outside world that refuses
every command (`interrupted_eq_run`): so whatever holds after every run, however it ends, holds after
a crash. -/

namespace Fuin.Lib.Crashes

open Fuin.Lib.Program

variable {C : Type} {Rep : C → Type} {ε α σ E : Type}

/-- The store that a run leaves which is cut after `n` commands. -/
def interrupted (exec : E → (c : C) → σ → σ × Rep c) : Prog Rep ε α → ℕ → (ℕ → E) → σ → σ
  | .ret _, _, _, s => s
  | .fail _, _, _, s => s
  | .cmd _ _, 0, _, s => s
  | .cmd c k, n + 1, es, s =>
    interrupted exec (k (exec (es 0) c s).2) n (fun i => es (i + 1)) (exec (es 0) c s).1

/-- The answers of `es`, and `e` from the `n`-th command on. -/
def cutAt (e : E) (n : ℕ) (es : ℕ → E) (i : ℕ) : E := if i < n then es i else e

variable {exec : E → (c : C) → σ → σ × Rep c} {e : E} {p : Prog Rep ε α} {s : σ}

theorem cutAt_zero {es : ℕ → E} {n : ℕ} : cutAt e (n + 1) es 0 = es 0 := if_pos (Nat.succ_pos n)

theorem cutAt_succ {es : ℕ → E} {n : ℕ} :
    (fun i => cutAt e (n + 1) es (i + 1)) = cutAt e n fun i => es (i + 1) := by
  funext i
  unfold cutAt
  simp only [Nat.add_lt_add_iff_right]

/-- **Where every command is refused**, a run leaves the store. -/
theorem run_refused (he : ∀ c s, (exec e c s).1 = s) {es : ℕ → E} (hes : ∀ i, es i = e) :
    (p.run exec es s).1 = s := by
  induction p generalizing s es with
  | ret a => rfl
  | fail x => rfl
  | cmd c k ih =>
    have hstep : (exec (es 0) c s).1 = s := by rw [hes 0, he]
    exact (ih _ fun i => hes (i + 1)).trans hstep

/-- **A run that is cut** is a run whose later commands are refused. -/
theorem interrupted_eq_run (he : ∀ c s, (exec e c s).1 = s) (n : ℕ) (es : ℕ → E) :
    interrupted exec p n es s = (p.run exec (cutAt e n es) s).1 := by
  induction p generalizing s es n with
  | ret a => rfl
  | fail x => rfl
  | cmd c k ih =>
    cases n with
    | zero => exact (run_refused he fun i => if_neg (Nat.not_lt_zero i)).symm
    | succ n =>
      show interrupted exec _ n _ _ = ((k _).run exec _ _).1
      rw [cutAt_zero, cutAt_succ]
      exact ih _ n _

end Fuin.Lib.Crashes

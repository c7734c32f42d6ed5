import Fuin.Lib.Program

/-! # Errors that a program does not stop with

`Avoids e p`: whatever the replies to its commands are, the program `p` does not stop with the error
`e`. The predicate follows the program like those of `Fuin.Lib.Program`, so it is proved one command at
a time. -/

namespace Fuin.Lib.Failures

open Fuin.Lib.Program

variable {C C' : Type} {Rep : C → Type} {Rep' : C' → Type} {ε α β σ E : Type} {e : ε}

/-- The program does not stop with the error. -/
def Avoids (e : ε) : Prog Rep ε α → Prop
  | .ret _ => True
  | .fail e' => e' ≠ e
  | .cmd _ k => ∀ r, Avoids e (k r)

theorem Avoids.bind {p : Prog Rep ε α} {f : α → Prog Rep ε β} (hp : Avoids e p)
    (hf : ∀ a, Avoids e (f a)) : Avoids e (p.bind f) := by
  induction p with
  | ret a => exact hf a
  | fail e' => exact hp
  | cmd c k ih => exact fun r => ih r (hp r)

theorem avoids_ofExcept {x : Except ε α} (h : x ≠ .error e) :
    Avoids e (Prog.ofExcept x : Prog Rep ε α) := by
  cases x with
  | ok a => trivial
  | error e' => exact fun he => h (congrArg Except.error he)

/-- The same program over a larger set of commands stops with no other errors. -/
theorem Avoids.lift {f : C → C'} {g : ∀ c, Rep' (f c) → Rep c} {p : Prog Rep ε α} (hp : Avoids e p) :
    Avoids e (p.lift f g) := by
  induction p with
  | ret a => trivial
  | fail e' => exact hp
  | cmd c k ih => exact fun r => ih _ (hp _)

/-- **No run ends with the error.** -/
theorem Avoids.runs {exec : E → (c : C) → σ → σ × Rep c} {p : Prog Rep ε α} {s s' : σ}
    {r : Except ε α} (hp : Avoids e p) (h : p.Runs exec s s' r) : r ≠ .error e := by
  induction p generalizing s with
  | ret a =>
    rw [(Prog.runs_ret h).2]
    exact (nomatch ·)
  | fail e' =>
    rw [(Prog.runs_fail h).2]
    exact fun he => hp (Except.error.inj he)
  | cmd c k ih =>
    obtain ⟨i, h⟩ := Prog.runs_cmd h
    exact ih _ (hp _) h

/-- No run among others ends with the error. -/
theorem Avoids.runsIn {exec : E → (c : C) → σ → σ × Rep c} {M : Ambient σ E} {p : Prog Rep ε α}
    {s s' : σ} {r : Except ε α} (hp : Avoids e p) (h : p.RunsIn exec M s s' r) : r ≠ .error e := by
  induction p generalizing s with
  | ret a =>
    rw [h.2]
    exact (nomatch ·)
  | fail e' =>
    rw [h.2]
    exact fun he => hp (Except.error.inj he)
  | cmd c k ih =>
    obtain ⟨_, _, -, -, -, h⟩ := h
    exact ih _ (hp _) h

/-- A sequence of computations that do not fail with the error. -/
theorem bind_ne_error {x : Except ε α} {f : α → Except ε β} (hx : x ≠ .error e)
    (hf : ∀ a, f a ≠ .error e) : (x >>= f) ≠ .error e := by
  cases x with
  | ok a => exact hf a
  | error e' => exact fun h => hx (congrArg Except.error (Except.error.inj h))

end Fuin.Lib.Failures

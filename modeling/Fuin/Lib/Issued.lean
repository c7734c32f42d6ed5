import Fuin.Lib.Program
import Mathlib.Data.Set.Defs

/-! # The commands of a program

`Issues P p`: whatever the replies are, every command of the program `p` meets `P`. What such commands
keep is kept by every run (`Issues.run`). `Does W p s l r s'` is a run in the world `W` that ends with
`r`, and of which `l` is what is seen of its commands from outside; it is taken apart at each
sequencing (`does_bind`). -/

namespace Fuin.Lib.Issued

open Fuin.Lib.Program

variable {C : Type} {Rep : C → Type} {ε α β σ E : Type} {P P' : C → Prop}

/-- Every command of the program meets `P`. -/
def Issues (P : C → Prop) : Prog Rep ε α → Prop
  | .ret _ => True
  | .fail _ => True
  | .cmd c k => P c ∧ ∀ r, Issues P (k r)

theorem Issues.mono {p : Prog Rep ε α} (hp : Issues P p) (h : ∀ c, P c → P' c) : Issues P' p := by
  induction p with
  | ret a => trivial
  | fail e => trivial
  | cmd c k ih => exact ⟨h c hp.1, fun r => ih r (hp.2 r)⟩

theorem Issues.bind {p : Prog Rep ε α} {f : α → Prog Rep ε β} (hp : Issues P p)
    (hf : ∀ a, Issues P (f a)) : Issues P (p.bind f) := by
  induction p with
  | ret a => exact hf a
  | fail e => trivial
  | cmd c k ih => exact ⟨hp.1, fun r => ih r (hp.2 r)⟩

theorem Issues.attempt {ε' : Type} {p : Prog Rep ε α} (hp : Issues P p) :
    Issues P (p.attempt : Prog Rep ε' (Except ε α)) := by
  induction p with
  | ret a => trivial
  | fail e => trivial
  | cmd c k ih => exact ⟨hp.1, fun r => ih r (hp.2 r)⟩

/-- **What the commands keep** is kept by every run. -/
theorem Issues.run {exec : E → (c : C) → σ → σ × Rep c} {I : σ → Prop} {p : Prog Rep ε α}
    (hp : Issues P p) (hstep : ∀ e c s, P c → I s → I (exec e c s).1) {es : ℕ → E} {s : σ} (hs : I s) :
    I (p.run exec es s).1 := by
  induction p generalizing es s with
  | ret a => exact hs
  | fail e => exact hs
  | cmd c k ih => exact ih _ (hp.2 _) (hstep _ _ _ hp.1 hs)

/-! ### What is seen of a run -/

section Traces

variable {O : Type} (exec : E → (c : C) → σ → σ × Rep c) (see : E → C → List O)

/-- What is seen of the commands of a run. -/
def trace : Prog Rep ε α → (ℕ → E) → σ → List O
  | .ret _, _, _ => []
  | .fail _, _, _ => []
  | .cmd c k, es, s =>
    see (es 0) c ++ trace (k (exec (es 0) c s).2) (fun n => es (n + 1)) (exec (es 0) c s).1

/-- A run, what is seen of it, and how it ends. -/
def Does (W : Set E) (p : Prog Rep ε α) (s : σ) (l : List O) (r : Except ε α) (s' : σ) : Prop :=
  ∃ es : ℕ → E, (∀ n, es n ∈ W) ∧ p.run exec es s = (s', r) ∧ trace exec see p es s = l

variable {exec see} {W : Set E} {s s' : σ} {l : List O}

theorem Does.cmd {c : C} {k : Rep c → Prog Rep ε α} {r : Except ε α} {e : E} {l' : List O} (he : e ∈ W)
    (h : Does exec see W (k (exec e c s).2) (exec e c s).1 l' r s') :
    Does exec see W (.cmd c k) s (see e c ++ l') r s' := by
  obtain ⟨es, hes, hrun, rfl⟩ := h
  refine ⟨fun n => Nat.casesOn (motive := fun _ => E) n e es, fun n => ?_, hrun, rfl⟩
  cases n with
  | zero => exact he
  | succ n => exact hes n

end Traces

end Fuin.Lib.Issued

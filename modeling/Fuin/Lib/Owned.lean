import Fuin.Lib.Interleave

/-! # Processes that own something

Where a process owns a part of the store, it relies on more than the others do: that nobody else changes
this part. An `Accord` gives every process a `rely` of its own; what a process does in one step all the
others have to put up with (`Accord.contract`). If every program keeps its contract, then in every
reachable configuration the invariant holds and every process is within its contract, whatever the
interleaving (`Accord.Good.reach`). -/

namespace Fuin.Lib.Owned

open Fuin.Lib.Program Fuin.Lib.Interleave

variable {C : Type} {Rep : C → Type} {ε α σ E Op ι : Type}

/-- The contracts of processes that know who they are. -/
structure Accord (C σ E Op ι : Type) where
  /-- The invariant of the store. -/
  inv : σ → Prop
  /-- What the others may do to the store, for this process. -/
  rely : ι → σ → σ → Prop
  /-- The operations that a process may start. -/
  may : ι → Op → Prop
  /-- The steps that are considered. -/
  allow : ι → Op → E → C → σ → Prop
  rely_refl : ∀ i s, rely i s s
  rely_trans : ∀ {i s s' s''}, rely i s s' → rely i s' s'' → rely i s s''

namespace Accord

variable (P : Accord C σ E Op ι) (S : System Rep ε α σ E ι Op)

/-- The contract of an operation: a step is one that all the others put up with. -/
def contract (i : ι) (op : Op) : Contract C σ E where
  inv := P.inv
  rely := P.rely i
  guar s s' := ∀ j, j ≠ i → P.rely j s s'
  allow := P.allow i op
  rely_refl := P.rely_refl i
  rely_trans := P.rely_trans

/-- The program keeps the contract. -/
abbrev Keeps (i : ι) (op : Op) (p : Prog Rep ε α) (s : σ) : Prop :=
  (P.contract i op).Ok S.exec (fun _ _ => True) (fun _ _ => True) p s

/-- **Every operation keeps its contract.** -/
structure Sound : Prop where
  code : ∀ {i op s}, P.may i op → P.inv s → P.Keeps S i op (S.code i op) s
  finish : ∀ i op r, S.finish i op r = i

/-- The invariant of the whole system. -/
structure Good (g : Config Rep ε α σ ι Op ι) : Prop where
  inv : P.inv g.shared
  loc : ∀ i, (g.procs i).loc = i
  procs : ∀ i op p, (g.procs i).running = some (op, p) → P.Keeps S i op p g.shared

variable {P S} {g g' : Config Rep ε α σ ι Op ι}

/-- Idle processes are in order. -/
theorem Good.of_idle (hi : P.inv g.shared) (hidle : ∀ i, g.procs i = ⟨i, none⟩) : P.Good S g where
  inv := hi
  loc i := by rw [hidle i]
  procs i op p hr := by
    rw [hidle i] at hr
    cases hr

variable [DecidableEq ι]

/-- The configuration after one process has moved. -/
theorem Good.update {i : ι} {s : σ} {o : Option (Op × Prog Rep ε α)} (h : P.Good S g) (hi : P.inv s)
    (hs : ∀ j, j ≠ i → P.rely j g.shared s) (ho : ∀ op p, o = some (op, p) → P.Keeps S i op p s) :
    P.Good S ⟨s, Function.update g.procs i ⟨i, o⟩⟩ := by
  refine ⟨hi, fun j => ?_, fun j op p hr => ?_⟩
  · by_cases hj : j = i
    · subst hj
      simp
    · simpa [Function.update_of_ne hj] using h.loc j
  · by_cases hj : j = i
    · subst hj
      exact ho op p (by simpa using hr)
    · have hrun : (g.procs j).running = some (op, p) := by simpa [Function.update_of_ne hj] using hr
      exact Contract.Ok.stable (h.procs j op p hrun) (hs j hj)

/-- **One step.** -/
theorem Good.step (hS : P.Sound S) (h : P.Good S g) (hg : S.Step (Obeys P.may P.allow) g g') :
    P.Good S g' := by
  obtain ⟨ev, hev, he⟩ := hg
  cases ev with
  | start i op =>
    obtain ⟨-, rfl⟩ := S.step_start he
    have hmay : P.may (g.procs i).loc op := hev
    rw [h.loc i] at hmay ⊢
    refine h.update h.inv (fun j _ => P.rely_refl j _) fun op' p hp => ?_
    obtain ⟨rfl, rfl⟩ := Prod.mk.inj (Option.some.inj hp)
    exact hS.code hmay h.inv
  | act i e =>
    obtain ⟨op, c, k, hr, rfl⟩ := S.step_act he
    have hallow : P.allow (g.procs i).loc op e c g.shared := by
      simpa only [Obeys, Proc.Issues, hr] using hev
    rw [h.loc i] at hallow ⊢
    obtain ⟨hinv, hguar, hk⟩ := h.procs i op _ hr g.shared (P.rely_refl i _) h.inv e hallow
    refine h.update hinv hguar fun op' p hp => ?_
    obtain ⟨rfl, rfl⟩ := Prod.mk.inj (Option.some.inj hp)
    exact hk
  | finish i =>
    obtain ⟨op, r, rfl, -⟩ := S.step_finish he
    rw [hS.finish, h.loc i]
    exact h.update h.inv (fun j _ => P.rely_refl j _) fun op' p hp => by cases hp

/-- **Any run.** -/
theorem Good.reach (hS : P.Sound S) (h : P.Good S g) (hg : S.Reach (Obeys P.may P.allow) g g') :
    P.Good S g' := by
  induction hg with
  | refl => exact h
  | tail _ hstep ih => exact ih.step hS hstep

end Accord

end Fuin.Lib.Owned

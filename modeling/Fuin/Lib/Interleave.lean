import Fuin.Lib.Program
import Mathlib.Logic.Function.Basic
import Mathlib.Logic.Relation

/-! # Interleaved processes

A system runs any number of processes over one store. A process is idle or in the middle of an
operation; its local state (`loc`) decides which program the operation is, and the result of the
operation changes the local state. An event starts an operation, lets one process issue one command,
or ends an operation; the store changes with the commands only, each of which is one atomic step.

A `Protocol` gives every operation its contract, all with one invariant and one `rely`. If every
program keeps its contract and every step of a contract is one the others put up with, then the
contracts hold in every reachable configuration, whatever the interleaving (`Protocol.reach_good`),
and every step taken does what its operation guarantees (`Protocol.act_guar`). -/

namespace Fuin.Lib.Interleave

open Fuin.Lib.Program

variable {C : Type} {Rep : C → Type} {ε α σ E L Op ι : Type}

/-- The processes' commands, their operations, and what the end of an operation changes locally. -/
structure System {C : Type} (Rep : C → Type) (ε α σ E L Op : Type) where
  exec : E → (c : C) → σ → σ × Rep c
  code : L → Op → Prog Rep ε α
  finish : L → Op → Except ε α → L

/-- A process: its local state, and the operation it is in with what is left of its program. -/
structure Proc {C : Type} (Rep : C → Type) (ε α L Op : Type) where
  loc : L
  running : Option (Op × Prog Rep ε α)

/-- The store and the processes. -/
structure Config {C : Type} (Rep : C → Type) (ε α σ L Op ι : Type) where
  shared : σ
  procs : ι → Proc Rep ε α L Op

/-- What happens next: an operation starts, a command is issued, an operation ends. -/
inductive Event (E Op ι : Type) where
  | start (i : ι) (op : Op)
  | act (i : ι) (e : E)
  | finish (i : ι)

/-- The configuration with process `i` replaced. -/
def Config.set [DecidableEq ι] (g : Config Rep ε α σ L Op ι) (i : ι) (p : Proc Rep ε α L Op) :
    Config Rep ε α σ L Op ι :=
  { g with procs := Function.update g.procs i p }

/-- A condition on the command that a process issues next, if it is going to issue one. -/
def Proc.Issues (ok : Op → C → Prop) (p : Proc Rep ε α L Op) : Prop :=
  match p.running with
  | some (op, .cmd c _) => ok op c
  | _ => True

instance (ok : Op → C → Prop) [∀ op c, Decidable (ok op c)] (p : Proc Rep ε α L Op) :
    Decidable (p.Issues ok) :=
  match p with
  | ⟨_, none⟩ => isTrue trivial
  | ⟨_, some (_, .ret _)⟩ => isTrue trivial
  | ⟨_, some (_, .fail _)⟩ => isTrue trivial
  | ⟨_, some (op, .cmd c _)⟩ => inferInstanceAs (Decidable (ok op c))

/-- The events of a run in which only some operations start and only some commands are issued. -/
def Obeys (may : L → Op → Prop) (allow : L → Op → E → C → σ → Prop)
    (g : Config Rep ε α σ L Op ι) : Event E Op ι → Prop
  | .start i op => may (g.procs i).loc op
  | .act i e => (g.procs i).Issues fun op c => allow (g.procs i).loc op e c g.shared
  | .finish _ => True

instance {may : L → Op → Prop} {allow : L → Op → E → C → σ → Prop}
    [∀ l op, Decidable (may l op)] [∀ l op e c s, Decidable (allow l op e c s)]
    (g : Config Rep ε α σ L Op ι) (ev : Event E Op ι) : Decidable (Obeys may allow g ev) :=
  match ev with
  | .start i op => inferInstanceAs (Decidable (may (g.procs i).loc op))
  | .act i _ => inferInstanceAs (Decidable ((g.procs i).Issues _))
  | .finish _ => isTrue trivial

theorem Obeys.mono {may may' : L → Op → Prop} {allow allow' : L → Op → E → C → σ → Prop}
    {g : Config Rep ε α σ L Op ι} {ev : Event E Op ι} (h : Obeys may allow g ev)
    (hm : ∀ l op, may l op → may' l op) (ha : ∀ l op e c s, allow l op e c s → allow' l op e c s) :
    Obeys may' allow' g ev := by
  cases ev with
  | start i op => exact hm _ _ h
  | act i e =>
    have h' : (g.procs i).Issues fun op c => allow (g.procs i).loc op e c g.shared := h
    show (g.procs i).Issues _
    unfold Proc.Issues at h' ⊢
    split
    · simp_all
    · trivial
  | finish i => trivial

theorem obeys_true (g : Config Rep ε α σ L Op ι) (ev : Event E Op ι) :
    Obeys (fun _ _ => True) (fun _ _ _ _ _ => True) g ev := by
  cases ev with
  | start i op => trivial
  | act i e =>
    show (g.procs i).Issues fun _ _ => True
    unfold Proc.Issues
    split <;> trivial
  | finish i => trivial

namespace System

variable [DecidableEq ι] (S : System Rep ε α σ E L Op)

/-- The configuration after an event, if the event is possible. -/
def step (g : Config Rep ε α σ L Op ι) : Event E Op ι → Option (Config Rep ε α σ L Op ι)
  | .start i op =>
    match (g.procs i).running with
    | none => some (g.set i ⟨(g.procs i).loc, some (op, S.code (g.procs i).loc op)⟩)
    | some _ => none
  | .act i e =>
    match (g.procs i).running with
    | some (op, .cmd c k) =>
      some (Config.set ⟨(S.exec e c g.shared).1, g.procs⟩ i
        ⟨(g.procs i).loc, some (op, k (S.exec e c g.shared).2)⟩)
    | _ => none
  | .finish i =>
    match (g.procs i).running with
    | some (op, .ret a) => some (g.set i ⟨S.finish (g.procs i).loc op (.ok a), none⟩)
    | some (op, .fail e) => some (g.set i ⟨S.finish (g.procs i).loc op (.error e), none⟩)
    | _ => none

/-- What the process that issues a command is in, and what becomes of it. -/
theorem step_act {g g' : Config Rep ε α σ L Op ι} {i : ι} {e : E}
    (h : S.step g (.act i e) = some g') : ∃ op c k, (g.procs i).running = some (op, .cmd c k) ∧
      g' = Config.set ⟨(S.exec e c g.shared).1, g.procs⟩ i
        ⟨(g.procs i).loc, some (op, k (S.exec e c g.shared).2)⟩ := by
  match hr : (g.procs i).running with
  | none => simp [step, hr] at h
  | some (op, .ret a) => simp [step, hr] at h
  | some (op, .fail e) => simp [step, hr] at h
  | some (op, .cmd c k) =>
    simp only [step, hr, Option.some.injEq] at h
    exact ⟨op, c, k, rfl, h.symm⟩

/-- The operation that ends. -/
theorem step_finish {g g' : Config Rep ε α σ L Op ι} {i : ι}
    (h : S.step g (.finish i) = some g') : ∃ op r, g' = g.set i ⟨S.finish (g.procs i).loc op r, none⟩ ∧
      ((∃ a, r = .ok a ∧ (g.procs i).running = some (op, .ret a)) ∨
        ∃ e, r = .error e ∧ (g.procs i).running = some (op, .fail e)) := by
  match hr : (g.procs i).running with
  | none => simp [step, hr] at h
  | some (op, .cmd c k) => simp [step, hr] at h
  | some (op, .ret a) =>
    simp only [step, hr, Option.some.injEq] at h
    exact ⟨op, .ok a, h.symm, Or.inl ⟨a, rfl, rfl⟩⟩
  | some (op, .fail e) =>
    simp only [step, hr, Option.some.injEq] at h
    exact ⟨op, .error e, h.symm, Or.inr ⟨e, rfl, rfl⟩⟩

/-- The operation that starts. -/
theorem step_start {g g' : Config Rep ε α σ L Op ι} {i : ι} {op : Op}
    (h : S.step g (.start i op) = some g') : (g.procs i).running = none ∧
      g' = g.set i ⟨(g.procs i).loc, some (op, S.code (g.procs i).loc op)⟩ := by
  cases hr : (g.procs i).running with
  | some q => simp [step, hr] at h
  | none =>
    simp only [step, hr, Option.some.injEq] at h
    exact ⟨rfl, h.symm⟩

/-- The store changes with the commands only. -/
theorem shared_start {g g' : Config Rep ε α σ L Op ι} {i : ι} {op : Op}
    (h : S.step g (.start i op) = some g') : g'.shared = g.shared := by
  obtain ⟨-, rfl⟩ := S.step_start h
  rfl

theorem shared_finish {g g' : Config Rep ε α σ L Op ι} {i : ι}
    (h : S.step g (.finish i) = some g') : g'.shared = g.shared := by
  obtain ⟨_, _, rfl, -⟩ := S.step_finish h
  rfl

/-- One step by an event that `P` admits. -/
def Step (P : Config Rep ε α σ L Op ι → Event E Op ι → Prop)
    (g g' : Config Rep ε α σ L Op ι) : Prop := ∃ ev, P g ev ∧ S.step g ev = some g'

/-- Any number of steps by events that `P` admits. -/
def Reach (P : Config Rep ε α σ L Op ι → Event E Op ι → Prop) :
    Config Rep ε α σ L Op ι → Config Rep ε α σ L Op ι → Prop :=
  Relation.ReflTransGen (S.Step P)

theorem Reach.mono {P P' : Config Rep ε α σ L Op ι → Event E Op ι → Prop}
    {g g' : Config Rep ε α σ L Op ι} (h : S.Reach P g g') (hP : ∀ g ev, P g ev → P' g ev) :
    S.Reach P' g g' := by
  induction h with
  | refl => exact .refl
  | tail _ hstep ih =>
    obtain ⟨ev, hev, hs⟩ := hstep
    exact ih.tail ⟨ev, hP _ _ hev, hs⟩

/-- The configuration after a list of events, all of which `P` admits. -/
def steps (P : Config Rep ε α σ L Op ι → Event E Op ι → Prop) [∀ g ev, Decidable (P g ev)]
    (g : Config Rep ε α σ L Op ι) : List (Event E Op ι) → Option (Config Rep ε α σ L Op ι)
  | [] => some g
  | ev :: evs => if P g ev then (S.step g ev).bind fun g' => steps P g' evs else none

theorem reach_of_steps {P : Config Rep ε α σ L Op ι → Event E Op ι → Prop}
    [∀ g ev, Decidable (P g ev)] : ∀ {evs : List (Event E Op ι)} {g g' : Config Rep ε α σ L Op ι},
      S.steps P g evs = some g' → S.Reach P g g'
  | [], g, g', h => by cases h; exact .refl
  | ev :: evs, g, g', h => by
    unfold steps at h
    split at h
    · obtain ⟨g₁, h1, h2⟩ := Option.bind_eq_some_iff.mp h
      exact .head ⟨ev, ‹_›, h1⟩ (reach_of_steps h2)
    · nomatch h

/-- An operation run on its own: the store it leaves, its result, the local state after it. -/
def call (l : L) (op : Op) (es : ℕ → E) (s : σ) : σ × Except ε α × L :=
  let r := (S.code l op).run S.exec es s
  (r.1, r.2, S.finish l op r.2)

end System

/-- The contracts of the operations, with one invariant and one `rely` for all. -/
structure Protocol (C ε α σ E L Op : Type) where
  inv : σ → Prop
  rely : σ → σ → Prop
  guar : L → Op → σ → σ → Prop
  allow : L → Op → E → C → σ → Prop
  /-- The operations that are started. -/
  may : L → Op → Prop
  /-- What an idle process knows about the store. -/
  loc : L → σ → Prop
  /-- What the result of an operation says about the store. -/
  post : L → Op → Except ε α → σ → Prop
  rely_refl : ∀ s, rely s s
  rely_trans : ∀ {s s' s''}, rely s s' → rely s' s'' → rely s s''
  guar_rely : ∀ {l op s s'}, guar l op s s' → rely s s'
  loc_rely : ∀ {l s s'}, loc l s → rely s s' → inv s' → loc l s'

namespace Protocol

variable (P : Protocol C ε α σ E L Op) (S : System Rep ε α σ E L Op)

/-- The contract of one operation. -/
def contract (l : L) (op : Op) : Contract C σ E where
  inv := P.inv
  rely := P.rely
  guar := P.guar l op
  allow := P.allow l op
  rely_refl := P.rely_refl
  rely_trans := P.rely_trans

/-- The program keeps the contract of its operation and ends in its postcondition. -/
def OpOk (l : L) (op : Op) (p : Prog Rep ε α) (s : σ) : Prop :=
  (P.contract l op).Ok S.exec (fun a => P.post l op (.ok a)) (fun e => P.post l op (.error e)) p s

/-- **Every operation keeps its contract**, and its postcondition is what the process knows
afterwards. -/
structure Sound : Prop where
  code : ∀ {l op s}, P.may l op → P.inv s → P.loc l s → P.OpOk S l op (S.code l op) s
  finish : ∀ {l op r s}, P.inv s → P.post l op r s → P.loc (S.finish l op r) s

/-- The events of a run in which only admitted operations start and only allowed steps happen. -/
abbrev Admits (g : Config Rep ε α σ L Op ι) : Event E Op ι → Prop := Obeys P.may P.allow g

/-- A process is in order: idle with what it knows, or within its contract. -/
def ProcOk (s : σ) (p : Proc Rep ε α L Op) : Prop :=
  match p.running with
  | none => P.loc p.loc s
  | some (op, q) => P.OpOk S p.loc op q s

/-- The invariant of the whole system. -/
structure Good (g : Config Rep ε α σ L Op ι) : Prop where
  inv : P.inv g.shared
  procs : ∀ i, P.ProcOk S g.shared (g.procs i)

variable {P S} {g g' : Config Rep ε α σ L Op ι}

theorem ProcOk.rely {s s' : σ} {p : Proc Rep ε α L Op} (h : P.ProcOk S s p) (hs : P.rely s s')
    (hi : P.inv s') : P.ProcOk S s' p := by
  unfold ProcOk at h ⊢
  cases hr : p.running with
  | none => rw [hr] at h; exact P.loc_rely h hs hi
  | some q => rw [hr] at h; exact Contract.Ok.stable h hs

/-- Processes that are idle are in order. -/
theorem Good.of_idle (hi : P.inv g.shared) (hidle : ∀ i, (g.procs i).running = none)
    (hloc : ∀ i, P.loc (g.procs i).loc g.shared) : P.Good S g where
  inv := hi
  procs i := by
    unfold ProcOk
    rw [hidle i]
    exact hloc i

/-- The result of an operation satisfies its postcondition. -/
theorem Good.post_ok {i : ι} {op : Op} {a : α} (h : P.Good S g)
    (hr : (g.procs i).running = some (op, .ret a)) :
    P.post (g.procs i).loc op (.ok a) g.shared := by
  have hp := h.procs i
  unfold ProcOk at hp
  rw [hr] at hp
  exact hp g.shared (P.rely_refl _) h.inv

theorem Good.post_error {i : ι} {op : Op} {e : ε} (h : P.Good S g)
    (hr : (g.procs i).running = some (op, .fail e)) :
    P.post (g.procs i).loc op (.error e) g.shared := by
  have hp := h.procs i
  unfold ProcOk at hp
  rw [hr] at hp
  exact hp g.shared (P.rely_refl _) h.inv

/-- A command keeps the invariant and the guarantee of its operation. -/
theorem Good.act {i : ι} {op : Op} {c : C} {k : Rep c → Prog Rep ε α} {e : E} (h : P.Good S g)
    (hr : (g.procs i).running = some (op, .cmd c k))
    (ha : P.allow (g.procs i).loc op e c g.shared) :
    P.inv (S.exec e c g.shared).1 ∧
      P.guar (g.procs i).loc op g.shared (S.exec e c g.shared).1 ∧
      P.OpOk S (g.procs i).loc op (k (S.exec e c g.shared).2) (S.exec e c g.shared).1 := by
  have hp := h.procs i
  unfold ProcOk at hp
  rw [hr] at hp
  exact hp g.shared (P.rely_refl _) h.inv e ha

/-- Replacing one process by one that is in order, in a store the others put up with. -/
theorem Good.update [DecidableEq ι] {i : ι} {p : Proc Rep ε α L Op} {s : σ} (h : P.Good S g)
    (hi : P.inv s) (hs : P.rely g.shared s) (hp : P.ProcOk S s p) :
    P.Good S ⟨s, Function.update g.procs i p⟩ := by
  refine ⟨hi, fun j => ?_⟩
  by_cases hj : j = i
  · subst hj; simpa using hp
  · simpa [Function.update_of_ne hj] using (h.procs j).rely hs hi

variable [DecidableEq ι]

/-- **One step.** -/
theorem Good.step (hS : P.Sound S) (h : P.Good S g) (hg : S.Step P.Admits g g') :
    P.Good S g' := by
  obtain ⟨ev, hev, he⟩ := hg
  cases ev with
  | start i op =>
    obtain ⟨hr, rfl⟩ := S.step_start he
    have hloc := h.procs i
    unfold ProcOk at hloc
    rw [hr] at hloc
    exact h.update h.inv (P.rely_refl _) (hS.code hev h.inv hloc)
  | act i e =>
    obtain ⟨op, c, k, hr, rfl⟩ := S.step_act he
    obtain ⟨hi, hgu, hk⟩ := h.act hr (by simpa only [Obeys, Proc.Issues, hr] using hev)
    exact h.update hi (P.guar_rely hgu) hk
  | finish i =>
    obtain ⟨op, r, rfl, ⟨a, rfl, hr⟩ | ⟨e, rfl, hr⟩⟩ := S.step_finish he
    · exact h.update h.inv (P.rely_refl _) (hS.finish h.inv (h.post_ok hr))
    · exact h.update h.inv (P.rely_refl _) (hS.finish h.inv (h.post_error hr))

/-- **Any run**: the contracts hold in every reachable configuration. -/
theorem Good.reach (hS : P.Sound S) (h : P.Good S g) (hg : S.Reach P.Admits g g') :
    P.Good S g' := by
  induction hg with
  | refl => exact h
  | tail _ hstep ih => exact ih.step hS hstep

/-- A step changes the store only by a command, and as the operation's guarantee says. -/
theorem Good.step_guar (h : P.Good S g) (hg : S.Step P.Admits g g') :
    g'.shared = g.shared ∨ ∃ i op c k, (g.procs i).running = some (op, .cmd c k) ∧
      P.guar (g.procs i).loc op g.shared g'.shared := by
  obtain ⟨ev, hev, he⟩ := hg
  cases ev with
  | start i op => exact Or.inl (S.shared_start he)
  | act i e =>
    obtain ⟨op, c, k, hr, rfl⟩ := S.step_act he
    exact Or.inr ⟨i, op, c, k, hr, (h.act hr (by simpa only [Obeys, Proc.Issues, hr] using hev)).2.1⟩
  | finish i => exact Or.inl (S.shared_finish he)

theorem Good.step_rely (h : P.Good S g) (hg : S.Step P.Admits g g') :
    P.rely g.shared g'.shared := by
  rcases h.step_guar hg with he | ⟨i, op, c, k, -, hgu⟩
  · rw [he]; exact P.rely_refl _
  · exact P.guar_rely hgu

/-- What a process knew before its operation it knows in the middle of it. -/
theorem Good.step_loc (hS : P.Sound S) (h : P.Good S g)
    (hloc : ∀ i, P.loc (g.procs i).loc g.shared) (hg : S.Step P.Admits g g') :
    ∀ i, P.loc (g'.procs i).loc g'.shared := by
  have hinv := (h.step hS hg).inv
  have hrely := h.step_rely hg
  intro j
  have hj := P.loc_rely (hloc j) hrely hinv
  obtain ⟨ev, hev, he⟩ := hg
  cases ev with
  | start i op =>
    obtain ⟨-, rfl⟩ := S.step_start he
    by_cases hji : j = i
    · subst hji
      simpa [Config.set] using hj
    · simpa [Config.set, Function.update_of_ne hji] using hj
  | act i e =>
    obtain ⟨op, c, k, hr, rfl⟩ := S.step_act he
    by_cases hji : j = i
    · subst hji
      simpa [Config.set] using hj
    · simpa [Config.set, Function.update_of_ne hji] using hj
  | finish i =>
    obtain ⟨op, r, rfl, hr⟩ := S.step_finish he
    by_cases hji : j = i
    · subst hji
      have hpost : P.post (g.procs j).loc op r g.shared := by
        rcases hr with ⟨a, rfl, hr⟩ | ⟨e, rfl, hr⟩
        · exact h.post_ok hr
        · exact h.post_error hr
      simpa [Config.set] using hS.finish h.inv hpost
    · simpa [Config.set, Function.update_of_ne hji] using hj

theorem Good.reach_loc (hS : P.Sound S) (h : P.Good S g) (hloc : ∀ i, P.loc (g.procs i).loc g.shared)
    (hg : S.Reach P.Admits g g') : ∀ i, P.loc (g'.procs i).loc g'.shared := by
  induction hg with
  | refl => exact hloc
  | tail hreach hstep ih => exact (h.reach hS hreach).step_loc hS ih hstep

/-- What the store has become since is what every operation puts up with. -/
theorem Good.reach_rely (hS : P.Sound S) (h : P.Good S g) (hg : S.Reach P.Admits g g') :
    P.rely g.shared g'.shared := by
  induction hg with
  | refl => exact P.rely_refl _
  | tail hreach hstep ih => exact P.rely_trans ih ((h.reach hS hreach).step_rely hstep)

end Protocol

end Fuin.Lib.Interleave

import Fuin.Lib.Interleave
import Mathlib.Data.Set.Finite.Basic
import Mathlib.Data.Finset.Basic

/-! # Calls that take effect at one moment

What concurrent calls are for is said by an *object*: its state changes by `turn`s, one for each call,
and a call is answered at one moment between its start and its end (`Atomic`). A system is linearizable
if its histories, that is its calls and what they return, are histories of the object.

`Settles op p V s` is what has to be shown of the program `p` of an operation that has changed nothing
yet: `V` holds the states that the object has been in since the call started, a command leaves the state
or is the turn of the call, after which the program is over, and if there is no such command the result
is right in one of the states of `V`. Like `Contract.Ok` the predicate follows the program. If all
operations settle, the system is linearizable (`linearizable`): a call that only reads is answered at a
moment that is known when it returns, so the object follows the system for every choice of these
moments. -/

namespace Fuin.Lib.Moments

open Fuin.Lib.Program Fuin.Lib.Interleave

variable {C : Type} {Rep : C → Type} {ε α σ E L Op ι A R : Type}

/-! ### Objects -/

/-- Where a process is: it has called an operation, and the call has been answered or not. -/
inductive Stage (Op R : Type) where
  | idle
  | called (op : Op)
  | answered (op : Op) (r : R)

/-- The state of an object and its callers. -/
structure Object (A Op R ι : Type) where
  state : A
  stages : ι → Stage Op R

/-- What can be seen of a run: calls and their results. -/
inductive Mark (Op R ι : Type) where
  | call (i : ι) (op : Op)
  | back (i : ι) (op : Op) (r : R)

variable [DecidableEq ι]

/-- The object with another stage of `i`. -/
def Object.put (o : Object A Op R ι) (i : ι) (x : Stage Op R) : Object A Op R ι :=
  { o with stages := Function.update o.stages i x }

/-- **The histories of an object**: a call is answered at one moment, where its turn is taken. -/
inductive Atomic (turn : A → Op → R → A → Prop) (o₀ : Object A Op R ι) :
    List (Mark Op R ι) → Object A Op R ι → Prop
  | start : Atomic turn o₀ [] o₀
  | call {h o i op} : Atomic turn o₀ h o → o.stages i = .idle →
      Atomic turn o₀ (h ++ [.call i op]) (o.put i (.called op))
  | moment {h o i op r a} : Atomic turn o₀ h o → o.stages i = .called op → turn o.state op r a →
      Atomic turn o₀ h (Object.put ⟨a, o.stages⟩ i (.answered op r))
  | back {h o i op r} : Atomic turn o₀ h o → o.stages i = .answered op r →
      Atomic turn o₀ (h ++ [.back i op r]) (o.put i .idle)

variable {turn : A → Op → R → A → Prop} {o₀ o : Object A Op R ι} {h : List (Mark Op R ι)}

/-- **Any number of calls that change nothing** can be answered in one state. -/
theorem Atomic.moments (hs : Atomic turn o₀ h o) {x : ι → Stage Op R} (F : Finset ι)
    (hF : ∀ i ∈ F, ∃ op r, o.stages i = .called op ∧ x i = .answered op r ∧
      turn o.state op r o.state) :
    Atomic turn o₀ h ⟨o.state, fun i => if i ∈ F then x i else o.stages i⟩ := by
  induction F using Finset.induction_on with
  | empty => simpa using hs
  | @insert j F hj ih =>
    have hrest := ih fun i hi => hF i (Finset.mem_insert_of_mem hi)
    obtain ⟨op, r, hcalled, hx, hturn⟩ := hF j (Finset.mem_insert_self j F)
    have hstage : (fun i => if i ∈ F then x i else o.stages i) j = .called op := by
      simp only [hj, if_false]
      exact hcalled
    have hmoment := Atomic.moment hrest hstage hturn
    have heq : (fun i => if i ∈ insert j F then x i else o.stages i) =
        Function.update (fun i => if i ∈ F then x i else o.stages i) j (.answered op r) := by
      funext i
      by_cases hij : i = j
      · subst hij
        simp [hx]
      · simp [hij]
    rw [heq]
    exact hmoment

/-! ### Histories of a system -/

variable (S : System Rep ε α σ E L Op)

/-- The program that has this result. -/
def ended (r : Except ε α) : Prog Rep ε α := Prog.ofExcept r

/-- What is seen of an event. -/
def marks (g : Config Rep ε α σ L Op ι) : Event E Op ι → List (Mark Op (Except ε α) ι)
  | .start i op => [.call i op]
  | .act _ _ => []
  | .finish i =>
    match (g.procs i).running with
    | some (op, .ret a) => [.back i op (.ok a)]
    | some (op, .fail e) => [.back i op (.error e)]
    | _ => []

/-- **The runs of a system and their histories**, by events that `P` admits. -/
inductive Seen (P : Config Rep ε α σ L Op ι → Event E Op ι → Prop) (g₀ : Config Rep ε α σ L Op ι) :
    List (Mark Op (Except ε α) ι) → Config Rep ε α σ L Op ι → Prop
  | start : Seen P g₀ [] g₀
  | step {h g g' ev} : Seen P g₀ h g → P g ev → S.step g ev = some g' →
      Seen P g₀ (h ++ marks g ev) g'

variable {S} {P : Config Rep ε α σ L Op ι → Event E Op ι → Prop} {g₀ g g' : Config Rep ε α σ L Op ι}

theorem Seen.reach {h : List (Mark Op (Except ε α) ι)} (hs : Seen S P g₀ h g) : S.Reach P g₀ g := by
  induction hs with
  | start => exact .refl
  | step _ hP hstep ih => exact ih.tail ⟨_, hP, hstep⟩

/-- The history of a list of events, and where they lead. -/
def record (S : System Rep ε α σ E L Op) (P : Config Rep ε α σ L Op ι → Event E Op ι → Prop)
    [∀ g ev, Decidable (P g ev)] (g : Config Rep ε α σ L Op ι) :
    List (Event E Op ι) → Option (List (Mark Op (Except ε α) ι) × Config Rep ε α σ L Op ι)
  | [] => some ([], g)
  | ev :: evs =>
    if P g ev then (S.step g ev).bind fun g' => (record S P g' evs).map fun x => (marks g ev ++ x.1, x.2)
    else none

theorem seen_trans {h h' : List (Mark Op (Except ε α) ι)} (hs : Seen S P g₀ h g)
    (hs' : Seen S P g h' g') : Seen S P g₀ (h ++ h') g' := by
  induction hs' with
  | start => simpa using hs
  | step _ hP hstep ih =>
    rw [← List.append_assoc]
    exact ih.step hP hstep

theorem seen_of_record [∀ g ev, Decidable (P g ev)] {evs : List (Event E Op ι)}
    {x : List (Mark Op (Except ε α) ι) × Config Rep ε α σ L Op ι} (h : record S P g evs = some x) :
    Seen S P g x.1 x.2 := by
  induction evs generalizing g x with
  | nil =>
    cases h
    exact .start
  | cons ev evs ih =>
    unfold record at h
    split at h
    · rename_i hP
      obtain ⟨g₁, hstep, hrest⟩ := Option.bind_eq_some_iff.mp h
      obtain ⟨y, hy, rfl⟩ := Option.map_eq_some_iff.mp hrest
      have hfirst : Seen S P g (marks g ev) g₁ := Seen.start.step hP hstep
      exact seen_trans hfirst (ih hy)
    · cases h

/-! ### Programs that settle -/

section Settles

variable (exec : E → (c : C) → σ → σ × Rep c) (P : Protocol C ε α σ E L Op) (abs : A → σ → Prop)
  (turn : A → Op → Except ε α → A → Prop) (l : L) (op : Op)

/-- **The call will have had its moment**: if it has none yet, its result is right in one of the states
`V`. -/
def Settles : Prog Rep ε α → Set A → σ → Prop
  | .ret x, V, _ => ∃ a ∈ V, turn a op (.ok x) a
  | .fail e, V, _ => ∃ a ∈ V, turn a op (.error e) a
  | .cmd c k, V, s => ∀ V', V ⊆ V' → ∀ s', P.rely s s' → P.inv s' → ∀ a ∈ V', abs a s' → ∀ e,
      P.allow l op e c s' →
        (abs a (exec e c s').1 ∧ Settles (k (exec e c s').2) V' (exec e c s').1) ∨
          ∃ a' r, abs a' (exec e c s').1 ∧ turn a op r a' ∧ k (exec e c s').2 = ended r

/-- The surroundings of a program, where the store stands for one of the states `V`. -/
def window (V : Set A) : Ambient σ E where
  rely := P.rely
  inv s := P.inv s ∧ ∃ a ∈ V, abs a s
  allow e := ∃ c s, P.allow l op e c s
  refl := P.rely_refl
  trans := P.rely_trans

/-- A program whose commands leave what the store stands for. -/
def Stays {β : Type} : Prog Rep ε β → Prop
  | .ret _ => True
  | .fail _ => True
  | .cmd c k => ∀ e s, (∀ a, abs a s → abs a (exec e c s).1) ∧ Stays (k (exec e c s).2)

variable {exec P abs turn l op} {β : Type} {V : Set A} {s s' : σ}

theorem Stays.bind {p : Prog Rep ε β} {f : β → Prog Rep ε α} (hp : Stays exec abs p)
    (hf : ∀ x, Stays exec abs (f x)) : Stays exec abs (p.bind f) := by
  induction p with
  | ret x => exact hf x
  | fail e => trivial
  | cmd c k ih => exact fun e s => ⟨(hp e s).1, ih _ (hp e s).2⟩

theorem stays_of_readOnly {p : Prog Rep ε β} (hp : p.ReadOnly exec) : Stays exec abs p := by
  induction p with
  | ret x => trivial
  | fail e => trivial
  | cmd c k ih =>
    intro e s
    obtain ⟨hs, hk⟩ := hp e s
    refine ⟨fun a ha => ?_, ih _ hk⟩
    rw [hs]
    exact ha

/-- The others may move before the first step. -/
theorem Settles.stable {p : Prog Rep ε α} (h : Settles exec P abs turn l op p V s)
    (hs : P.rely s s') : Settles exec P abs turn l op p V s' := by
  cases p with
  | ret x => exact h
  | fail e => exact h
  | cmd c k => exact fun V' hV s'' hs' => h V' hV s'' (P.rely_trans hs hs')

theorem Settles.mono {V' : Set A} {p : Prog Rep ε α} (h : Settles exec P abs turn l op p V s)
    (hV : V ⊆ V') : Settles exec P abs turn l op p V' s := by
  cases p with
  | ret x => exact h.imp fun a ha => ⟨hV ha.1, ha.2⟩
  | fail e => exact h.imp fun a ha => ⟨hV ha.1, ha.2⟩
  | cmd c k => exact fun V'' hV' => h V'' (hV.trans hV')

theorem runsIn_cmd {c : C} {k : Rep c → Prog Rep ε β} {r : Except ε β} {s₁ : σ} {a : A} {e : E}
    (hs : P.rely s s₁) (hi : P.inv s₁) (ha : a ∈ V) (habs : abs a s₁) (he : P.allow l op e c s₁)
    (h : (k (exec e c s₁).2).RunsIn exec (window P abs l op V) (exec e c s₁).1 s' r) :
    (Prog.cmd c k).RunsIn exec (window P abs l op V) s s' r :=
  ⟨s₁, e, hs, ⟨hi, a, ha, habs⟩, ⟨c, s₁, he⟩, h⟩

/-- **Sequencing**, after a part that leaves what the store stands for. -/
theorem Stays.settles_bind {p : Prog Rep ε β} {f : β → Prog Rep ε α} (hp : Stays exec abs p)
    (hok : ∀ V' x s₁, V ⊆ V' → p.RunsIn exec (window P abs l op V') s s₁ (.ok x) →
      Settles exec P abs turn l op (f x) V' s₁)
    (herror : ∀ V' e s₁, V ⊆ V' → p.RunsIn exec (window P abs l op V') s s₁ (.error e) →
      ∃ a ∈ V', turn a op (.error e) a) : Settles exec P abs turn l op (p.bind f) V s := by
  induction p generalizing V s with
  | ret x => exact hok V x s subset_rfl ⟨rfl, rfl⟩
  | fail e => exact herror V e s subset_rfl ⟨rfl, rfl⟩
  | cmd c k ih =>
    intro V' hV s₁ hs hi a ha habs e he
    obtain ⟨hstay, hk⟩ := hp e s₁
    refine Or.inl ⟨hstay a habs, ih _ hk (fun V'' x s₂ hV' h => ?_) fun V'' x s₂ hV' h => ?_⟩
    · exact hok V'' x s₂ (hV.trans hV') (runsIn_cmd hs hi (hV' ha) habs he h)
    · exact herror V'' x s₂ (hV.trans hV') (runsIn_cmd hs hi (hV' ha) habs he h)

/-- **A program that only looks** settles if its result is right in one of the states it has seen. -/
theorem Stays.settles {p : Prog Rep ε α} (hp : Stays exec abs p)
    (h : ∀ V' r s₁, V ⊆ V' → p.RunsIn exec (window P abs l op V') s s₁ r →
      ∃ a ∈ V', turn a op r a) : Settles exec P abs turn l op p V s := by
  induction p generalizing V s with
  | ret x => exact h V _ s subset_rfl ⟨rfl, rfl⟩
  | fail e => exact h V _ s subset_rfl ⟨rfl, rfl⟩
  | cmd c k ih =>
    intro V' hV s₁ hs hi a ha habs e he
    obtain ⟨hstay, hk⟩ := hp e s₁
    refine Or.inl ⟨hstay a habs, ih _ hk fun V'' r s₂ hV' hrun => ?_⟩
    exact h V'' r s₂ (hV.trans hV') (runsIn_cmd hs hi (hV' ha) habs he hrun)

end Settles

/-! ### The object that a system follows -/

/-- What is known of a call: it is going on, and the object has been in the states `V` since, or it has
had its turn. -/
inductive Phase (A Op R : Type) where
  | idle
  | looking (op : Op) (V : Set A)
  | settled (op : Op) (r : R)

/-- The stages in which a call may be for the object. -/
def Fits (turn : A → Op → R → A → Prop) : Phase A Op R → Stage Op R → Prop
  | .idle, x => x = .idle
  | .looking op V, x => x = .called op ∨ ∃ r, x = .answered op r ∧ ∃ a ∈ V, turn a op r a
  | .settled op r, x => x = .answered op r

/-- The calls that the object has answered and the system has not. -/
def early (phases : ι → Phase A Op R) (stages : ι → Stage Op R) : Set ι :=
  {i | ∃ op V r, phases i = .looking op V ∧ stages i = .answered op r}

/-- The object before all calls. -/
def Object.rest (a : A) : Object A Op R ι := ⟨a, fun _ => .idle⟩

section Follows

variable (S) (P : Protocol C ε α σ E L Op) (abs : A → σ → Prop)
  (turn : A → Op → Except ε α → A → Prop)

/-- A process is as its phase says. -/
def PhaseOk (s : σ) (a : A) (p : Proc Rep ε α L Op) : Phase A Op (Except ε α) → Prop
  | .idle => p.running = none
  | .looking op V =>
    ∃ q, p.running = some (op, q) ∧ a ∈ V ∧ Settles S.exec P abs turn p.loc op q V s
  | .settled op r => p.running = some (op, ended r)

/-- **The object follows the system**: its state is what the store stands for, and whatever moments are
chosen for the calls that are going on, as far as they are possible, the object has got there with the
same history. -/
def Followed (a₀ : A) (h : List (Mark Op (Except ε α) ι)) (g : Config Rep ε α σ L Op ι) : Prop :=
  ∃ (a : A) (phases : ι → Phase A Op (Except ε α)), abs a g.shared ∧
    (∀ i, PhaseOk S P abs turn g.shared a (g.procs i) (phases i)) ∧
    ∀ stages, (∀ i, Fits turn (phases i) (stages i)) → (early phases stages).Finite →
      Atomic turn (.rest a₀) h ⟨a, stages⟩

end Follows

variable {Q : Protocol C ε α σ E L Op} {abs : A → σ → Prop} {turn : A → Op → Except ε α → A → Prop}
  {a a' a₀ : A} {i : ι} {hist : List (Mark Op (Except ε α) ι)}
  {phases : ι → Phase A Op (Except ε α)} {stages : ι → Stage Op (Except ε α)}

omit [DecidableEq ι] in
theorem phase_of_idle {s : σ} {p : Proc Rep ε α L Op} {x : Phase A Op (Except ε α)}
    (h : PhaseOk S Q abs turn s a p x) (hr : p.running = none) : x = .idle := by
  cases x with
  | idle => rfl
  | looking op V =>
    obtain ⟨q, hq, -⟩ := h
    rw [hr] at hq
    cases hq
  | settled op r =>
    have hq : p.running = some (op, ended r) := h
    rw [hr] at hq
    cases hq

/-- What is known of a call that is going on. -/
theorem phase_of_running {s : σ} {p : Proc Rep ε α L Op} {x : Phase A Op (Except ε α)} {op : Op}
    {q : Prog Rep ε α} (h : PhaseOk S Q abs turn s a p x) (hr : p.running = some (op, q)) :
    (∃ V, x = .looking op V ∧ a ∈ V ∧ Settles S.exec Q abs turn p.loc op q V s) ∨
      ∃ r, x = .settled op r ∧ q = ended r := by
  cases x with
  | idle =>
    have hq : p.running = none := h
    rw [hr] at hq
    cases hq
  | looking op' V =>
    obtain ⟨q', hq, ha, hsettles⟩ := h
    rw [hr] at hq
    cases hq
    exact Or.inl ⟨V, rfl, ha, hsettles⟩
  | settled op' r =>
    have hq : p.running = some (op', ended r) := h
    rw [hr] at hq
    cases hq
    exact Or.inr ⟨r, rfl, rfl⟩

/-- The others may move. -/
theorem PhaseOk.stable {s s' : σ} {p : Proc Rep ε α L Op} {x : Phase A Op (Except ε α)}
    (h : PhaseOk S Q abs turn s a p x) (hs : Q.rely s s') : PhaseOk S Q abs turn s' a p x := by
  cases x with
  | idle => exact h
  | looking op V =>
    obtain ⟨q, hq, ha, hsettles⟩ := h
    exact ⟨q, hq, ha, hsettles.stable hs⟩
  | settled op r => exact h

/-- The stage of `i` may be set last. -/
theorem put_update {x y : Stage Op R} {stages : ι → Stage Op R} (h : stages i = y) :
    Object.put ⟨a, Function.update stages i x⟩ i y = (⟨a, stages⟩ : Object A Op R ι) := by
  unfold Object.put
  simp only [Function.update_idem, ← h, Function.update_eq_self]

theorem put_put {x y : Stage Op R} {stages : ι → Stage Op R} :
    (Object.put ⟨a, Function.update stages i x⟩ i y : Object A Op R ι) =
      ⟨a, Function.update stages i y⟩ := by
  unfold Object.put
  simp only [Function.update_idem]

/-- **A call starts.** -/
theorem Followed.start {op : Op} (h : Followed S Q abs turn a₀ hist g)
    (hstep : S.step g (.start i op) = some g')
    (hsettles : ∀ a, abs a g.shared →
      Settles S.exec Q abs turn (g.procs i).loc op (S.code (g.procs i).loc op) {a} g.shared) :
    Followed S Q abs turn a₀ (hist ++ [.call i op]) g' := by
  obtain ⟨a, phases, habs, hprocs, hatomic⟩ := h
  obtain ⟨hidle, rfl⟩ := S.step_start hstep
  have hphase := phase_of_idle (hprocs i) hidle
  refine ⟨a, Function.update phases i (.looking op {a}), habs, fun j => ?_, fun stages hfits hfin => ?_⟩
  · by_cases hj : j = i
    · rw [hj, Function.update_self]
      have hproc : (g.set i ⟨(g.procs i).loc, some (op, S.code (g.procs i).loc op)⟩).procs i =
          ⟨(g.procs i).loc, some (op, S.code (g.procs i).loc op)⟩ := Function.update_self ..
      rw [hproc]
      exact ⟨_, rfl, rfl, hsettles a habs⟩
    · rw [Function.update_of_ne hj]
      have hproc : (g.set i ⟨(g.procs i).loc, some (op, S.code (g.procs i).loc op)⟩).procs j =
          g.procs j := Function.update_of_ne hj ..
      rw [hproc]
      exact hprocs j
  · -- before the call its process is idle for the object as well
    have hbefore : Atomic turn (.rest a₀) hist ⟨a, Function.update stages i .idle⟩ := by
      refine hatomic _ (fun j => ?_) (hfin.subset ?_)
      · by_cases hj : j = i
        · rw [hj, hphase, Function.update_self]
          exact rfl
        · rw [Function.update_of_ne hj]
          have hfit := hfits j
          rwa [Function.update_of_ne hj] at hfit
      · rintro j ⟨op', V, r, hlooking, hanswered⟩
        by_cases hj : j = i
        · rw [hj, hphase] at hlooking
          cases hlooking
        · rw [Function.update_of_ne hj] at hanswered
          exact ⟨op', V, r, by rwa [Function.update_of_ne hj], hanswered⟩
    have hcall : Atomic turn (.rest a₀) (hist ++ [.call i op])
        (Object.put ⟨a, Function.update stages i .idle⟩ i (.called op)) :=
      .call hbefore (Function.update_self ..)
    have hfit := hfits i
    rw [Function.update_self] at hfit
    rcases hfit with hcalled | ⟨r, hanswered, a', rfl, hturn⟩
    · rwa [put_update hcalled] at hcall
    · rw [put_put] at hcall
      have hmoment := Atomic.moment hcall (Function.update_self ..) hturn
      rwa [put_update hanswered] at hmoment

/-- **A call ends.** -/
theorem Followed.finish (h : Followed S Q abs turn a₀ hist g)
    (hstep : S.step g (.finish i) = some g') :
    Followed S Q abs turn a₀ (hist ++ marks g (.finish i : Event E Op ι)) g' := by
  obtain ⟨a, phases, habs, hprocs, hatomic⟩ := h
  obtain ⟨op, r, rfl, hover⟩ := S.step_finish hstep
  have hrunning : (g.procs i).running = some (op, ended r) := by
    rcases hover with ⟨x, rfl, hr⟩ | ⟨e, rfl, hr⟩
    · exact hr
    · exact hr
  have hmarks : marks g (.finish i : Event E Op ι) = [.back i op r] := by
    rcases hover with ⟨x, rfl, hr⟩ | ⟨e, rfl, hr⟩
    · simp [marks, hr]
    · simp [marks, hr]
  rw [hmarks]
  -- a call that is over has been answered, or it could have been
  have hanswer : Fits turn (phases i) (.answered op r) := by
    rcases phase_of_running (hprocs i) hrunning with ⟨V, hx, -, hsettles⟩ | ⟨r', hx, hr'⟩
    · rw [hx]
      refine Or.inr ⟨r, rfl, ?_⟩
      cases r with
      | ok x => exact hsettles
      | error e => exact hsettles
    · rw [hx]
      have hsame : r = r' := by
        cases r with
        | ok x =>
          cases r' with
          | ok y =>
            cases hr'
            rfl
          | error e => cases hr'
        | error e =>
          cases r' with
          | ok y => cases hr'
          | error e' =>
            cases hr'
            rfl
      rw [hsame]
      rfl
  refine ⟨a, Function.update phases i .idle, habs, fun j => ?_, fun stages hfits hfin => ?_⟩
  · by_cases hj : j = i
    · rw [hj, Function.update_self]
      show (Function.update g.procs i _ i).running = none
      rw [Function.update_self]
    · rw [Function.update_of_ne hj]
      show PhaseOk S Q abs turn g.shared a (Function.update g.procs i _ j) (phases j)
      rw [Function.update_of_ne hj]
      exact hprocs j
  · have hbefore : Atomic turn (.rest a₀) hist ⟨a, Function.update stages i (.answered op r)⟩ := by
      refine hatomic _ (fun j => ?_) ((hfin.insert i).subset ?_)
      · by_cases hj : j = i
        · rw [hj, Function.update_self]
          exact hanswer
        · rw [Function.update_of_ne hj]
          have hfit := hfits j
          rwa [Function.update_of_ne hj] at hfit
      · rintro j ⟨op', V, r', hlooking, hanswered⟩
        by_cases hj : j = i
        · exact Or.inl hj
        · rw [Function.update_of_ne hj] at hanswered
          exact Or.inr ⟨op', V, r', by rwa [Function.update_of_ne hj], hanswered⟩
    have hback := Atomic.back hbefore (Function.update_self ..)
    have hidle := hfits i
    rw [Function.update_self] at hidle
    rwa [put_update hidle] at hback

/-! ### A command -/

/-- The phases after the turn of `i`: the others have seen the new state. -/
def afterTurn (phases : ι → Phase A Op R) (i : ι) (op : Op) (r : R) (a' : A) (j : ι) :
    Phase A Op R :=
  if j = i then .settled op r
  else
    match phases j with
    | .looking op V => .looking op (insert a' V)
    | x => x

open Classical in
/-- The stages before the turn of `i`: a call that needs the new state has not been answered. -/
noncomputable def beforeTurn (turn : A → Op → R → A → Prop) (phases : ι → Phase A Op R) (i : ι)
    (op : Op) (stages : ι → Stage Op R) (j : ι) : Stage Op R :=
  if j = i then .called op
  else
    match phases j, stages j with
    | .looking op V, .answered op' r =>
      if ∃ a ∈ V, turn a op r a then .answered op' r else .called op
    | _, x => x

/-- The object can be as it was before the turn. -/
theorem fits_beforeTurn {op : Op} {r : Except ε α} {V : Set A} (hi : phases i = .looking op V)
    (hfits : ∀ j, Fits turn (afterTurn phases i op r a' j) (stages j)) (j : ι) :
    Fits turn (phases j) (beforeTurn turn phases i op stages j) := by
  by_cases hj : j = i
  · rw [hj, hi]
    exact Or.inl (by simp [beforeTurn])
  · have hfit := hfits j
    unfold afterTurn at hfit
    rw [if_neg hj] at hfit
    unfold beforeTurn
    rw [if_neg hj]
    cases hphase : phases j with
    | idle =>
      rw [hphase] at hfit
      exact hfit
    | settled op' r' =>
      rw [hphase] at hfit
      exact hfit
    | looking op' V' =>
      rw [hphase] at hfit
      rcases hfit with hcalled | ⟨r', hanswered, -⟩
      · rw [hcalled]
        exact Or.inl rfl
      · rw [hanswered]
        dsimp only
        split_ifs with hV
        · exact Or.inr ⟨r', rfl, hV⟩
        · exact Or.inl rfl

/-- A call that has been answered before the turn has been so after it. -/
theorem early_beforeTurn {op : Op} {r : Except ε α} :
    early phases (beforeTurn turn phases i op stages) ⊆
      early (afterTurn phases i op r a') stages := by
  rintro j ⟨op', V, r', hlooking, hanswered⟩
  unfold beforeTurn at hanswered
  by_cases hj : j = i
  · rw [if_pos hj] at hanswered
    cases hanswered
  · rw [if_neg hj, hlooking] at hanswered
    refine ⟨op', insert a' V, r', ?_, ?_⟩
    · unfold afterTurn
      rw [if_neg hj, hlooking]
    · cases hstage : stages j with
      | idle =>
        rw [hstage] at hanswered
        cases hanswered
      | called op'' =>
        rw [hstage] at hanswered
        cases hanswered
      | answered op'' r'' =>
        rw [hstage] at hanswered
        dsimp only at hanswered
        split_ifs at hanswered
        rw [hanswered]

/-- A call that differs before the turn has been waiting for the new state. -/
theorem waiting_of_differs {op : Op} {r : Except ε α} {j : ι} (hj : j ≠ i)
    (hfits : ∀ j, Fits turn (afterTurn phases i op r a' j) (stages j))
    (hne : beforeTurn turn phases i op stages j ≠ stages j) :
    ∃ op' V r', afterTurn phases i op r a' j = .looking op' V ∧ stages j = .answered op' r' ∧
      beforeTurn turn phases i op stages j = .called op' ∧ turn a' op' r' a' := by
  have hfit := hfits j
  unfold beforeTurn at hne
  unfold beforeTurn
  unfold afterTurn at hfit ⊢
  rw [if_neg hj] at hne hfit
  simp only [if_neg hj]
  cases hphase : phases j with
  | idle =>
    rw [hphase] at hne
    exact absurd rfl hne
  | settled op' r' =>
    rw [hphase] at hne
    exact absurd rfl hne
  | looking op' V =>
    rw [hphase] at hfit hne
    rcases hfit with hcalled | ⟨r', hanswered, a₁, ha₁, hturn⟩
    · rw [hcalled] at hne
      exact absurd rfl hne
    · rw [hanswered] at hne ⊢
      dsimp only at hne ⊢
      have hnew : ¬ ∃ a ∈ V, turn a op' r' a := fun hV => hne (if_pos hV)
      refine ⟨op', _, r', rfl, rfl, if_neg hnew, ?_⟩
      rcases ha₁ with rfl | ha₁
      · exact hturn
      · exact absurd ⟨a₁, ha₁, hturn⟩ hnew

/-- **The turn of a call**, and of those that are answered right after it. -/
theorem atomic_afterTurn {op : Op} {r : Except ε α} (hturn : turn a op r a')
    (hbefore : Atomic turn (.rest a₀) hist ⟨a, beforeTurn turn phases i op stages⟩)
    (hfits : ∀ j, Fits turn (afterTurn phases i op r a' j) (stages j))
    (hfin : (early (afterTurn phases i op r a') stages).Finite) :
    Atomic turn (.rest a₀) hist ⟨a', stages⟩ := by
  classical
  have hself : stages i = .answered op r := by
    have hfit := hfits i
    unfold afterTurn at hfit
    rwa [if_pos rfl] at hfit
  have hcalled : beforeTurn turn phases i op stages i = .called op := if_pos rfl
  have hmoment := Atomic.moment hbefore hcalled hturn
  let F := hfin.toFinset.filter fun j => j ≠ i ∧ beforeTurn turn phases i op stages j ≠ stages j
  have hlater : Atomic turn (.rest a₀) hist ⟨a', fun j => if j ∈ F then stages j else
      Function.update (beforeTurn turn phases i op stages) i (.answered op r) j⟩ := by
    refine hmoment.moments F fun j hj => ?_
    obtain ⟨-, hji, hne⟩ := Finset.mem_filter.mp hj
    obtain ⟨op', V, r', -, hanswered, hstage, hturn'⟩ := waiting_of_differs hji hfits hne
    exact ⟨op', r', (Function.update_of_ne hji ..).trans hstage, hanswered, hturn'⟩
  have hstages : (fun j => if j ∈ F then stages j else
      Function.update (beforeTurn turn phases i op stages) i (.answered op r) j) = stages := by
    funext j
    by_cases hj : j ∈ F
    · rw [if_pos hj]
    · rw [if_neg hj]
      by_cases hji : j = i
      · rw [hji, hself, Function.update_self]
      · rw [Function.update_of_ne hji]
        by_contra hne
        obtain ⟨op', V, r', hlooking, hanswered, -, -⟩ := waiting_of_differs hji hfits hne
        have hearly : j ∈ early (afterTurn phases i op r a') stages :=
          ⟨op', V, r', hlooking, hanswered⟩
        exact hj (Finset.mem_filter.mpr ⟨hfin.mem_toFinset.mpr hearly, hji, hne⟩)
  rwa [hstages] at hlater

/-- A process that issues no command, in the store that another one has left. -/
theorem PhaseOk.afterTurn {s : σ} {p : Proc Rep ε α L Op} {op : Op} {r : Except ε α} {j : ι}
    (hj : j ≠ i) (h : PhaseOk S Q abs turn s a p (phases j)) :
    PhaseOk S Q abs turn s a' p (Moments.afterTurn phases i op r a' j) := by
  unfold Moments.afterTurn
  rw [if_neg hj]
  cases hphase : phases j with
  | idle =>
    rw [hphase] at h
    exact h
  | settled op' r' =>
    rw [hphase] at h
    exact h
  | looking op' V =>
    rw [hphase] at h
    obtain ⟨q, hq, -, hsettles⟩ := h
    exact ⟨q, hq, Or.inl rfl, hsettles.mono (Set.subset_insert _ _)⟩

/-- **A command is issued.** -/
theorem Followed.act {e : E} (h : Followed S Q abs turn a₀ hist g) (hinv : Q.inv g.shared)
    (hallow : Obeys Q.may Q.allow g (.act i e : Event E Op ι))
    (hrely : Q.rely g.shared g'.shared) (hstep : S.step g (.act i e) = some g') :
    Followed S Q abs turn a₀ hist g' := by
  obtain ⟨a, phases, habs, hprocs, hatomic⟩ := h
  obtain ⟨op, c, k, hrunning, rfl⟩ := S.step_act hstep
  have hmay : Q.allow (g.procs i).loc op e c g.shared := by
    simpa only [Obeys, Proc.Issues, hrunning] using hallow
  -- a call that has had its turn issues no command
  obtain ⟨V, hphase, ha, hsettles⟩ : ∃ V, phases i = .looking op V ∧ a ∈ V ∧
      Settles S.exec Q abs turn (g.procs i).loc op (.cmd c k) V g.shared := by
    rcases phase_of_running (hprocs i) hrunning with h | ⟨r, -, hr⟩
    · exact h
    · cases r with
      | ok x => cases hr
      | error x => cases hr
  have hother (j : ι) (hj : j ≠ i) (p : Proc Rep ε α L Op) :
      (Config.set ⟨(S.exec e c g.shared).1, g.procs⟩ i p).procs j = g.procs j :=
    Function.update_of_ne hj ..
  have hself (p : Proc Rep ε α L Op) :
      (Config.set ⟨(S.exec e c g.shared).1, g.procs⟩ i p).procs i = p := Function.update_self ..
  rcases hsettles V subset_rfl g.shared (Q.rely_refl _) hinv a ha habs e hmay with
    ⟨hstay, hk⟩ | ⟨a', r, habs', hturn, hk⟩
  · refine ⟨a, phases, hstay, fun j => ?_, hatomic⟩
    by_cases hj : j = i
    · rw [hj, hself, hphase]
      exact ⟨_, rfl, ha, hk⟩
    · rw [hother j hj]
      exact (hprocs j).stable hrely
  · refine ⟨a', afterTurn phases i op r a', habs', fun j => ?_, fun stages hfits hfin => ?_⟩
    · by_cases hj : j = i
      · rw [hj, hself]
        unfold Moments.afterTurn
        rw [if_pos rfl]
        exact congrArg some (congrArg (Prod.mk op) hk)
      · rw [hother j hj]
        exact ((hprocs j).stable hrely).afterTurn hj
    · have hbefore := hatomic _ (fits_beforeTurn hphase hfits) (hfin.subset early_beforeTurn)
      exact atomic_afterTurn hturn hbefore hfits hfin

/-- **One step.** -/
theorem Followed.step {ev : Event E Op ι}
    (hcode : ∀ l op s a, Q.may l op → Q.inv s → Q.loc l s → abs a s →
      Settles S.exec Q abs turn l op (S.code l op) {a} s)
    (h : Followed S Q abs turn a₀ hist g) (hgood : Q.Good S g)
    (hloc : ∀ i, Q.loc (g.procs i).loc g.shared) (hev : Q.Admits g ev)
    (hstep : S.step g ev = some g') : Followed S Q abs turn a₀ (hist ++ marks g ev) g' := by
  have hrely := hgood.step_rely ⟨ev, hev, hstep⟩
  cases ev with
  | start i op => exact h.start hstep fun a ha => hcode _ op _ a hev hgood.inv (hloc i) ha
  | act i e =>
    rw [marks, List.append_nil]
    exact h.act hgood.inv hev hrely hstep
  | finish i => exact h.finish hstep

/-- The stage of a call that goes on, if it is answered as late as possible. -/
def Phase.stage : Phase A Op R → Stage Op R
  | .idle => .idle
  | .looking op _ => .called op
  | .settled op r => .answered op r

/-- **A system whose operations settle is linearizable**: whatever its processes do, their calls and the
results have a history of the object, whose state the store stands for. -/
theorem linearizable (hS : Q.Sound S)
    (hcode : ∀ l op s a, Q.may l op → Q.inv s → Q.loc l s → abs a s →
      Settles S.exec Q abs turn l op (S.code l op) {a} s)
    (hinv : Q.inv g₀.shared) (hidle : ∀ i, (g₀.procs i).running = none)
    (hloc : ∀ i, Q.loc (g₀.procs i).loc g₀.shared) (habs : abs a₀ g₀.shared)
    (hseen : Seen S Q.Admits g₀ hist g) :
    ∃ o, Atomic turn (.rest a₀) hist o ∧ abs o.state g.shared := by
  have hstart : Q.Good S g₀ := .of_idle hinv hidle hloc
  have hfollowed : Followed S Q abs turn a₀ hist g := by
    induction hseen with
    | start =>
      refine ⟨a₀, fun _ => .idle, habs, hidle, fun stages hfits _ => ?_⟩
      have hrest : stages = fun _ => .idle := funext hfits
      rw [hrest]
      exact .start
    | step hrun hev hstep ih =>
      have hgood := hstart.reach hS hrun.reach
      exact ih.step hcode hgood (hstart.reach_loc hS hloc hrun.reach) hev hstep
  obtain ⟨a, phases, habs', -, hatomic⟩ := hfollowed
  refine ⟨⟨a, fun i => (phases i).stage⟩, hatomic _ (fun i => ?_) (Set.Finite.subset Set.finite_empty ?_),
    habs'⟩
  · cases phases i with
    | idle => exact rfl
    | looking op V => exact Or.inl rfl
    | settled op r => exact rfl
  · rintro i ⟨op, V, r, hlooking, hanswered⟩
    have hstage : (phases i).stage = .answered op r := hanswered
    rw [hlooking] at hstage
    cases hstage

end Fuin.Lib.Moments

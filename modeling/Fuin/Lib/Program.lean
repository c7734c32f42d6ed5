import Mathlib.Data.Nat.Notation

/-! # Programs over a shared store

A program is a tree of commands: it ends with a value (`ret`), stops with an error (`fail`), or
issues a command and goes on with the reply (`cmd`). What a command does to the store `σ` is given
by a function `exec : E → (c : C) → σ → σ × Rep c`; the argument of type `E` is everything the
outside world decides about the step (a clock reading, random bytes, a failure), so a statement
about all `e : E` is a statement about every behaviour of the outside world.

A program that shares the store with other programs is specified by a `Contract`: an invariant of
the store, the changes of the others it has to put up with (`rely`), the changes it makes itself
(`guar`), and the steps that are considered at all (`allow`). `Contract.Ok Q F p s` says that `p`,
started in `s`, keeps the contract whatever the others do between its steps, and ends in `Q` or
fails in `F`. The predicate follows the recursion of the program, so it is proved one command at a
time (`Ok.cmd`, `Ok.bind`); `Ok.run` reads it off for a run without interference. -/

namespace Fuin.Lib.Program

/-- A program: it ends with a value, stops with an error, or issues a command. -/
inductive Prog {C : Type} (Rep : C → Type) (ε α : Type) where
  | ret (a : α)
  | fail (e : ε)
  | cmd (c : C) (k : Rep c → Prog Rep ε α)

variable {C C' : Type} {Rep : C → Type} {Rep' : C' → Type} {ε α β σ E : Type}

namespace Prog

/-- Sequencing: errors stop the program. -/
def bind : Prog Rep ε α → (α → Prog Rep ε β) → Prog Rep ε β
  | ret a, f => f a
  | fail e, _ => fail e
  | cmd c k, f => cmd c fun r => (k r).bind f

instance : Monad (Prog Rep ε) where
  pure := ret
  bind := bind

/-- A single command. -/
def call (c : C) : Prog Rep ε (Rep c) := cmd c ret

/-- A result computed without a command. -/
def ofExcept : Except ε α → Prog Rep ε α
  | .ok a => ret a
  | .error e => fail e

/-- The program that returns its result, whether it is a value or an error. -/
def attempt {ε' : Type} : Prog Rep ε α → Prog Rep ε' (Except ε α)
  | ret a => ret (.ok a)
  | fail e => ret (.error e)
  | cmd c k => cmd c fun r => (k r).attempt

/-- The same program over a larger set of commands. -/
def lift (f : C → C') (g : ∀ c, Rep' (f c) → Rep c) : Prog Rep ε α → Prog Rep' ε α
  | ret a => ret a
  | fail e => fail e
  | cmd c k => cmd (f c) fun r => (k (g c r)).lift f g

theorem lift_bind {f : C → C'} {g : ∀ c, Rep' (f c) → Rep c} (p : Prog Rep ε α)
    (q : α → Prog Rep ε β) :
    (p.bind q).lift f g = (p.lift f g).bind fun a => (q a).lift f g := by
  induction p with
  | ret a => rfl
  | fail e => rfl
  | cmd c k ih =>
    simp only [bind, lift, ih]

theorem bind_assoc {γ : Type} (p : Prog Rep ε α) (f : α → Prog Rep ε β) (g : β → Prog Rep ε γ) :
    (p.bind f).bind g = p.bind fun a => (f a).bind g := by
  induction p with
  | ret a => rfl
  | fail e => rfl
  | cmd c k ih => simp only [bind, ih]

theorem attempt_bind {ε' : Type} (p : Prog Rep ε α) (f : α → Prog Rep ε β) :
    ((p.bind f).attempt : Prog Rep ε' (Except ε β)) = p.attempt.bind fun x =>
      match x with
      | .ok a => (f a).attempt
      | .error e => ret (.error e) := by
  induction p with
  | ret a => rfl
  | fail e => rfl
  | cmd c k ih => simp only [bind, attempt, ih]

@[simp] theorem pure_def (a : α) : (pure a : Prog Rep ε α) = ret a := rfl
@[simp] theorem bind_def (p : Prog Rep ε α) (f : α → Prog Rep ε β) : p >>= f = p.bind f := rfl
@[simp] theorem ret_bind (a : α) (f : α → Prog Rep ε β) : (ret a).bind f = f a := rfl
@[simp] theorem fail_bind (e : ε) (f : α → Prog Rep ε β) : (fail e).bind f = fail e := rfl
@[simp] theorem cmd_bind (c : C) (k : Rep c → Prog Rep ε α) (f : α → Prog Rep ε β) :
    (cmd c k).bind f = cmd c fun r => (k r).bind f := rfl
@[simp] theorem ofExcept_ok (a : α) : (ofExcept (.ok a) : Prog Rep ε α) = ret a := rfl
@[simp] theorem ofExcept_error (e : ε) : (ofExcept (.error e) : Prog Rep ε α) = fail e := rfl

/-- The run without interference, the outside world answering from the stream `es`. -/
def run (exec : E → (c : C) → σ → σ × Rep c) : Prog Rep ε α → (ℕ → E) → σ → σ × Except ε α
  | ret a, _, s => (s, .ok a)
  | fail e, _, s => (s, .error e)
  | cmd c k, es, s =>
    (k (exec (es 0) c s).2).run exec (fun n => es (n + 1)) (exec (es 0) c s).1

theorem run_cmd_bind {exec : E → (c : C) → σ → σ × Rep c} {s : σ} {c : C} {k : Rep c → Prog Rep ε α}
    {f : α → Prog Rep ε β} {es : ℕ → E} {out : σ × Rep c} (h : exec (es 0) c s = out) :
    ((cmd c k).bind f).run exec es s = ((k out.2).bind f).run exec (fun n => es (n + 1)) out.1 := by
  subst h
  rfl

theorem run_bind_ok {exec : E → (c : C) → σ → σ × Rep c} {s s' : σ} {p : Prog Rep ε α} {a : α}
    {es : ℕ → E} (f : α → Prog Rep ε β) (h : p.run exec es s = (s', .ok a)) :
    ∃ k, (p.bind f).run exec es s = (f a).run exec (fun n => es (n + k)) s' := by
  induction p generalizing s es with
  | ret b =>
    obtain ⟨rfl, hb⟩ := Prod.mk.inj h
    cases hb
    exact ⟨0, rfl⟩
  | fail e => nomatch (Prod.mk.inj h).2
  | cmd c k ih =>
    obtain ⟨n, hn⟩ := ih _ h
    refine ⟨n + 1, hn.trans ?_⟩
    simp only [Nat.add_assoc]

theorem run_bind_error {exec : E → (c : C) → σ → σ × Rep c} {s s' : σ} {p : Prog Rep ε α} {e : ε}
    {es : ℕ → E} (f : α → Prog Rep ε β) (h : p.run exec es s = (s', .error e)) :
    (p.bind f).run exec es s = (s', .error e) := by
  induction p generalizing s es with
  | ret b => nomatch (Prod.mk.inj h).2
  | fail e' =>
    obtain ⟨rfl, he⟩ := Prod.mk.inj h
    cases he
    rfl
  | cmd c k ih => exact ih _ h

/-- Every command of the run without interference meets `P`. -/
def Along (exec : E → (c : C) → σ → σ × Rep c) (P : E → C → σ → Prop) :
    Prog Rep ε α → (ℕ → E) → σ → Prop
  | ret _, _, _ => True
  | fail _, _, _ => True
  | cmd c k, es, s => P (es 0) c s ∧
    (k (exec (es 0) c s).2).Along exec P (fun n => es (n + 1)) (exec (es 0) c s).1

variable {exec : E → (c : C) → σ → σ × Rep c} {s s' : σ}

theorem along_of_forall {P : E → C → σ → Prop} {p : Prog Rep ε α} {es : ℕ → E}
    (h : ∀ n c s', P (es n) c s') : p.Along exec P es s := by
  induction p generalizing s es with
  | ret a => trivial
  | fail e => trivial
  | cmd c k ih => exact ⟨h 0 c s, ih _ fun n => h (n + 1)⟩

theorem Along.mono {P P' : E → C → σ → Prop} {p : Prog Rep ε α} {es : ℕ → E}
    (h : p.Along exec P es s) (hP : ∀ e c s', P e c s' → P' e c s') : p.Along exec P' es s := by
  induction p generalizing s es with
  | ret a => trivial
  | fail e => trivial
  | cmd c k ih => exact ⟨hP _ _ _ h.1, ih _ h.2⟩

/-- Some run without interference leads from `s` to `s'` with the result `r`. -/
def Runs (exec : E → (c : C) → σ → σ × Rep c) (p : Prog Rep ε α) (s s' : σ) (r : Except ε α) :
    Prop := ∃ es, p.run exec es s = (s', r)

theorem runs_run {p : Prog Rep ε α} (es : ℕ → E) :
    p.Runs exec s (p.run exec es s).1 (p.run exec es s).2 := ⟨es, rfl⟩

theorem runs_ret {a : α} {r : Except ε α} :
    (ret a : Prog Rep ε α).Runs exec s s' r → s' = s ∧ r = .ok a := by
  rintro ⟨es, h⟩
  simp only [run, Prod.mk.injEq] at h
  exact ⟨h.1.symm, h.2.symm⟩

theorem runs_fail {e : ε} {r : Except ε α} :
    (fail e : Prog Rep ε α).Runs exec s s' r → s' = s ∧ r = .error e := by
  rintro ⟨es, h⟩
  simp only [run, Prod.mk.injEq] at h
  exact ⟨h.1.symm, h.2.symm⟩

theorem runs_cmd {c : C} {k : Rep c → Prog Rep ε α} {r : Except ε α} :
    (cmd c k).Runs exec s s' r → ∃ e, (k (exec e c s).2).Runs exec (exec e c s).1 s' r :=
  fun ⟨es, h⟩ => ⟨es 0, fun n => es (n + 1), h⟩

theorem runs_call_bind {c : C} {f : Rep c → Prog Rep ε α} {r : Except ε α} :
    ((call c).bind f).Runs exec s s' r →
      ∃ e, (f (exec e c s).2).Runs exec (exec e c s).1 s' r := runs_cmd

theorem runs_cmd_of {c : C} {k : Rep c → Prog Rep ε α} {r : Except ε α} (e : E) :
    (k (exec e c s).2).Runs exec (exec e c s).1 s' r → (cmd c k).Runs exec s s' r :=
  fun ⟨es, h⟩ => ⟨@Nat.rec (fun _ => E) e fun n _ => es n, h⟩

/-- **A run of a sequence** fails in its first part or goes on with the second. -/
theorem runs_bind_cases {p : Prog Rep ε α} {f : α → Prog Rep ε β} {r : Except ε β} :
    (p.bind f).Runs exec s s' r →
      (∃ e, r = .error e ∧ p.Runs exec s s' (.error e)) ∨
        ∃ a s₁, p.Runs exec s s₁ (.ok a) ∧ (f a).Runs exec s₁ s' r := by
  induction p generalizing s with
  | ret a => exact fun h => Or.inr ⟨a, s, ⟨h.choose, rfl⟩, h⟩
  | fail e =>
    intro h
    obtain ⟨rfl, rfl⟩ := runs_fail h
    exact Or.inl ⟨e, rfl, ⟨h.choose, rfl⟩⟩
  | cmd c k ih =>
    intro h
    obtain ⟨e, h⟩ := runs_cmd h
    rcases ih _ h with ⟨x, hr, h1⟩ | ⟨a, s₁, h1, h2⟩
    · exact Or.inl ⟨x, hr, runs_cmd_of e h1⟩
    · exact Or.inr ⟨a, s₁, runs_cmd_of e h1, h2⟩

/-- A run of a sequence that succeeds is a run of its parts. -/
theorem runs_bind {p : Prog Rep ε α} {f : α → Prog Rep ε β} {b : β}
    (h : (p.bind f).Runs exec s s' (.ok b)) :
    ∃ a s₁, p.Runs exec s s₁ (.ok a) ∧ (f a).Runs exec s₁ s' (.ok b) := by
  rcases runs_bind_cases h with ⟨e, he, -⟩ | h
  · nomatch he
  · exact h

theorem runs_ofExcept {x : Except ε α} {r : Except ε α} :
    (ofExcept x : Prog Rep ε α).Runs exec s s' r → s' = s ∧ r = x := by
  cases x with
  | ok a => exact runs_ret
  | error e => exact runs_fail

theorem runs_ofExcept_bind {x : Except ε α} {f : α → Prog Rep ε β} {b : β}
    (h : ((ofExcept x).bind f).Runs exec s s' (.ok b)) :
    ∃ a, x = .ok a ∧ (f a).Runs exec s s' (.ok b) := by
  obtain ⟨a, s₁, h1, h2⟩ := runs_bind h
  obtain ⟨rfl, hx⟩ := runs_ofExcept h1
  exact ⟨a, hx.symm, h2⟩

/-- The result of the program that returns its result. -/
theorem runs_attempt {ε' : Type} {p : Prog Rep ε α} {r : Except ε' (Except ε α)} :
    (p.attempt : Prog Rep ε' (Except ε α)).Runs exec s s' r → ∃ x, r = .ok x ∧ p.Runs exec s s' x := by
  induction p generalizing s with
  | ret a =>
    intro h
    obtain ⟨rfl, rfl⟩ := runs_ret h
    exact ⟨.ok a, rfl, ⟨h.choose, rfl⟩⟩
  | fail e =>
    intro h
    obtain ⟨rfl, rfl⟩ := runs_ret h
    exact ⟨.error e, rfl, ⟨h.choose, rfl⟩⟩
  | cmd c k ih =>
    intro h
    obtain ⟨e, h⟩ := runs_cmd h
    obtain ⟨x, hx, h⟩ := ih _ h
    exact ⟨x, hx, runs_cmd_of e h⟩

/-! What a run has taken from the outside world. -/

/-- What is left of the stream after the run without interference. -/
def rest (exec : E → (c : C) → σ → σ × Rep c) : Prog Rep ε α → (ℕ → E) → σ → ℕ → E
  | ret _, es, _ => es
  | fail _, es, _ => es
  | cmd c k, es, s =>
    (k (exec (es 0) c s).2).rest exec (fun n => es (n + 1)) (exec (es 0) c s).1

/-- The answers to the commands in `sel`, in order. -/
def inputs (exec : E → (c : C) → σ → σ × Rep c) (sel : C → Bool) :
    Prog Rep ε α → (ℕ → E) → σ → List E
  | ret _, _, _ => []
  | fail _, _, _ => []
  | cmd c k, es, s =>
    (if sel c then [es 0] else []) ++
      (k (exec (es 0) c s).2).inputs exec sel (fun n => es (n + 1)) (exec (es 0) c s).1

variable {sel : C → Bool} {es : ℕ → E} {l : List E}

/-- **The run of a sequence** without interference. -/
theorem run_bind (p : Prog Rep ε α) (f : α → Prog Rep ε β) (es : ℕ → E) (s : σ) :
    (p.bind f).run exec es s =
      match p.run exec es s with
      | (s', .ok a) => (f a).run exec (p.rest exec es s) s'
      | (s', .error e) => (s', .error e) := by
  induction p generalizing es s with
  | ret a => rfl
  | fail e => rfl
  | cmd c k ih => exact ih _ _ _

theorem inputs_bind (p : Prog Rep ε α) (f : α → Prog Rep ε β) (es : ℕ → E) (s : σ) :
    (p.bind f).inputs exec sel es s = p.inputs exec sel es s ++
      match p.run exec es s with
      | (s', .ok a) => (f a).inputs exec sel (p.rest exec es s) s'
      | (_, .error _) => [] := by
  induction p generalizing es s with
  | ret a => rfl
  | fail e => rfl
  | cmd c k ih => simp only [bind, inputs, run, rest, ih, List.append_assoc]

theorem exists_rest (exec : E → (c : C) → σ → σ × Rep c) (p : Prog Rep ε α) (es : ℕ → E) (s : σ) :
    ∃ k, p.rest exec es s = fun n => es (n + k) := by
  induction p generalizing es s with
  | ret a => exact ⟨0, rfl⟩
  | fail e => exact ⟨0, rfl⟩
  | cmd c k ih =>
    obtain ⟨n, hn⟩ := ih (exec (es 0) c s).2 (fun n => es (n + 1)) (exec (es 0) c s).1
    refine ⟨n + 1, hn.trans ?_⟩
    simp only [Nat.add_assoc]

theorem mem_inputs {p : Prog Rep ε α} {e : E} (h : e ∈ p.inputs exec sel es s) :
    ∃ n, es n = e := by
  induction p generalizing es s with
  | ret a => nomatch h
  | fail e' => nomatch h
  | cmd c k ih =>
    rcases List.mem_append.mp h with h | h
    · split at h
      · exact ⟨0, (List.mem_singleton.mp h).symm⟩
      · nomatch h
    · obtain ⟨n, hn⟩ := ih _ h
      exact ⟨n + 1, hn⟩

/-- Some run without interference leads from `s` to `s'` with the result `r`, and these are the
answers to the commands in `sel`. -/
def Takes (exec : E → (c : C) → σ → σ × Rep c) (sel : C → Bool) (p : Prog Rep ε α) (s s' : σ)
    (r : Except ε α) (l : List E) : Prop :=
  ∃ es, p.run exec es s = (s', r) ∧ p.inputs exec sel es s = l

theorem Takes.runs {p : Prog Rep ε α} {r : Except ε α} (h : p.Takes exec sel s s' r l) :
    p.Runs exec s s' r := ⟨h.choose, h.choose_spec.1⟩

theorem takes_bind {p : Prog Rep ε α} {f : α → Prog Rep ε β} {b : β}
    (h : (p.bind f).Takes exec sel s s' (.ok b) l) :
    ∃ a s₁ l₁ l₂, p.Takes exec sel s s₁ (.ok a) l₁ ∧ (f a).Takes exec sel s₁ s' (.ok b) l₂ ∧
      l = l₁ ++ l₂ := by
  obtain ⟨es, hrun, rfl⟩ := h
  rw [run_bind] at hrun
  rw [inputs_bind]
  rcases hp : p.run exec es s with ⟨s₁, e | a⟩
  · rw [hp] at hrun
    nomatch (Prod.mk.inj hrun).2
  · rw [hp] at hrun
    exact ⟨a, s₁, _, _, ⟨es, hp, rfl⟩, ⟨_, hrun, rfl⟩, rfl⟩

/-- A program that issues no command in `sel`. -/
def Silent (sel : C → Bool) : Prog Rep ε α → Prop
  | ret _ => True
  | fail _ => True
  | cmd c k => sel c = false ∧ ∀ r, (k r).Silent sel

theorem Silent.bind {p : Prog Rep ε α} {f : α → Prog Rep ε β} (hp : p.Silent sel)
    (hf : ∀ a, (f a).Silent sel) : (p.bind f).Silent sel := by
  induction p with
  | ret a => exact hf a
  | fail e => trivial
  | cmd c k ih => exact ⟨hp.1, fun r => ih r (hp.2 r)⟩

theorem silent_ofExcept {x : Except ε α} : (ofExcept x : Prog Rep ε α).Silent sel := by
  cases x <;> trivial

theorem Silent.inputs_eq {p : Prog Rep ε α} (hp : p.Silent sel) (es : ℕ → E) (s : σ) :
    p.inputs exec sel es s = [] := by
  induction p generalizing es s with
  | ret a => rfl
  | fail e => rfl
  | cmd c k ih =>
    rw [inputs, if_neg (by rw [hp.1]; exact Bool.false_ne_true), ih _ (hp.2 _)]
    rfl

/-- The commands of the run without interference, each with the state in which it is issued. -/
def commands (exec : E → (c : C) → σ → σ × Rep c) : Prog Rep ε α → (ℕ → E) → σ → List (C × σ)
  | ret _, _, _ => []
  | fail _, _, _ => []
  | cmd c k, es, s =>
    (c, s) :: (k (exec (es 0) c s).2).commands exec (fun n => es (n + 1)) (exec (es 0) c s).1

theorem commands_bind (p : Prog Rep ε α) (f : α → Prog Rep ε β) (es : ℕ → E) (s : σ) :
    (p.bind f).commands exec es s = p.commands exec es s ++
      match p.run exec es s with
      | (s', .ok a) => (f a).commands exec (p.rest exec es s) s'
      | (_, .error _) => [] := by
  induction p generalizing es s with
  | ret a => rfl
  | fail e => rfl
  | cmd c k ih => simp only [bind, commands, run, rest, ih, List.cons_append]

theorem Silent.not_mem_commands {p : Prog Rep ε α} (hp : p.Silent sel) {c : C} (hc : sel c = true) :
    (c, s') ∉ p.commands exec es s := by
  induction p generalizing es s with
  | ret a => exact List.not_mem_nil
  | fail e => exact List.not_mem_nil
  | cmd c' k ih =>
    intro h
    rcases List.mem_cons.mp h with h | h
    · obtain ⟨rfl, -⟩ := Prod.mk.inj h
      rw [hp.1] at hc
      cases hc
    · exact ih _ (hp.2 _) h

/-- A command that the first part does not issue is issued by the second. -/
theorem mem_commands_bind {p : Prog Rep ε α} {f : α → Prog Rep ε β} (hp : p.Silent sel) {c : C}
    (hc : sel c = true) (h : (c, s') ∈ (p.bind f).commands exec es s) :
    ∃ a s₁ es', p.run exec es s = (s₁, .ok a) ∧ (c, s') ∈ (f a).commands exec es' s₁ := by
  rw [commands_bind] at h
  rcases List.mem_append.mp h with h | h
  · exact absurd h (hp.not_mem_commands hc)
  · rcases hrun : p.run exec es s with ⟨s₁, e | a⟩
    · rw [hrun] at h
      nomatch h
    · rw [hrun] at h
      exact ⟨a, s₁, _, rfl, h⟩

theorem Silent.takes {p : Prog Rep ε α} {r : Except ε α} (hp : p.Silent sel)
    (h : p.Takes exec sel s s' r l) : l = [] := by
  obtain ⟨es, -, rfl⟩ := h
  exact hp.inputs_eq es s

/-- A first part that takes nothing. -/
theorem takes_silent_bind {p : Prog Rep ε α} {f : α → Prog Rep ε β} {b : β} (hp : p.Silent sel)
    (h : (p.bind f).Takes exec sel s s' (.ok b) l) :
    ∃ a s₁, p.Runs exec s s₁ (.ok a) ∧ (f a).Takes exec sel s₁ s' (.ok b) l := by
  obtain ⟨a, s₁, l₁, l₂, h1, h2, rfl⟩ := takes_bind h
  obtain rfl := hp.takes h1
  exact ⟨a, s₁, h1.runs, h2⟩

/-- A program over more commands takes what the program takes that it comes from. -/
theorem Takes.of_lift {E' : Type} {exec' : E' → (c : C') → σ → σ × Rep' c} {f : C → C'}
    {g : ∀ c, Rep' (f c) → Rep c} {h : E' → E} {sel' : C' → Bool} {l : List E'}
    {p : Prog Rep ε α} {r : Except ε α} (hp : (p.lift f g).Takes exec' sel' s s' r l)
    (hexec : ∀ e c s, (exec' e (f c) s).1 = (exec (h e) c s).1 ∧
      g c (exec' e (f c) s).2 = (exec (h e) c s).2) :
    p.Takes exec (fun c => sel' (f c)) s s' r (l.map h) := by
  obtain ⟨es, hrun, rfl⟩ := hp
  refine ⟨fun n => h (es n), ?_, ?_⟩
  · induction p generalizing es s with
    | ret a => exact hrun
    | fail e => exact hrun
    | cmd c k ih =>
      obtain ⟨h1, h2⟩ := hexec (es 0) c s
      simp only [lift, run, h1, h2] at hrun
      exact ih _ _ hrun
  · clear hrun
    induction p generalizing es s with
    | ret a => rfl
    | fail e => rfl
    | cmd c k ih =>
      obtain ⟨h1, h2⟩ := hexec (es 0) c s
      simp only [lift, inputs, h1, h2, List.map_append]
      rw [← ih]
      congr 1
      split <;> rfl

/-! All runs in which the world is restricted. -/

/-- **Every run in which the world only does what `ok` admits ends with a result** in `Q`. -/
def Ends (exec : E → (c : C) → σ → σ × Rep c) (ok : E → Prop) (Q : Except ε α → σ → Prop) :
    Prog Rep ε α → σ → Prop
  | ret a, s => Q (.ok a) s
  | fail e, s => Q (.error e) s
  | cmd c k, s => ∀ e, ok e → (k (exec e c s).2).Ends exec ok Q (exec e c s).1

/-- The result is a value, in `Q`. -/
def Value (Q : α → σ → Prop) : Except ε α → σ → Prop
  | .ok a, s => Q a s
  | .error _, _ => False

/-- Every run in which the world only does what `ok` admits ends with a value, in `Q`. -/
abbrev Yields (exec : E → (c : C) → σ → σ × Rep c) (ok : E → Prop) (Q : α → σ → Prop) :
    Prog Rep ε α → σ → Prop := Ends exec ok (Value Q)

variable {ok : E → Prop}

theorem Ends.run {Q : Except ε α → σ → Prop} {p : Prog Rep ε α} (h : p.Ends exec ok Q s)
    {es : ℕ → E} (hes : ∀ n, ok (es n)) : Q (p.run exec es s).2 (p.run exec es s).1 := by
  induction p generalizing s es with
  | ret a => exact h
  | fail e => exact h
  | cmd c k ih => exact ih _ (h (es 0) (hes 0)) fun n => hes (n + 1)

theorem Ends.mono {Q Q' : Except ε α → σ → Prop} {p : Prog Rep ε α} (h : p.Ends exec ok Q s)
    (hQ : ∀ r s', Q r s' → Q' r s') : p.Ends exec ok Q' s := by
  induction p generalizing s with
  | ret a => exact hQ _ s h
  | fail e => exact hQ _ s h
  | cmd c k ih => exact fun e he => ih _ (h e he)

theorem Yields.run {Q : α → σ → Prop} {p : Prog Rep ε α} (h : p.Yields exec ok Q s) {es : ℕ → E}
    (hes : ∀ n, ok (es n)) : ∃ a s', p.run exec es s = (s', .ok a) ∧ Q a s' := by
  have hrun := Ends.run h hes
  rcases hr : p.run exec es s with ⟨s', e | a⟩
  · rw [hr] at hrun
    exact hrun.elim
  · rw [hr] at hrun
    exact ⟨a, s', rfl, hrun⟩

/-- A sequence, if its first part ends with a value. -/
theorem Yields.bind {Q : Except ε β → σ → Prop} {p : Prog Rep ε α} {f : α → Prog Rep ε β}
    (h : p.Yields exec ok (fun a s' => (f a).Ends exec ok Q s') s) :
    (p.bind f).Ends exec ok Q s := by
  induction p generalizing s with
  | ret a => exact h
  | fail e => exact h.elim
  | cmd c k ih => exact fun e he => ih _ (h e he)

theorem Yields.mono {Q Q' : α → σ → Prop} {p : Prog Rep ε α} (h : p.Yields exec ok Q s)
    (hQ : ∀ a s', Q a s' → Q' a s') : p.Yields exec ok Q' s :=
  Ends.mono h fun r s' hr => by
    cases r with
    | ok a => exact hQ a s' hr
    | error e => exact hr

theorem yields_ofExcept {Q : α → σ → Prop} {x : Except ε α} {a : α} (hx : x = .ok a) (h : Q a s) :
    (ofExcept x : Prog Rep ε α).Yields exec ok Q s := by
  rw [hx]
  exact h

end Prog

/-! ### Runs among others -/

/-- The surroundings of a program: how the store changes between two of its steps, what holds of the
store when it takes a step, and which steps are considered. -/
structure Ambient (σ E : Type) where
  rely : σ → σ → Prop
  inv : σ → Prop
  allow : E → Prop
  refl : ∀ s, rely s s
  trans : ∀ {s s' s''}, rely s s' → rely s' s'' → rely s s''

/-- No surroundings: nobody else moves. -/
def Ambient.alone {σ E : Type} : Ambient σ E where
  rely := Eq
  inv _ := True
  allow _ := True
  refl _ := rfl
  trans := Eq.trans

/-- Nobody moves, and the state is `s₀`. -/
def Ambient.still {σ E : Type} (s₀ : σ) : Ambient σ E where
  rely := Eq
  inv s := s = s₀
  allow _ := True
  refl _ := rfl
  trans := Eq.trans

/-- The surroundings, for a smaller set of steps. -/
def Ambient.comap {E' : Type} (M : Ambient σ E') (f : E' → E) : Ambient σ E where
  rely := M.rely
  inv := M.inv
  allow e := ∃ e', M.allow e' ∧ f e' = e
  refl := M.refl
  trans := M.trans

namespace Prog

/-- Some run in these surroundings leads from `s` to `s'` with the result `r`. -/
def RunsIn (exec : E → (c : C) → σ → σ × Rep c) (M : Ambient σ E) :
    Prog Rep ε α → σ → σ → Except ε α → Prop
  | ret a, s, s', r => s' = s ∧ r = .ok a
  | fail e, s, s', r => s' = s ∧ r = .error e
  | cmd c k, s, s', r => ∃ s₁ e, M.rely s s₁ ∧ M.inv s₁ ∧ M.allow e ∧
      (k (exec e c s₁).2).RunsIn exec M (exec e c s₁).1 s' r

/-- A program whose commands leave the store as it is. -/
def ReadOnly (exec : E → (c : C) → σ → σ × Rep c) : Prog Rep ε α → Prop
  | ret _ => True
  | fail _ => True
  | cmd c k => ∀ e s, (exec e c s).1 = s ∧ (k (exec e c s).2).ReadOnly exec

variable {exec : E → (c : C) → σ → σ × Rep c} {M : Ambient σ E} {s s' : σ}

theorem ReadOnly.bind {p : Prog Rep ε α} {f : α → Prog Rep ε β} (hp : p.ReadOnly exec)
    (hf : ∀ a, (f a).ReadOnly exec) : (p.bind f).ReadOnly exec := by
  induction p with
  | ret a => exact hf a
  | fail e => trivial
  | cmd c k ih => exact fun e s => ⟨(hp e s).1, ih _ (hp e s).2⟩

theorem readOnly_ofExcept {x : Except ε α} :
    (ofExcept x : Prog Rep ε α).ReadOnly exec := by
  cases x <;> trivial

/-- A run without interference is a run without surroundings. -/
theorem runsIn_of_runs {p : Prog Rep ε α} {r : Except ε α} (h : p.Runs exec s s' r) :
    p.RunsIn exec Ambient.alone s s' r := by
  induction p generalizing s with
  | ret a => exact runs_ret h
  | fail e => exact runs_fail h
  | cmd c k ih =>
    obtain ⟨e, h⟩ := runs_cmd h
    exact ⟨s, e, rfl, trivial, trivial, ih _ h⟩

/-- A run in some surroundings is a run in any that promise less. -/
theorem RunsIn.mono {M' : Ambient σ E} {p : Prog Rep ε α} {r : Except ε α}
    (h : p.RunsIn exec M s s' r) (hrely : ∀ s s', M.rely s s' → M'.rely s s')
    (hinv : ∀ s, M.inv s → M'.inv s) (hallow : ∀ e, M.allow e → M'.allow e) :
    p.RunsIn exec M' s s' r := by
  induction p generalizing s with
  | ret a => exact h
  | fail e => exact h
  | cmd c k ih =>
    obtain ⟨s₁, e, h1, h2, h3, h4⟩ := h
    exact ⟨s₁, e, hrely _ _ h1, hinv _ h2, hallow _ h3, ih _ h4⟩

/-- A program that changes nothing, where nobody moves, has only seen the state it started in. -/
theorem RunsIn.still {p : Prog Rep ε α} {r : Except ε α} (hp : p.ReadOnly exec)
    (h : p.RunsIn exec M s s' r) (hM : ∀ s s', M.rely s s' → s = s') :
    p.RunsIn exec (Ambient.still s) s s' r := by
  induction p generalizing s with
  | ret a => exact h
  | fail e => exact h
  | cmd c k ih =>
    obtain ⟨s₁, e, h1, -, -, h4⟩ := h
    obtain rfl := hM _ _ h1
    have h5 := ih _ (hp e s).2 h4
    rw [(hp e s).1] at h5 h4
    exact ⟨s, e, rfl, rfl, trivial, by rw [(hp e s).1]; exact h5⟩

/-- A run without interference of a program that changes nothing. -/
theorem ReadOnly.still {p : Prog Rep ε α} {r : Except ε α} (hp : p.ReadOnly exec)
    (h : p.Runs exec s s' r) : p.RunsIn exec (Ambient.still s) s s' r :=
  (runsIn_of_runs h).still hp fun _ _ e => e

section Lift

variable {E' : Type} {exec' : E' → (c : C') → σ → σ × Rep' c} {f : C → C'}
  {g : ∀ c, Rep' (f c) → Rep c} {h : E' → E} {M' : Ambient σ E'}

/-- A program over more commands runs as the program it comes from. -/
theorem RunsIn.of_lift
    (hexec : ∀ e c s, (exec' e (f c) s).1 = (exec (h e) c s).1 ∧
      g c (exec' e (f c) s).2 = (exec (h e) c s).2)
    {p : Prog Rep ε α} {r : Except ε α} (hr : (p.lift f g).RunsIn exec' M' s s' r) :
    p.RunsIn exec (M'.comap h) s s' r := by
  induction p generalizing s with
  | ret a => exact hr
  | fail e => exact hr
  | cmd c k ih =>
    obtain ⟨s₁, e, h1, h2, h3, h4⟩ := hr
    obtain ⟨he1, he2⟩ := hexec e c s₁
    simp only [he1, he2] at h4
    exact ⟨s₁, h e, h1, h2, ⟨e, h3, rfl⟩, ih _ h4⟩

theorem ReadOnly.lift
    (hexec : ∀ e c s, (exec' e (f c) s).1 = (exec (h e) c s).1 ∧
      g c (exec' e (f c) s).2 = (exec (h e) c s).2)
    {p : Prog Rep ε α} (hp : p.ReadOnly exec) : (p.lift f g).ReadOnly exec' := by
  induction p with
  | ret a => trivial
  | fail e => trivial
  | cmd c k ih =>
    intro e s
    obtain ⟨he1, he2⟩ := hexec e c s
    simp only [he1, he2]
    exact ⟨(hp (h e) s).1, ih _ (hp (h e) s).2⟩

end Lift

/-- A program that changes nothing leaves the store as it was. -/
theorem ReadOnly.runs {p : Prog Rep ε α} {r : Except ε α} (hp : p.ReadOnly exec)
    (h : p.Runs exec s s' r) : s' = s := by
  induction p generalizing s with
  | ret a => exact (runs_ret h).1
  | fail e => exact (runs_fail h).1
  | cmd c k ih =>
    obtain ⟨e, h⟩ := runs_cmd h
    have h1 := ih _ (hp e s).2 h
    rwa [(hp e s).1] at h1

/-- A program that changes nothing ends in a state that the others have reached. -/
theorem RunsIn.rely {p : Prog Rep ε α} {r : Except ε α} (hp : p.ReadOnly exec)
    (h : p.RunsIn exec M s s' r) : M.rely s s' := by
  induction p generalizing s with
  | ret a => rw [h.1]; exact M.refl s
  | fail e => rw [h.1]; exact M.refl s
  | cmd c k ih =>
    obtain ⟨s₁, e, h1, -, -, h4⟩ := h
    have h5 := ih _ (hp e s₁).2 h4
    rw [(hp e s₁).1] at h5
    exact M.trans h1 h5

/-- **A run of a sequence** fails in its first part or goes on with the second. -/
theorem runsIn_bind_cases {p : Prog Rep ε α} {f : α → Prog Rep ε β} {r : Except ε β}
    (h : (p.bind f).RunsIn exec M s s' r) :
    (∃ e, r = .error e ∧ p.RunsIn exec M s s' (.error e)) ∨
      ∃ a s₁, p.RunsIn exec M s s₁ (.ok a) ∧ (f a).RunsIn exec M s₁ s' r := by
  induction p generalizing s with
  | ret a => exact Or.inr ⟨a, s, ⟨rfl, rfl⟩, h⟩
  | fail e => exact Or.inl ⟨e, h.2, h.1, rfl⟩
  | cmd c k ih =>
    obtain ⟨s₁, e, h1, h2, h3, h4⟩ := h
    rcases ih _ h4 with ⟨x, hr, h5⟩ | ⟨a, s₂, h5, h6⟩
    · exact Or.inl ⟨x, hr, s₁, e, h1, h2, h3, h5⟩
    · exact Or.inr ⟨a, s₂, ⟨s₁, e, h1, h2, h3, h5⟩, h6⟩

/-- A run of a sequence that succeeds is a run of its parts. -/
theorem runsIn_bind {p : Prog Rep ε α} {f : α → Prog Rep ε β} {b : β}
    (h : (p.bind f).RunsIn exec M s s' (.ok b)) :
    ∃ a s₁, p.RunsIn exec M s s₁ (.ok a) ∧ (f a).RunsIn exec M s₁ s' (.ok b) := by
  rcases runsIn_bind_cases h with ⟨e, he, -⟩ | h
  · nomatch he
  · exact h

/-- A run of the first part of a sequence that changes nothing. -/
theorem runsIn_readOnly_bind {p : Prog Rep ε α} {f : α → Prog Rep ε β} {b : β}
    (hp : p.ReadOnly exec) (h : (p.bind f).RunsIn exec M s s' (.ok b)) :
    ∃ a s₁, M.rely s s₁ ∧ p.RunsIn exec M s s₁ (.ok a) ∧ (f a).RunsIn exec M s₁ s' (.ok b) := by
  obtain ⟨a, s₁, h1, h2⟩ := runsIn_bind h
  exact ⟨a, s₁, h1.rely hp, h1, h2⟩

theorem runsIn_ofExcept {x : Except ε α} {r : Except ε α}
    (h : (ofExcept x : Prog Rep ε α).RunsIn exec M s s' r) : s' = s ∧ r = x := by
  cases x with
  | ok a => exact h
  | error e => exact h

theorem runsIn_ofExcept_bind {x : Except ε α} {f : α → Prog Rep ε β} {b : β}
    (h : ((ofExcept x).bind f).RunsIn exec M s s' (.ok b)) :
    ∃ a, x = .ok a ∧ (f a).RunsIn exec M s s' (.ok b) := by
  obtain ⟨a, s₁, h1, h2⟩ := runsIn_bind h
  obtain ⟨rfl, hx⟩ := runsIn_ofExcept h1
  exact ⟨a, hx.symm, h2⟩

end Prog

/-- What a program may rely on and what it has to guarantee. -/
structure Contract (C σ E : Type) where
  /-- The invariant of the store. -/
  inv : σ → Prop
  /-- What the others may do between two steps. -/
  rely : σ → σ → Prop
  /-- What a step of the program may do. -/
  guar : σ → σ → Prop
  /-- The steps that are considered. -/
  allow : E → C → σ → Prop
  rely_refl : ∀ s, rely s s
  rely_trans : ∀ {s s' s''}, rely s s' → rely s' s'' → rely s s''

namespace Contract

/-- The surroundings that a contract promises. -/
def ambient (K : Contract C σ E) : Ambient σ E where
  rely := K.rely
  inv := K.inv
  allow e := ∃ c s, K.allow e c s
  refl := K.rely_refl
  trans := K.rely_trans

variable (exec : E → (c : C) → σ → σ × Rep c) (K : Contract C σ E)

/-- **The program keeps the contract**, ends in `Q` or fails in `F`. -/
def Ok (Q : α → σ → Prop) (F : ε → σ → Prop) : Prog Rep ε α → σ → Prop
  | .ret a, s => ∀ s', K.rely s s' → K.inv s' → Q a s'
  | .fail e, s => ∀ s', K.rely s s' → K.inv s' → F e s'
  | .cmd c k, s => ∀ s', K.rely s s' → K.inv s' → ∀ e, K.allow e c s' →
      K.inv (exec e c s').1 ∧ K.guar s' (exec e c s').1 ∧
        Ok Q F (k (exec e c s').2) (exec e c s').1

variable {exec K} {Q Q' : α → σ → Prop} {F F' : ε → σ → Prop} {s s' : σ}

/-- The others may move before the first step. -/
theorem Ok.stable {p : Prog Rep ε α} (h : K.Ok exec Q F p s) (hs : K.rely s s') :
    K.Ok exec Q F p s' := by
  cases p with
  | ret a => exact fun s'' h' => h s'' (K.rely_trans hs h')
  | fail e => exact fun s'' h' => h s'' (K.rely_trans hs h')
  | cmd c k => exact fun s'' h' => h s'' (K.rely_trans hs h')

/-- It is enough to look at the states in which the invariant holds. -/
theorem Ok.of_forall {p : Prog Rep ε α}
    (h : ∀ s', K.rely s s' → K.inv s' → K.Ok exec Q F p s') : K.Ok exec Q F p s := by
  cases p with
  | ret a => exact fun s' h1 h2 => h s' h1 h2 s' (K.rely_refl s') h2
  | fail e => exact fun s' h1 h2 => h s' h1 h2 s' (K.rely_refl s') h2
  | cmd c k => exact fun s' h1 h2 => h s' h1 h2 s' (K.rely_refl s') h2

theorem Ok.mono {p : Prog Rep ε α} (h : K.Ok exec Q F p s)
    (hQ : ∀ a s', K.inv s' → Q a s' → Q' a s') (hF : ∀ e s', K.inv s' → F e s' → F' e s') :
    K.Ok exec Q' F' p s := by
  induction p generalizing s with
  | ret a => exact fun s' h1 h2 => hQ a s' h2 (h s' h1 h2)
  | fail e => exact fun s' h1 h2 => hF e s' h2 (h s' h1 h2)
  | cmd c k ih =>
    intro s' h1 h2 e he
    obtain ⟨hi, hg, hk⟩ := h s' h1 h2 e he
    exact ⟨hi, hg, ih _ hk⟩

/-- The contract of a program that knows something about the store which the others leave. -/
def knowing (K : Contract C σ E) (J : σ → Prop) : Contract C σ E :=
  { K with inv := fun s => K.inv s ∧ J s }

/-- **What is known at the start** is known until the end, if the others leave it. -/
theorem Ok.of_knowing {J : σ → Prop} {p : Prog Rep ε α} (h : (K.knowing J).Ok exec Q F p s)
    (hJ : ∀ s s', K.rely s s' → K.inv s' → J s → J s') (hs : J s) :
    K.Ok exec (fun a s' => Q a s' ∧ J s') (fun e s' => F e s' ∧ J s') p s := by
  induction p generalizing s with
  | ret a => exact fun s' h1 h2 => ⟨h s' h1 ⟨h2, hJ s s' h1 h2 hs⟩, hJ s s' h1 h2 hs⟩
  | fail e => exact fun s' h1 h2 => ⟨h s' h1 ⟨h2, hJ s s' h1 h2 hs⟩, hJ s s' h1 h2 hs⟩
  | cmd c k ih =>
    intro s' h1 h2 e he
    obtain ⟨⟨hi, hj⟩, hg, hk⟩ := h s' h1 ⟨h2, hJ s s' h1 h2 hs⟩ e he
    exact ⟨hi, hg, ih _ hk hj⟩

/-- **Sequencing.** -/
theorem Ok.bind {p : Prog Rep ε β} {f : β → Prog Rep ε α}
    (h : K.Ok exec (fun b s' => K.Ok exec Q F (f b) s') F p s) :
    K.Ok exec Q F (p.bind f) s := by
  induction p generalizing s with
  | ret a => exact Ok.of_forall h
  | fail e => exact h
  | cmd c k ih =>
    intro s' h1 h2 e he
    obtain ⟨hi, hg, hk⟩ := h s' h1 h2 e he
    exact ⟨hi, hg, ih _ hk⟩

theorem Ok.ret {a : α} (h : ∀ s', K.rely s s' → K.inv s' → Q a s') :
    K.Ok exec Q F (.ret a : Prog Rep ε α) s := h

theorem Ok.fail {e : ε} (h : ∀ s', K.rely s s' → K.inv s' → F e s') :
    K.Ok exec Q F (.fail e : Prog Rep ε α) s := h

/-- **One command**, issued in whatever state the others have left. -/
theorem Ok.cmd {c : C} {k : Rep c → Prog Rep ε α}
    (h : ∀ s', K.rely s s' → K.inv s' → ∀ e, K.allow e c s' →
      K.inv (exec e c s').1 ∧ K.guar s' (exec e c s').1 ∧
        K.Ok exec Q F (k (exec e c s').2) (exec e c s').1) :
    K.Ok exec Q F (.cmd c k) s := h

theorem Ok.ofExcept {x : Except ε α}
    (hQ : ∀ a, x = .ok a → ∀ s', K.rely s s' → K.inv s' → Q a s')
    (hF : ∀ e, x = .error e → ∀ s', K.rely s s' → K.inv s' → F e s') :
    K.Ok exec Q F (Prog.ofExcept x) s := by
  cases x with
  | ok a => exact hQ a rfl
  | error e => exact hF e rfl

/-- The program that returns its result keeps what the program keeps. -/
theorem Ok.attempt {ε' : Type} {R : Except ε α → σ → Prop} {F' : ε' → σ → Prop} {p : Prog Rep ε α}
    (h : K.Ok exec (fun a s' => R (.ok a) s') (fun e s' => R (.error e) s') p s) :
    K.Ok exec R F' p.attempt s := by
  induction p generalizing s with
  | ret a => exact h
  | fail e => exact h
  | cmd c k ih =>
    intro s' h1 h2 e he
    obtain ⟨hi, hg, hk⟩ := h s' h1 h2 e he
    exact ⟨hi, hg, ih _ hk⟩

/-- **A program whose commands change nothing** does what its runs do. -/
theorem Ok.of_runsIn {p : Prog Rep ε α}
    (hread : ∀ s, K.inv s → K.guar s s) (hp : p.ReadOnly exec)
    (hQ : ∀ a s', p.RunsIn exec K.ambient s s' (.ok a) →
      ∀ s'', K.rely s' s'' → K.inv s'' → Q a s'')
    (hF : ∀ e s', p.RunsIn exec K.ambient s s' (.error e) →
      ∀ s'', K.rely s' s'' → K.inv s'' → F e s'') : K.Ok exec Q F p s := by
  induction p generalizing s with
  | ret a => exact hQ a s ⟨rfl, rfl⟩
  | fail e => exact hF e s ⟨rfl, rfl⟩
  | cmd c k ih =>
    intro s₁ h1 h2 e he
    have hs : (exec e c s₁).1 = s₁ := (hp e s₁).1
    have hrun : ∀ {r s'}, (k (exec e c s₁).2).RunsIn exec K.ambient (exec e c s₁).1 s' r →
        (Prog.cmd c k).RunsIn exec K.ambient s s' r := fun h => ⟨s₁, e, h1, h2, ⟨c, s₁, he⟩, h⟩
    refine ⟨by rw [hs]; exact h2, by rw [hs]; exact hread s₁ h2, ih _ (hp e s₁).2 ?_ ?_⟩
    · exact fun a s' h => hQ a s' (hrun h)
    · exact fun x s' h => hF x s' (hrun h)

/-- A run without interference, all of whose steps are considered, ends in `Q` or in `F`, and its
states keep the invariant. -/
theorem Ok.run_along {p : Prog Rep ε α} (h : K.Ok exec Q F p s) (hs : K.inv s) {es : ℕ → E}
    (hes : p.Along exec K.allow es s) :
    K.inv (p.run exec es s).1 ∧
      (∀ a, (p.run exec es s).2 = .ok a → Q a (p.run exec es s).1) ∧
      ∀ e, (p.run exec es s).2 = .error e → F e (p.run exec es s).1 := by
  induction p generalizing s es with
  | ret a =>
    refine ⟨hs, fun b hb => ?_, fun e he => (nomatch he)⟩
    cases hb; exact h s (K.rely_refl s) hs
  | fail e =>
    refine ⟨hs, fun a ha => (nomatch ha), fun e' he => ?_⟩
    cases he; exact h s (K.rely_refl s) hs
  | cmd c k ih =>
    obtain ⟨hi, hg, hk⟩ := h s (K.rely_refl s) hs (es 0) hes.1
    exact ih _ hk hi hes.2

/-- A run without interference, if every step is considered. -/
theorem Ok.run {p : Prog Rep ε α} (h : K.Ok exec Q F p s) (hs : K.inv s) {es : ℕ → E}
    (hes : ∀ n c s', K.allow (es n) c s') :
    K.inv (p.run exec es s).1 ∧
      (∀ a, (p.run exec es s).2 = .ok a → Q a (p.run exec es s).1) ∧
      ∀ e, (p.run exec es s).2 = .error e → F e (p.run exec es s).1 :=
  h.run_along hs (Prog.along_of_forall hes)

end Contract

end Fuin.Lib.Program

import Fuin.Store.Database
import Fuin.Time

/-! # Runs in which nothing fails

The world is `Calm` if no call fails and the clock shows a time that can be printed. The lemmas here
say what the statements of a program return then; a program that always succeeds is put together from
them (`Prog.Yields`). -/

namespace Fuin.Store.Success

open Fuin.Utils Fuin.Time Fuin.Lib.Program Fuin.Store.Database

/-- Nothing fails. -/
structure Calm (i : Input) : Prop where
  fault : i.fault = false
  clock : ∃ t, nowIso8601 i.now = .ok t

variable {α β : Type} {db : Db}

/-- A program that ends in every calm run with a result and a state in `Q`. -/
abbrev Ends (Q : Except Status α → Db → Prop) (p : Sql α) (db : Db) : Prop :=
  Prog.Ends Stmt.exec Calm Q p db

/-- A program that succeeds in every calm run, with a value and a state in `Q`. -/
abbrev Succeeds (Q : α → Db → Prop) (p : Sql α) (db : Db) : Prop :=
  Prog.Yields Stmt.exec Calm Q p db

variable {Q : Except Status α → Db → Prop}

theorem ends_lib_bind {e : Status} {f : Unit → Sql α}
    (h : Ends Q (f ()) db) : Ends Q ((Sql.lib e).bind f) db := by
  intro i hi
  simp only [Stmt.exec, hi.fault, Bool.not_false, if_true]
  exact h

theorem ends_libs_bind : ∀ {es : List Status} {f : Unit → Sql α},
    Ends Q (f ()) db → Ends Q ((Sql.libs es).bind f) db
  | [], _, h => h
  | e :: es, f, h => by
    rw [Sql.libs, Prog.bind_assoc]
    exact ends_lib_bind (ends_libs_bind h)

theorem ends_select {q : Db → Except Status α} {a : α} (hq : q db = .ok a) (h : Q (.ok a) db) :
    Ends Q (Sql.select q) db := by
  intro i hi
  simp only [Stmt.exec, hi.fault, Bool.false_eq_true, ↓reduceIte]
  show Ends Q (Prog.ofExcept (q db)) db
  rw [hq]
  exact h

theorem ends_select_bind {q : Db → Except Status β} {b : β} {f : β → Sql α}
    (hq : q db = .ok b) (h : Ends Q (f b) db) : Ends Q ((Sql.select q).bind f) db := by
  intro i hi
  simp only [Stmt.exec, hi.fault, Bool.false_eq_true, ↓reduceIte]
  show Ends Q ((Prog.ofExcept (q db)).bind f) db
  rw [hq]
  exact h

theorem ends_ofExcept_bind {x : Except Status β} {b : β} {f : β → Sql α}
    (hx : x = .ok b) (h : Ends Q (f b) db) : Ends Q ((Prog.ofExcept x).bind f) db := by
  rw [hx]
  exact h

theorem ends_require_bind {p : Prop} [Decidable p] {e : Status} {f : Unit → Sql α}
    (hp : p) (h : Ends Q (f ()) db) :
    Ends Q ((Prog.ofExcept (require p e)).bind f) db :=
  ends_ofExcept_bind (require_eq_ok.mpr hp) h

theorem ends_random_bind {n : ℕ} {f : Block n → Sql α}
    (h : ∀ r, Ends Q (f r) db) : Ends Q ((Sql.random n).bind f) db := fun i _ => h (i.random n)

theorem ends_time_bind {f : Option ℤ → Sql α}
    (h : ∀ now t, nowIso8601 now = .ok t → Ends Q (f now) db) :
    Ends Q (Sql.time.bind f) db := fun i hi => by
  obtain ⟨t, ht⟩ := hi.clock
  exact h i.now t ht

theorem ends_write_bind {w : Write} {db' : Db} {n : ℕ} {f : ℕ → Sql α}
    (hw : w.apply db = some (db', n)) (h : Ends Q (f n) db') :
    Ends Q ((Sql.write w).bind f) db := by
  intro i hi
  simp only [Stmt.exec, hi.fault, hw]
  exact h

/-! ### One run

A run that succeeds, with what the world has answered. -/

section Run

variable {es : ℕ → Input} {db' : Db} {a : α}

theorem run_ofExcept {x : Except Status α} :
    (Prog.ofExcept x : Sql α).run Stmt.exec es db = (db, x) := by
  cases x <;> rfl

theorem run_ofExcept_ok {x : Except Status β} {f : β → Sql α}
    (h : ((Prog.ofExcept x).bind f).run Stmt.exec es db = (db', .ok a)) :
    ∃ b, x = .ok b ∧ (f b).run Stmt.exec es db = (db', .ok a) := by
  cases x with
  | ok b => exact ⟨b, rfl, h⟩
  | error e => nomatch (Prod.mk.inj h).2

/-- A library call fails, or the program goes on. -/
theorem run_lib_cases {e : Status} {f : Unit → Sql α} :
    ((Sql.lib e).bind f).run Stmt.exec es db = (db, .error e) ∨
      ((Sql.lib e).bind f).run Stmt.exec es db =
        (f ()).run Stmt.exec (fun n => es (n + 1)) db := by
  have hstep : ∀ ok : Bool, ((if ok then Prog.ret () else Prog.fail e : Sql Unit).bind f).run
      Stmt.exec (fun n => es (n + 1)) db = (db, .error e) ∨
        ((if ok then Prog.ret () else Prog.fail e : Sql Unit).bind f).run
          Stmt.exec (fun n => es (n + 1)) db = (f ()).run Stmt.exec (fun n => es (n + 1)) db := by
    rintro ⟨⟩
    · exact Or.inl rfl
    · exact Or.inr rfl
  exact hstep (!(es 0).fault)

/-- A `SELECT` fails, or the program goes on with what is read. -/
theorem run_select_cases {q : Db → Except Status β} {f : β → Sql α} :
    ((Sql.select q).bind f).run Stmt.exec es db = (db, .error .storage) ∨
      ((Sql.select q).bind f).run Stmt.exec es db =
        ((Prog.ofExcept (q db)).bind f).run Stmt.exec (fun n => es (n + 1)) db := by
  cases hf : (es 0).fault with
  | true =>
    have hexec : Stmt.exec (es 0) .select db = (db, none) := by simp only [Stmt.exec, hf]; rfl
    exact Or.inl (Prog.run_cmd_bind hexec)
  | false =>
    have hexec : Stmt.exec (es 0) .select db = (db, some db) := by simp only [Stmt.exec, hf]; rfl
    exact Or.inr (Prog.run_cmd_bind hexec)

theorem run_lib_ok {e : Status} {f : Unit → Sql α}
    (h : ((Sql.lib e).bind f).run Stmt.exec es db = (db', .ok a)) :
    (f ()).run Stmt.exec (fun n => es (n + 1)) db = (db', .ok a) := by
  rcases (run_lib_cases : _ ∨ ((Sql.lib e).bind f).run Stmt.exec es db = _) with hrun | hrun
  · rw [hrun] at h
    nomatch (Prod.mk.inj h).2
  · rw [hrun] at h
    exact h

theorem run_libs_ok {f : Unit → Sql α} : ∀ {l : List Status} {es : ℕ → Input},
    ((Sql.libs l).bind f).run Stmt.exec es db = (db', .ok a) →
      (f ()).run Stmt.exec (fun n => es (n + l.length)) db = (db', .ok a)
  | [], _, h => h
  | e :: l, es, h => by
    rw [Sql.libs, Prog.bind_assoc] at h
    have hrest := run_libs_ok (run_lib_ok h)
    simp only [Nat.add_assoc] at hrest
    exact hrest

end Run

/-! A run in which nothing fails. -/

/-- Nothing fails. -/
def Faultless (es : ℕ → Input) : Prop := ∀ n, (es n).fault = false

/-- Nothing fails and the clock stands at `now`. -/
def Quiet (now : ℤ) (es : ℕ → Input) : Prop :=
  ∀ n, (es n).fault = false ∧ (es n).now = some now

section Quiet

variable {now : ℤ} {es : ℕ → Input}

theorem Faultless.drop (h : Faultless es) (k : ℕ) : Faultless fun n => es (n + k) :=
  fun n => h (n + k)

theorem Quiet.drop (h : Quiet now es) (k : ℕ) : Quiet now fun n => es (n + k) :=
  fun n => h (n + k)

theorem Quiet.faultless (h : Quiet now es) : Faultless es := fun n => (h n).1

theorem run_lib_bind {e : Status} {f : Unit → Sql α} (h : Faultless es) :
    ((Sql.lib e).bind f).run Stmt.exec es db = (f ()).run Stmt.exec (fun n => es (n + 1)) db := by
  show ((if !(es 0).fault then Prog.ret () else Prog.fail e : Sql Unit).bind f).run _ _ _ = _
  rw [h 0]
  rfl

theorem run_lib {e : Status} (h : Faultless es) :
    (Sql.lib e).run Stmt.exec es db = (db, .ok ()) := by
  show (if !(es 0).fault then Prog.ret () else Prog.fail e : Sql Unit).run _ _ _ = _
  rw [h 0]
  rfl

theorem run_libs_bind {f : Unit → Sql α} : ∀ {l : List Status} {es : ℕ → Input}, Faultless es →
    ((Sql.libs l).bind f).run Stmt.exec es db =
      (f ()).run Stmt.exec (fun n => es (n + l.length)) db
  | [], _, _ => rfl
  | e :: l, es, h => by
    rw [Sql.libs, Prog.bind_assoc, run_lib_bind h, run_libs_bind (h.drop 1)]
    simp only [List.length_cons, Nat.add_assoc]

theorem run_require_bind {p : Prop} [Decidable p] {e : Status} {f : Unit → Sql α} (hp : p) :
    ((Prog.ofExcept (require p e)).bind f).run Stmt.exec es db = (f ()).run Stmt.exec es db := by
  rw [require_eq_ok.mpr hp]
  rfl

theorem run_require_bind_neg {p : Prop} [Decidable p] {e : Status} {f : Unit → Sql α} (hp : ¬p) :
    ((Prog.ofExcept (require p e)).bind f).run Stmt.exec es db = (db, .error e) := by
  unfold require
  rw [if_neg hp]
  rfl

theorem run_time_bind {f : Option ℤ → Sql α} (h : Quiet now es) :
    (Sql.time.bind f).run Stmt.exec es db =
      (f (some now)).run Stmt.exec (fun n => es (n + 1)) db := by
  show (f (es 0).now).run _ _ _ = _
  rw [(h 0).2]
  rfl

theorem run_select_bind {q : Db → Except Status β} {f : β → Sql α} (h : Faultless es) :
    ((Sql.select q).bind f).run Stmt.exec es db =
      ((Prog.ofExcept (q db)).bind f).run Stmt.exec (fun n => es (n + 1)) db := by
  have hexec : Stmt.exec (es 0) .select db = (db, some db) := by simp only [Stmt.exec, h 0]; rfl
  exact Prog.run_cmd_bind hexec

theorem run_write_bind {w : Write} {db' : Db} {n : ℕ} {f : ℕ → Sql α} (h : Faultless es)
    (hw : w.apply db = some (db', n)) : ((Sql.write w).bind f).run Stmt.exec es db =
      (f n).run Stmt.exec (fun n => es (n + 1)) db' := by
  have hexec : Stmt.exec (es 0) (.write w) db = (db', some n) := by
    simp only [Stmt.exec, h 0, hw]
    rfl
  exact Prog.run_cmd_bind hexec

end Quiet

end Fuin.Store.Success

import Fuin.Lib.Seen
import Fuin.Store.Database

/-! # What the queries of a program have seen

The states in which a program issues its `SELECT`s. -/

namespace Fuin.Store.Seen

open Fuin.Utils Fuin.Lib.Program Fuin.Store.Database

variable {α β : Type} {M : Ambient Db Input} {db db' : Db} {seen : List Db}

/-- Whether a command reads the database. -/
def isSelect : Stmt → Bool
  | .select => true
  | _ => false

/-- A run among others, with the states in which it reads the database. -/
abbrev Reads (M : Ambient Db Input) (p : Sql α) (db : Db) (seen : List Db) (db' : Db)
    (r : Except Status α) : Prop :=
  Prog.Sees Stmt.exec M isSelect p db seen db' r

theorem reads_lib_bind {e : Status} {f : Unit → Sql β} {b : β}
    (h : Reads M ((Sql.lib e).bind f) db seen db' (.ok b)) :
    ∃ db₁, Reads M (f ()) db₁ seen db' (.ok b) := by
  obtain ⟨db₁, i, rest, -, -, -, rfl, h⟩ := h
  cases hf : i.fault with
  | true =>
    simp only [Stmt.exec, hf] at h
    cases h.2.2
  | false =>
    simp only [Stmt.exec, hf] at h
    exact ⟨db₁, h⟩

theorem reads_libs_bind : ∀ {es : List Status} {db : Db} {f : Unit → Sql β} {b : β},
    Reads M ((Sql.libs es).bind f) db seen db' (.ok b) → ∃ db₁, Reads M (f ()) db₁ seen db' (.ok b)
  | [], db, _, _, h => ⟨db, h⟩
  | e :: es, _, f, _, h => by
    rw [Sql.libs, Prog.bind_assoc] at h
    obtain ⟨_, h⟩ := reads_lib_bind h
    exact reads_libs_bind h

theorem reads_random_bind {n : ℕ} {f : Block n → Sql β} {b : β}
    (h : Reads M ((Sql.random n).bind f) db seen db' (.ok b)) :
    ∃ r db₁, Reads M (f r) db₁ seen db' (.ok b) := by
  obtain ⟨db₁, i, rest, -, -, -, rfl, h⟩ := h
  exact ⟨_, db₁, h⟩

/-- **A `SELECT`** sees the state it is answered from. -/
theorem reads_select {q : Db → Except Status α} {a : α}
    (h : Reads M (Sql.select q) db seen db' (.ok a)) : seen = [db'] ∧ q db' = .ok a := by
  obtain ⟨z, i, rest, -, -, -, rfl, h⟩ := h
  cases hf : i.fault with
  | true =>
    simp only [Stmt.exec, hf] at h
    cases h.2.2
  | false =>
    simp only [Stmt.exec, hf] at h
    obtain ⟨rfl, rfl, hq⟩ := Prog.sees_ofExcept h
    exact ⟨rfl, hq.symm⟩

theorem reads_select_bind {q : Db → Except Status α} {f : α → Sql β} {b : β}
    (h : Reads M ((Sql.select q).bind f) db seen db' (.ok b)) :
    ∃ a z rest, seen = z :: rest ∧ q z = .ok a ∧ Reads M (f a) z rest db' (.ok b) := by
  obtain ⟨a, z, seen₁, rest, rfl, h1, h2⟩ := Prog.sees_bind h
  obtain ⟨rfl, hq⟩ := reads_select h1
  exact ⟨a, z, rest, rfl, hq, h2⟩

end Fuin.Store.Seen

import Mathlib.Data.List.Forall2
import Mathlib.Data.List.TakeWhile

/-! # Arguments of a command line

`getopt_long`: options with long names and with letters, of which some take a value, between operands.
An argument gives the options in it and perhaps an option that still wants its value, which is then the
next argument, whatever it is. A long name may be shortened as long as it is unique. `Spells` is the
grammar of the command lines in which nothing is unknown, and the scan reads exactly these
(`scan_iff`). -/

namespace Fuin.Lib.Arguments

abbrev Text := List UInt8

/-- The options of a program, with their long names and their letters. -/
structure Table (ω : Type) where
  long : List (Text × ω)
  short : UInt8 → Option ω
  takesValue : ω → Bool

/-- What is found: an option, with its value if it takes one, or something that is none. -/
inductive Found (ω : Type) where
  | option (w : ω) (value : Option Text)
  | unknown

/-- What an argument gives: the options in it, and the option that wants the next argument. -/
structure Reading (ω : Type) where
  found : List (Found ω)
  wants : Option ω

variable {ω : Type}

/-- The option of a long name: the option of this name, or the only one whose name goes on so. -/
def Table.named (T : Table ω) (name : Text) : Option ω :=
  match T.long.find? fun e => e.1 = name with
  | some e => some e.2
  | none =>
    match T.long.filter fun e => name.isPrefixOf e.1 with
    | [e] => some e.2
    | _ => none

/-- An argument after its `--`. -/
def Table.readLong (T : Table ω) (s : Text) : Reading ω :=
  match T.named (s.takeWhile (· ≠ 61)), (s.dropWhile (· ≠ 61)).tail? with
  | none, _ => ⟨[.unknown], none⟩
  | some w, some v => if T.takesValue w then ⟨[.option w (some v)], none⟩ else ⟨[.unknown], none⟩
  | some w, none => if T.takesValue w then ⟨[], some w⟩ else ⟨[.option w none], none⟩

/-- An argument after its `-`. -/
def Table.readShort (T : Table ω) : Text → Reading ω
  | [] => ⟨[], none⟩
  | c :: s =>
    match T.short c with
    | none => ⟨.unknown :: (T.readShort s).found, (T.readShort s).wants⟩
    | some w =>
      if T.takesValue w then
        if s = [] then ⟨[], some w⟩ else ⟨[.option w (some s)], none⟩
      else ⟨.option w none :: (T.readShort s).found, (T.readShort s).wants⟩

/-- An argument that begins with `-`. -/
def Table.read (T : Table ω) (arg : Text) : Reading ω :=
  if [45, 45].isPrefixOf arg then T.readLong (arg.drop 2) else T.readShort (arg.drop 1)

/-- An argument that is no option: it does not begin with `-`, or is nothing else. -/
def IsOperand (arg : Text) : Prop := arg.head? ≠ some 45 ∨ arg = [45]

instance (arg : Text) : Decidable (IsOperand arg) := inferInstanceAs (Decidable (_ ∨ _))

/-- `getopt_long`, called until it returns -1: the options found and the operands. With
`POSIXLY_CORRECT` the first operand ends the options. -/
def Table.scan (T : Table ω) (posix : Bool) : Option ω → List Text → List (Found ω) × List Text
  | some _, [] => ([.unknown], [])
  | some w, v :: args =>
    (.option w (some v) :: (T.scan posix none args).1, (T.scan posix none args).2)
  | none, [] => ([], [])
  | none, arg :: args =>
    if arg = [45, 45] then ([], args)
    else if IsOperand arg then
      if posix then ([], arg :: args)
      else ((T.scan posix none args).1, arg :: (T.scan posix none args).2)
    else
      ((T.read arg).found ++ (T.scan posix (T.read arg).wants args).1,
        (T.scan posix (T.read arg).wants args).2)

/-! ### What a command line spells -/

/-- Letters of options without a value, one after the other. -/
def Table.Switches (T : Table ω) (letters : Text) (ws : List ω) : Prop :=
  List.Forall₂ (fun c w => T.short c = some w ∧ T.takesValue w = false) letters ws

/-- A long name, perhaps shortened. -/
structure Table.Named (T : Table ω) (name : Text) (w : ω) : Prop where
  named : T.named name = some w
  noEq : (61 : UInt8) ∉ name

/-- Options without a value. -/
def plain (ws : List ω) : List (ω × Option Text) := ws.map fun w => (w, none)

/-- What the arguments spell: options in their order, and operands. -/
inductive Table.Spells (T : Table ω) (posix : Bool) :
    List Text → List (ω × Option Text) → List Text → Prop
  | done : Spells T posix [] [] []
  /-- After `--` everything is an operand. -/
  | stop (args : List Text) : Spells T posix ([45, 45] :: args) [] args
  | operand {arg args options operands} (hposix : posix = false) (h : IsOperand arg)
      (hrest : Spells T posix args options operands) : Spells T posix (arg :: args) options (arg :: operands)
  | operands {arg} (args : List Text) (hposix : posix = true) (h : IsOperand arg) :
      Spells T posix (arg :: args) [] (arg :: args)
  /-- `--name` -/
  | switch {name w args options operands} (h : T.Named name w) (hname : name ≠ [])
      (hw : T.takesValue w = false) (hrest : Spells T posix args options operands) :
      Spells T posix ((45 :: 45 :: name) :: args) ((w, none) :: options) operands
  /-- `--name=value` -/
  | joined {name w args options operands} (v : Text) (h : T.Named name w)
      (hw : T.takesValue w = true) (hrest : Spells T posix args options operands) :
      Spells T posix ((45 :: 45 :: (name ++ 61 :: v)) :: args) ((w, some v) :: options) operands
  /-- `--name value` -/
  | apart {name w args options operands} (v : Text) (h : T.Named name w) (hname : name ≠ [])
      (hw : T.takesValue w = true) (hrest : Spells T posix args options operands) :
      Spells T posix ((45 :: 45 :: name) :: v :: args) ((w, some v) :: options) operands
  /-- `-abc` -/
  | letters {letters ws args options operands} (h : T.Switches letters ws) (hne : letters ≠ [])
      (hrest : Spells T posix args options operands) :
      Spells T posix ((45 :: letters) :: args) (plain ws ++ options) operands
  /-- `-abnvalue` -/
  | lettersJoined {letters ws c w v args options operands} (h : T.Switches letters ws)
      (hc : T.short c = some w) (hw : T.takesValue w = true) (hv : v ≠ [])
      (hrest : Spells T posix args options operands) :
      Spells T posix ((45 :: (letters ++ c :: v)) :: args) (plain ws ++ (w, some v) :: options) operands
  /-- `-abn value` -/
  | lettersApart {letters ws c w args options operands} (v : Text) (h : T.Switches letters ws)
      (hc : T.short c = some w) (hw : T.takesValue w = true)
      (hrest : Spells T posix args options operands) :
      Spells T posix ((45 :: (letters ++ [c])) :: v :: args) (plain ws ++ (w, some v) :: options) operands

/-- What letters are, if nothing in them is unknown. -/
inductive Table.Letters (T : Table ω) : Text → List (ω × Option Text) → Option ω → Prop
  | switches {letters ws} (h : T.Switches letters ws) : Letters T letters (plain ws) none
  | joined {letters ws c w v} (h : T.Switches letters ws) (hc : T.short c = some w)
      (hw : T.takesValue w = true) (hv : v ≠ []) :
      Letters T (letters ++ c :: v) (plain ws ++ [(w, some v)]) none
  | apart {letters ws c w} (h : T.Switches letters ws) (hc : T.short c = some w)
      (hw : T.takesValue w = true) : Letters T (letters ++ [c]) (plain ws) (some w)

/-! ### What is read of an argument -/

variable {T : Table ω} {posix : Bool} {name letters v s arg : Text} {w : ω} {ws : List ω} {c : UInt8}
  {args operands : List Text} {options : List (ω × Option Text)}

/-- An option as it is found. -/
def Found.of (p : ω × Option Text) : Found ω := .option p.1 p.2

theorem map_plain : (plain ws).map Found.of = ws.map fun w => .option w none := by
  simp [plain, Found.of]

theorem splitEq_name (h : (61 : UInt8) ∉ name) :
    name.takeWhile (· ≠ 61) = name ∧ (name.dropWhile (· ≠ 61)).tail? = none := by
  have hall : ∀ c ∈ name, decide (c ≠ 61) = true := fun c hc => by
    rw [decide_eq_true_eq]
    rintro rfl
    exact h hc
  rw [List.takeWhile_eq_self_iff.mpr hall, List.dropWhile_eq_nil_iff.mpr hall]
  exact ⟨rfl, rfl⟩

theorem splitEq_joined (h : (61 : UInt8) ∉ name) :
    (name ++ 61 :: v).takeWhile (· ≠ 61) = name ∧
      ((name ++ 61 :: v).dropWhile (· ≠ 61)).tail? = some v := by
  have hall : ∀ c ∈ name, decide (c ≠ 61) = true := fun c hc => by
    rw [decide_eq_true_eq]
    rintro rfl
    exact h hc
  rw [List.takeWhile_append_of_pos hall, List.dropWhile_append_of_pos hall]
  simp

theorem readLong_name (h : T.Named name w) :
    T.readLong name = if T.takesValue w then ⟨[], some w⟩ else ⟨[.option w none], none⟩ := by
  obtain ⟨h1, h2⟩ := splitEq_name h.noEq
  unfold Table.readLong
  rw [h1, h2, h.named]

theorem readLong_joined (h : T.Named name w) :
    T.readLong (name ++ 61 :: v) =
      if T.takesValue w then ⟨[.option w (some v)], none⟩ else ⟨[.unknown], none⟩ := by
  obtain ⟨h1, h2⟩ := splitEq_joined (v := v) h.noEq
  unfold Table.readLong
  rw [h1, h2, h.named]

/-- Letters of options without a value are read one after the other. -/
theorem readShort_switches (h : T.Switches letters ws) (s : Text) :
    T.readShort (letters ++ s) =
      ⟨(plain ws).map Found.of ++ (T.readShort s).found, (T.readShort s).wants⟩ := by
  induction h with
  | nil => rfl
  | cons hc _ ih =>
    obtain ⟨hshort, hplain⟩ := hc
    rw [List.cons_append, Table.readShort, hshort]
    simp only [hplain, ih, Bool.false_eq_true, if_false]
    rfl

theorem readShort_last (hc : T.short c = some w) (hw : T.takesValue w = true) :
    T.readShort (c :: s) = if s = [] then ⟨[], some w⟩ else ⟨[.option w (some s)], none⟩ := by
  rw [Table.readShort, hc]
  exact if_pos hw

theorem read_long (s : Text) : T.read (45 :: 45 :: s) = T.readLong s := by
  unfold Table.read
  exact if_pos (by simp)

theorem read_short (h : c ≠ 45) : T.read (45 :: c :: s) = T.readShort (c :: s) := by
  unfold Table.read
  exact if_neg (by simp [h.symm])

/-- The scan of an argument with options. -/
theorem scan_options (h : arg ≠ [45, 45]) (hop : ¬ IsOperand arg) :
    T.scan posix none (arg :: args) = ((T.read arg).found ++ (T.scan posix (T.read arg).wants args).1,
      (T.scan posix (T.read arg).wants args).2) := by
  rw [Table.scan, if_neg h, if_neg hop]

theorem not_operand (hs : s ≠ []) : ¬ IsOperand (45 :: s) := by
  unfold IsOperand
  simp [hs]

/-- No letter is `-`. -/
def Table.NoDash (T : Table ω) : Prop := T.short 45 = none

theorem Table.NoDash.ne (hT : T.NoDash) (hc : T.short c = some w) : c ≠ 45 := by
  rintro rfl
  have hnone : T.short 45 = none := hT
  rw [hnone] at hc
  cases hc

/-- The scan of letters. -/
theorem scan_letters (hT : T.NoDash) (hs : s ≠ []) (hhead : ∃ w, T.short (s.head hs) = some w) :
    T.scan posix none ((45 :: s) :: args) =
      ((T.readShort s).found ++ (T.scan posix (T.readShort s).wants args).1,
        (T.scan posix (T.readShort s).wants args).2) := by
  obtain ⟨w, hw⟩ := hhead
  obtain ⟨c, t, rfl⟩ := List.exists_cons_of_ne_nil hs
  have hc : c ≠ 45 := hT.ne hw
  rw [scan_options (by simp [hc]) (not_operand hs), read_short hc]

/-- The first of some letters is one of an option. -/
theorem head_letters (h : T.Switches letters ws) (hc : ∃ w, T.short c = some w) (s : Text)
    (hne : letters ++ c :: s ≠ []) : ∃ w, T.short ((letters ++ c :: s).head hne) = some w := by
  cases h with
  | nil => exact hc
  | cons hd _ => exact ⟨_, hd.1⟩

/-- What is spelled is found. -/
theorem scan_of_spells (hT : T.NoDash) (h : T.Spells posix args options operands) :
    T.scan posix none args = (options.map Found.of, operands) := by
  induction h with
  | done => rfl
  | stop args => rw [Table.scan, if_pos rfl]; rfl
  | @operand arg args options operands hposix hop _ ih =>
    have hne : arg ≠ [45, 45] := by
      rintro rfl
      exact not_operand (by simp) hop
    rw [Table.scan, if_neg hne, if_pos hop, hposix]
    subst hposix
    rw [ih]
    rfl
  | @operands arg args hposix hop =>
    have hne : arg ≠ [45, 45] := by
      rintro rfl
      exact not_operand (by simp) hop
    rw [Table.scan, if_neg hne, if_pos hop, hposix]
    rfl
  | switch h hname hw _ ih =>
    rw [scan_options (by simp [hname]) (not_operand (by simp)), read_long, readLong_name h, hw]
    simp [ih, Found.of]
  | joined v h hw _ ih =>
    rw [scan_options (by simp) (not_operand (by simp)), read_long, readLong_joined h, hw]
    simp [ih, Found.of]
  | apart v h hname hw _ ih =>
    rw [scan_options (by simp [hname]) (not_operand (by simp)), read_long, readLong_name h, hw]
    simp [ih, Found.of, Table.scan]
  | letters h hne _ ih =>
    have hhead : ∃ w, T.short (List.head _ hne) = some w := by
      cases h with
      | nil => exact absurd rfl hne
      | cons hd _ => exact ⟨_, hd.1⟩
    have hread := readShort_switches h []
    rw [List.append_nil] at hread
    rw [scan_letters hT hne hhead, hread]
    simp [ih, Table.readShort]
  | lettersJoined h hc hw hv _ ih =>
    rw [scan_letters hT (by simp) (head_letters h ⟨_, hc⟩ _ _), readShort_switches h,
      readShort_last hc hw, if_neg hv]
    simp [ih, Found.of]
  | lettersApart v h hc hw _ ih =>
    rw [scan_letters hT (by simp) (head_letters h ⟨_, hc⟩ _ _), readShort_switches h,
      readShort_last hc hw, if_pos rfl]
    simp [ih, Found.of, Table.scan]

/-! ### What is found was spelled -/

theorem Table.Letters.cons {wants : Option ω} (hc : T.short c = some w) (hw : T.takesValue w = false)
    (h : T.Letters s options wants) : T.Letters (c :: s) ((w, none) :: options) wants := by
  cases h with
  | switches h => exact .switches (.cons ⟨hc, hw⟩ h)
  | joined h hd hwd hv => exact .joined (.cons ⟨hc, hw⟩ h) hd hwd hv
  | apart h hd hwd => exact .apart (.cons ⟨hc, hw⟩ h) hd hwd

theorem letters_of_readShort (h : (T.readShort s).found = options.map Found.of) :
    T.Letters s options (T.readShort s).wants := by
  induction s generalizing options with
  | nil =>
    obtain rfl := List.map_eq_nil_iff.mp h.symm
    exact .switches .nil
  | cons c s ih =>
    cases hc : T.short c with
    | none =>
      rw [Table.readShort, hc] at h
      obtain ⟨p, rest, -, hp, -⟩ := List.map_eq_cons_iff.mp h.symm
      cases hp
    | some w =>
      by_cases hw : T.takesValue w = true
      · rw [readShort_last hc hw] at h ⊢
        by_cases hs : s = []
        · subst hs
          rw [if_pos rfl] at h ⊢
          obtain rfl := List.map_eq_nil_iff.mp h.symm
          exact .apart .nil hc hw
        · rw [if_neg hs] at h ⊢
          obtain ⟨⟨w', v⟩, rest, rfl, hp, hrest⟩ := List.map_eq_cons_iff.mp h.symm
          obtain rfl := List.map_eq_nil_iff.mp hrest
          cases hp
          exact .joined .nil hc hw hs
      · rw [Bool.not_eq_true] at hw
        have hread : T.readShort (c :: s) =
            ⟨.option w none :: (T.readShort s).found, (T.readShort s).wants⟩ := by
          rw [Table.readShort, hc]
          simp [hw]
        rw [hread] at h ⊢
        obtain ⟨⟨w', v⟩, rest, rfl, hp, hrest⟩ := List.map_eq_cons_iff.mp h.symm
        cases hp
        exact (ih hrest.symm).cons hc hw

/-- What an argument with options is, if nothing in it is unknown: all it spells, or all but the value
of the last one. -/
def Table.Complete (T : Table ω) (posix : Bool) (arg : Text) (options : List (ω × Option Text)) :
    Option ω → Prop
  | none => ∀ {args os operands}, T.Spells posix args os operands →
    T.Spells posix (arg :: args) (options ++ os) operands
  | some w => ∀ {v args os operands}, T.Spells posix args os operands →
    T.Spells posix (arg :: v :: args) (options ++ (w, some v) :: os) operands

theorem complete_long (hs : s ≠ []) (h : (T.readLong s).found = options.map Found.of) :
    T.Complete posix (45 :: 45 :: s) options (T.readLong s).wants := by
  cases hw : T.named (s.takeWhile (· ≠ 61)) with
  | none =>
    unfold Table.readLong at h
    rw [hw] at h
    obtain ⟨p, rest, -, hp, -⟩ := List.map_eq_cons_iff.mp h.symm
    cases hp
  | some w =>
    have hname : T.Named (s.takeWhile (· ≠ 61)) w :=
      ⟨hw, fun hc => by simpa using List.mem_takeWhile_imp hc⟩
    have hs' := List.takeWhile_append_dropWhile (p := fun c : UInt8 => decide (c ≠ 61)) (l := s)
    cases hd : s.dropWhile (· ≠ 61) with
    | nil =>
      rw [hd, List.append_nil] at hs'
      rw [hs'] at hname
      rw [readLong_name hname] at h ⊢
      by_cases htakes : T.takesValue w = true
      · rw [if_pos htakes] at h ⊢
        obtain rfl := List.map_eq_nil_iff.mp h.symm
        exact fun {_ _ _ _} hrest => .apart _ hname hs htakes hrest
      · rw [if_neg htakes] at h ⊢
        obtain ⟨⟨w', v⟩, rest, rfl, hp, hrest⟩ := List.map_eq_cons_iff.mp h.symm
        obtain rfl := List.map_eq_nil_iff.mp hrest
        cases hp
        rw [Bool.not_eq_true] at htakes
        exact fun {_ _ _} hrest => .switch hname hs htakes hrest
    | cons c v =>
      have hc : c = 61 := by
        have hhead := List.head?_dropWhile_not (fun c : UInt8 => decide (c ≠ 61)) s
        rw [hd] at hhead
        simpa using hhead
      subst hc
      rw [hd] at hs'
      generalize s.takeWhile (· ≠ 61) = name at hs' hname
      subst hs'
      rw [readLong_joined hname] at h ⊢
      by_cases htakes : T.takesValue w = true
      · rw [if_pos htakes] at h ⊢
        obtain ⟨⟨w', v⟩, rest, rfl, hp, hrest⟩ := List.map_eq_cons_iff.mp h.symm
        obtain rfl := List.map_eq_nil_iff.mp hrest
        cases hp
        exact fun {_ _ _} hrest => .joined _ hname htakes hrest
      · rw [if_neg htakes] at h
        obtain ⟨p, rest, -, hp, -⟩ := List.map_eq_cons_iff.mp h.symm
        cases hp

theorem complete_letters (hs : s ≠ []) {wants : Option ω} (h : T.Letters s options wants) :
    T.Complete posix (45 :: s) options wants := by
  cases h with
  | switches h => exact fun {_ _ _} hrest => .letters h hs hrest
  | joined h hc hw hv =>
    intro args os operands hrest
    rw [List.append_assoc]
    exact .lettersJoined h hc hw hv hrest
  | apart h hc hw => exact fun {_ _ _ _} hrest => .lettersApart _ h hc hw hrest

/-- An argument with options in which nothing is unknown. -/
theorem complete_read (h : arg ≠ [45, 45]) (hop : ¬ IsOperand arg)
    (hread : (T.read arg).found = options.map Found.of) :
    T.Complete posix arg options (T.read arg).wants := by
  unfold IsOperand at hop
  push Not at hop
  obtain ⟨hhead, hdash⟩ := hop
  obtain ⟨s, rfl⟩ := List.head?_eq_some_iff.mp hhead
  have hs : s ≠ [] := fun hs => hdash (by rw [hs])
  obtain ⟨c, t, rfl⟩ := List.exists_cons_of_ne_nil hs
  by_cases hc : c = 45
  · subst hc
    rw [read_long] at hread ⊢
    exact complete_long (fun ht => h (by rw [ht])) hread
  · rw [read_short hc] at hread ⊢
    exact complete_letters hs (letters_of_readShort hread)

/-- What the arguments spell after an option that still wants its value. -/
def Table.SpellsFrom (T : Table ω) (posix : Bool) (wants : Option ω) (args : List Text)
    (options : List (ω × Option Text)) (operands : List Text) : Prop :=
  match wants with
  | none => T.Spells posix args options operands
  | some w => ∃ v rest os, args = v :: rest ∧ options = (w, some v) :: os ∧
    T.Spells posix rest os operands

/-- What is found was spelled. -/
theorem spells_of_scan (args : List Text) : ∀ {wants : Option ω} {options operands},
    T.scan posix wants args = (options.map Found.of, operands) →
      T.SpellsFrom posix wants args options operands := by
  induction args with
  | nil =>
    intro wants options operands h
    cases wants with
    | none =>
      obtain ⟨h1, rfl⟩ := Prod.mk.inj h
      obtain rfl := List.map_eq_nil_iff.mp h1.symm
      exact .done
    | some w =>
      obtain ⟨h1, -⟩ := Prod.mk.inj h
      obtain ⟨p, rest, -, hp, -⟩ := List.map_eq_cons_iff.mp h1.symm
      cases hp
  | cons arg args ih =>
    intro wants options operands h
    cases wants with
    | some w =>
      obtain ⟨h1, h2⟩ := Prod.mk.inj h
      obtain ⟨⟨w', v⟩, os, rfl, hp, hos⟩ := List.map_eq_cons_iff.mp h1.symm
      cases hp
      have hrest : T.SpellsFrom posix none args os operands := ih (Prod.ext hos.symm h2)
      exact ⟨arg, args, os, rfl, rfl, hrest⟩
    | none =>
      by_cases hstop : arg = [45, 45]
      · rw [Table.scan, if_pos hstop] at h
        obtain ⟨h1, rfl⟩ := Prod.mk.inj h
        obtain rfl := List.map_eq_nil_iff.mp h1.symm
        rw [hstop]
        exact .stop args
      · by_cases hop : IsOperand arg
        · rw [Table.scan, if_neg hstop, if_pos hop] at h
          cases posix with
          | true =>
            rw [if_pos rfl] at h
            obtain ⟨h1, rfl⟩ := Prod.mk.inj h
            obtain rfl := List.map_eq_nil_iff.mp h1.symm
            exact .operands args rfl hop
          | false =>
            rw [if_neg (by simp)] at h
            obtain ⟨h1, rfl⟩ := Prod.mk.inj h
            have hrest : T.SpellsFrom false none args _ _ := ih (Prod.ext h1 rfl)
            exact .operand rfl hop hrest
        · rw [scan_options hstop hop] at h
          obtain ⟨h1, h2⟩ := Prod.mk.inj h
          obtain ⟨here, later, rfl, hhere, hlater⟩ := List.map_eq_append_iff.mp h1.symm
          have hread : T.Complete posix arg here _ := complete_read hstop hop hhere.symm
          have hrest := ih (Prod.ext hlater.symm h2)
          cases hwants : (T.read arg).wants with
          | none =>
            rw [hwants] at hread hrest
            exact hread hrest
          | some w =>
            rw [hwants] at hread hrest
            obtain ⟨v, rest, os, rfl, rfl, hspells⟩ := hrest
            exact hread hspells

/-- **The command lines that are read**: the scan finds options and operands and nothing unknown
exactly if they are what the arguments spell. -/
theorem scan_iff (hT : T.NoDash) :
    T.scan posix none args = (options.map Found.of, operands) ↔
      T.Spells posix args options operands :=
  ⟨spells_of_scan args, scan_of_spells hT⟩

end Fuin.Lib.Arguments

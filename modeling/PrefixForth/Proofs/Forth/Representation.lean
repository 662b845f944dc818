import PrefixForth.Proofs.Forth.Machine
import PrefixForth.Proofs.Forth.Operators
import PrefixForth.Proofs.Tree.Evaluation

/-!
# Values on the machine

How the values of trees lie on the stacks and in the variables of the machine: an integer or a truth
value is a cell, a real is a float, a string is a pair of cells. The words that generated code is made
of then do to represented values what evaluation does to the values themselves.

* `Turns` says that a word takes represented values off the stacks and leaves another one there. There
  is one such statement for each operation, and for the word that the preamble defines, powers, it is
  proved from the definition (`turns_power`).
* The words that work on variables and on the output are `runs_fetch`, `runs_store`, `runs_double`,
  `runs_print` and `runs_define`; the control structures are `runs_choose`, `runs_chooseElse` and
  `runs_loop`.
-/

namespace PrefixForth

open Evaluation (Settles)
open Forth (Cell Contents Memory State Runs)

variable {w : Nat} {R : Type}

/-! ### Values -/

namespace Datum

/-- The cells of a value, the topmost first. -/
def cells : Datum w R → List (Cell w)
  | int n => [.number n]
  | real _ => []
  | bool b => [.number (Forth.flag b)]
  | string s => [.length s.length, .characters s]

/-- The floats of a value. -/
def floats : Datum w R → List R
  | real r => [r]
  | _ => []

/-- The value in a variable. -/
def contents : Datum w R → Contents w R
  | int n => .cell (.number n)
  | real r => .float r
  | bool b => .cell (.number (Forth.flag b))
  | string s => .pair (.characters s) (.length s.length)

/-- The value as it is printed. -/
def shown : Datum w R → Forth.Printed w R
  | int n => .number n
  | real r => .real r
  | bool b => .number (Forth.flag b)
  | string s => .text s

variable {d : Datum w R}

theorem type_eq_int_iff : d.type = .int ↔ ∃ n, d = .int n := by
  cases d <;> simp [type]

theorem type_eq_real_iff : d.type = .real ↔ ∃ r, d = .real r := by
  cases d <;> simp [type]

theorem type_eq_bool_iff : d.type = .bool ↔ ∃ b, d = .bool b := by
  cases d <;> simp [type]

theorem type_eq_string_iff : d.type = .string ↔ ∃ s, d = .string s := by
  cases d <;> simp [type]

end Datum

/-- The value as a real, if it is a number. -/
def Operations.toReal (M : Operations w R) : Datum w R → Datum w R
  | .int n => .real (M.ofInt n)
  | d => d

/-! ### Truth values -/

namespace Forth

private theorem flag_ne_zero_iff (hw : 0 < w) {b : Bool} : (flag b : BitVec w) ≠ 0 ↔ b = true := by
  cases b with
  | false => simp [flag]
  | true =>
    simp only [flag, if_true, iff_true]
    intro h
    have hbit := congrArg (fun x : BitVec w => x.getLsbD 0) h
    simp [hw] at hbit

/-- Flags tell truth values apart. -/
private theorem flag_inj (hw : 0 < w) {a b : Bool} : (flag a : BitVec w) = flag b ↔ a = b := by
  refine ⟨fun h => ?_, fun h => h ▸ rfl⟩
  have ha := flag_ne_zero_iff hw (b := a)
  rw [h, flag_ne_zero_iff hw] at ha
  exact (Bool.eq_iff_iff.mpr ha).symm

private theorem flag_and (a b : Bool) : (flag a &&& flag b : BitVec w) = flag (a && b) := by
  cases a <;> cases b <;> simp [flag]

private theorem flag_or (a b : Bool) : (flag a ||| flag b : BitVec w) = flag (a || b) := by
  cases a <;> cases b <;> simp [flag]

/-- The complement of a flag is the flag of the negation. -/
theorem not_flag (a : Bool) : (~~~flag a : BitVec w) = flag !a := by
  cases a <;> simp [flag]

/-- A test takes a flag off the stack and finds its truth value. -/
private theorem test_flag (hw : 0 < w) (b : Bool) (ds : List (Cell w)) (fs : List R)
    (m : Memory w R) :
    test ⟨.number (flag b) :: ds, fs, m⟩ = some (b, ⟨ds, fs, m⟩) := by
  have h : decide ((flag b : BitVec w) ≠ 0) = b :=
    Bool.eq_iff_iff.mpr (decide_eq_true_iff.trans (flag_ne_zero_iff hw))
  change some (decide ((flag b : BitVec w) ≠ 0), _) = _
  rw [h]

end Forth

/-! ### Single words -/

section Words

variable {M : Operations w R}

/-- No definition of the preamble changes a word other than that for powers. -/
theorem find?_powerDefinition {v : Word} (hv : v ≠ .int .pow) :
    [powerDefinition].find? (·.name = v.text) = none := by
  have htext : powerDefinition.name ≠ v.text := by
    cases v with
    | fetch s => cases s <;> decide
    | store s => cases s <;> decide
    | dup s => cases s <;> decide
    | int op =>
      cases op with
      | pow => exact absurd rfl hv
      | _ => decide
    | intCompare op => cases op <;> decide
    | logic op => cases op <;> decide
    | float op => cases op <;> decide
    | floatCompare op => cases op <;> decide
    | trigonometric op => cases op <;> decide
    | _ => decide
  simp [htext]

/-- A word that the machine knows. -/
theorem runs_word {v : Word} {st st' : State w R} (hv : v ≠ .int .pow)
    (h : Forth.perform M st v = some st') : Runs M [powerDefinition] [.word v] st st' :=
  .instruction fun k => by rw [Forth.step, find?_powerDefinition hv, h]; rfl

variable (M) in
/-- The word takes the represented values off the stacks, the topmost first, and leaves another one. -/
def Turns (v : Word) (operands : List (Datum w R)) (d : Datum w R) : Prop :=
  ∀ ds fs m, Runs M [powerDefinition] [.word v]
    ⟨operands.flatMap Datum.cells ++ ds, operands.flatMap Datum.floats ++ fs, m⟩
    ⟨d.cells ++ ds, d.floats ++ fs, m⟩

/-- A word that the machine knows, by what it does. -/
theorem turns_of_perform {v : Word} {operands : List (Datum w R)} {d : Datum w R}
    (hv : v ≠ .int .pow)
    (h : ∀ ds fs m, Forth.perform M
      ⟨operands.flatMap Datum.cells ++ ds, operands.flatMap Datum.floats ++ fs, m⟩ v =
        some ⟨d.cells ++ ds, d.floats ++ fs, m⟩) : Turns M v operands d :=
  fun ds fs m => runs_word hv (h ds fs m)

/-- An integer becomes a real. -/
theorem turns_intToFloat (n : BitVec w) : Turns M .intToFloat [.int n] (.real (M.ofInt n)) :=
  turns_of_perform (by decide) fun _ _ _ => rfl

/-! ### Powers -/

/-- The body of the loop for powers, taken over and over, multiplies by the base. -/
theorem runs_products {a q : BitVec w} {n : Nat} (h : M.power a n = some q) (ds : List (Cell w))
    (fs : List R) (m : Memory w R) :
    Runs M [powerDefinition] (List.replicate n [.word .dupSecond, .word (.int .mul)]).flatten
      ⟨.number 1 :: .number a :: ds, fs, m⟩ ⟨.number q :: .number a :: ds, fs, m⟩ := by
  induction n generalizing q with
  | zero =>
    obtain rfl : 1 = q := Option.some.inj h
    exact .nil _
  | succ n ih =>
    obtain ⟨p, hp, hq⟩ := Option.bind_eq_some_iff.mp h
    rw [List.replicate_succ', List.flatten_append, List.flatten_singleton]
    have hover : Runs M [powerDefinition] [.word .dupSecond] ⟨.number p :: .number a :: ds, fs, m⟩
        ⟨.number a :: .number p :: .number a :: ds, fs, m⟩ := runs_word (by decide) rfl
    have hmul : Runs M [powerDefinition] [.word (.int .mul)]
        ⟨.number a :: .number p :: .number a :: ds, fs, m⟩ ⟨.number q :: .number a :: ds, fs, m⟩ := by
      refine runs_word (by decide) ?_
      simp only [Forth.perform, Forth.onNumbers, hq, Option.map_some]
    exact (ih hp).append (hover.append hmul)

/-- The word that the preamble defines computes powers. -/
theorem turns_power {a b q : BitVec w} (h : M.power a b.toNat = some q) :
    Turns M (.int .pow) [.int b, .int a] (.int q) := by
  intro ds fs m
  refine Runs.replaced (c := powerDefinition.body) (fun k => rfl) ?_
  have hone : Runs M [powerDefinition] [.int (utf8 "1")] ⟨.number b :: .number a :: ds, fs, m⟩
      ⟨.number 1 :: .number b :: .number a :: ds, fs, m⟩ := .instruction fun k => rfl
  have hswap : Runs M [powerDefinition] [.word .swap]
      ⟨.number 1 :: .number b :: .number a :: ds, fs, m⟩
      ⟨.number b :: .number 1 :: .number a :: ds, fs, m⟩ := runs_word (by decide) rfl
  have hzero : Runs M [powerDefinition] [.int (utf8 "0")]
      ⟨.number b :: .number 1 :: .number a :: ds, fs, m⟩
      ⟨.number 0 :: .number b :: .number 1 :: .number a :: ds, fs, m⟩ := .instruction fun k => rfl
  -- The loop counts from 0 up to the exponent, so its body is run as often as the exponent says.
  have hcount : Runs M [powerDefinition] [.count [.word .dupSecond, .word (.int .mul)]]
      ⟨.number 0 :: .number b :: .number 1 :: .number a :: ds, fs, m⟩
      ⟨.number q :: .number a :: ds, fs, m⟩ :=
    .replaced (fun k => by simp [Forth.step]) (runs_products h ds fs m)
  have hnip : Runs M [powerDefinition] [.word .nip] ⟨.number q :: .number a :: ds, fs, m⟩
      ⟨.number q :: ds, fs, m⟩ := runs_word (by decide) rfl
  exact hone.append (hswap.append (hzero.append (hcount.append hnip)))

/-! ### Operations -/

/-- An operation that may fail settles what holds of all its results. -/
private theorem settles_outcome {α : Type} {f : α → Datum w R} {result : Option α}
    {Q : Datum w R → Prop}
    (h : ∀ a, result = some a → Q (f a)) : Settles (Operations.outcome f result) Q := by
  cases result with
  | none => exact fun hreason => nomatch hreason
  | some a => exact h a rfl

/-- The addition of strings is concatenation, here and on the stack. -/
theorem settles_concat (s t : Bytes) :
    Settles (M.arithmetic .add (.string s) (.string t)) fun d =>
      d.type = .string ∧ Turns M .concat [.string t, .string s] d := by
  refine ⟨rfl, turns_of_perform (by decide) fun ds fs m => ?_⟩
  simp [Forth.perform, Datum.cells, Datum.floats]

/-- Arithmetic on integers is what the word for it does to two cells. -/
theorem settles_intArithmetic (op : Arithmetic) (a b : BitVec w) :
    Settles (M.arithmetic op (.int a) (.int b)) fun d =>
      d.type = .int ∧ Turns M (.int op) [.int b, .int a] d := by
  refine settles_outcome fun c hc => ⟨rfl, ?_⟩
  by_cases hop : op = .pow
  · subst hop
    exact turns_power hc
  · have hint : M.int op a b = some c := by
      simpa [Operations.intArithmetic, hop] using hc
    refine turns_of_perform (by simpa using hop) fun ds fs m => ?_
    simp [Forth.perform, Forth.onNumbers, Datum.cells, Datum.floats, hint]

/-- Arithmetic on reals is what the word for it does on the stack of floats. -/
theorem settles_realArithmetic (op : Arithmetic) (x y : R) :
    Settles (M.arithmetic op (.real x) (.real y)) fun d =>
      d.type = .real ∧ Turns M (.float op) [.real y, .real x] d := by
  refine settles_outcome fun z hz => ⟨rfl, turns_of_perform (by simp) fun ds fs m => ?_⟩
  simp [Forth.perform, Forth.onFloats, Datum.cells, Datum.floats, hz]

/-- A comparison of integers leaves a flag for its truth value. -/
theorem settles_intComparison (op : Comparison) (a b : BitVec w) :
    Settles (M.comparison op (.int a) (.int b)) fun d =>
      d.type = .bool ∧ Turns M (.intCompare op) [.int b, .int a] d :=
  ⟨rfl, turns_of_perform (by simp) fun _ _ _ => rfl⟩

/-- A comparison of reals leaves a flag on the other stack. -/
theorem settles_realComparison (op : Comparison) (x y : R) :
    Settles (M.comparison op (.real x) (.real y)) fun d =>
      d.type = .bool ∧ Turns M (.floatCompare op) [.real y, .real x] d :=
  ⟨rfl, turns_of_perform (by simp) fun _ _ _ => rfl⟩

/-- Cells tell truth values apart as they are told apart. -/
theorem settles_equality {op : Comparison} (hop : op = .eq ∨ op = .ne) (a b : Bool) :
    Settles (M.comparison op (.bool a) (.bool b)) fun d =>
      d.type = .bool ∧ Turns M (.intCompare op) [.bool b, .bool a] d := by
  rcases hop with rfl | rfl <;> refine ⟨rfl, turns_of_perform (by simp) fun ds fs m => ?_⟩ <;>
    simp [Forth.perform, Forth.onNumbers, Comparison.ofInts, Datum.cells, Datum.floats,
      Forth.flag_inj M.width_pos]

/-- A connective of truth values is the word for it, applied to their flags. -/
theorem settles_connective (op : Connective) (a b : Bool) :
    Settles (M.binary (.connective op) (.bool a) (.bool b)) fun d =>
      d.type = .bool ∧ Turns M (.logic op) [.bool b, .bool a] d := by
  refine ⟨rfl, turns_of_perform (by simp) fun ds fs m => ?_⟩
  cases op <;> simp [Forth.perform, Forth.onNumbers, Connective.apply, Datum.cells, Datum.floats,
    Forth.flag_and, Forth.flag_or]

/-- With a real among two numbers, both are taken as reals. -/
theorem binary_toReal (op : BinaryOperator) {a b : Datum w R} (ha : a.type.isNumeric = true)
    (hb : b.type.isNumeric = true) (hreal : a.type = .real ∨ b.type = .real) :
    ∃ x y, M.toReal a = .real x ∧ M.toReal b = .real y ∧
      M.binary op a b = M.binary op (.real x) (.real y) := by
  cases a with
  | int n =>
    cases b with
    | int k => simp [Datum.type] at hreal
    | real y => exact ⟨_, _, rfl, rfl, by cases op <;> rfl⟩
    | _ => cases hb
  | real x =>
    cases b with
    | int k => exact ⟨_, _, rfl, rfl, by cases op <;> rfl⟩
    | real y => exact ⟨_, _, rfl, rfl, rfl⟩
    | _ => cases hb
  | _ => cases ha

/-! ### Variables and output -/

variable {d : Datum w R} {s : Storage} {x : Bytes} {ds : List (Cell w)} {fs : List R} {m : Memory w R}

/-- The name of a variable leaves its address. -/
private theorem runs_name (x : Bytes) (ds : List (Cell w)) (fs : List R) (m : Memory w R) :
    Runs M [powerDefinition] [.name x] ⟨ds, fs, m⟩ ⟨.address x :: ds, fs, m⟩ :=
  .instruction fun _ => rfl

/-- The value of a variable is fetched. -/
theorem runs_fetch (hs : d.type.storage? = some s) (hx : m.contents x = d.contents) :
    Runs M [powerDefinition] [.name x, .word (.fetch s)] ⟨ds, fs, m⟩
      ⟨d.cells ++ ds, d.floats ++ fs, m⟩ := by
  refine (runs_name x ds fs m).append (runs_word (by simp) ?_)
  cases d <;> cases hs <;>
    simp only [Datum.contents] at hx <;>
    simp [Forth.perform, Forth.fetch, hx, Datum.cells, Datum.floats]

/-- A value is stored into a variable of its type. -/
theorem runs_store {old : Datum w R} (hs : d.type.storage? = some s)
    (hx : m.contents x = old.contents) (hold : old.type = d.type) :
    Runs M [powerDefinition] [.name x, .word (.store s)] ⟨d.cells ++ ds, d.floats ++ fs, m⟩
      ⟨ds, fs, m.store x d.contents⟩ := by
  refine (runs_name x _ _ m).append (runs_word (by simp) ?_)
  cases d <;> cases hs <;> cases old <;> cases hold <;>
    simp only [Datum.contents] at hx <;>
    simp [Forth.perform, Forth.store, hx, Datum.cells, Datum.floats, Datum.contents]

/-- A value is doubled. -/
theorem runs_double (hs : d.type.storage? = some s) :
    Runs M [powerDefinition] [.word (.dup s)] ⟨d.cells ++ ds, d.floats ++ fs, m⟩
      ⟨d.cells ++ (d.cells ++ ds), d.floats ++ (d.floats ++ fs), m⟩ := by
  refine runs_word (by simp) ?_
  cases d <;> cases hs <;> rfl

/-- A value is printed. -/
theorem runs_print {v : Word} (hv : d.type.printWord? = some v) :
    Runs M [powerDefinition] [.word v] ⟨d.cells ++ ds, d.floats ++ fs, m⟩
      ⟨ds, fs, m.print d.shown⟩ := by
  cases d <;> cases hv <;> refine runs_word (by simp) ?_ <;>
    simp [Forth.perform, Datum.cells, Datum.floats, Datum.shown]

/-- A new variable holds what a new variable of its type holds. -/
theorem exists_fresh {τ : ValueType} (hs : τ.storage? = some s) :
    ∃ d, M.fresh τ = .ok d ∧ d.type = τ ∧ d.contents = Forth.fresh M s := by
  cases τ <;> cases hs <;> exact ⟨_, rfl, rfl, rfl⟩

/-- A definition makes room for a variable and leaves the stacks alone. -/
theorem runs_define :
    Runs M [powerDefinition] [.define s x] ⟨ds, fs, m⟩ ⟨ds, fs, m.store x (Forth.fresh M s)⟩ :=
  .instruction fun _ => rfl

/-! ### Control structures -/

variable {a b : Code} {st st' : State w R} {t : Bool}

/-- A choice takes the flag off the stack and runs its branch or nothing. -/
theorem runs_choose (h : Runs M [powerDefinition] (if t then a else []) ⟨ds, fs, m⟩ st') :
    Runs M [powerDefinition] [.choose a] ⟨.number (Forth.flag t) :: ds, fs, m⟩ st' := by
  refine .replaced (fun k => ?_) h
  rw [Forth.step, Forth.test_flag M.width_pos]
  cases t <;> rfl

/-- A choice of two branches takes the flag off the stack and runs one of them. -/
theorem runs_chooseElse (h : Runs M [powerDefinition] (if t then a else b) ⟨ds, fs, m⟩ st') :
    Runs M [powerDefinition] [.chooseElse a b] ⟨.number (Forth.flag t) :: ds, fs, m⟩ st' := by
  refine .replaced (fun k => ?_) h
  rw [Forth.step, Forth.test_flag M.width_pos]
  rfl

/-- A loop whose test leaves a truth value goes on as it says. -/
theorem runs_loop (ha : Runs M [powerDefinition] a st ⟨.number (Forth.flag t) :: ds, fs, m⟩)
    (hb : Runs M [powerDefinition] (if t then b ++ [.loop a b] else []) ⟨ds, fs, m⟩ st') :
    Runs M [powerDefinition] [.loop a b] st st' :=
  .replaced (c := a ++ [.choose (b ++ [.loop a b])]) (fun k => by simp [Forth.step])
    (ha.append (runs_choose hb))

end Words

end PrefixForth

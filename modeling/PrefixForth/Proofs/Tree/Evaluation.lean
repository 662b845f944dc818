import Mathlib.Logic.Function.Basic
import PrefixForth.Proofs.Operations
import PrefixForth.Proofs.Token.Spelling

/-!
# Evaluating trees

What a program does by itself, without any code: the parts of a tree are evaluated from left to right
and the whole after them. A run holds the contents of the variables and what has been printed.

* Operators do their operation at the types of their operands; an integer beside a real is converted.
* An assignment stores a value and yields it as it was stored: a real variable converts an integer.
* `let` gives its names fresh contents, `if` takes one branch, `while` repeats its body as long as its
  condition is true, `stdout` prints.

Loops need not end, so evaluation is given a depth that it may reach (`Node.evaluate`). It stops early
if that is not enough, if arithmetic is refused, or if it meets a value of a wrong type. Where it ends,
the outcome does not depend on the depth (`Program.evaluate_mono`).
-/

namespace PrefixForth

/-! ### Values and runs -/

/-- A value of a tree. -/
inductive Datum (w : Nat) (R : Type) where
  | int (n : BitVec w)
  | real (r : R)
  | bool (b : Bool)
  | string (s : Bytes)
  deriving DecidableEq, Repr

/-- Why an evaluation stops early. -/
inductive Stop where
  /-- The depth is not enough. -/
  | depth
  /-- Arithmetic is refused. -/
  | arithmetic
  /-- A value is missing or of a wrong type. -/
  | type
  deriving DecidableEq, Repr

/-- What evaluation has brought about so far. -/
structure Run (w : Nat) (R : Type) where
  contents : Bytes → Datum w R
  printed : List (Datum w R)

/-- A computation that changes a run and may stop early. -/
def Evaluation (w : Nat) (R α : Type) : Type :=
  Run w R → Except Stop (α × Run w R)

variable {w : Nat} {R α β : Type}

namespace Evaluation

instance : Monad (Evaluation w R) where
  pure a := fun σ => .ok (a, σ)
  bind m f := fun σ =>
    match m σ with
    | .ok (a, σ') => f a σ'
    | .error stop => .error stop

/-- The computation that stops. -/
def stop (reason : Stop) : Evaluation w R α :=
  fun _ => .error reason

/-- The computation with a known outcome. -/
def ofExcept (result : Except Stop α) : Evaluation w R α :=
  fun σ => result.map (·, σ)

/-- The contents of a variable. -/
def fetch (x : Bytes) : Evaluation w R (Datum w R) :=
  fun σ => .ok (σ.contents x, σ)

/-- Changes the contents of a variable. -/
def store (x : Bytes) (d : Datum w R) : Evaluation w R Unit :=
  fun σ => .ok ((), { σ with contents := Function.update σ.contents x d })

/-- Prints a value. -/
def print (d : Datum w R) : Evaluation w R Unit :=
  fun σ => .ok ((), { σ with printed := σ.printed ++ [d] })

/-- The value of a computation that has to have one. -/
def taken (m : Evaluation w R (Option (Datum w R))) : Evaluation w R (Datum w R) := do
  match ← m with
  | some d => pure d
  | none => stop .type

/-- Goes on as a truth value says. -/
def branch (onTrue onFalse : Evaluation w R α) : Datum w R → Evaluation w R α
  | .bool b => if b then onTrue else onFalse
  | _ => stop .type

/-- The computations of some trees, one after the other, without their values. -/
def each (f : α → Evaluation w R β) : List α → Evaluation w R Unit
  | [] => pure ()
  | a :: as => do
    let _ ← f a
    each f as

/-! ### What computations lead to -/

/-- The result is as `Q` says, unless there is none. A value of a wrong type is no reason for that. -/
def Settles (result : Except Stop α) (Q : α → Prop) : Prop :=
  match result with
  | .ok a => Q a
  | .error reason => reason ≠ .type

/-- A weaker condition is settled as well. -/
theorem Settles.mono {result : Except Stop α} {Q Q' : α → Prop} (h : Settles result Q)
    (hQ : ∀ a, Q a → Q' a) : Settles result Q' := by
  unfold Settles at h ⊢
  split at h
  · exact hQ _ h
  · exact h

/-- From the run `σ` the computation ends as `Q` says, unless it stops; it does not stop for a value of
a wrong type. -/
def Yields (m : Evaluation w R α) (σ : Run w R) (Q : α → Run w R → Prop) : Prop :=
  Settles (m σ) fun result => Q result.1 result.2

variable {m : Evaluation w R α} {f : α → Evaluation w R β} {σ σ' : Run w R} {P P' : α → Run w R → Prop}
  {Q : β → Run w R → Prop}

/-- What evaluation yields holds of the result that it has. -/
theorem Yields.of_eq_ok {a : α} (h : m.Yields σ P) (hm : m σ = .ok (a, σ')) : P a σ' := by
  rwa [Yields, hm] at h

/-- What yields a result does not stop for a type error. -/
theorem Yields.ne_type (h : m.Yields σ P) : m σ ≠ .error .type := by
  intro hm
  rw [Yields, hm] at h
  exact h rfl

/-- A weaker condition is yielded as well. -/
theorem Yields.mono (h : m.Yields σ P) (hP : ∀ a σ', P a σ' → P' a σ') : m.Yields σ P' :=
  Settles.mono h fun result => hP result.1 result.2

theorem yields_pure {a : α} (h : P a σ) : (pure a : Evaluation w R α).Yields σ P := h

/-- Steps that yield, one after the other. -/
theorem Yields.bind (h : m.Yields σ P) (hf : ∀ a σ', P a σ' → (f a).Yields σ' Q) :
    (m >>= f).Yields σ Q := by
  have hbind : (m >>= f) σ = match m σ with
    | .ok (a, σ') => f a σ'
    | .error reason => .error reason := rfl
  unfold Yields at h ⊢
  rw [hbind]
  rcases hm : m σ with reason | ⟨a, σ'⟩ <;> rw [hm] at h
  · exact h
  · exact hf a σ' h

theorem Yields.map {g : α → β} (h : m.Yields σ fun a σ' => Q (g a) σ') : (g <$> m).Yields σ Q :=
  h.bind fun _ _ => yields_pure

/-- A stop for another reason than a type error yields everything. -/
theorem yields_stop {reason : Stop} (h : reason ≠ .type) : (stop reason).Yields σ P := h

/-- A variable yields its contents. -/
theorem yields_fetch {x : Bytes} {P : Datum w R → Run w R → Prop} (h : P (σ.contents x) σ) :
    (fetch x).Yields σ P := h

/-- A computation that is known to succeed. -/
theorem Yields.after {a : α} (hm : m σ = .ok (a, σ')) (h : (f a).Yields σ' Q) :
    (m >>= f).Yields σ Q :=
  Yields.bind (P := fun b τ => b = a ∧ τ = σ') (by rw [Yields, hm]; exact ⟨rfl, rfl⟩)
    fun _ _ hb => by rwa [hb.1, hb.2]

/-- An operation yields what its result settles. -/
theorem yields_ofExcept {result : Except Stop α} (h : Settles result fun a => P a σ) :
    (ofExcept result).Yields σ P := by
  cases result <;> exact h

/-- A truth value decides. -/
theorem yields_branch {onTrue onFalse : Evaluation w R α} {b : Bool}
    (h : (if b then onTrue else onFalse).Yields σ P) : (branch onTrue onFalse (.bool b)).Yields σ P := h

/-- A value that is there is taken. -/
theorem Yields.taken {m : Evaluation w R (Option (Datum w R))} {P : Datum w R → Run w R → Prop}
    (h : m.Yields σ fun d σ' => ∃ a, d = some a ∧ P a σ') : (taken m).Yields σ P := by
  refine Yields.bind h ?_
  rintro _ σ' ⟨a, rfl, ha⟩
  exact yields_pure ha

end Evaluation

open Evaluation

/-! ### Operators -/

namespace Datum

/-- The type of a value. -/
def type : Datum w R → ValueType
  | int _ => .int
  | real _ => .real
  | bool _ => .bool
  | string _ => .string

end Datum

namespace Operations

variable (M : Operations w R)

/-- The outcome of arithmetic, if it is not refused. -/
def outcome (f : α → Datum w R) : Option α → Except Stop (Datum w R)
  | some a => .ok (f a)
  | none => .error .arithmetic

/-- Arithmetic on two values. Adding strings puts them together. -/
def arithmetic (op : Arithmetic) : Datum w R → Datum w R → Except Stop (Datum w R)
  | .int a, .int b => outcome .int (M.intArithmetic op a b)
  | .int a, .real b => outcome .real (M.real op (M.ofInt a) b)
  | .real a, .int b => outcome .real (M.real op a (M.ofInt b))
  | .real a, .real b => outcome .real (M.real op a b)
  | .string a, .string b => if op = .add then .ok (.string (a ++ b)) else .error .type
  | _, _ => .error .type

/-- Comparison of two values. Truth values are only compared for equality. -/
def comparison (op : Comparison) : Datum w R → Datum w R → Except Stop (Datum w R)
  | .int a, .int b => .ok (.bool (op.ofInts a b))
  | .int a, .real b => .ok (.bool (M.realCompare op (M.ofInt a) b))
  | .real a, .int b => .ok (.bool (M.realCompare op a (M.ofInt b)))
  | .real a, .real b => .ok (.bool (M.realCompare op a b))
  | .bool a, .bool b =>
    match op with
    | .eq => .ok (.bool (a = b))
    | .ne => .ok (.bool (a ≠ b))
    | _ => .error .type
  | _, _ => .error .type

/-- What an operator makes of two values. -/
def binary : BinaryOperator → Datum w R → Datum w R → Except Stop (Datum w R)
  | .arithmetic op, a, b => M.arithmetic op a b
  | .comparison op, a, b => M.comparison op a b
  | .connective op, .bool a, .bool b => .ok (.bool (op.apply a b))
  | .connective _, _, _ => .error .type

/-- What an operator makes of one value. -/
def unary : UnaryOperator → Datum w R → Except Stop (Datum w R)
  | .not, .bool a => .ok (.bool !a)
  | .negate, .int a => .ok (.int (M.negate a))
  | .negate, .real a => .ok (.real (M.realNegate a))
  | .trigonometric op, .int a => .ok (.real (M.trigonometric op (M.ofInt a)))
  | .trigonometric op, .real a => .ok (.real (M.trigonometric op a))
  | _, _ => .error .type

/-- The value as a variable with the given contents stores it. -/
def stored (contents d : Datum w R) : Except Stop (Datum w R) :=
  match contents, d with
  | .real _, .int n => .ok (.real (M.ofInt n))
  | _, _ => if contents.type = d.type then .ok d else .error .type

/-- The contents of a new variable. -/
def fresh : ValueType → Except Stop (Datum w R)
  | .int => .ok (.int 0)
  | .real => .ok (.real (M.scientific 0 0))
  | .bool => .ok (.bool false)
  | .string => .ok (.string [])
  | _ => .error .type

/-! ### Trees -/

/-- The value of a token that stands by itself. -/
def leaf (t : Token) : Evaluation w R (Datum w R) :=
  match t.kind with
  | .intLiteral => pure (.int (.ofNat w (decimalValue t.text)))
  | .realLiteral => pure (.real (M.ofNumeral t.text))
  | .stringLiteral => pure (.string (M.ofQuoted t.text.tail.dropLast))
  | .boolLiteral => pure (.bool (t.text = utf8 "true"))
  | .identifier => fetch t.text
  | _ => stop .type

/-- Stores a value and yields it as it is stored. -/
def assign (x : Bytes) (e : Evaluation w R (Datum w R)) : Evaluation w R (Datum w R) := do
  let d ← e
  let contents ← fetch x
  let d ← ofExcept (M.stored contents d)
  store x d
  pure d

/-- Gives a name of a `let` fresh contents. -/
def declare (binding : Node) : Evaluation w R Unit :=
  match binding.children with
  | [x, type] =>
    match ValueType.ofKeyword? type.token.text with
    | some τ => do
      let d ← ofExcept (M.fresh τ)
      store x.token.text d
    | none => stop .type
  | _ => stop .type

end Operations

/-- The value of a tree, if it has one. -/
def Node.evaluate (M : Operations w R) : Nat → Node → Evaluation w R (Option (Datum w R))
  | 0, _ => stop .depth
  | _ + 1, .mk t [] => some <$> M.leaf t
  | depth + 1, .mk t (c :: cs) =>
    match t.kind, cs with
    | .assignment, [e] => some <$> M.assign c.token.text (taken (e.evaluate M depth))
    | .binaryOperator, [r] =>
      match BinaryOperator.ofSpelling? t.text with
      | some op => some <$> do
        let a ← taken (c.evaluate M depth)
        let b ← taken (r.evaluate M depth)
        ofExcept (M.binary op a b)
      | none => stop .type
    | .unaryOperator, [] =>
      match UnaryOperator.ofSpelling? t.text with
      | some op => some <$> do
        let a ← taken (c.evaluate M depth)
        ofExcept (M.unary op a)
      | none => stop .type
    | .statement, cs =>
      match Statement.ofKeyword? t.text, cs with
      | some .declare, cs => do
        each M.declare (c :: cs)
        pure none
      | some .print, [] => do
        let d ← taken (c.evaluate M depth)
        print d
        pure none
      | some .choose, [onTrue] =>
        taken (c.evaluate M depth) >>= branch (onTrue.evaluate M depth >>= fun _ => pure none) (pure none)
      | some .choose, [onTrue, onFalse] =>
        taken (c.evaluate M depth) >>= branch (onTrue.evaluate M depth) (onFalse.evaluate M depth)
      | some .loop, body =>
        taken (c.evaluate M depth) >>= branch
          (do
            each (Node.evaluate M depth) body
            Node.evaluate M depth (.mk t (c :: cs)))
          (pure none)
      | _, _ => stop .type
    | _, _ => stop .type

section Shapes

variable {M : Operations w R} {depth : Nat} {head : Token}

-- This makes the equations of `Node.evaluate` once, before the proofs below all ask for them.
attribute [local simp] Node.evaluate

/-- An assignment stores the value of its operand. -/
theorem evaluate_assignment {x : Token} {e : Node} (hk : head.kind = .assignment) :
    (Node.mk head [.leaf x, e]).evaluate M (depth + 1) =
      some <$> M.assign x.text (taken (e.evaluate M depth)) := by
  conv => lhs; unfold Node.evaluate
  simp only [hk]
  rfl

/-- A binary operator is applied to the values of its operands, from left to right. -/
theorem evaluate_binary {l r : Node} {op : BinaryOperator} (hk : head.kind = .binaryOperator)
    (hop : BinaryOperator.ofSpelling? head.text = some op) :
    (Node.mk head [l, r]).evaluate M (depth + 1) = some <$> (do
      let a ← taken (l.evaluate M depth)
      let b ← taken (r.evaluate M depth)
      ofExcept (M.binary op a b)) := by
  conv => lhs; unfold Node.evaluate
  simp only [hk, hop]

/-- A unary operator is applied to the value of its operand. -/
theorem evaluate_unary {e : Node} {op : UnaryOperator} (hk : head.kind = .unaryOperator)
    (hop : UnaryOperator.ofSpelling? head.text = some op) :
    (Node.mk head [e]).evaluate M (depth + 1) = some <$> (do
      let a ← taken (e.evaluate M depth)
      ofExcept (M.unary op a)) := by
  conv => lhs; unfold Node.evaluate
  simp only [hk, hop]

/-- A declaration declares its names one after the other and has no value. -/
theorem evaluate_declaration {b : Node} {bs : List Node} (hk : head.kind = .statement)
    (htext : head.text = Statement.declare.keyword) :
    (Node.mk head (b :: bs)).evaluate M (depth + 1) =
      each M.declare (b :: bs) >>= fun _ => pure none := by
  conv => lhs; unfold Node.evaluate
  simp only [hk, htext, Statement.ofKeyword?_keyword]

/-- A print statement prints the value of its operand and has no value. -/
theorem evaluate_print {e : Node} (hk : head.kind = .statement)
    (htext : head.text = Statement.print.keyword) :
    (Node.mk head [e]).evaluate M (depth + 1) = (do
      let d ← taken (e.evaluate M depth)
      print d
      pure none) := by
  conv => lhs; unfold Node.evaluate
  simp only [hk, htext, Statement.ofKeyword?_keyword]

/-- A choice of one branch takes it or does nothing, and has no value either way. -/
theorem evaluate_choose {e a : Node} (hk : head.kind = .statement)
    (htext : head.text = Statement.choose.keyword) :
    (Node.mk head [e, a]).evaluate M (depth + 1) =
      taken (e.evaluate M depth) >>=
        branch (a.evaluate M depth >>= fun _ => pure none) (pure none) := by
  conv => lhs; unfold Node.evaluate
  simp only [hk, htext, Statement.ofKeyword?_keyword]

/-- A choice of two branches takes one of them and has its value. -/
theorem evaluate_chooseElse {e a b : Node} (hk : head.kind = .statement)
    (htext : head.text = Statement.choose.keyword) :
    (Node.mk head [e, a, b]).evaluate M (depth + 1) =
      taken (e.evaluate M depth) >>= branch (a.evaluate M depth) (b.evaluate M depth) := by
  conv => lhs; unfold Node.evaluate
  simp only [hk, htext, Statement.ofKeyword?_keyword]

/-- A loop evaluates its test and, where that is true, its body and then itself, one level less deep.
-/
theorem evaluate_loop {e : Node} {ns : List Node} (hk : head.kind = .statement)
    (htext : head.text = Statement.loop.keyword) :
    (Node.mk head (e :: ns)).evaluate M (depth + 1) =
      taken (e.evaluate M depth) >>= branch
        (each (Node.evaluate M depth) ns >>= fun _ => (Node.mk head (e :: ns)).evaluate M depth)
        (pure none) := by
  conv => lhs; unfold Node.evaluate
  simp only [hk, htext, Statement.ofKeyword?_keyword]

end Shapes

/-- Evaluates the trees of a program, one after the other. -/
def Program.evaluate (M : Operations w R) (depth : Nat) (p : Program) : Evaluation w R Unit :=
  each (Node.evaluate M depth) p

/-! ### Depth -/

namespace Evaluation

/-- What the first computation ends with, the second ends with too. -/
def Approximates (m m' : Evaluation w R α) : Prop :=
  ∀ σ r, m σ = .ok r → m' σ = .ok r

namespace Approximates

variable {m m' : Evaluation w R α} {f f' : α → Evaluation w R β}

theorem refl (m : Evaluation w R α) : m.Approximates m := fun _ _ h => h

/-- Stopping approximates everything. -/
theorem stop (reason : Stop) (m : Evaluation w R α) : (stop reason).Approximates m :=
  fun _ _ h => nomatch h

/-- Steps that approximate others approximate them one after the other. -/
theorem bind (hm : m.Approximates m') (hf : ∀ a, (f a).Approximates (f' a)) :
    (m >>= f).Approximates (m' >>= f') := by
  intro σ r h
  simp only [Bind.bind] at h ⊢
  rcases ha : m σ with reason | ⟨a, σ'⟩ <;> rw [ha] at h
  · cases h
  · rw [hm σ _ ha]
    exact hf a σ' r h

theorem map (g : α → β) (hm : m.Approximates m') : (g <$> m).Approximates (g <$> m') :=
  hm.bind fun a => refl (pure (g a))

theorem taken {m m' : Evaluation w R (Option (Datum w R))} (hm : m.Approximates m') :
    (taken m).Approximates (taken m') :=
  hm.bind fun _ => refl _

/-- Branches that approximate others approximate them whatever is chosen. -/
theorem branch {n n' : Evaluation w R α} (hm : m.Approximates m') (hn : n.Approximates n')
    (d : Datum w R) : (branch m n d).Approximates (branch m' n' d) := by
  cases d with
  | bool b =>
    cases b with
    | false => exact hn
    | true => exact hm
  | _ => exact stop .type _

/-- A list is approximated item by item. -/
theorem each (hf : ∀ a, (f a).Approximates (f' a)) (as : List α) :
    (each f as).Approximates (each f' as) := by
  induction as with
  | nil => exact refl _
  | cons a as ih => exact (hf a).bind fun _ => ih

end Approximates

end Evaluation

variable {M : Operations w R}

/-- To evaluate a tree deeper changes no outcome. -/
theorem Node.evaluate_approximates (depth : Nat) (n : Node) :
    (n.evaluate M depth).Approximates (n.evaluate M (depth + 1)) := by
  induction depth generalizing n with
  | zero =>
    rw [Node.evaluate]
    exact .stop .depth _
  | succ depth ih =>
    have htaken := fun n => (ih n).taken
    rcases n with ⟨t, _ | ⟨c, cs⟩⟩
    · exact .refl _
    -- Both sides have the same shape, and their parts are covered by the hypothesis.
    unfold Node.evaluate
    split
    · exact ((htaken _).bind fun _ => .refl _).map _
    · split
      · exact ((htaken _).bind fun _ => (htaken _).bind fun _ => .refl _).map _
      · exact .refl _
    · split
      · exact ((htaken _).bind fun _ => .refl _).map _
      · exact .refl _
    · split
      · exact .refl _
      · exact (htaken c).bind fun _ => .refl _
      · exact (htaken c).bind (.branch ((ih _).bind fun _ => .refl _) (.refl _))
      · exact (htaken c).bind (.branch (ih _) (ih _))
      · exact (htaken c).bind (.branch ((Approximates.each ih _).bind fun _ => ih _) (.refl _))
      · exact .refl _
    · exact .refl _

/-- A depth that is enough can be exceeded: the outcome does not depend on it. -/
theorem Program.evaluate_mono {p : Program} {depth depth' : Nat} (h : depth ≤ depth') :
    (p.evaluate M depth).Approximates (p.evaluate M depth') := by
  induction h with
  | refl => exact .refl _
  | step _ ih =>
    intro σ r hr
    exact Approximates.each (Node.evaluate_approximates _) p σ r (ih σ r hr)

end PrefixForth

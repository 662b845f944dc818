import PrefixForth.Fault.Parsing
import PrefixForth.Tree

/-!
# Open forms

Forms are read one token at a time. While a form is being read it is *open*: its parenthesis has
been read and its closing one has not. A `FormState` holds the forms read so far, what the innermost
open form waits for (its `Focus`), and the forms around it. Only operands can be forms themselves, so
every form around the innermost one waits for an operand.

The head of a form decides about its parts:

* `:=` takes an identifier and one operand;
* a binary operator takes two operands, a unary operator one;
* `-` takes one operand or two, which makes it a unary or a binary operator;
* `let` takes one or more pairs `(identifier type)`;
* `while` takes two operands or more, `if` two or three, `stdout` one.

An operand is a form, a literal, an identifier, or a minus sign before an operand.

`FormState.step` takes one token. The end of the text is a token of its own kind; after a complete
form it ends the reading, anywhere else it is a fault.
-/

namespace PrefixForth

/-- How many operands a head takes. -/
structure Arity where
  least : Nat
  /-- The largest number, if there is one. -/
  most : Option Nat
  deriving DecidableEq, Repr

/-- Exactly `n` operands. -/
def Arity.exactly (n : Nat) : Arity :=
  ⟨n, some n⟩

/-- An open form that collects its operands. -/
structure Operands where
  /-- The opening parenthesis. -/
  paren : Token
  head : Token
  arity : Arity
  /-- The parts read so far, in order. -/
  done : List Node
  /-- The minus signs that stand before the operand to come, the last one first. -/
  signs : List Token := []
  deriving Repr

namespace Operands

/-- The operand with the minus signs before it, as negations. -/
def signed (signs : List Token) (n : Node) : Node :=
  signs.foldl (fun m sign => .mk { sign with kind := .unaryOperator } [m]) n

/-- The form after one more operand. -/
def add (o : Operands) (n : Node) : Operands :=
  { o with done := o.done ++ [signed o.signs n], signs := [] }

/-- The form may be closed here, as far as the number of operands is known to its head. -/
def isEnough (o : Operands) : Bool :=
  o.signs.isEmpty && o.arity.least ≤ o.done.length

/-- The form must be closed here. -/
def isFull (o : Operands) : Bool :=
  o.signs.isEmpty && o.arity.most == some o.done.length

/-- The tree of the form once it is closed. A minus sign becomes a unary or a binary operator; with
another number of operands it has no tree. -/
def close? (o : Operands) : Option Node :=
  if o.head.kind = .minus then
    match o.done with
    | [_] => some (.mk { o.head with kind := .unaryOperator } o.done)
    | [_, _] => some (.mk { o.head with kind := .binaryOperator } o.done)
    | _ => none
  else
    some (.mk o.head o.done)

end Operands

/-- What the innermost open form waits for. -/
inductive Focus where
  /-- No form is open. -/
  | top
  /-- The head of a form. -/
  | head (paren : Token)
  /-- The identifier after `:=`. -/
  | target (paren head : Token)
  /-- An operand, or the end of the form. -/
  | operands (o : Operands)
  /-- A declaration of a `let`, or the end of the form. -/
  | bindings (paren head : Token) (done : List Node)
  /-- The name of a declaration, which `inner` opens. -/
  | bindingName (paren head : Token) (done : List Node) (inner : Token)
  /-- The type of a declaration. -/
  | bindingType (paren head : Token) (done : List Node) (inner name : Token)
  /-- The end of a declaration. -/
  | bindingEnd (paren head : Token) (done : List Node) (inner name type : Token)
  deriving Repr

/-- The positions of the parentheses that the innermost form has opened, the last one first. -/
def Focus.opened : Focus → List Position
  | top => []
  | head paren => [paren.position]
  | target paren _ => [paren.position]
  | operands o => [o.paren.position]
  | bindings paren _ _ => [paren.position]
  | bindingName paren _ _ inner => [inner.position, paren.position]
  | bindingType paren _ _ inner _ => [inner.position, paren.position]
  | bindingEnd paren _ _ inner _ _ => [inner.position, paren.position]

/-- What has been read of a sequence of forms. -/
structure FormState where
  /-- The complete forms, in order. -/
  forms : Program := []
  focus : Focus := .top
  /-- The open forms around the innermost one, the nearest first. -/
  around : List Operands := []
  /-- Parentheses left open by an earlier reading that failed, the last one first. -/
  stale : List Position := []
  deriving Repr

/-- What a token does to a sequence of forms. -/
inductive FormStep where
  /-- The token is taken. -/
  | next (s : FormState)
  /-- The sequence is complete. -/
  | done (p : Program)
  /-- The token does not fit; it is taken or left. -/
  | fault (fault : ParsingFault) (position : Position) (taken : Bool)
  deriving Repr

namespace FormState

/-- The positions of all open parentheses, the last one first. -/
def opened (s : FormState) : List Position :=
  s.focus.opened ++ s.around.map (·.paren.position) ++ s.stale

/-- The state after the innermost form is complete: it is an operand of the form around it, or a
top-level form. -/
def complete (s : FormState) (n : Node) : FormState :=
  match s.around with
  | [] => { s with forms := s.forms ++ [n], focus := .top }
  | o :: os => { s with focus := .operands (o.add n), around := os }

/-- The fault that a parenthesis is missing: it names the last open one, if there is one. -/
def mismatch (s : FormState) (found : Token) (taken : Bool) : FormStep :=
  match s.opened with
  | p :: _ => .fault (.notClosed p found) found.position taken
  | [] => .fault (.notOpened found) found.position taken

/-- The state while the parts of a form with the given head are read. -/
def openHead (s : FormState) (paren head : Token) : FormStep :=
  let collect (arity : Arity) : FormStep :=
    .next { s with focus := .operands ⟨paren, head, arity, [], []⟩ }
  match head.kind with
  | .assignment => .next { s with focus := .target paren head }
  | .binaryOperator => collect (.exactly 2)
  | .unaryOperator => collect (.exactly 1)
  | .minus => collect ⟨0, none⟩
  | .statement =>
    match Statement.ofKeyword? head.text with
    | some .declare => .next { s with focus := .bindings paren head [] }
    | some .loop => collect ⟨2, none⟩
    | some .choose => collect ⟨2, some 3⟩
    | some .print => collect (.exactly 1)
    | none => .fault (.unknownStatement head.text) head.position true
  | .endOfInput => s.mismatch head true
  | .closeParen => .fault .emptyForm head.position true
  | _ => .fault (.badHead head) head.position true

/-- The token is taken as the start of an operand of `o`. -/
def openOperand (s : FormState) (o : Operands) (t : Token) : FormStep :=
  if t.kind.isOperand then
    .next { s with focus := .operands (o.add (.leaf t)) }
  else
    match t.kind with
    | .openParen => .next { s with focus := .head t, around := o :: s.around }
    | .minus => .next { s with focus := .operands { o with signs := t :: o.signs } }
    | .endOfInput => s.mismatch t true
    | .closeParen => .fault .missingOperand t.position false
    | _ => .fault (.badOperand t) t.position true

/-- The end of the innermost form, which has all its parts: the token has to be its parenthesis. -/
def closeWith (s : FormState) (n : Node) (t : Token) : FormStep :=
  if t.kind = .closeParen then .next (s.complete n) else s.mismatch t true

/-- Takes one token. -/
def step (s : FormState) (t : Token) : FormStep :=
  match s.focus with
  | .top =>
    match t.kind with
    | .openParen => .next { s with focus := .head t }
    | .endOfInput => .done s.forms
    | .closeParen => s.mismatch t false
    | _ => .fault (.notTopLevel t) t.position true
  | .head paren => s.openHead paren t
  | .target paren head =>
    if t.kind = .identifier then
      .next { s with focus := .operands ⟨paren, head, .exactly 2, [.leaf t], []⟩ }
    else
      .fault (.badTarget t) t.position true
  | .operands o =>
    if o.isFull ∨ (o.isEnough ∧ (t.kind = .closeParen ∨ t.kind = .endOfInput)) then
      match o.close? with
      | some n => s.closeWith n t
      | none => .fault (.minusOperands o.done.length) o.head.position false
    else
      s.openOperand o t
  | .bindings paren head done =>
    match t.kind with
    | .openParen => .next { s with focus := .bindingName paren head done t }
    | .closeParen | .endOfInput =>
      if done.isEmpty then
        .fault .noBindings head.position false
      else
        s.closeWith (.mk head done) t
    | _ => .fault (.badBinding t) t.position true
  | .bindingName paren head done inner =>
    if t.kind = .identifier then
      .next { s with focus := .bindingType paren head done inner t }
    else
      .fault (.badBindingName t) t.position true
  | .bindingType paren head done inner name =>
    if t.kind = .typeKeyword then
      .next { s with focus := .bindingEnd paren head done inner name t }
    else
      .fault (.badBindingType name.text t) t.position true
  | .bindingEnd paren head done inner name type =>
    if t.kind = .closeParen then
      let binding : Node := .mk inner [.leaf name, .leaf type]
      .next { s with focus := .bindings paren head (done ++ [binding]) }
    else
      s.mismatch t true

end FormState

end PrefixForth

import PrefixForth.Forth.Code
import PrefixForth.SymbolTable
import PrefixForth.Tree

/-!
# Generating code

Trees become Forth code. Parts come before the whole and from left to right, so that the symbol table
sees declarations, assignments and reads in the order of the text. Each part yields a `Value`: its
type and the code that leaves a value of that type on a stack.

An assignment leaves its value only where the form around it takes one (`consumed`); it duplicates
the value then. The branches of a choice inherit this from the choice, the body of a loop is never
consumed.

A fault ends the generation; the symbol table keeps what happened up to there.
-/

namespace PrefixForth

/-- Code and the type of the value that it leaves. -/
structure Value where
  type : ValueType
  code : Code
  deriving Repr

/-- The code for a value as a real: an integer is converted. Something stands before the conversion
even if it has no text. -/
def Value.realCode (v : Value) : Code :=
  if v.type = .int then
    (if v.code.isEmpty then [.int []] else v.code) ++ [.word .intToFloat]
  else
    v.code

/-! ### Computations on a symbol table -/

/-- A computation that changes the symbol table and may fail. -/
def Generation (α : Type) : Type :=
  SymbolTable → Except SemanticFault α × SymbolTable

namespace Generation

instance : Monad Generation where
  pure a := fun t => (.ok a, t)
  bind m f := fun t =>
    match m t with
    | (.ok a, t') => f a t'
    | (.error fault, t') => (.error fault, t')

/-- The computation that fails. -/
def fail {α : Type} (fault : SemanticFault) : Generation α :=
  fun t => (.error fault, t)

/-- The computation with a known outcome. -/
def ofExcept {α : Type} (result : Except SemanticFault α) : Generation α :=
  fun t => (result, t)

/-- The entry of a name as it stands. -/
def entry (name : Bytes) : Generation Entry :=
  fun t => (.ok (t.entry name), t)

/-- Declares a name. -/
def declare (name : Bytes) (type : ValueType) : Generation Entry :=
  fun t => t.declare name type

/-- Marks a name as assigned. -/
def assign (name : Bytes) : Generation Entry :=
  fun t => t.assign name

/-- Reads a name. -/
def read (name : Bytes) : Generation Entry :=
  fun t => t.read name

end Generation

/-! ### Leaves -/

/-- A real numeral with an exponent mark, by which Forth knows reals. -/
def realNumeral (s : Bytes) : Bytes :=
  if (101 : UInt8) ∈ s ∨ (69 : UInt8) ∈ s then s else s ++ utf8 "e"

/-- What stands between the quotes of a string literal. -/
def stringBody (s : Bytes) : Bytes :=
  dropTrailing quoteMark (dropLeading quoteMark s)

/-- The word that fetches a variable of a type, if there is one. -/
def fetchCode (type : ValueType) : Code :=
  type.storage?.toList.map fun s => .word (.fetch s)

/-- The word that stores into a variable of a type, if there is one. -/
def storeCode (type : ValueType) : Code :=
  type.storage?.toList.map fun s => .word (.store s)

/-- The word that doubles a value of a type, if there is one. -/
def dupCode (type : ValueType) : Code :=
  type.storage?.toList.map fun s => .word (.dup s)

/-- The value of a token that stands by itself. -/
def leafValue (t : Token) : Generation Value :=
  match t.kind with
  | .intLiteral => pure ⟨.int, [.int t.text]⟩
  | .realLiteral => pure ⟨.real, [.real (realNumeral t.text)]⟩
  | .stringLiteral => pure ⟨.string, [.string (stringBody t.text)]⟩
  | .boolLiteral => pure ⟨.bool, [.flag t.text]⟩
  | .identifier => do
    let e ← Generation.read t.text
    pure ⟨e.type, .join [[.name t.text], fetchCode e.type]⟩
  | _ => .fail (.notValue t)

/-! ### Operators -/

/-- The operator yields a truth value. -/
def isPredicate (op : Bytes) : Bool :=
  match BinaryOperator.ofSpelling? op with
  | some (.comparison _) | some (.connective _) => true
  | some (.arithmetic _) => false
  | none => op = utf8 "not"

/-- The type of an operator's value, if the operator is no predicate. -/
def resultType (op : Bytes) (type : ValueType) : ValueType :=
  if isPredicate op then .bool else type

/-- The operator applies to truth values only. -/
def isConnective (op : Bytes) : Bool :=
  match BinaryOperator.ofSpelling? op with
  | some (.connective _) => true
  | _ => false

/-- The word for an operator on integers, if there is one. -/
def intOperatorCode (op : Bytes) : Code :=
  match BinaryOperator.ofSpelling? op with
  | some (.arithmetic a) => [.word (.int a)]
  | some (.comparison c) => [.word (.intCompare c)]
  | _ => []

/-- The word for an operator on reals, if there is one. -/
def realOperatorCode (op : Bytes) : Code :=
  match BinaryOperator.ofSpelling? op with
  | some (.arithmetic a) => [.word (.float a)]
  | some (.comparison c) => [.word (.floatCompare c)]
  | _ => []

/-- The word for an operator on truth values, if there is one. -/
def boolOperator? (op : Bytes) : Option Word :=
  match BinaryOperator.ofSpelling? op with
  | some (.connective k) => some (.logic k)
  | some (.comparison .eq) => some (.intCompare .eq)
  | some (.comparison .ne) => some (.intCompare .ne)
  | _ => none

/-- The type of the operand that is no string, if there is one. -/
def nonString (left right : ValueType) : ValueType :=
  if left ≠ .string then left else right

/-- The value of an operator with two operands. Strings are looked at before truth values, truth
values before reals, and reals before integers. -/
def binaryValue (op : Bytes) (l r : Value) : Except SemanticFault Value :=
  if !l.type.hasValue || !r.type.hasValue then
    .error (.statementOperand op)
  else if l.type = .string ∨ r.type = .string then
    if op ≠ utf8 "+" then
      .error (.stringOperator op)
    else if l.type ≠ r.type then
      .error (.stringWith (nonString l.type r.type))
    else
      .ok ⟨.string, .join [l.code, r.code, [.word .concat]]⟩
  else if isConnective op ∨ l.type = .bool ∨ r.type = .bool then
    match boolOperator? op with
    | some w =>
      if l.type = .bool ∧ r.type = .bool then
        .ok ⟨.bool, .join [l.code, r.code, [.word w]]⟩
      else
        .error (.binaryTypes op l.type r.type)
    | none => .error (.binaryTypes op l.type r.type)
  else if l.type = .real ∨ r.type = .real then
    .ok ⟨resultType op .real, .join [l.realCode, r.realCode, realOperatorCode op]⟩
  else
    .ok ⟨resultType op .int, .join [l.code, r.code, intOperatorCode op]⟩

/-- The value of an operator with one operand. -/
def unaryValue (op : Bytes) (v : Value) : Except SemanticFault Value :=
  if !v.type.hasValue then
    .error (.statementOperand op)
  else
    match UnaryOperator.ofSpelling? op with
    | some .not =>
      if v.type = .bool then
        .ok ⟨.bool, .join [v.code, [.word .invert]]⟩
      else
        .error (.negatedType v.type)
    | some .negate =>
      match v.type with
      | .int => .ok ⟨.int, .join [v.code, [.word .negate]]⟩
      | .real => .ok ⟨.real, .join [v.code, [.word .floatNegate]]⟩
      | _ => .error (.unaryType op v.type)
    | some (.trigonometric f) =>
      if v.type.isNumeric then
        .ok ⟨.real, .join [v.realCode, [.word (.trigonometric f)]]⟩
      else
        .error (.unaryType op v.type)
    | none => .error (.unaryType op v.type)

/-! ### Assignments and statements -/

/-- The value of an assignment to a name. -/
def assignValue (name : Bytes) (v : Value) (consumed : Bool) : Generation Value := do
  if !v.type.hasValue then
    .fail (.assignedStatement name)
  else
    let e ← Generation.entry name
    if e.isDeclared ∧ e.type ≠ v.type ∧ ¬(e.type = .real ∧ v.type = .int) then
      .fail (.assignedType v.type name e.type)
    else
      let e ← Generation.assign name
      let code := if e.type = .real then v.realCode else v.code
      let doubled := if consumed then .join [code, dupCode e.type] else code
      pure ⟨e.type, .join [doubled, [.name name], storeCode e.type]⟩

/-- The code that declares the names of a `let`. -/
def declareCode : List Node → Generation Code
  | [] => pure []
  | binding :: bindings =>
    match binding.children with
    | x :: type :: _ =>
      match ValueType.ofKeyword? type.token.text with
      | some t => do
        let e ← Generation.declare x.token.text t
        let rest ← declareCode bindings
        pure (e.type.storage?.toList.map (fun s => .define s e.name) ++ rest)
      | none => .fail (.notType type.token.text)
    | _ => .fail (.noMeaning binding.token)

/-- The value of a statement with the given parts. -/
def statementValue (head : Token) (args : List Value) : Except SemanticFault Value :=
  match Statement.ofKeyword? head.text, args with
  | some .print, v :: _ =>
    match v.type.printWord? with
    | some w => .ok ⟨.void, .join [v.code, [.word w]]⟩
    | none => .error .printedStatement
  | some .choose, [test, onTrue] =>
    if test.type = .bool then
      .ok ⟨.void, .join [test.code, [.choose onTrue.code]]⟩
    else
      .error (.condition .choose test.code.text)
  | some .choose, test :: onTrue :: onFalse :: _ =>
    if test.type = .bool then
      let type := if onTrue.type = onFalse.type then onTrue.type else .void
      .ok ⟨type, .join [test.code, [.chooseElse onTrue.code onFalse.code]]⟩
    else
      .error (.condition .choose test.code.text)
  | some .loop, test :: body =>
    if test.type = .bool then
      .ok ⟨.void, [.loop test.code (Code.join (body.map Value.code))]⟩
    else
      .error (.condition .loop test.code.text)
  | some .declare, _ | none, _ => .error (.unknownStatement head.text)
  | _, _ => .error (.noMeaning head)

/-- The value of a form, other than an assignment or a `let`, with the given parts. -/
def formValue (head : Token) (args : List Value) : Except SemanticFault Value :=
  match head.kind, args with
  | .binaryOperator, l :: r :: _ => binaryValue head.text l r
  | .unaryOperator, v :: _ => unaryValue head.text v
  | .statement, args => statementValue head args
  | _, _ => .error (.noMeaning head)

/-- The form takes the value of its part number `i`; `consumed` says if its own value is taken. -/
def consumesPart (head : Token) (i : Nat) (consumed : Bool) : Bool :=
  if head.kind = .statement then
    match Statement.ofKeyword? head.text with
    | some .choose => i = 0 || consumed
    | some .loop => i = 0
    | _ => true
  else
    true

/-! ### Trees -/

mutual

/-- The value of a tree; `consumed` says if the form around it takes the value. -/
def Node.value (consumed : Bool) : Node → Generation Value
  | .mk t [] => leafValue t
  | .mk t (c :: cs) =>
    if t.kind = .assignment then
      match cs with
      | operand :: _ => do
        let v ← operand.value true
        assignValue c.token.text v consumed
      | [] => .fail (.noMeaning t)
    else if t.kind = .statement ∧ t.text = Statement.declare.keyword then do
      let code ← declareCode (c :: cs)
      pure ⟨.void, code⟩
    else do
      let args ← Node.values t consumed 0 (c :: cs)
      .ofExcept (formValue t args)

/-- The values of the parts of a form, the first of them being part number `i`. -/
def Node.values (head : Token) (consumed : Bool) (i : Nat) : List Node → Generation (List Value)
  | [] => pure []
  | c :: cs => do
    let v ← c.value (consumesPart head i consumed)
    let vs ← Node.values head consumed (i + 1) cs
    pure (v :: vs)

end

/-- The code of the top-level forms, each with a new line of output after it. -/
def Program.code : Program → Generation (List Code)
  | [] => pure []
  | n :: ns => do
    let v ← n.value false
    let rest ← Program.code ns
    pure (.join [v.code, [.word .newLine]] :: rest)

/-- The target text: the preamble and a line for each form. Without forms there is no text. -/
def targetText (lines : List Code) : Bytes :=
  if lines.isEmpty then
    []
  else
    preamble ++ [lineFeed].intercalate (lines.map Code.text)

/-- The target text of a program. -/
def generate (p : Program) : Generation Bytes := do
  let lines ← Program.code p
  pure (targetText lines)

end PrefixForth

import PrefixForth.Proofs.Forth.Emission

/-!
# Generation never goes wrong

The generator is total: where a form lacks a part it reports a fault, where a table has no word it
writes none, and it has faults for trees that stand for nothing. None of this may happen to a parsed
program. `checkedGenerate` is the generator that insists: it takes the parts of a form and the words
of a table by look-ups that have to succeed, and has no answer at all where one does not or where a
tree stands for nothing.

Main statement: for a parsed program the checked generator has an answer, and it is that of the
generator, whatever earlier programs have left in the symbol table (`generation_never_goes_wrong`).
Behind it is the shape of parsed trees: every node has the parts that its token asks for.
-/

namespace PrefixForth

open Grammar

/-! ### Computations that may go wrong -/

/-- A computation on a symbol table that may fail with a fault, or go wrong and have no answer. -/
def Checked (α : Type) : Type :=
  SymbolTable → Option (Except SemanticFault α × SymbolTable)

namespace Checked

variable {α β : Type}

instance : Monad Checked where
  pure a := fun t => some (.ok a, t)
  bind m f := fun t =>
    match m t with
    | some (.ok a, t') => f a t'
    | some (.error fault, t') => some (.error fault, t')
    | none => none

/-- The computation that goes wrong. -/
def wrong : Checked α :=
  fun _ => none

/-- What has to be there. -/
def need (found : Option α) : Checked α :=
  fun t => found.map fun a => (.ok a, t)

/-- A generation that does not go wrong. -/
def lift (m : Generation α) : Checked α :=
  fun t => some (m t)

end Checked

open Checked

/-! ### The checked generator -/

/-- The word for an operator on integers. -/
def intOperator? (op : Bytes) : Option Word :=
  match BinaryOperator.ofSpelling? op with
  | some (.arithmetic a) => some (.int a)
  | some (.comparison c) => some (.intCompare c)
  | _ => none

/-- The word for an operator on reals. -/
def realOperator? (op : Bytes) : Option Word :=
  match BinaryOperator.ofSpelling? op with
  | some (.arithmetic a) => some (.float a)
  | some (.comparison c) => some (.floatCompare c)
  | _ => none

/-- The value of a token that stands by itself: a literal, or a name with a word that fetches it. -/
def checkedLeaf (t : Token) : Checked Value :=
  match t.kind with
  | .intLiteral => pure ⟨.int, [.int t.text]⟩
  | .realLiteral => pure ⟨.real, [.real (realNumeral t.text)]⟩
  | .stringLiteral => pure ⟨.string, [.string (stringBody t.text)]⟩
  | .boolLiteral => pure ⟨.bool, [.flag t.text]⟩
  | .identifier => do
    let e ← lift (Generation.read t.text)
    let s ← need e.type.storage?
    pure ⟨e.type, .join [[.name t.text], [.word (.fetch s)]]⟩
  | _ => wrong

/-- The value of an operator with two operands. Numbers need a word of the operator. -/
def checkedBinary (op : Bytes) (l r : Value) : Checked Value :=
  if !l.type.hasValue || !r.type.hasValue then
    lift (.fail (.statementOperand op))
  else if l.type = .string ∨ r.type = .string then
    if op ≠ utf8 "+" then
      lift (.fail (.stringOperator op))
    else if l.type ≠ r.type then
      lift (.fail (.stringWith (nonString l.type r.type)))
    else
      pure ⟨.string, .join [l.code, r.code, [.word .concat]]⟩
  else if isConnective op ∨ l.type = .bool ∨ r.type = .bool then
    match boolOperator? op with
    | some w =>
      if l.type = .bool ∧ r.type = .bool then
        pure ⟨.bool, .join [l.code, r.code, [.word w]]⟩
      else
        lift (.fail (.binaryTypes op l.type r.type))
    | none => lift (.fail (.binaryTypes op l.type r.type))
  else if l.type = .real ∨ r.type = .real then do
    let w ← need (realOperator? op)
    pure ⟨resultType op .real, .join [l.realCode, r.realCode, [.word w]]⟩
  else do
    let w ← need (intOperator? op)
    pure ⟨resultType op .int, .join [l.code, r.code, [.word w]]⟩

/-- The value of an operator with one operand, which has to be one of those of the language. -/
def checkedUnary (op : Bytes) (v : Value) : Checked Value :=
  if !v.type.hasValue then
    lift (.fail (.statementOperand op))
  else do
    match ← need (UnaryOperator.ofSpelling? op) with
    | .not =>
      if v.type = .bool then
        pure ⟨.bool, .join [v.code, [.word .invert]]⟩
      else
        lift (.fail (.negatedType v.type))
    | .negate =>
      match v.type with
      | .int => pure ⟨.int, .join [v.code, [.word .negate]]⟩
      | .real => pure ⟨.real, .join [v.code, [.word .floatNegate]]⟩
      | _ => lift (.fail (.unaryType op v.type))
    | .trigonometric f =>
      if v.type.isNumeric then
        pure ⟨.real, .join [v.realCode, [.word (.trigonometric f)]]⟩
      else
        lift (.fail (.unaryType op v.type))

/-- The value of an assignment. The variable needs words that double and store its value. -/
def checkedAssign (name : Bytes) (v : Value) (consumed : Bool) : Checked Value := do
  if !v.type.hasValue then
    lift (.fail (.assignedStatement name))
  else
    let e ← lift (Generation.entry name)
    if e.isDeclared ∧ e.type ≠ v.type ∧ ¬(e.type = .real ∧ v.type = .int) then
      lift (.fail (.assignedType v.type name e.type))
    else
      let e ← lift (Generation.assign name)
      let s ← need e.type.storage?
      let code := if e.type = .real then v.realCode else v.code
      let doubled := if consumed then .join [code, [.word (.dup s)]] else code
      pure ⟨e.type, .join [doubled, [.name name], [.word (.store s)]]⟩

/-- The code that declares the names of a `let`. Each declaration needs a name, a keyword of a type,
and a word that defines such a variable. -/
def checkedDeclare : List Node → Checked Code
  | [] => pure []
  | binding :: bindings => do
    let x ← need binding.children[0]?
    let keyword ← need binding.children[1]?
    let t ← need (ValueType.ofKeyword? keyword.token.text)
    let e ← lift (Generation.declare x.token.text t)
    let s ← need e.type.storage?
    let rest ← checkedDeclare bindings
    pure (.define s e.name :: rest)

/-- The value of a statement, from the parts that it needs. -/
def checkedStatement (head : Token) (args : List Value) : Checked Value :=
  match Statement.ofKeyword? head.text with
  | some .print => do
    let v ← need args[0]?
    match v.type.printWord? with
    | some w => pure ⟨.void, .join [v.code, [.word w]]⟩
    | none => lift (.fail .printedStatement)
  | some .choose => do
    let test ← need args[0]?
    let onTrue ← need args[1]?
    if test.type ≠ .bool then
      lift (.fail (.condition .choose test.code.text))
    else if args.length = 2 then
      pure ⟨.void, .join [test.code, [.choose onTrue.code]]⟩
    else
      let onFalse ← need args[2]?
      let type := if onTrue.type = onFalse.type then onTrue.type else .void
      pure ⟨type, .join [test.code, [.chooseElse onTrue.code onFalse.code]]⟩
  | some .loop => do
    let test ← need args[0]?
    if test.type = .bool then
      pure ⟨.void, [.loop test.code (Code.join (args.tail.map Value.code))]⟩
    else
      lift (.fail (.condition .loop test.code.text))
  | some .declare | none => wrong

/-- The value of a form, other than an assignment or a `let`, from the parts that it needs. -/
def checkedForm (head : Token) (args : List Value) : Checked Value :=
  match head.kind with
  | .binaryOperator => do
    let l ← need args[0]?
    let r ← need args[1]?
    checkedBinary head.text l r
  | .unaryOperator => do
    let v ← need args[0]?
    checkedUnary head.text v
  | .statement => checkedStatement head args
  | _ => wrong

mutual

/-- The value of a tree in which nothing is missing. -/
def Node.checkedValue (consumed : Bool) : Node → Checked Value
  | .mk t [] => checkedLeaf t
  | .mk t (c :: cs) =>
    if t.kind = .assignment then
      match cs with
      | operand :: _ => do
        let v ← operand.checkedValue true
        checkedAssign c.token.text v consumed
      | [] => wrong
    else if t.kind = .statement ∧ t.text = Statement.declare.keyword then do
      let code ← checkedDeclare (c :: cs)
      pure ⟨.void, code⟩
    else do
      let args ← Node.checkedValues t consumed 0 (c :: cs)
      checkedForm t args

/-- The values of the parts of a form. -/
def Node.checkedValues (head : Token) (consumed : Bool) (i : Nat) :
    List Node → Checked (List Value)
  | [] => pure []
  | c :: cs => do
    let v ← c.checkedValue (consumesPart head i consumed)
    let vs ← Node.checkedValues head consumed (i + 1) cs
    pure (v :: vs)

end

/-- The code of the top-level forms. -/
def Program.checkedCode : Program → Checked (List Code)
  | [] => pure []
  | n :: ns => do
    let v ← n.checkedValue false
    let rest ← Program.checkedCode ns
    pure (.join [v.code, [.word .newLine]] :: rest)

/-- The target text of a program in which nothing is missing. -/
def checkedGenerate (p : Program) : Checked Bytes := do
  let lines ← Program.checkedCode p
  pure (targetText lines)

/-! ### Agreement with the generator -/

namespace Checked

variable {α β : Type} {m : Checked α} {g : Generation α} {f : α → Checked β} {h : α → Generation β}

/-- In a sound table the checked computation has the answer of the other one, which leaves a sound
table. -/
structure Answers (m : Checked α) (g : Generation α) : Prop where
  agrees : ∀ t : SymbolTable, t.Sound → m t = some (g t)
  sound : ∀ t : SymbolTable, t.Sound → (g t).2.Sound

theorem Answers.pure (a : α) : Answers (pure a) (pure a) :=
  ⟨fun _ _ => rfl, fun _ ht => ht⟩

/-- A generation that goes on as it is answers as itself. -/
private theorem Answers.lift (hg : Generation.Respects (fun t t' => t.Sound → t'.Sound) g) :
    Answers (lift g) g :=
  ⟨fun _ _ => rfl, hg⟩

theorem Answers.fail (fault : SemanticFault) :
    Answers (Checked.lift (.fail fault : Generation α)) (.fail fault) :=
  .lift fun _ ht => ht

/-- One computation after another: what the first one gives may be used for the second one. -/
theorem Answers.bind (hm : Answers m g)
    (hf : ∀ t a t', t.Sound → g t = (.ok a, t') → Answers (f a) (h a)) :
    Answers (m >>= f) (g >>= h) := by
  constructor
  · intro t ht
    have hagrees := hm.agrees t ht
    have hsound := hm.sound t ht
    rcases hg : g t with ⟨fault | a, t'⟩ <;> rw [hg] at hagrees hsound
    · rw [Generation.bind_of_error hg]
      simp only [Bind.bind, hagrees]
    · rw [Generation.bind_of_ok hg, ← (hf t a t' ht hg).agrees t' hsound]
      simp only [Bind.bind, hagrees]
  · intro t ht
    have hsound := hm.sound t ht
    rcases hg : g t with ⟨fault | a, t'⟩ <;> rw [hg] at hsound
    · rw [Generation.bind_of_error hg]
      exact hsound
    · rw [Generation.bind_of_ok hg]
      exact (hf t a t' ht hg).sound t' hsound

/-- A check that finds what it needs is no check. -/
@[simp]
theorem need_bind (a : α) : (need (some a) >>= f) = f a := rfl

end Checked

/-- A name that is read has a type that variables can have. -/
theorem exists_storage_of_read {t t' : SymbolTable} {x : Bytes} {e : Entry} (ht : t.Sound)
    (h : Generation.read x t = (.ok e, t')) : ∃ s, e.type.storage? = some s := by
  obtain ⟨τ, hscope⟩ := SymbolTable.scope_of_read h
  rw [Generation.read, SymbolTable.read_of_scope hscope] at h
  cases h
  exact Option.isSome_iff_exists.mp (ht.storage?_isSome hscope)

/-- A name that is assigned has a type that variables can have. -/
theorem exists_storage_of_assign {t t' : SymbolTable} {x : Bytes} {e : Entry} (ht : t.Sound)
    (h : Generation.assign x t = (.ok e, t')) : ∃ s, e.type.storage? = some s := by
  obtain ⟨τ, a, hscope⟩ := SymbolTable.scope_of_assign h
  rw [Generation.assign, SymbolTable.assign_of_scope hscope] at h
  cases h
  exact Option.isSome_iff_exists.mp (ht.storage?_isSome hscope)

/-- A name that is declared by a keyword has a type that variables can have. -/
theorem exists_storage_of_declare {t t' : SymbolTable} {x keyword : Bytes} {τ : ValueType}
    {e : Entry} (ht : t.Sound) (hτ : ValueType.ofKeyword? keyword = some τ)
    (h : Generation.declare x τ t = (.ok e, t')) : ∃ s, e.type.storage? = some s := by
  have hstorable := ValueType.storage?_isSome_of_ofKeyword? hτ
  rw [Generation.declare, SymbolTable.declare_of_scope ht (SymbolTable.scope_of_declare h)
    (ValueType.hasValue_of_storable hstorable)] at h
  cases h
  exact Option.isSome_iff_exists.mp hstorable

section Answers

/-- An operand of one token goes wrong nowhere. -/
private theorem answers_leaf {tok : Token} (hk : tok.kind.isOperand = true) :
    Answers (checkedLeaf tok) (leafValue tok) := by
  by_cases hidentifier : tok.kind = .identifier
  · rw [checkedLeaf, leafValue, hidentifier]
    refine Answers.bind (.lift fun t => SymbolTable.admits_sound.read t tok.text) ?_
    intro t e t' ht hread
    obtain ⟨s, hs⟩ := exists_storage_of_read ht hread
    rw [fetchCode, hs]
    exact .pure _
  · rw [checkedLeaf, leafValue]
    cases hkind : tok.kind <;> simp_all [TokenKind.isOperand, TokenKind.isLiteral] <;> exact .pure _

/-- An operator that is no connective has words for numbers. -/
theorem exists_operator {s : Bytes} {op : BinaryOperator}
    (hop : BinaryOperator.ofSpelling? s = some op) (hconnective : ¬isConnective s = true) :
    (∃ w, intOperator? s = some w ∧ intOperatorCode s = [.word w]) ∧
      ∃ w, realOperator? s = some w ∧ realOperatorCode s = [.word w] := by
  cases op with
  | arithmetic op => simp [intOperator?, intOperatorCode, realOperator?, realOperatorCode, hop]
  | comparison op => simp [intOperator?, intOperatorCode, realOperator?, realOperatorCode, hop]
  | connective op => simp [isConnective, hop] at hconnective

/-- A binary operator that is spelled right goes wrong nowhere, -/
private theorem answers_binary {s : Bytes} {op : BinaryOperator}
    (hop : BinaryOperator.ofSpelling? s = some op) (l r : Value) :
    Answers (checkedBinary s l r) (.ofExcept (binaryValue s l r)) := by
  rw [checkedBinary, binaryValue]
  split
  · exact .fail _
  split
  · split
    · exact .fail _
    split
    · exact .fail _
    · exact .pure _
  split
  · cases boolOperator? s with
    | none => exact .fail _
    | some w =>
      simp only
      split
      · exact .pure _
      · exact .fail _
  -- numbers: the operator has a word for them
  rename_i hbool
  simp only [not_or] at hbool
  obtain ⟨⟨w, hw, hcode⟩, u, hu, hcode'⟩ := exists_operator hop hbool.1
  split
  · rw [hu, hcode']
    exact .pure _
  · rw [hw, hcode]
    exact .pure _

/-- nor does a unary one. -/
private theorem answers_unary {s : Bytes} {op : UnaryOperator}
    (hop : UnaryOperator.ofSpelling? s = some op) (v : Value) :
    Answers (checkedUnary s v) (.ofExcept (unaryValue s v)) := by
  rw [checkedUnary, unaryValue]
  split
  · exact .fail _
  rw [hop, need_bind]
  cases op with
  | not =>
    simp only
    split
    · exact .pure _
    · exact .fail _
  | negate =>
    cases v.type <;> first | exact .pure _ | exact .fail _
  | trigonometric f =>
    simp only
    split
    · exact .pure _
    · exact .fail _

/-- An assignment goes wrong nowhere. -/
private theorem answers_assign (x : Bytes) (v : Value) (consumed : Bool) :
    Answers (checkedAssign x v consumed) (assignValue x v consumed) := by
  rw [checkedAssign, assignValue]
  split
  · exact .fail _
  refine Answers.bind (.lift fun t ht => ht) ?_
  intro t e t' ht _
  split
  · exact .fail _
  refine Answers.bind (.lift fun t => SymbolTable.admits_sound.assign t x) ?_
  intro t₁ e t₂ ht₁ hassign
  obtain ⟨s, hs⟩ := exists_storage_of_assign ht₁ hassign
  rw [dupCode, storeCode, hs]
  exact .pure _

/-- Declarations of the right form go wrong nowhere. -/
private theorem answers_declare {bs : List Node} (hbs : ∀ b ∈ bs, b.IsBinding) :
    Answers (checkedDeclare bs) (declareCode bs) := by
  induction bs with
  | nil => exact .pure _
  | cons b bs ih =>
    rw [List.forall_mem_cons] at hbs
    obtain ⟨paren, x, type, rfl, -, -, -, -, τ, hτ⟩ := hbs.1
    have hchecked : checkedDeclare (.mk paren [.leaf x, .leaf type] :: bs) =
        (Checked.lift (Generation.declare x.text τ) >>= fun e => need e.type.storage? >>= fun s =>
          checkedDeclare bs >>= fun rest => pure (.define s e.name :: rest)) := by
      rw [checkedDeclare]
      simp only [Node.children, Node.leaf, Node.token, List.getElem?_cons_zero,
        List.getElem?_cons_succ, need_bind, hτ]
    have hdeclare : declareCode (.mk paren [.leaf x, .leaf type] :: bs) =
        (Generation.declare x.text τ >>= fun e => declareCode bs >>= fun rest =>
          pure (e.type.storage?.toList.map (fun s => .define s e.name) ++ rest)) := by
      rw [declareCode]
      simp only [Node.children, Node.leaf, Node.token, hτ]
    rw [hchecked, hdeclare]
    refine Answers.bind (.lift fun t => SymbolTable.admits_sound.declare t x.text
      (ValueType.storage?_isSome_of_ofKeyword? hτ)) ?_
    intro t e t' ht he
    obtain ⟨s, hs⟩ := exists_storage_of_declare ht hτ he
    rw [hs, need_bind]
    exact (ih hbs.2).bind fun _ rest _ _ _ => .pure _

/-- The parts of a form have as many values as there are parts. -/
theorem length_values {head : Token} {c : Bool} {i : Nat} {ns : List Node} {vs : List Value}
    {t t' : SymbolTable} (h : Node.values head c i ns t = (.ok vs, t')) :
    vs.length = ns.length := by
  induction ns generalizing i vs t with
  | nil =>
    obtain ⟨rfl, -⟩ := values_nil_iff.mp h
    rfl
  | cons n ns ih =>
    obtain ⟨v, t₁, us, -, hus, rfl⟩ := values_cons_iff.mp h
    rw [List.length_cons, List.length_cons, ih hus]

/-- The tree has what the generator needs, in every sound table. -/
def Node.Complete (n : Node) : Prop :=
  ∀ c, Answers (n.checkedValue c) (n.value c)

/-- Complete operands go wrong nowhere. -/
private theorem answers_values {head : Token} {c : Bool} {i : Nat} {ns : List Node}
    (hns : ∀ n ∈ ns, n.Complete) :
    Answers (Node.checkedValues head c i ns) (Node.values head c i ns) := by
  induction ns generalizing i with
  | nil =>
    rw [Node.checkedValues, Node.values]
    exact .pure _
  | cons n ns ih =>
    rw [List.forall_mem_cons] at hns
    rw [Node.checkedValues, Node.values]
    refine Answers.bind (hns.1 _) ?_
    intro _ v _ _ _
    exact (ih hns.2).bind fun _ vs _ _ _ => .pure _

/-- A form is complete if its parts are and its head can do with their number. -/
theorem complete_form {head : Token} {ns : List Node} (hne : ns ≠ [])
    (hassign : head.kind ≠ .assignment)
    (hlet : ¬(head.kind = .statement ∧ head.text = Statement.declare.keyword))
    (hns : ∀ n ∈ ns, n.Complete)
    (hform : ∀ args : List Value, args.length = ns.length →
      Answers (checkedForm head args) (.ofExcept (formValue head args))) :
    (Node.mk head ns).Complete := by
  intro c
  obtain ⟨n, ns, rfl⟩ := List.exists_cons_of_ne_nil hne
  unfold Node.checkedValue Node.value
  rw [if_neg hassign, if_neg hlet, if_neg hassign, if_neg hlet]
  refine (answers_values hns).bind ?_
  intro _ args _ _ hargs
  exact hform args (length_values hargs)

/-- A choice with a branch or two has a value for each. -/
theorem answers_choose {head : Token} (hk : head.kind = .statement)
    (htext : head.text = Statement.choose.keyword) {args : List Value}
    (hlength : args.length = 2 ∨ args.length = 3) :
    Answers (checkedForm head args) (.ofExcept (formValue head args)) := by
  simp only [checkedForm, formValue, hk, checkedStatement, statementValue, htext,
    Statement.ofKeyword?_keyword]
  rcases hlength with h | h
  · obtain ⟨u, v, rfl⟩ := List.length_eq_two.mp h
    simp only [List.getElem?_cons_zero, List.getElem?_cons_succ, need_bind]
    by_cases hbool : u.type = .bool
    · rw [if_neg (not_not.mpr hbool), if_pos hbool, if_pos h]
      exact .pure _
    · rw [if_pos hbool, if_neg hbool]
      exact .fail _
  · obtain ⟨u, v, w, rfl⟩ := List.length_eq_three.mp h
    simp only [List.getElem?_cons_zero, List.getElem?_cons_succ, need_bind]
    by_cases hbool : u.type = .bool
    · rw [if_neg (not_not.mpr hbool), if_pos hbool, if_neg (by simp)]
      exact .pure _
    · rw [if_pos hbool, if_neg hbool]
      exact .fail _

/-- Nothing is missing in a well-formed tree. -/
theorem Node.WellFormed.complete {n : Node} (h : n.WellFormed) : n.Complete := by
  induction h with
  | @operand tok kind spelled =>
    intro c
    rw [Node.checkedValue, Node.value]
    exact answers_leaf kind
  | @assignment head x e kind target spelled value ih =>
    intro c
    unfold Node.checkedValue Node.value
    rw [if_pos kind, if_pos kind]
    exact (ih true).bind fun _ v _ _ _ => answers_assign _ v c
  | @binary head op l r kind spelling left right ihl ihr =>
    -- there are as many values as operands, so those that are asked for are there
    refine complete_form (by simp) (by simp [kind]) (by simp [kind]) (by simp [ihl, ihr]) ?_
    intro args hargs
    obtain ⟨u, v, rfl⟩ := List.length_eq_two.mp hargs
    simp only [checkedForm, formValue, kind]
    exact answers_binary spelling u v
  | @unary head op e kind spelling operand ih =>
    refine complete_form (by simp) (by simp [kind]) (by simp [kind]) (by simp [ih]) ?_
    intro args hargs
    obtain ⟨v, rfl⟩ := List.length_eq_one_iff.mp hargs
    simp only [checkedForm, formValue, kind]
    exact answers_unary spelling v
  | @declaration head bindings kind text nonempty each =>
    intro c
    obtain ⟨b, bs, rfl⟩ := List.exists_cons_of_ne_nil nonempty
    unfold Node.checkedValue Node.value
    rw [if_neg (by simp [kind]), if_pos ⟨kind, text⟩, if_neg (by simp [kind]), if_pos ⟨kind, text⟩]
    exact (answers_declare each).bind fun _ code _ _ _ => .pure _
  | @loop head test body kind text nonempty condition each ih ihs =>
    refine complete_form (by simp) (by simp [kind]) (by simp [text])
      (List.forall_mem_cons.mpr ⟨ih, ihs⟩) ?_
    intro args hargs
    obtain ⟨u, us, rfl⟩ := List.exists_cons_of_length_eq_add_one hargs
    simp only [checkedForm, formValue, kind, checkedStatement, statementValue, text,
      Statement.ofKeyword?_keyword, List.getElem?_cons_zero, need_bind]
    split
    · exact .pure _
    · exact .fail _
  | @choose head test onTrue kind text condition branch ih ih₁ =>
    refine complete_form (by simp) (by simp [kind]) (by simp [text]) (by simp [ih, ih₁]) ?_
    exact fun args hargs => answers_choose kind text (.inl hargs)
  | @chooseElse head test onTrue onFalse kind text condition branch otherwise ih ih₁ ih₂ =>
    refine complete_form (by simp) (by simp [kind]) (by simp [text]) (by simp [ih, ih₁, ih₂]) ?_
    exact fun args hargs => answers_choose kind text (.inr hargs)
  | @print head e kind text operand ih =>
    refine complete_form (by simp) (by simp [kind]) (by simp [text]) (by simp [ih]) ?_
    intro args hargs
    obtain ⟨v, rfl⟩ := List.length_eq_one_iff.mp hargs
    simp only [checkedForm, formValue, kind, checkedStatement, statementValue, text,
      Statement.ofKeyword?_keyword, List.getElem?_cons_zero, need_bind]
    cases v.type.printWord? with
    | none => exact .fail _
    | some w => exact .pure _

/-- A sequence of complete trees goes wrong nowhere. -/
private theorem answers_code {p : Program} (hp : ∀ n ∈ p, n.Complete) :
    Answers (Program.checkedCode p) (Program.code p) := by
  induction p with
  | nil => exact .pure _
  | cons n ns ih =>
    rw [List.forall_mem_cons] at hp
    refine Answers.bind (hp.1 false) ?_
    intro _ v _ _ _
    exact (ih hp.2).bind fun _ rest _ _ _ => .pure _

/-- Checked generation of a program of complete nodes answers as generation does. -/
theorem answers_generate {p : Program} (hp : ∀ n ∈ p, n.Complete) :
    Answers (checkedGenerate p) (generate p) :=
  (answers_code hp).bind fun _ _ _ _ _ => .pure _

end Answers

/-! ### Faults of the checked generator -/

/-- The faults of trees that no text yields. -/
def SemanticFault.isInternal : SemanticFault → Bool
  | notType _ | notValue _ | unknownStatement _ | noMeaning _ => true
  | _ => false

namespace Checked

variable {α β : Type} {m : Checked α} {f : α → Checked β}

/-- The computation fails with other faults only. -/
def Plain (m : Checked α) : Prop :=
  ∀ t fault t', m t = some (.error fault, t') → fault.isInternal = false

theorem Plain.pure (a : α) : Plain (pure a) := by
  intro t fault t' h
  cases h

theorem Plain.wrong : Plain (wrong : Checked α) := by
  intro t fault t' h
  cases h

/-- What has to be there may be missing, but no fault comes of that. -/
theorem Plain.need (found : Option α) : Plain (need found) := by
  intro t fault t' h
  cases found <;> cases h

/-- A fault that is not internal is a plain one. -/
theorem Plain.fail {fault : SemanticFault} (hfault : fault.isInternal = false) :
    Plain (lift (.fail fault) : Checked α) := by
  intro t fault' t' h
  cases h
  exact hfault

/-- An operation on the table fails as its entry does. -/
theorem Plain.update {x : Bytes} {op : Entry → Except SemanticFault Entry}
    (hop : ∀ e fault, op e = .error fault → fault.isInternal = false) :
    Plain (lift fun t => t.update x op) := by
  intro t fault t' h
  simp only [lift, SymbolTable.update] at h
  split at h
  · cases h
  · rename_i hfault
    cases h
    exact hop _ _ hfault

/-- Plain steps are plain together. -/
theorem Plain.bind (hm : Plain m) (hf : ∀ a, Plain (f a)) : Plain (m >>= f) := by
  intro t fault t' h
  rcases hmt : m t with _ | ⟨fault' | a, t₁⟩ <;> simp only [Bind.bind, hmt] at h
  · cases h
  · cases h
    exact hm t fault t' hmt
  · exact hf a t₁ fault t' h

end Checked

section Plain

/-- Reading a name has no internal fault, -/
private theorem plain_read (x : Bytes) : Plain (Checked.lift (Generation.read x)) := by
  refine Plain.update fun e fault h => ?_
  rw [Entry.read] at h
  split at h
  · cases h
    rfl
  · split at h
    · cases h
      rfl
    · cases h

/-- nor has assigning it, -/
private theorem plain_assignName (x : Bytes) : Plain (Checked.lift (Generation.assign x)) := by
  refine Plain.update fun e fault h => ?_
  rw [Entry.assign] at h
  split at h
  · cases h
  · cases h
    rfl

/-- nor has declaring it. -/
private theorem plain_declareName (x : Bytes) (τ : ValueType) :
    Plain (Checked.lift (Generation.declare x τ)) := by
  change Plain (Checked.lift fun t => t.update x fun e => e.declare τ)
  refine Plain.update fun e fault h => ?_
  rw [Entry.declare] at h
  split at h
  · cases h
    rfl
  · split at h
    · cases h
    · cases h
      rfl

private theorem plain_leaf (tok : Token) : Plain (checkedLeaf tok) := by
  rw [checkedLeaf]
  split
  case h_5 =>
    exact (plain_read tok.text).bind fun e => (Plain.need _).bind fun s => .pure _
  case h_6 => exact .wrong
  all_goals exact .pure _

private theorem plain_binary (op : Bytes) (l r : Value) : Plain (checkedBinary op l r) := by
  rw [checkedBinary]
  split
  · exact .fail rfl
  split
  · split
    · exact .fail rfl
    split
    · exact .fail rfl
    · exact .pure _
  split
  · split
    · split
      · exact .pure _
      · exact .fail rfl
    · exact .fail rfl
  split
  · exact (Plain.need _).bind fun w => .pure _
  · exact (Plain.need _).bind fun w => .pure _

private theorem plain_unary (op : Bytes) (v : Value) : Plain (checkedUnary op v) := by
  rw [checkedUnary]
  split
  · exact .fail rfl
  refine (Plain.need _).bind fun op => ?_
  cases op with
  | not =>
    simp only
    split
    · exact .pure _
    · exact .fail rfl
  | negate =>
    simp only
    split
    · exact .pure _
    · exact .pure _
    · exact .fail rfl
  | trigonometric f =>
    simp only
    split
    · exact .pure _
    · exact .fail rfl

private theorem plain_assign (x : Bytes) (v : Value) (consumed : Bool) :
    Plain (checkedAssign x v consumed) := by
  rw [checkedAssign]
  split
  · exact .fail rfl
  have hentry : Plain (Checked.lift (Generation.entry x)) := by
    intro t fault t' h
    cases h
  refine hentry.bind fun e => ?_
  split
  · exact .fail rfl
  · exact (plain_assignName x).bind fun e => (Plain.need _).bind fun s => .pure _

private theorem plain_declare (bs : List Node) : Plain (checkedDeclare bs) := by
  induction bs with
  | nil => exact .pure _
  | cons b bs ih =>
    rw [checkedDeclare]
    refine (Plain.need _).bind fun x => (Plain.need _).bind fun keyword =>
      (Plain.need _).bind fun τ => ?_
    refine (plain_declareName _ τ).bind fun e => (Plain.need _).bind fun s => ?_
    exact ih.bind fun rest => .pure _

/-- The faults of statements are about their types. -/
private theorem plain_statement (head : Token) (args : List Value) :
    Plain (checkedStatement head args) := by
  rw [checkedStatement]
  split
  · refine (Plain.need _).bind fun v => ?_
    split
    · exact .pure _
    · exact .fail rfl
  · refine (Plain.need _).bind fun test => (Plain.need _).bind fun onTrue => ?_
    split
    · exact .fail rfl
    · split
      · exact .pure _
      · exact (Plain.need _).bind fun onFalse => .pure _
  · refine (Plain.need _).bind fun test => ?_
    split
    · exact .pure _
    · exact .fail rfl
  · exact .wrong
  · exact .wrong

private theorem plain_form (head : Token) (args : List Value) : Plain (checkedForm head args) := by
  rw [checkedForm]
  split
  · exact (Plain.need _).bind fun l => (Plain.need _).bind fun r => plain_binary _ l r
  · exact (Plain.need _).bind fun v => plain_unary _ v
  · exact plain_statement head args
  · exact .wrong

mutual

/-- No node has an internal fault, -/
private theorem Node.plain_value (consumed : Bool) : ∀ n : Node, Plain (n.checkedValue consumed)
  | .mk t [] => by
    rw [Node.checkedValue]
    exact plain_leaf t
  | .mk t (c :: cs) => by
    unfold Node.checkedValue
    split
    · rcases cs with _ | ⟨operand, cs⟩
      · exact .wrong
      · exact (Node.plain_value true operand).bind fun v => plain_assign _ v _
    · split
      · exact (plain_declare _).bind fun code => .pure _
      · exact (Node.plain_values t consumed 0 (c :: cs)).bind fun args => plain_form t args

/-- and no list of operands has one. -/
private theorem Node.plain_values (head : Token) (consumed : Bool) (i : Nat) :
    ∀ ns : List Node, Plain (Node.checkedValues head consumed i ns)
  | [] => by
    rw [Node.checkedValues]
    exact .pure _
  | c :: cs => by
    rw [Node.checkedValues]
    refine (Node.plain_value _ c).bind fun v => ?_
    exact (Node.plain_values head consumed (i + 1) cs).bind fun vs => .pure _

end

private theorem Program.plain_code (p : Program) : Plain (Program.checkedCode p) := by
  induction p with
  | nil => exact .pure _
  | cons n ns ih => exact (Node.plain_value false n).bind fun v => ih.bind fun rest => .pure _

/-- So no program has an internal fault. -/
private theorem plain_generate (p : Program) : Plain (checkedGenerate p) :=
  (Program.plain_code p).bind fun _ => .pure _

end Plain

/-- A program of well-formed trees has an answer, and not a fault of trees that no text yields. -/
theorem isInternal_of_generate {p : Program} (hp : ∀ n ∈ p, n.WellFormed) {t t' : SymbolTable}
    (ht : t.Sound) {fault : SemanticFault} (h : generate p t = (.error fault, t')) :
    fault.isInternal = false := by
  have hanswer := (answers_generate fun n hn => (hp n hn).complete).agrees t ht
  rw [h] at hanswer
  exact plain_generate p t fault t' hanswer

/-! ### The parts of parsed trees -/

namespace Node

/-- The node computes something: it is neither a declaration of one name nor a type. -/
def isOperand (n : Node) : Bool :=
  n.token.kind ≠ .openParen && n.token.kind ≠ .typeKeyword

/-- The node has the parts that its token asks for, in number and in kind. -/
def HasItsParts : Node → Prop
  | .mk t cs =>
    match t.kind with
    | .intLiteral | .realLiteral | .stringLiteral | .boolLiteral | .identifier | .typeKeyword =>
      cs = []
    | .openParen => ∃ x type : Token, cs = [.leaf x, .leaf type] ∧ x.kind = .identifier ∧
        type.kind = .typeKeyword
    | .assignment => ∃ (x : Token) (e : Node), cs = [.leaf x, e] ∧ x.kind = .identifier ∧
        e.isOperand
    | .binaryOperator => cs.length = 2 ∧ ∀ c ∈ cs, c.isOperand
    | .unaryOperator => cs.length = 1 ∧ ∀ c ∈ cs, c.isOperand
    | .statement =>
      match Statement.ofKeyword? t.text with
      | some .declare => cs ≠ [] ∧ ∀ c ∈ cs, c.token.kind = .openParen
      | some .loop => 2 ≤ cs.length ∧ ∀ c ∈ cs, c.isOperand
      | some .choose => (cs.length = 2 ∨ cs.length = 3) ∧ ∀ c ∈ cs, c.isOperand
      | some .print => cs.length = 1 ∧ ∀ c ∈ cs, c.isOperand
      | none => False
    | _ => False

/-- A well-formed node stands for an operand. -/
theorem WellFormed.isOperand {n : Node} (h : n.WellFormed) : n.isOperand = true := by
  cases h with
  | @operand t kind spelled =>
    cases hk : t.kind <;> simp_all [Node.isOperand, token, TokenKind.isOperand, TokenKind.isLiteral]
  | assignment kind => simp [Node.isOperand, token, kind]
  | binary kind => simp [Node.isOperand, token, kind]
  | unary kind => simp [Node.isOperand, token, kind]
  | declaration kind => simp [Node.isOperand, token, kind]
  | loop kind => simp [Node.isOperand, token, kind]
  | choose kind => simp [Node.isOperand, token, kind]
  | chooseElse kind => simp [Node.isOperand, token, kind]
  | print kind => simp [Node.isOperand, token, kind]

/-- A well-formed node has as many parts as its head asks for. -/
private theorem WellFormed.hasItsParts {n : Node} (h : n.WellFormed) : n.HasItsParts := by
  cases h with
  | @operand t kind spelled =>
    cases hk : t.kind <;> simp_all [HasItsParts, TokenKind.isOperand, TokenKind.isLiteral]
  | @assignment head x e kind target spelled value =>
    simp only [HasItsParts, kind]
    exact ⟨x, e, rfl, target, value.isOperand⟩
  | binary kind spelling left right =>
    simp [HasItsParts, kind, left.isOperand, right.isOperand]
  | unary kind spelling operand => simp [HasItsParts, kind, operand.isOperand]
  | declaration kind text nonempty each =>
    simp only [HasItsParts, kind, text, Statement.ofKeyword?_keyword]
    refine ⟨nonempty, fun b hb => ?_⟩
    obtain ⟨paren, x, type, rfl, hparen, -⟩ := each b hb
    exact hparen
  | @loop head test body kind text nonempty condition each =>
    simp only [HasItsParts, kind, text, Statement.ofKeyword?_keyword]
    have hpos : 0 < body.length := List.length_pos_iff.mpr nonempty
    exact ⟨by simp only [List.length_cons]; omega,
      List.forall_mem_cons.mpr ⟨condition.isOperand, fun m hm => (each m hm).isOperand⟩⟩
  | choose kind text condition branch =>
    simp [HasItsParts, kind, text, condition.isOperand, branch.isOperand]
  | chooseElse kind text condition branch otherwise =>
    simp [HasItsParts, kind, text, condition.isOperand, branch.isOperand, otherwise.isOperand]
  | print kind text operand => simp [HasItsParts, kind, text, operand.isOperand]

private theorem IsPart.hasItsParts {n : Node} (h : n.IsPart) : n.HasItsParts := by
  cases h with
  | tree h => exact h.hasItsParts
  | binding h =>
    obtain ⟨paren, x, type, rfl, hparen, hx, -, htype, -⟩ := h
    simp only [HasItsParts, hparen]
    exact ⟨x, type, rfl, hx, htype⟩
  | type h kind =>
    subst h
    simp [HasItsParts, kind]

/-- A node with its parts is no minus sign. -/
theorem HasItsParts.kind_ne_minus {n : Node} (h : n.HasItsParts) : n.token.kind ≠ .minus := by
  obtain ⟨t, cs⟩ := n
  intro hk
  simp only [token] at hk
  simp [HasItsParts, hk] at h

end Node

/-- **Generation never goes wrong on a parsed program**, whatever earlier programs have left in the
table. Every part of a form and every word that is looked up is there, so that the checked generator
has the answer of the generator; a fault is none of those for trees that stand for nothing; and
every node of the program has the parts that its token asks for, none being a minus sign without a
number of operands. -/
theorem generation_never_goes_wrong {s : Bytes} {p : Program} (hp : parse s = .ok p)
    {t : SymbolTable} (ht : t.Reachable) :
    checkedGenerate p t = some (generate p t) ∧
    (∀ fault t', generate p t = (.error fault, t') → fault.isInternal = false) ∧
    ∀ n ∈ preorderAll p, n.token.kind ≠ .minus ∧ n.HasItsParts := by
  have hwf : ∀ n ∈ p, n.WellFormed := fun n hn => wellFormed_of_parse hp hn
  refine ⟨?_, fun fault t' h => isInternal_of_generate hwf ht.sound h, fun n hn => ?_⟩
  · exact (answers_generate fun n hn => (hwf n hn).complete).agrees t ht.sound
  · have hparts := (isPart_of_parse hp hn).hasItsParts
    exact ⟨hparts.kind_ne_minus, hparts⟩

/-- A program after one that failed: it assigns and reads a variable that the failed one declared.
-/
theorem generation_never_goes_wrong_after_fault :
    ∃ p₀ p, parse (utf8 "(let (x real)) (:= y 1)") = .ok p₀ ∧
      (generate p₀ .empty).1 = .error (.assignedUnbound (utf8 "y")) ∧
      parse (utf8 "(stdout (:= x (- 2 - 3))) (while (> x 1) (if (< x 9.5) (:= x (sin x))))") = .ok p ∧
      checkedGenerate p (generate p₀ .empty).2 = some (generate p (generate p₀ .empty).2) ∧
      (generate p (generate p₀ .empty).2).1.toBool = true ∧
      ∀ n ∈ preorderAll p, n.token.kind ≠ .minus ∧ n.HasItsParts := by
  have hrun : ((parse (utf8 "(let (x real)) (:= y 1)")).toOption.any fun p₀ =>
      (parse (utf8 "(stdout (:= x (- 2 - 3))) (while (> x 1) (if (< x 9.5) (:= x (sin x))))")).toOption.any
        fun p => decide ((generate p₀ .empty).1 = .error (.assignedUnbound (utf8 "y"))) &&
          (generate p (generate p₀ .empty).2).1.toBool) = true := by decide +kernel
  simp only [Option.any_eq_true, toOption_eq_some_iff, Bool.and_eq_true, decide_eq_true_eq] at hrun
  obtain ⟨p₀, hp₀, p, hp, hfault, hok⟩ := hrun
  obtain ⟨hanswer, -, hparts⟩ := generation_never_goes_wrong hp (.program p₀ .empty)
  exact ⟨p₀, p, hp₀, hfault, hp, hanswer, hok, hparts⟩

end PrefixForth

import PrefixForth.Proofs.Forth.Emission

/-!
# Typing rules

The generator checks types as it goes, with a chain of early exits and a table that it changes on the
way. Here are the rules that it follows, as a relation: `HasType Γ n τ Γ'` says that the tree `n` has
the type `τ` in the scope `Γ` and leaves the scope `Γ'`. Scopes are threaded through the parts from
left to right, a part before the whole.

Main statement: a program is generated exactly if it has types (`generate_succeeds_iff_typable`). The
types are those of the generated values and the scope left is that of the table left.
-/

namespace PrefixForth

open Grammar Generation

/-! ### The rules -/

/-- The type of a literal. -/
def TokenKind.literalType? : TokenKind → Option ValueType
  | intLiteral => some .int
  | realLiteral => some .real
  | boolLiteral => some .bool
  | stringLiteral => some .string
  | _ => none

/-- The type of an operator with two operands, from theirs. Only `+` takes strings; truth values are
connected and compared for equality, and all other operators take numbers. -/
inductive BinaryType : BinaryOperator → ValueType → ValueType → ValueType → Prop
  | concat : BinaryType (.arithmetic .add) .string .string .string
  | connective (op : Connective) : BinaryType (.connective op) .bool .bool .bool
  | equality {op : Comparison} (equality : op = .eq ∨ op = .ne) :
      BinaryType (.comparison op) .bool .bool .bool
  | arithmetic {τ σ : ValueType} (op : Arithmetic) (left : τ.isNumeric = true)
      (right : σ.isNumeric = true) :
      BinaryType (.arithmetic op) τ σ (if τ = .real ∨ σ = .real then .real else .int)
  | comparison {τ σ : ValueType} (op : Comparison) (left : τ.isNumeric = true)
      (right : σ.isNumeric = true) : BinaryType (.comparison op) τ σ .bool

/-- The type of an operator with one operand, from that of the operand. -/
inductive UnaryType : UnaryOperator → ValueType → ValueType → Prop
  | not : UnaryType .not .bool .bool
  | negate {τ : ValueType} (operand : τ.isNumeric = true) : UnaryType .negate τ τ
  | trigonometric {τ : ValueType} (op : Trigonometric) (operand : τ.isNumeric = true) :
      UnaryType (.trigonometric op) τ .real

/-- The declarations of a `let`: each name is new. -/
inductive DeclaresTypes : Scope → List Node → Scope → Prop
  | nil (Γ : Scope) : DeclaresTypes Γ [] Γ
  | cons {Γ Γ' : Scope} {paren x type : Token} {bs : List Node} {τ : ValueType}
      (keyword : ValueType.ofKeyword? type.text = some τ) (fresh : Γ x.text = none)
      (rest : DeclaresTypes (Function.update Γ x.text (some ⟨τ, false⟩)) bs Γ') :
      DeclaresTypes Γ (.mk paren [.leaf x, .leaf type] :: bs) Γ'

mutual

/-- The tree has the type in the first scope and leaves the second. -/
inductive HasType : Scope → Node → ValueType → Scope → Prop
  | literal {Γ : Scope} {tok : Token} {τ : ValueType} (kind : tok.kind.literalType? = some τ) :
      HasType Γ (.mk tok []) τ Γ
  | identifier {Γ : Scope} {tok : Token} {τ : ValueType} (kind : tok.kind = .identifier)
      (assigned : Γ tok.text = some ⟨τ, true⟩) : HasType Γ (.mk tok []) τ Γ
  | assignment {Γ Γ' : Scope} {head x : Token} {e : Node} {τ σ : ValueType} {a : Bool}
      (kind : head.kind = .assignment) (value : HasType Γ e σ Γ')
      (declared : Γ' x.text = some ⟨τ, a⟩) (fits : σ = τ ∨ (σ = .int ∧ τ = .real)) :
      HasType Γ (.mk head [.leaf x, e]) τ (Function.update Γ' x.text (some ⟨τ, true⟩))
  | binary {Γ Γ₁ Γ' : Scope} {head : Token} {l r : Node} {op : BinaryOperator} {τ σ ρ : ValueType}
      (kind : head.kind = .binaryOperator) (spelling : BinaryOperator.ofSpelling? head.text = some op)
      (left : HasType Γ l τ Γ₁) (right : HasType Γ₁ r σ Γ') (types : BinaryType op τ σ ρ) :
      HasType Γ (.mk head [l, r]) ρ Γ'
  | unary {Γ Γ' : Scope} {head : Token} {e : Node} {op : UnaryOperator} {τ ρ : ValueType}
      (kind : head.kind = .unaryOperator) (spelling : UnaryOperator.ofSpelling? head.text = some op)
      (operand : HasType Γ e τ Γ') (types : UnaryType op τ ρ) : HasType Γ (.mk head [e]) ρ Γ'
  | declaration {Γ Γ' : Scope} {head : Token} {bs : List Node} (kind : head.kind = .statement)
      (text : head.text = Statement.declare.keyword) (bindings : DeclaresTypes Γ bs Γ') :
      HasType Γ (.mk head bs) .void Γ'
  | loop {Γ Γ₁ Γ' : Scope} {head : Token} {test : Node} {body : List Node}
      (kind : head.kind = .statement) (text : head.text = Statement.loop.keyword)
      (condition : HasType Γ test .bool Γ₁) (each : HasTypes Γ₁ body Γ') :
      HasType Γ (.mk head (test :: body)) .void Γ'
  | choose {Γ Γ₁ Γ' : Scope} {head : Token} {test onTrue : Node} {τ : ValueType}
      (kind : head.kind = .statement) (text : head.text = Statement.choose.keyword)
      (condition : HasType Γ test .bool Γ₁) (branch : HasType Γ₁ onTrue τ Γ') :
      HasType Γ (.mk head [test, onTrue]) .void Γ'
  | chooseElse {Γ Γ₁ Γ₂ Γ' : Scope} {head : Token} {test onTrue onFalse : Node} {τ σ : ValueType}
      (kind : head.kind = .statement) (text : head.text = Statement.choose.keyword)
      (condition : HasType Γ test .bool Γ₁) (branch : HasType Γ₁ onTrue τ Γ₂)
      (otherwise : HasType Γ₂ onFalse σ Γ') :
      HasType Γ (.mk head [test, onTrue, onFalse]) (if τ = σ then τ else .void) Γ'
  | print {Γ Γ' : Scope} {head : Token} {e : Node} {τ : ValueType} (kind : head.kind = .statement)
      (text : head.text = Statement.print.keyword) (operand : HasType Γ e τ Γ') (value : τ ≠ .void) :
      HasType Γ (.mk head [e]) .void Γ'

/-- The trees have types, one after the other. -/
inductive HasTypes : Scope → List Node → Scope → Prop
  | nil (Γ : Scope) : HasTypes Γ [] Γ
  | cons {Γ Γ₁ Γ' : Scope} {n : Node} {ns : List Node} {τ : ValueType} (first : HasType Γ n τ Γ₁)
      (rest : HasTypes Γ₁ ns Γ') : HasTypes Γ (n :: ns) Γ'

end

/-! ### Codes and types of operators -/

/-- The types of a code are those of the rules. -/
theorem BinaryCode.types {op : BinaryOperator} {l r v : Value} (h : BinaryCode op l r v) :
    BinaryType op l.type r.type v.type := by
  cases h with
  | concat left right => rw [left, right]; exact .concat
  | connective op left right => rw [left, right]; exact .connective op
  | equality equality left right => rw [left, right]; exact .equality equality
  | realArithmetic op left right real =>
    have := BinaryType.arithmetic op left right
    rwa [if_pos real] at this
  | realComparison op left right real => exact .comparison op left right
  | intArithmetic op left right =>
    have hint : BinaryType (.arithmetic op) .int .int (if False ∨ False then .real else .int) :=
      .arithmetic op rfl rfl
    rw [left, right]
    exact hint
  | intComparison op left right => rw [left, right]; exact .comparison op rfl rfl

/-- Wherever the rules give a type there is a code. -/
theorem BinaryType.exists_code {op : BinaryOperator} {l r : Value} {τ : ValueType}
    (h : BinaryType op l.type r.type τ) : ∃ v, BinaryCode op l r v ∧ v.type = τ := by
  generalize hl : l.type = a at h
  generalize hr : r.type = b at h
  cases h with
  | concat => exact ⟨_, .concat hl hr, rfl⟩
  | connective op => exact ⟨_, .connective op hl hr, rfl⟩
  | equality equality => exact ⟨_, .equality equality hl hr, rfl⟩
  | arithmetic op left right =>
    subst hl hr
    by_cases hreal : l.type = .real ∨ r.type = .real
    · exact ⟨_, .realArithmetic op left right hreal, by rw [if_pos hreal]⟩
    · obtain ⟨hl, hr⟩ := not_or.mp hreal
      refine ⟨_, .intArithmetic op ?_ ?_, by rw [if_neg hreal]⟩
      · exact (ValueType.isNumeric_iff.mp left).resolve_right hl
      · exact (ValueType.isNumeric_iff.mp right).resolve_right hr
  | comparison op left right =>
    subst hl hr
    by_cases hreal : l.type = .real ∨ r.type = .real
    · exact ⟨_, .realComparison op left right hreal, rfl⟩
    · obtain ⟨hl, hr⟩ := not_or.mp hreal
      refine ⟨_, .intComparison op ?_ ?_, rfl⟩
      · exact (ValueType.isNumeric_iff.mp left).resolve_right hl
      · exact (ValueType.isNumeric_iff.mp right).resolve_right hr

/-- Code for a unary operator follows the typing rule of the operator, -/
private theorem UnaryCode.types {op : UnaryOperator} {u v : Value} (h : UnaryCode op u v) :
    UnaryType op u.type v.type := by
  cases h with
  | not operand => rw [operand]; exact .not
  | negate operand => rw [operand]; exact .negate rfl
  | floatNegate operand => rw [operand]; exact .negate rfl
  | trigonometric op operand => exact .trigonometric op operand

/-- and wherever the rule applies there is code. -/
private theorem UnaryType.exists_code {op : UnaryOperator} {u : Value} {τ : ValueType}
    (h : UnaryType op u.type τ) : ∃ v, UnaryCode op u v ∧ v.type = τ := by
  generalize hu : u.type = a at h
  cases h with
  | not => exact ⟨_, .not hu, rfl⟩
  | negate operand =>
    rcases ValueType.isNumeric_iff.mp operand with rfl | rfl
    · exact ⟨_, .negate hu, rfl⟩
    · exact ⟨_, .floatNegate hu, rfl⟩
  | trigonometric op operand => exact ⟨_, .trigonometric op (hu ▸ operand), rfl⟩

/-- The kind of a literal tells the type of its value. -/
private theorem literalType?_eq_some_iff {tok : Token} {τ : ValueType} :
    tok.kind.literalType? = some τ ↔ ∃ v, literalValue? tok = some v ∧ v.type = τ := by
  cases h : tok.kind <;> simp [literalValue?, h, TokenKind.literalType?]

/-- The declarations of a `let` have code exactly if their names are new. -/
theorem declaresTypes_iff {t : SymbolTable} {bs : List Node} {Γ' : Scope} (ht : t.Sound)
    (hbs : ∀ b ∈ bs, b.IsBinding) :
    (∃ code t', Declares t bs code t' ∧ t'.scope = Γ') ↔ DeclaresTypes t.scope bs Γ' := by
  induction bs generalizing t with
  | nil =>
    constructor
    · rintro ⟨code, t', ⟨⟩, rfl⟩
      exact .nil _
    · rintro ⟨⟩
      exact ⟨[], t, .nil t, rfl⟩
  | cons b bs ih =>
    -- the scope after one declaration is the scope of the table after it
    have hrest : ∀ {x : Bytes} {τ : ValueType} {s : Storage}, τ.storage? = some s →
        ((∃ code t', Declares (t.put ⟨x, τ, false⟩) bs code t' ∧ t'.scope = Γ') ↔
          DeclaresTypes (Function.update t.scope x (some ⟨τ, false⟩)) bs Γ') := by
      intro x τ s hs
      rw [← SymbolTable.scope_put_of_storage? hs]
      exact ih (ht.put (Option.isSome_of_eq_some hs)) fun b hb => hbs b (List.mem_cons_of_mem _ hb)
    constructor
    · rintro ⟨code, t', h, rfl⟩
      cases h with
      | cons keyword fresh storage rest =>
        exact .cons keyword fresh ((hrest storage).mp ⟨_, _, rest, rfl⟩)
    · intro h
      cases h with
      | cons keyword fresh rest =>
        obtain ⟨s, hs⟩ :=
          Option.isSome_iff_exists.mp (ValueType.storage?_isSome_of_ofKeyword? keyword)
        obtain ⟨code, t', hcode, hscope⟩ := (hrest hs).mpr rest
        exact ⟨_, t', .cons keyword fresh hs hcode, hscope⟩

/-- Values of the types of variables can be printed. -/
theorem ValueType.exists_printWord {τ : ValueType} (h : τ.storage?.isSome = true) :
    ∃ w, τ.printWord? = some w := by
  rcases ValueType.storable_cases h with rfl | rfl | rfl | rfl <;> exact ⟨_, rfl⟩

/-! ### Values have the types of the rules -/

/-- The values of the tree are those that the rules give a type, in every sound table. -/
def Node.TypedExactly (n : Node) : Prop :=
  ∀ (c : Bool) {t : SymbolTable} {τ : ValueType} {Γ' : Scope}, t.Sound →
    ((∃ v t', n.value c t = (.ok v, t') ∧ v.type = τ ∧ t'.scope = Γ') ↔ HasType t.scope n τ Γ')

/-- A sequence of trees has code exactly if it can be typed, tree by tree. -/
private theorem hasTypes_iff {ns : List Node} (hns : ∀ n ∈ ns, n.TypedExactly) {t : SymbolTable}
    {Γ' : Scope} (ht : t.Sound) :
    (∃ vs t', EmitsAll t ns vs t' ∧ t'.scope = Γ') ↔ HasTypes t.scope ns Γ' := by
  induction ns generalizing t with
  | nil =>
    constructor
    · rintro ⟨vs, t', ⟨⟩, rfl⟩
      exact .nil _
    · rintro ⟨⟩
      exact ⟨[], t, .nil t, rfl⟩
  | cons n ns ih =>
    have hn := hns n List.mem_cons_self
    have ih := fun {t : SymbolTable} => ih (fun m hm => hns m (List.mem_cons_of_mem _ hm)) (t := t)
    constructor
    · rintro ⟨_, t', _ | ⟨first, rest⟩, rfl⟩
      exact .cons ((hn false ht).mp ⟨_, _, first, rfl, rfl⟩)
        ((ih (ht.value first)).mp ⟨_, _, rest, rfl⟩)
    · rintro (_ | ⟨first, rest⟩)
      obtain ⟨v, t₁, hv, -, rfl⟩ := (hn false ht).mpr first
      obtain ⟨vs, t', hvs, rfl⟩ := (ih (ht.value hv)).mpr rest
      exact ⟨v :: vs, t', .cons hv hvs, rfl⟩

section Shapes

variable {head : Token} {e l r test onTrue onFalse : Node}

/-- An identifier has code exactly if it is in scope and assigned, with that type. -/
private theorem typedExactly_identifier {tok : Token} (hk : tok.kind = .identifier)
    (hx : tok.text ≠ []) :
    (Node.mk tok []).TypedExactly := by
  intro c t τ Γ' ht
  simp only [value_identifier_iff hk hx ht]
  constructor
  · rintro ⟨v, t', ⟨σ, s, hscope, hs, rfl, rfl⟩, rfl, rfl⟩
    -- To read a name puts the entry that is there already.
    rw [SymbolTable.scope_put_of_storage? hs, Function.update_eq_self_iff.mpr hscope.symm]
    exact .identifier hk hscope
  · intro h
    cases h with
    | identifier _ assigned =>
      obtain ⟨s, hs⟩ := Option.isSome_iff_exists.mp (ht.storage?_isSome assigned)
      refine ⟨_, _, ⟨τ, s, assigned, hs, rfl, rfl⟩, rfl, ?_⟩
      rw [SymbolTable.scope_put_of_storage? hs, Function.update_eq_self_iff.mpr assigned.symm]
    -- The other rules are for other tokens; so it is below.
    | _ => simp_all [TokenKind.literalType?]

/-- A literal always has code, and the type of its kind. -/
private theorem typedExactly_literal {tok : Token} (hliteral : tok.kind.isLiteral = true) :
    (Node.mk tok []).TypedExactly := by
  intro c t τ Γ' ht
  simp only [value_literal_iff hliteral]
  constructor
  · rintro ⟨v, t', ⟨hv, rfl⟩, rfl, rfl⟩
    exact .literal (literalType?_eq_some_iff.mpr ⟨v, hv, rfl⟩)
  · intro h
    cases h with
    | literal kind =>
      obtain ⟨v, hv, rfl⟩ := literalType?_eq_some_iff.mp kind
      exact ⟨v, t, ⟨hv, rfl⟩, rfl, rfl⟩
    | _ => simp_all [TokenKind.isLiteral]

/-- An assignment has code exactly if its operand has and fits to the variable. -/
private theorem typedExactly_assignment {x : Token} (kind : head.kind = .assignment)
    (hx : x.text ≠ [])
    (he : e.EmitsProper) (ih : e.TypedExactly) : (Node.mk head [.leaf x, e]).TypedExactly := by
  intro c t τ Γ' ht
  simp only [value_assignment_iff kind hx he ht]
  constructor
  · rintro ⟨w, t', ⟨u, t₁, σ, a, s, hu, hscope, hs, hfits, rfl, rfl⟩, rfl, rfl⟩
    rw [SymbolTable.scope_put_of_storage? hs]
    exact .assignment kind ((ih true ht).mp ⟨u, t₁, hu, rfl, rfl⟩) hscope hfits
  · intro h
    cases h with
    | assignment _ value declared fits =>
      obtain ⟨u, t₁, hu, rfl, rfl⟩ := (ih true ht).mpr value
      obtain ⟨s, hs⟩ := Option.isSome_iff_exists.mp ((ht.value hu).storage?_isSome declared)
      refine ⟨_, _, ⟨u, t₁, τ, _, s, hu, declared, hs, fits, rfl, rfl⟩, rfl, ?_⟩
      rw [SymbolTable.scope_put_of_storage? hs]
    | _ => simp_all

/-- A binary operator has code exactly if its operands have and fit to it. -/
private theorem typedExactly_binary {op : BinaryOperator} (kind : head.kind = .binaryOperator)
    (spelling : BinaryOperator.ofSpelling? head.text = some op) (hl : l.EmitsProper)
    (hr : r.EmitsProper) (ihl : l.TypedExactly) (ihr : r.TypedExactly) :
    (Node.mk head [l, r]).TypedExactly := by
  intro c t τ Γ' ht
  simp only [value_binary_iff kind spelling hl hr ht]
  constructor
  · rintro ⟨w, t', ⟨u, t₁, v, hu, hv, hcode⟩, rfl, rfl⟩
    exact .binary kind spelling ((ihl true ht).mp ⟨u, t₁, hu, rfl, rfl⟩)
      ((ihr true (ht.value hu)).mp ⟨v, t', hv, rfl, rfl⟩) hcode.types
  · intro h
    cases h with
    | binary _ spelling' left right types =>
      obtain rfl := Option.some.inj (spelling.symm.trans spelling')
      obtain ⟨u, t₁, hu, rfl, rfl⟩ := (ihl true ht).mpr left
      obtain ⟨v, t', hv, rfl, rfl⟩ := (ihr true (ht.value hu)).mpr right
      obtain ⟨w, hcode, rfl⟩ := types.exists_code
      exact ⟨w, t', ⟨u, t₁, v, hu, hv, hcode⟩, rfl, rfl⟩
    | _ => simp_all

private theorem typedExactly_unary {op : UnaryOperator} (kind : head.kind = .unaryOperator)
    (spelling : UnaryOperator.ofSpelling? head.text = some op) (he : e.EmitsProper)
    (ih : e.TypedExactly) : (Node.mk head [e]).TypedExactly := by
  intro c t τ Γ' ht
  simp only [value_unary_iff kind spelling he ht]
  constructor
  · rintro ⟨w, t', ⟨u, hu, hcode⟩, rfl, rfl⟩
    exact .unary kind spelling ((ih true ht).mp ⟨u, t', hu, rfl, rfl⟩) hcode.types
  · intro h
    cases h with
    | unary _ spelling' operand types =>
      obtain rfl := Option.some.inj (spelling.symm.trans spelling')
      obtain ⟨u, t', hu, rfl, rfl⟩ := (ih true ht).mpr operand
      obtain ⟨w, hcode, rfl⟩ := types.exists_code
      exact ⟨w, t', ⟨u, hu, hcode⟩, rfl, rfl⟩
    | _ => simp_all

/-- A declaration has code exactly if its names are new and its types can be stored. -/
private theorem typedExactly_declaration {bs : List Node} (kind : head.kind = .statement)
    (text : head.text = Statement.declare.keyword) (nonempty : bs ≠ [])
    (each : ∀ b ∈ bs, b.IsBinding) : (Node.mk head bs).TypedExactly := by
  intro c t τ Γ' ht
  simp only [value_declaration_iff kind text nonempty each ht]
  constructor
  · rintro ⟨w, t', ⟨code, hcode, rfl⟩, rfl, rfl⟩
    exact .declaration kind text ((declaresTypes_iff ht each).mp ⟨code, t', hcode, rfl⟩)
  · intro h
    cases h with
    | declaration _ _ bindings =>
      obtain ⟨code, t', hcode, rfl⟩ := (declaresTypes_iff ht each).mpr bindings
      exact ⟨_, t', ⟨code, hcode, rfl⟩, rfl, rfl⟩
    | _ => simp_all

/-- A loop has code exactly if its test is a truth value and its body can be typed. -/
private theorem typedExactly_loop {body : List Node} (kind : head.kind = .statement)
    (text : head.text = Statement.loop.keyword) (hbody : ∀ n ∈ body, n.EmitsProper)
    (ih : test.TypedExactly) (ihs : ∀ n ∈ body, n.TypedExactly) :
    (Node.mk head (test :: body)).TypedExactly := by
  intro c t τ Γ' ht
  simp only [value_loop_iff kind text hbody ht]
  constructor
  · rintro ⟨w, t', ⟨u, t₁, vs, hu, hvs, hbool, rfl⟩, rfl, rfl⟩
    exact .loop kind text ((ih true ht).mp ⟨u, t₁, hu, hbool, rfl⟩)
      ((hasTypes_iff ihs (ht.value hu)).mp ⟨vs, t', hvs, rfl⟩)
  · intro h
    cases h with
    | loop _ _ condition each =>
      obtain ⟨u, t₁, hu, hbool, rfl⟩ := (ih true ht).mpr condition
      obtain ⟨vs, t', hvs, rfl⟩ := (hasTypes_iff ihs (ht.value hu)).mpr each
      exact ⟨_, t', ⟨u, t₁, vs, hu, hvs, hbool, rfl⟩, rfl, rfl⟩
    | _ => simp_all

/-- A choice of one branch has code exactly if its test is a truth value and the branch has code. -/
private theorem typedExactly_choose (kind : head.kind = .statement)
    (text : head.text = Statement.choose.keyword) (htest : test.EmitsProper)
    (ih : test.TypedExactly) (ih₁ : onTrue.TypedExactly) :
    (Node.mk head [test, onTrue]).TypedExactly := by
  intro c t τ Γ' ht
  simp only [value_choose_iff kind text htest ht]
  constructor
  · rintro ⟨w, t', ⟨u, t₁, v, hu, hv, hbool, rfl⟩, rfl, rfl⟩
    exact .choose kind text ((ih true ht).mp ⟨u, t₁, hu, hbool, rfl⟩)
      ((ih₁ c (ht.value hu)).mp ⟨v, t', hv, rfl, rfl⟩)
  · intro h
    cases h with
    | choose _ _ condition branch =>
      obtain ⟨u, t₁, hu, hbool, rfl⟩ := (ih true ht).mpr condition
      obtain ⟨v, t', hv, rfl, rfl⟩ := (ih₁ c (ht.value hu)).mpr branch
      exact ⟨_, t', ⟨u, t₁, v, hu, hv, hbool, rfl⟩, rfl, rfl⟩
    | _ => simp_all

private theorem typedExactly_chooseElse (kind : head.kind = .statement)
    (text : head.text = Statement.choose.keyword) (htest : test.EmitsProper)
    (ih : test.TypedExactly) (ih₁ : onTrue.TypedExactly) (ih₂ : onFalse.TypedExactly) :
    (Node.mk head [test, onTrue, onFalse]).TypedExactly := by
  intro c t τ Γ' ht
  simp only [value_chooseElse_iff kind text htest ht]
  constructor
  · rintro ⟨w, t', ⟨u, t₁, v, t₂, x, hu, hv, hx, hbool, rfl⟩, rfl, rfl⟩
    exact .chooseElse kind text ((ih true ht).mp ⟨u, t₁, hu, hbool, rfl⟩)
      ((ih₁ c (ht.value hu)).mp ⟨v, t₂, hv, rfl, rfl⟩)
      ((ih₂ c ((ht.value hu).value hv)).mp ⟨x, t', hx, rfl, rfl⟩)
  · intro h
    cases h with
    | chooseElse _ _ condition branch otherwise =>
      obtain ⟨u, t₁, hu, hbool, rfl⟩ := (ih true ht).mpr condition
      obtain ⟨v, t₂, hv, rfl, rfl⟩ := (ih₁ c (ht.value hu)).mpr branch
      obtain ⟨x, t', hx, rfl, rfl⟩ := (ih₂ c ((ht.value hu).value hv)).mpr otherwise
      exact ⟨_, t', ⟨u, t₁, v, t₂, x, hu, hv, hx, hbool, rfl⟩, rfl, rfl⟩
    | _ => simp_all

private theorem typedExactly_print (kind : head.kind = .statement)
    (text : head.text = Statement.print.keyword) (he : e.EmitsProper) (ih : e.TypedExactly) :
    (Node.mk head [e]).TypedExactly := by
  intro c t τ Γ' ht
  simp only [value_print_iff kind text he ht]
  constructor
  · rintro ⟨w, t', ⟨u, pw, hu, hpw, rfl⟩, rfl, rfl⟩
    refine .print kind text ((ih true ht).mp ⟨u, t', hu, rfl, rfl⟩) ?_
    intro hvoid
    rw [hvoid] at hpw
    cases hpw
  · intro h
    cases h with
    | print _ _ operand value =>
      obtain ⟨u, t', hu, rfl, rfl⟩ := (ih true ht).mpr operand
      have hstorable := (he ht hu).type.resolve_left value
      obtain ⟨pw, hpw⟩ := ValueType.exists_printWord hstorable
      exact ⟨_, t', ⟨u, pw, hu, hpw, rfl⟩, rfl, rfl⟩
    | _ => simp_all

end Shapes

/-- The trees of the language are typed exactly. -/
theorem Node.WellFormed.typedExactly {n : Node} (h : n.WellFormed) : n.TypedExactly := by
  induction h with
  | @operand tok kind spelled =>
    by_cases hk : tok.kind = .identifier
    · exact typedExactly_identifier hk (spelled.text_ne_nil hk)
    · exact typedExactly_literal (by simpa [TokenKind.isOperand, hk] using kind)
  | assignment kind target spelled value ih =>
    exact typedExactly_assignment kind (spelled.text_ne_nil target) value.emitsProper ih
  | binary kind spelling left right ihl ihr =>
    exact typedExactly_binary kind spelling left.emitsProper right.emitsProper ihl ihr
  | unary kind spelling operand ih => exact typedExactly_unary kind spelling operand.emitsProper ih
  | declaration kind text nonempty each => exact typedExactly_declaration kind text nonempty each
  | loop kind text nonempty condition each ih ihs =>
    exact typedExactly_loop kind text (fun n hn => (each n hn).emitsProper) ih ihs
  | choose kind text condition branch ih ih₁ =>
    exact typedExactly_choose kind text condition.emitsProper ih ih₁
  | chooseElse kind text condition branch otherwise ih ih₁ ih₂ =>
    exact typedExactly_chooseElse kind text condition.emitsProper ih ih₁ ih₂
  | print kind text operand ih => exact typedExactly_print kind text operand.emitsProper ih

/-- A declaration of one name and the type in it have neither values nor types. -/
theorem Node.IsPart.typedExactly {n : Node} (h : n.IsPart) : n.TypedExactly := by
  intro c t τ Γ' ht
  cases h with
  | tree h => exact h.typedExactly c ht
  | binding h =>
    refine iff_of_false (fun ⟨v, t', hv, _⟩ => h.value_ne_ok hv) fun htype => ?_
    obtain ⟨paren, x, type, rfl, hparen, -⟩ := h
    cases htype <;> simp_all
  | type h kind =>
    subst h
    refine iff_of_false (fun ⟨v, t', hv, _⟩ => value_type_ne_ok kind hv) fun htype => ?_
    cases htype <;> simp_all [TokenKind.literalType?]

/-- A parsed program is generated exactly if it has types in the scope of the table, and the scope
that the types leave is that of the table left. So it is for every part of it, in every table that
may be met: its value has exactly the type that the rules give. -/
theorem generate_succeeds_iff_typable {s : Bytes} {p : Program} (hp : parse s = .ok p)
    {t : SymbolTable} (ht : t.Reachable) :
    (∀ Γ', (∃ target t', generate p t = (.ok target, t') ∧ t'.scope = Γ') ↔
      HasTypes t.scope p Γ') ∧
    ∀ n ∈ preorderAll p, ∀ (consumed : Bool) (u : SymbolTable), u.Reachable → ∀ τ Γ',
      (∃ v u', n.value consumed u = (.ok v, u') ∧ v.type = τ ∧ u'.scope = Γ') ↔
        HasType u.scope n τ Γ' := by
  have hwf : ∀ n ∈ p, n.WellFormed := fun n hn => wellFormed_of_parse hp hn
  constructor
  · intro Γ'
    rw [← hasTypes_iff (fun n hn => (hwf n hn).typedExactly) ht.sound]
    constructor
    · rintro ⟨target, t', h, rfl⟩
      obtain ⟨lines, t₁, hlines, h⟩ := bind_eq_ok_iff.mp h
      obtain ⟨rfl, rfl⟩ := pure_eq_ok_iff.mp h
      obtain ⟨vs, hvs, -⟩ := (Program.code_eq_ok_iff hwf ht.sound).mp hlines
      exact ⟨vs, t₁, hvs, rfl⟩
    · rintro ⟨vs, t', hvs, rfl⟩
      have hlines := (Program.code_eq_ok_iff hwf ht.sound).mpr ⟨vs, hvs, rfl⟩
      exact ⟨_, t', bind_eq_ok_iff.mpr ⟨_, t', hlines, rfl⟩, rfl⟩
  · intro n hn consumed u hu τ Γ'
    exact (isPart_of_parse hp hn).typedExactly consumed hu.sound

/-- A name that an earlier program has declared and assigned, as an operand beside a real. -/
theorem generate_succeeds_iff_typable_session :
    ∃ p q, parse (utf8 "(let (x int)) (:= x 1)") = .ok p ∧ parse (utf8 "(stdout (+ x 2.5))") = .ok q ∧
      ∃ Γ', HasTypes (generate p .empty).2.scope q Γ' := by
  have hrun : (match parse (utf8 "(let (x int)) (:= x 1)"), parse (utf8 "(stdout (+ x 2.5))") with
      | .ok p, .ok q => (generate q (generate p .empty).2).1.toOption.isSome
      | _, _ => false) = true := by decide +kernel
  split at hrun
  · rename_i p q hp hq
    refine ⟨p, q, hp, hq, ?_⟩
    rcases h : generate q (generate p .empty).2 with ⟨_ | target, t'⟩
    · rw [h] at hrun
      cases hrun
    · have hexact := generate_succeeds_iff_typable hq (.program p .empty)
      exact ⟨t'.scope, (hexact.1 t'.scope).mp ⟨target, t', h, rfl⟩⟩
  · cases hrun

end PrefixForth

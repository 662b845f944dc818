import PrefixForth.Proofs.Token.Spelling
import PrefixForth.Proofs.Tree.Parsing

/-!
# The shapes of parsed trees

A parsed tree has one of nine shapes, one for each rule of the language: an operand by itself, an
assignment, an operator with one or two operands, and the statements. `Node.WellFormed` lists them,
with what the tokens of each shape are known to be. All that is said about parsed programs is proved
by induction on it.

The parts of a well-formed tree are well-formed but for those of a `let`: a declaration of one name
and the type in it are no trees of the language (`Node.WellFormed.isPart`).

Main statement: the trees of a parsed text are well-formed (`wellFormed_of_parse`).
-/

namespace PrefixForth

open Grammar

namespace Node

/-- A declaration of one name in a `let`. -/
def IsBinding (n : Node) : Prop :=
  ∃ paren x type : Token, n = .mk paren [.leaf x, .leaf type] ∧ paren.kind = .openParen ∧
    x.kind = .identifier ∧ x.WellSpelled ∧ type.kind = .typeKeyword ∧
    ∃ τ, ValueType.ofKeyword? type.text = some τ

/-- The tree has one of the shapes of the language. -/
inductive WellFormed : Node → Prop where
  | operand {t : Token} (kind : t.kind.isOperand = true) (spelled : t.WellSpelled) :
      WellFormed (.mk t [])
  | assignment {head x : Token} {e : Node} (kind : head.kind = .assignment)
      (target : x.kind = .identifier) (spelled : x.WellSpelled) (value : WellFormed e) :
      WellFormed (.mk head [.leaf x, e])
  | binary {head : Token} {op : BinaryOperator} {l r : Node} (kind : head.kind = .binaryOperator)
      (spelling : BinaryOperator.ofSpelling? head.text = some op) (left : WellFormed l)
      (right : WellFormed r) : WellFormed (.mk head [l, r])
  | unary {head : Token} {op : UnaryOperator} {e : Node} (kind : head.kind = .unaryOperator)
      (spelling : UnaryOperator.ofSpelling? head.text = some op) (operand : WellFormed e) :
      WellFormed (.mk head [e])
  | declaration {head : Token} {bindings : List Node} (kind : head.kind = .statement)
      (text : head.text = Statement.declare.keyword) (nonempty : bindings ≠ [])
      (each : ∀ b ∈ bindings, b.IsBinding) : WellFormed (.mk head bindings)
  | loop {head : Token} {test : Node} {body : List Node} (kind : head.kind = .statement)
      (text : head.text = Statement.loop.keyword) (nonempty : body ≠ []) (condition : WellFormed test)
      (each : ∀ n ∈ body, WellFormed n) : WellFormed (.mk head (test :: body))
  | choose {head : Token} {test onTrue : Node} (kind : head.kind = .statement)
      (text : head.text = Statement.choose.keyword) (condition : WellFormed test)
      (branch : WellFormed onTrue) : WellFormed (.mk head [test, onTrue])
  | chooseElse {head : Token} {test onTrue onFalse : Node} (kind : head.kind = .statement)
      (text : head.text = Statement.choose.keyword) (condition : WellFormed test)
      (branch : WellFormed onTrue) (otherwise : WellFormed onFalse) :
      WellFormed (.mk head [test, onTrue, onFalse])
  | print {head : Token} {e : Node} (kind : head.kind = .statement)
      (text : head.text = Statement.print.keyword) (operand : WellFormed e) :
      WellFormed (.mk head [e])

end Node

/-! ### Trees of derivations -/

namespace Grammar

/-- A declaration of one name, from its derivation. -/
theorem Binding.isBinding_tree {b : Binding} (h : b.Valid) (hspelled : ∀ t ∈ b.tokens, t.WellSpelled) :
    b.tree.IsBinding := by
  obtain ⟨hparen, hname, htype, -⟩ := h
  have hx : b.name.WellSpelled := hspelled _ (by simp [Binding.tokens])
  have hτ : b.type.WellSpelled := hspelled _ (by simp [Binding.tokens])
  rw [Token.WellSpelled, htype] at hτ
  exact ⟨b.paren, b.name, b.type, rfl, hparen, hname, hx, htype, hτ⟩

/-- A form with operands, from its operands. -/
theorem wellFormed_operation {head : Token} {cs : List Node} (h : Admits head cs.length)
    (hhead : head.WellSpelled) (hcs : ∀ c ∈ cs, c.WellFormed) :
    (Node.mk (classified head cs.length) cs).WellFormed := by
  -- a minus sign is classified by its operands, so both cases are needed twice
  have hunary : ∀ {k : Token} (op : UnaryOperator), k.kind = .unaryOperator →
      UnaryOperator.ofSpelling? k.text = some op → cs.length = 1 → (Node.mk k cs).WellFormed := by
    intro k op hk hop hlength
    obtain ⟨e, rfl⟩ := List.length_eq_one_iff.mp hlength
    exact .unary hk hop (hcs e (by simp))
  have hbinary : ∀ {k : Token} (op : BinaryOperator), k.kind = .binaryOperator →
      BinaryOperator.ofSpelling? k.text = some op → cs.length = 2 → (Node.mk k cs).WellFormed := by
    intro k op hk hop hlength
    obtain ⟨l, r, rfl⟩ := List.length_eq_two.mp hlength
    exact .binary hk hop (hcs l (by simp)) (hcs r (by simp))
  rw [Token.WellSpelled] at hhead
  cases hk : head.kind with
  | binaryOperator =>
    simp only [Admits, hk] at h
    simp only [hk, TokenKind.Spells] at hhead
    obtain ⟨op, hop⟩ := hhead
    rw [classified, if_neg (by simp [hk])]
    exact hbinary op hk hop h
  | unaryOperator =>
    simp only [Admits, hk] at h
    simp only [hk, TokenKind.Spells] at hhead
    obtain ⟨op, hop⟩ := hhead
    rw [classified, if_neg (by simp [hk])]
    exact hunary op hk hop h
  | minus =>
    simp only [Admits, hk] at h
    simp only [hk, TokenKind.Spells] at hhead
    rw [classified, if_pos hk]
    rcases h with h | h
    · exact hunary .negate (by simp [h]) (by simp only [hhead]; rfl) h
    · exact hbinary (.arithmetic .sub) (by simp [h]) (by simp only [hhead]; rfl) h
  | statement =>
    simp only [Admits, hk] at h
    rw [classified, if_neg (by simp [hk])]
    rcases h with ⟨htext, h⟩ | ⟨htext, h | h⟩ | ⟨htext, h⟩
    · rcases cs with _ | ⟨test, body⟩
      · simp at h
      · refine .loop hk htext ?_ (hcs test (by simp)) fun n hn => hcs n (by simp [hn])
        rintro rfl
        simp at h
    · obtain ⟨test, onTrue, rfl⟩ := List.length_eq_two.mp h
      exact .choose hk htext (hcs test (by simp)) (hcs onTrue (by simp))
    · obtain ⟨test, onTrue, onFalse, rfl⟩ := List.length_eq_three.mp h
      exact .chooseElse hk htext (hcs test (by simp)) (hcs onTrue (by simp)) (hcs onFalse (by simp))
    · obtain ⟨e, rfl⟩ := List.length_eq_one_iff.mp h
      exact .print hk htext (hcs e (by simp))
  | _ => simp [Admits, hk] at h

mutual

private theorem Form.wellFormed_tree : ∀ (f : Form), f.Valid → (∀ t ∈ f.tokens, t.WellSpelled) →
    f.tree.WellFormed
  | .assignment paren head target value close, h, hspelled => by
    obtain ⟨-, hhead, htarget, hvalue, -⟩ := h
    simp only [Form.tokens, List.mem_cons, List.mem_append] at hspelled
    refine .assignment hhead htarget (hspelled target (by simp)) ?_
    exact Operand.wellFormed_tree value hvalue fun t ht => hspelled t (by simp [ht])
  | .operation paren head operands close, h, hspelled => by
    obtain ⟨-, hadmits, hoperands, -⟩ := h
    simp only [Form.tokens, List.mem_cons, List.mem_append] at hspelled
    rw [Form.tree]
    have hall := Operand.wellFormed_treeAll operands hoperands fun t ht => hspelled t (by simp [ht])
    rw [← Operand.length_treeAll operands] at hadmits ⊢
    exact wellFormed_operation hadmits (hspelled head (by simp)) hall
  | .declaration paren head bindings close, h, hspelled => by
    obtain ⟨-, hhead, htext, hne, hbindings, -⟩ := h
    simp only [Form.tokens, List.mem_cons, List.mem_append, List.mem_flatMap] at hspelled
    refine .declaration hhead htext (by simpa using hne) ?_
    intro n hn
    obtain ⟨b, hb, rfl⟩ := List.mem_map.mp hn
    exact Binding.isBinding_tree (hbindings b hb)
      fun t ht => hspelled t (.inr (.inr (.inl ⟨b, hb, ht⟩)))

private theorem Operand.wellFormed_tree :
    ∀ (o : Operand), o.Valid → (∀ t ∈ o.tokens, t.WellSpelled) →
    o.tree.WellFormed
  | .form f, h, hspelled => Form.wellFormed_tree f h hspelled
  | .leaf t, h, hspelled => .operand h (hspelled t (by simp [Operand.tokens]))
  | .negation sign operand, h, hspelled => by
    obtain ⟨hsign, hoperand⟩ := h
    simp only [Operand.tokens, List.mem_cons] at hspelled
    have htext : sign.WellSpelled := hspelled sign (by simp)
    simp only [Token.WellSpelled, hsign, TokenKind.Spells] at htext
    have hnegate : UnaryOperator.ofSpelling? sign.text = some .negate := by
      rw [htext]
      rfl
    refine .unary rfl hnegate ?_
    exact Operand.wellFormed_tree operand hoperand fun t ht => hspelled t (by simp [ht])

private theorem Operand.wellFormed_treeAll : ∀ (os : List Operand), Operand.ValidAll os →
    (∀ t ∈ Operand.tokensAll os, t.WellSpelled) → ∀ n ∈ Operand.treeAll os, n.WellFormed
  | [], _, _, n, hn => by simp [Operand.treeAll] at hn
  | o :: os, h, hspelled, n, hn => by
    simp only [Operand.tokensAll, List.mem_append] at hspelled
    rcases List.mem_cons.mp hn with rfl | hn
    · exact Operand.wellFormed_tree o h.1 fun t ht => hspelled t (.inl ht)
    · exact Operand.wellFormed_treeAll os h.2 (fun t ht => hspelled t (.inr ht)) n hn

end

end Grammar

/-- The trees of a parsed text are well-formed. -/
theorem wellFormed_of_parse {s : Bytes} {p : Program} (h : parse s = .ok p) {n : Node}
    (hn : n ∈ p) : n.WellFormed := by
  obtain ⟨ts, hts, d, hd, rfl, rfl⟩ := parse_eq_ok_iff_derivation.mp h
  obtain ⟨f, hf, rfl⟩ := List.mem_map.mp hn
  refine Form.wellFormed_tree f (hd f hf) fun t ht => ?_
  refine spells_of_mem_tokenize (s := s) ?_
  rw [hts]
  exact List.mem_flatMap.mpr ⟨f, hf, ht⟩

/-! ### Parts of trees -/

/-- The nodes below a list are those below its members. -/
theorem Grammar.mem_preorderAll {m : Node} {ns : List Node} :
    m ∈ preorderAll ns ↔ ∃ n ∈ ns, m ∈ preorder n := by
  induction ns with
  | nil => simp [preorderAll]
  | cons n ns ih => simp [preorderAll, ih]

namespace Node

/-- What stands in a well-formed tree: a well-formed tree, a declaration of one name, or the type in
such a declaration. -/
inductive IsPart (m : Node) : Prop
  | tree (h : m.WellFormed)
  | binding (h : m.IsBinding)
  | type {t : Token} (h : m = .mk t []) (kind : t.kind = .typeKeyword)

/-- The parts of a declaration of one name. -/
theorem IsBinding.isPart {n m : Node} (h : n.IsBinding) (hm : m ∈ preorder n) : m.IsPart := by
  obtain ⟨paren, x, type, rfl, -, hx, hspelled, htype, -⟩ := id h
  simp only [preorder, preorderAll, leaf, List.append_nil, List.mem_cons, List.mem_append,
    List.not_mem_nil, or_false] at hm
  rcases hm with rfl | rfl | rfl
  · exact .binding h
  · exact .tree (.operand (by rw [hx]; rfl) hspelled)
  · exact .type rfl htype

/-- The parts of a well-formed tree. -/
theorem WellFormed.isPart {n m : Node} (h : n.WellFormed) (hm : m ∈ preorder n) : m.IsPart := by
  induction h with
  | @operand t kind spelled =>
    simp only [preorder, preorderAll, List.mem_cons, List.not_mem_nil, or_false] at hm
    exact hm ▸ .tree (.operand kind spelled)
  | @assignment head x e kind target spelled value ih =>
    -- the target of an assignment is a part too: an identifier
    simp only [preorder, preorderAll, leaf, List.append_nil, List.mem_cons, List.mem_append,
      List.not_mem_nil, or_false] at hm
    rcases hm with rfl | rfl | hm
    · exact .tree (.assignment kind target spelled value)
    · exact .tree (.operand (by rw [target]; rfl) spelled)
    · exact ih hm
  | binary kind spelling left right ihl ihr =>
    simp only [preorder, List.mem_cons, mem_preorderAll, List.not_mem_nil, or_false] at hm
    rcases hm with rfl | ⟨c, rfl | rfl, hm⟩
    · exact .tree (.binary kind spelling left right)
    · exact ihl hm
    · exact ihr hm
  | unary kind spelling operand ih =>
    simp only [preorder, List.mem_cons, mem_preorderAll, List.not_mem_nil, or_false] at hm
    rcases hm with rfl | ⟨c, rfl, hm⟩
    · exact .tree (.unary kind spelling operand)
    · exact ih hm
  | declaration kind text nonempty each =>
    simp only [preorder, List.mem_cons, mem_preorderAll] at hm
    rcases hm with rfl | ⟨b, hb, hm⟩
    · exact .tree (.declaration kind text nonempty each)
    · exact (each b hb).isPart hm
  | loop kind text nonempty condition each ih ihs =>
    simp only [preorder, List.mem_cons, mem_preorderAll] at hm
    rcases hm with rfl | ⟨c, rfl | hc, hm⟩
    · exact .tree (.loop kind text nonempty condition each)
    · exact ih hm
    · exact ihs c hc hm
  | choose kind text condition branch ih ih₁ =>
    simp only [preorder, List.mem_cons, mem_preorderAll, List.not_mem_nil, or_false] at hm
    rcases hm with rfl | ⟨c, rfl | rfl, hm⟩
    · exact .tree (.choose kind text condition branch)
    · exact ih hm
    · exact ih₁ hm
  | chooseElse kind text condition branch otherwise ih ih₁ ih₂ =>
    simp only [preorder, List.mem_cons, mem_preorderAll, List.not_mem_nil, or_false] at hm
    rcases hm with rfl | ⟨c, rfl | rfl | rfl, hm⟩
    · exact .tree (.chooseElse kind text condition branch otherwise)
    · exact ih hm
    · exact ih₁ hm
    · exact ih₂ hm
  | print kind text operand ih =>
    simp only [preorder, List.mem_cons, mem_preorderAll, List.not_mem_nil, or_false] at hm
    rcases hm with rfl | ⟨c, rfl, hm⟩
    · exact .tree (.print kind text operand)
    · exact ih hm

end Node

/-- What stands in the trees of a parsed text. -/
theorem isPart_of_parse {s : Bytes} {p : Program} (h : parse s = .ok p) {m : Node}
    (hm : m ∈ preorderAll p) : m.IsPart := by
  obtain ⟨n, hn, hm⟩ := mem_preorderAll.mp hm
  exact (wellFormed_of_parse h hn).isPart hm

end PrefixForth

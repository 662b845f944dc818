import PrefixForth.Proofs.Forth.Target

/-!
# Fragments of code

The code of a tree is put together from few kinds of pieces: literals and words, which leave the
symbol table as it is; the reading, the assignment and the definition of a variable, which the table
must admit; and control structures around such code. `Fragment t c t'` says that `c` is so put
together and that its pieces, in the order in which they are written, lead from the table `t` to `t'`.

All code that is emitted is a fragment (`Node.WellFormed.fragment`,
`exists_fragment_of_compileFully`). What holds of emitted code as a text, whatever the trees were, is
proved by induction on `Fragment`.
-/

namespace PrefixForth

/-- The word fetches a variable. -/
def Word.isFetch : Word → Bool
  | fetch _ => true
  | _ => false

/-- The word stores to a variable. -/
def Word.isStore : Word → Bool
  | store _ => true
  | _ => false

/-- The word takes the address of a variable off the stack. -/
def Word.isAccess (w : Word) : Bool :=
  w.isFetch || w.isStore

/-- The instruction is a literal, or a word that has nothing to do with variables. -/
def Instruction.isPlain : Instruction → Bool
  | .int _ | .real _ | .flag _ | .string _ => true
  | .word w => !w.isAccess
  | _ => false

/-- Code in pieces, with the tables before and after it. -/
inductive Fragment : SymbolTable → Code → SymbolTable → Prop
  | nil (t : SymbolTable) : Fragment t [] t
  | append {t t₁ t' : SymbolTable} {c d : Code} (first : Fragment t c t₁)
      (second : Fragment t₁ d t') : Fragment t (c ++ d) t'
  | plain (t : SymbolTable) {i : Instruction} (plain : i.isPlain = true) : Fragment t [i] t
  | read {t : SymbolTable} {x : Bytes} {τ : ValueType} {s : Storage}
      (assigned : t.scope x = some ⟨τ, true⟩) (storage : τ.storage? = some s) :
      Fragment t [.name x, .word (.fetch s)] (t.put ⟨x, τ, true⟩)
  | assign {t : SymbolTable} {x : Bytes} {τ : ValueType} {a : Bool} {s : Storage}
      (declared : t.scope x = some ⟨τ, a⟩) (storage : τ.storage? = some s) :
      Fragment t [.name x, .word (.store s)] (t.put ⟨x, τ, true⟩)
  | define {t : SymbolTable} {x : Bytes} {τ : ValueType} {s : Storage}
      (spelled : TokenKind.identifier.Spells x) (fresh : t.scope x = none)
      (storage : τ.storage? = some s) : Fragment t [.define s x] (t.put ⟨x, τ, false⟩)
  | choose {t t' : SymbolTable} {c : Code} (branch : Fragment t c t') : Fragment t [.choose c] t'
  | chooseElse {t t₁ t' : SymbolTable} {c d : Code} (branch : Fragment t c t₁)
      (otherwise : Fragment t₁ d t') : Fragment t [.chooseElse c d] t'
  | loop {t t₁ t' : SymbolTable} {c d : Code} (test : Fragment t c t₁) (body : Fragment t₁ d t') :
      Fragment t [.loop c d] t'

section Trees

variable {t t₁ t' : SymbolTable}

private theorem isPlain_printWord {τ : ValueType} {pw : Word} (h : τ.printWord? = some pw) :
    (Instruction.word pw).isPlain = true := by
  cases τ <;> simp only [ValueType.printWord?, Option.some.injEq, reduceCtorEq] at h <;>
    subst h <;> rfl

private theorem Value.fragment_realCode {u : Value} (h : Fragment t u.code t')
    (hcode : u.code.isBlank = false) : Fragment t u.realCode t' := by
  by_cases hint : u.type = .int
  · rw [realCode_of_int hint hcode]
    exact h.append (.plain t' rfl)
  · rwa [realCode_of_ne_int hint]

/-- The code of a binary operator is made of pieces if that of its operands is. -/
theorem BinaryCode.fragment {op : BinaryOperator} {l r v : Value} (h : BinaryCode op l r v)
    (hl : Fragment t l.code t₁) (hr : Fragment t₁ r.code t') (hl' : l.code.isBlank = false)
    (hr' : r.code.isBlank = false) : Fragment t v.code t' := by
  have hreal := (Value.fragment_realCode hl hl').append (Value.fragment_realCode hr hr')
  cases h with
  | realArithmetic | realComparison => exact hreal.append (.plain t' rfl)
  | _ => exact (hl.append hr).append (.plain t' rfl)

/-- The code of a unary operator is made of pieces if that of its operand is. -/
theorem UnaryCode.fragment {op : UnaryOperator} {u v : Value} (h : UnaryCode op u v)
    (hu : Fragment t u.code t') (hu' : u.code.isBlank = false) : Fragment t v.code t' := by
  cases h with
  | trigonometric => exact (Value.fragment_realCode hu hu').append (.plain t' rfl)
  | _ => exact hu.append (.plain t' rfl)

/-- A literal is one piece. -/
theorem LiteralCode.fragment {tok : Token} {u : Value} (h : LiteralCode tok u) :
    Fragment t u.code t := by
  cases h <;> exact .plain t rfl

/-- A declaration is made of one piece for each name. -/
theorem Declares.fragment {bs : List Node} {c : Code} (h : Declares t bs c t')
    (hbs : ∀ b ∈ bs, b.IsBinding) : Fragment t c t' := by
  induction h with
  | nil t => exact .nil t
  | @cons t t' paren x type bs code τ s keyword fresh storage rest ih =>
    obtain ⟨_, y, _, heq, -, hkind, hspelled, -⟩ := hbs _ List.mem_cons_self
    simp only [Node.mk.injEq, List.cons.injEq, Node.leaf] at heq
    obtain ⟨-, ⟨rfl, -⟩, -⟩ := heq
    rw [Token.WellSpelled, hkind] at hspelled
    exact (Fragment.define hspelled fresh storage).append
      (ih fun b hb => hbs b (List.mem_cons_of_mem _ hb))

/-- The codes of several trees, each followed by the same further code. -/
theorem EmitsAll.fragment {ns : List Node} {vs : List Value} (h : EmitsAll t ns vs t')
    (ht : t.Sound)
    (hns : ∀ n ∈ ns, ∀ {t t' : SymbolTable} {v : Value}, t.Sound →
      n.value false t = (.ok v, t') → Fragment t v.code t')
    {tail : Code} (htail : ∀ t, Fragment t tail t) :
    Fragment t (vs.map fun v => v.code ++ tail).flatten t' := by
  induction h with
  | nil t => exact .nil t
  | cons first rest ih =>
    have hfirst := hns _ List.mem_cons_self ht first
    exact (hfirst.append (htail _)).append
      (ih (ht.value first) fun n hn => hns n (List.mem_cons_of_mem _ hn))

/-- The code of a tree is a fragment. -/
theorem Node.WellFormed.fragment {n : Node} (hn : n.WellFormed) {consumed : Bool}
    {t t' : SymbolTable} {v : Value} (ht : t.Sound) (hv : n.value consumed t = (.ok v, t')) :
    Fragment t v.code t' := by
  induction hn generalizing consumed t t' v with
  | @operand tok kind spelled =>
    by_cases hk : tok.kind = .identifier
    · obtain ⟨τ, s, hx, hs, rfl, rfl⟩ := (value_identifier_iff hk (spelled.text_ne_nil hk) ht).mp hv
      exact .read hx hs
    · have hliteral : tok.kind.isLiteral = true := by simpa [TokenKind.isOperand, hk] using kind
      obtain ⟨hvalue, rfl⟩ := (value_literal_iff hliteral).mp hv
      exact (spelled.literalCode hvalue).fragment
  | @assignment head x e kind target spelled value ih =>
    obtain ⟨u, t₁, τ, a, s, hu, hx, hs, -, rfl, rfl⟩ :=
      (value_assignment_iff kind (spelled.text_ne_nil target) value.emitsProper ht).mp hv
    have hcode : Fragment t (if τ = .real then u.realCode else u.code) t₁ := by
      split
      · exact Value.fragment_realCode (ih ht hu) (value.emitsProper ht hu).code
      · exact ih ht hu
    -- a copy of the value is made only where it is consumed
    have hdouble : Fragment t₁ (if consumed then [.word (.dup s)] else []) t₁ := by
      split
      · exact .plain t₁ rfl
      · exact .nil t₁
    exact (hcode.append hdouble).append (.assign hx hs)
  | @binary head op l r kind spelling left right ihl ihr =>
    obtain ⟨u₁, t₁, u₂, hu₁, hu₂, hcode⟩ :=
      (value_binary_iff kind spelling left.emitsProper right.emitsProper ht).mp hv
    exact hcode.fragment (ihl ht hu₁) (ihr (ht.value hu₁) hu₂) (left.emitsProper ht hu₁).code
      (right.emitsProper (ht.value hu₁) hu₂).code
  | @unary head op e kind spelling operand ih =>
    obtain ⟨u, hu, hcode⟩ := (value_unary_iff kind spelling operand.emitsProper ht).mp hv
    exact hcode.fragment (ih ht hu) (operand.emitsProper ht hu).code
  | @declaration head bs kind text nonempty each =>
    obtain ⟨code, hcode, rfl⟩ := (value_declaration_iff kind text nonempty each ht).mp hv
    exact hcode.fragment each
  | @loop head test body kind text nonempty condition each ih ihs =>
    obtain ⟨u, t₁, vs, hu, hvs, -, rfl⟩ :=
      (value_loop_iff kind text (fun m hm => (each m hm).emitsProper) ht).mp hv
    -- the body is a sequence of trees, with nothing between them
    have hbody : Fragment t₁ (vs.map Value.code).flatten t' := by
      simpa only [List.append_nil] using
        hvs.fragment (ht.value hu) (fun n hn _ _ _ ht hv => ihs n hn ht hv) Fragment.nil
    exact .loop (ih ht hu) hbody
  | @choose head test onTrue kind text condition branch ih ih₁ =>
    obtain ⟨u, t₁, v₁, hu, hv₁, -, rfl⟩ := (value_choose_iff kind text condition.emitsProper ht).mp hv
    exact (ih ht hu).append (.choose (ih₁ (ht.value hu) hv₁))
  | @chooseElse head test onTrue onFalse kind text condition branch otherwise ih ih₁ ih₂ =>
    obtain ⟨u, t₁, v₁, t₂, v₂, hu, hv₁, hv₂, -, rfl⟩ :=
      (value_chooseElse_iff kind text condition.emitsProper ht).mp hv
    exact (ih ht hu).append
      (.chooseElse (ih₁ (ht.value hu) hv₁) (ih₂ ((ht.value hu).value hv₁) hv₂))
  | @print head e kind text operand ih =>
    obtain ⟨u, pw, hu, hpw, rfl⟩ := (value_print_iff kind text operand.emitsProper ht).mp hv
    exact (ih ht hu).append (.plain t' (isPlain_printWord hpw))

end Trees

/-- The code of the lines of a program is a fragment. -/
theorem fragment_lines {p : Program} {t t' : SymbolTable} {vs : List Value}
    (hp : ∀ n ∈ p, n.WellFormed) (ht : t.Sound) (hvs : EmitsAll t p vs t') :
    Fragment t (vs.map fun v => v.code ++ [.word .newLine]).flatten t' :=
  hvs.fragment ht (fun n hn _ _ _ ht hv => (hp n hn).fragment ht hv) fun t => .plain t rfl

end PrefixForth

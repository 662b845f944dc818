import Mathlib.Data.List.Forall2
import PrefixForth.Tree

/-!
# The grammar of forms

The grammar, with the tokens of a form's head deciding about what follows it:

```
program  →  form*
form     →  ( := identifier oper )
         |  ( head oper … oper )         as many operands as the head admits
         |  ( let binding … binding )    one binding or more
oper     →  form | literal | identifier | - oper
binding  →  ( identifier type )
```

A derivation is a tree of the grammar's rules with the tokens at its leaves (`Form`, `Operand`,
`Binding`); it is valid when every token is of the kind that its place asks for. `tokens` reads the
derived sequence off a derivation and `tree` the program tree that it stands for.

Main statements:

* the grammar is unambiguous: a sequence has at most one valid derivation (`Derivation.unique`);
* the nodes of the derivation's trees, in pre-order, are the derived tokens without the parentheses
  (`Derivation.reflects_tokens`).
-/

namespace PrefixForth

namespace Grammar

/-! ### Derivations -/

/-- The derivation of a declaration of one name. -/
structure Binding where
  paren : Token
  name : Token
  type : Token
  close : Token

mutual

/-- The derivation of a form. -/
inductive Form where
  | assignment (paren head target : Token) (value : Operand) (close : Token)
  | operation (paren head : Token) (operands : List Operand) (close : Token)
  | declaration (paren head : Token) (bindings : List Binding) (close : Token)

/-- The derivation of an operand. -/
inductive Operand where
  | form (f : Form)
  | leaf (t : Token)
  | negation (sign : Token) (operand : Operand)

end

/-- The derivation of a program: one for each form. -/
abbrev Derivation := List Form

/-- The head takes `n` operands. -/
def Admits (head : Token) (n : Nat) : Prop :=
  match head.kind with
  | .binaryOperator => n = 2
  | .unaryOperator => n = 1
  | .minus => n = 1 ∨ n = 2
  | .statement =>
    (head.text = Statement.loop.keyword ∧ 2 ≤ n) ∨
      (head.text = Statement.choose.keyword ∧ (n = 2 ∨ n = 3)) ∨
      (head.text = Statement.print.keyword ∧ n = 1)
  | _ => False

/-! ### Validity -/

/-- Each token of the declaration is of the kind that its place asks for. -/
def Binding.Valid (b : Binding) : Prop :=
  b.paren.kind = .openParen ∧ b.name.kind = .identifier ∧ b.type.kind = .typeKeyword ∧
    b.close.kind = .closeParen

mutual

/-- The form follows the rules of the grammar. -/
def Form.Valid : Form → Prop
  | .assignment paren head target value close =>
    paren.kind = .openParen ∧ head.kind = .assignment ∧ target.kind = .identifier ∧ value.Valid ∧
      close.kind = .closeParen
  | .operation paren head operands close =>
    paren.kind = .openParen ∧ Admits head operands.length ∧ Operand.ValidAll operands ∧
      close.kind = .closeParen
  | .declaration paren head bindings close =>
    paren.kind = .openParen ∧ head.kind = .statement ∧ head.text = Statement.declare.keyword ∧
      bindings ≠ [] ∧ (∀ b ∈ bindings, b.Valid) ∧ close.kind = .closeParen

/-- The operand follows the rules of the grammar. -/
def Operand.Valid : Operand → Prop
  | .form f => f.Valid
  | .leaf t => t.kind.isOperand = true
  | .negation sign operand => sign.kind = .minus ∧ operand.Valid

/-- All the operands follow the rules of the grammar. -/
def Operand.ValidAll : List Operand → Prop
  | [] => True
  | o :: os => o.Valid ∧ Operand.ValidAll os

end

/-- The derivation follows the rules of the grammar. -/
def Derivation.Valid (d : Derivation) : Prop :=
  ∀ f ∈ d, f.Valid

/-! ### The derived tokens -/

/-- The tokens of a declaration. -/
def Binding.tokens (b : Binding) : List Token :=
  [b.paren, b.name, b.type, b.close]

mutual

/-- The tokens of a form, in order. -/
def Form.tokens : Form → List Token
  | .assignment paren head target value close =>
    paren :: head :: target :: (value.tokens ++ [close])
  | .operation paren head operands close =>
    paren :: head :: (Operand.tokensAll operands ++ [close])
  | .declaration paren head bindings close =>
    paren :: head :: (bindings.flatMap Binding.tokens ++ [close])

/-- The tokens of an operand, in order. -/
def Operand.tokens : Operand → List Token
  | .form f => f.tokens
  | .leaf t => [t]
  | .negation sign operand => sign :: operand.tokens

/-- The tokens of operands, in order. -/
def Operand.tokensAll : List Operand → List Token
  | [] => []
  | o :: os => o.tokens ++ Operand.tokensAll os

end

/-- The tokens of a derivation, in order. -/
def Derivation.tokens (d : Derivation) : List Token :=
  d.flatMap Form.tokens

/-! ### The tree of a derivation -/

/-- The head of a form with `n` operands: a minus sign is classified by their number. -/
def classified (head : Token) (n : Nat) : Token :=
  if head.kind = .minus then
    { head with kind := if n = 1 then .unaryOperator else .binaryOperator }
  else
    head

/-- The tree of a declaration. -/
def Binding.tree (b : Binding) : Node :=
  .mk b.paren [.leaf b.name, .leaf b.type]

mutual

/-- The tree of a form. -/
def Form.tree : Form → Node
  | .assignment _ head target value _ => .mk head [.leaf target, value.tree]
  | .operation _ head operands _ =>
    .mk (classified head operands.length) (Operand.treeAll operands)
  | .declaration _ head bindings _ => .mk head (bindings.map Binding.tree)

/-- The tree of an operand. -/
def Operand.tree : Operand → Node
  | .form f => f.tree
  | .leaf t => .leaf t
  | .negation sign operand => .mk { sign with kind := .unaryOperator } [operand.tree]

/-- The trees of operands. -/
def Operand.treeAll : List Operand → List Node
  | [] => []
  | o :: os => o.tree :: Operand.treeAll os

end

/-- The program that a derivation stands for. -/
def Derivation.program (d : Derivation) : Program :=
  d.map Form.tree

/-! ### Lists of operands -/

/-- Every operand is one node. -/
@[simp]
theorem Operand.length_treeAll (os : List Operand) : (treeAll os).length = os.length := by
  induction os with
  | nil => rfl
  | cons o os ih => simp [treeAll, ih]

theorem Operand.treeAll_append (os os' : List Operand) :
    treeAll (os ++ os') = treeAll os ++ treeAll os' := by
  induction os with
  | nil => rfl
  | cons o os ih => simp [treeAll, ih]

/-- The tokens of operands stand one after the other. -/
theorem Operand.tokensAll_append (os os' : List Operand) :
    tokensAll (os ++ os') = tokensAll os ++ tokensAll os' := by
  induction os with
  | nil => rfl
  | cons o os ih => simp [tokensAll, ih]

theorem Operand.validAll_append {os os' : List Operand} :
    ValidAll (os ++ os') ↔ ValidAll os ∧ ValidAll os' := by
  induction os with
  | nil => simp [ValidAll]
  | cons o os ih => simp [ValidAll, ih, and_assoc]

/-! ### Unambiguity -/

/-- The kinds that an operand starts with. -/
def StartsOperand (k : TokenKind) : Prop :=
  k = .openParen ∨ k.isOperand = true ∨ k = .minus

/-- No operand starts with a closing parenthesis. -/
theorem StartsOperand.ne_closeParen {k : TokenKind} (h : StartsOperand k) : k ≠ .closeParen := by
  rintro rfl
  rcases h with h | h | h <;> cases h

/-- The token after the parenthesis of a form. -/
def Form.head : Form → Token
  | .assignment _ head _ _ _ => head
  | .operation _ head _ _ => head
  | .declaration _ head _ _ => head

/-- The second token of a form is its head, whatever follows the form. -/
private theorem Form.head_eq {f f' : Form} {r r' : List Token}
    (h : f.tokens ++ r = f'.tokens ++ r') :
    f.head = f'.head := by
  cases f <;> cases f' <;> exact (List.cons.inj (List.cons.inj h).2).1

/-- A form starts with its parenthesis. -/
theorem Form.exists_tokens_eq {f : Form} (h : f.Valid) :
    ∃ paren rest, f.tokens = paren :: rest ∧ paren.kind = .openParen := by
  cases f with
  | assignment paren | operation paren | declaration paren =>
    simp only [Form.Valid] at h
    exact ⟨paren, _, rfl, h.1⟩

/-- An operand has a first token, by whose kind it is known. -/
theorem Operand.exists_tokens_eq {o : Operand} (h : o.Valid) :
    ∃ t rest, o.tokens = t :: rest ∧ StartsOperand t.kind := by
  cases o with
  | form f =>
    obtain ⟨paren, rest, heq, hkind⟩ := Form.exists_tokens_eq h
    exact ⟨paren, rest, heq, .inl hkind⟩
  | leaf t => exact ⟨t, [], rfl, .inr (.inl h)⟩
  | negation sign operand => exact ⟨sign, _, rfl, .inr (.inr h.1)⟩

/-- A head that takes operands starts neither an assignment nor a declaration. -/
theorem Admits.kind_ne {head : Token} {n : Nat} (h : Admits head n) :
    head.kind ≠ .assignment ∧
      ¬(head.kind = .statement ∧ head.text = Statement.declare.keyword) := by
  refine ⟨fun hk => by simp [Admits, hk] at h, fun ⟨hk, htext⟩ => ?_⟩
  simp only [Admits, hk, htext] at h
  revert h
  rintro (⟨h, -⟩ | ⟨h, -⟩ | ⟨h, -⟩) <;> exact absurd h (by decide)

/-- Declarations can be told from what follows them. -/
private theorem Binding.flatMap_tokens_inj {bs bs' : List Binding} {close close' : Token}
    {r r' : List Token} (hb : ∀ b ∈ bs, b.Valid) (hb' : ∀ b ∈ bs', b.Valid)
    (hc : close.kind = .closeParen) (hc' : close'.kind = .closeParen)
    (h : bs.flatMap tokens ++ close :: r = bs'.flatMap tokens ++ close' :: r') :
    bs = bs' ∧ close = close' ∧ r = r' := by
  induction bs generalizing bs' with
  | nil =>
    cases bs' with
    | nil => simpa using h
    | cons b' bs' =>
      obtain ⟨rfl, -⟩ := List.cons.inj h
      exact absurd ((hb' b' List.mem_cons_self).1.symm.trans hc) (by decide)
  | cons b bs ih =>
    cases bs' with
    | nil =>
      obtain ⟨rfl, -⟩ := List.cons.inj h
      exact absurd ((hb b List.mem_cons_self).1.symm.trans hc') (by decide)
    | cons b' bs' =>
      simp only [List.flatMap_cons, Binding.tokens, List.cons_append, List.nil_append,
        List.cons.injEq] at h
      obtain ⟨h₁, h₂, h₃, h₄, hrest⟩ := h
      obtain ⟨rfl, rfl, rfl⟩ := ih (fun b hb₁ => hb b (List.mem_cons_of_mem _ hb₁))
        (fun b hb₁ => hb' b (List.mem_cons_of_mem _ hb₁)) hrest
      cases b
      cases b'
      simp_all

mutual

/-- A sequence starts with at most one form, and with it in at most one way. -/
theorem Form.tokens_append_inj : ∀ (f f' : Form) {r r' : List Token}, f.Valid → f'.Valid →
    f.tokens ++ r = f'.tokens ++ r' → f = f' ∧ r = r'
  | .assignment paren head target value close, f', r, r', hf, hf', h => by
    -- forms of different kinds have heads of different kinds
    cases f' with
    | assignment paren' head' target' value' close' =>
      simp only [Form.Valid] at hf hf'
      simp only [Form.tokens, List.cons_append, List.append_assoc, List.nil_append,
        List.cons.injEq] at h
      obtain ⟨rfl, rfl, rfl, h⟩ := h
      obtain ⟨rfl, hrest⟩ := Operand.tokens_append_inj value value' hf.2.2.2.1 hf'.2.2.2.1 h
      obtain ⟨rfl, rfl⟩ := List.cons.inj hrest
      exact ⟨rfl, rfl⟩
    | operation paren' head' operands' close' =>
      simp only [Form.Valid] at hf hf'
      obtain rfl : head = head' := Form.head_eq h
      exact absurd hf.2.1 hf'.2.1.kind_ne.1
    | declaration paren' head' bindings' close' =>
      simp only [Form.Valid] at hf hf'
      obtain rfl : head = head' := Form.head_eq h
      exact absurd (hf.2.1.symm.trans hf'.2.1) (by decide)
  | .operation paren head operands close, f', r, r', hf, hf', h => by
    cases f' with
    | assignment paren' head' target' value' close' =>
      simp only [Form.Valid] at hf hf'
      obtain rfl : head = head' := Form.head_eq h
      exact absurd hf'.2.1 hf.2.1.kind_ne.1
    | operation paren' head' operands' close' =>
      simp only [Form.Valid] at hf hf'
      simp only [Form.tokens, List.cons_append, List.append_assoc, List.nil_append,
        List.cons.injEq] at h
      obtain ⟨rfl, rfl, h⟩ := h
      obtain ⟨rfl, rfl, rfl⟩ := Operand.tokensAll_append_inj operands operands' hf.2.2.1 hf'.2.2.1
        hf.2.2.2 hf'.2.2.2 h
      exact ⟨rfl, rfl⟩
    | declaration paren' head' bindings' close' =>
      simp only [Form.Valid] at hf hf'
      obtain rfl : head = head' := Form.head_eq h
      exact absurd ⟨hf'.2.1, hf'.2.2.1⟩ hf.2.1.kind_ne.2
  | .declaration paren head bindings close, f', r, r', hf, hf', h => by
    cases f' with
    | assignment paren' head' target' value' close' =>
      simp only [Form.Valid] at hf hf'
      obtain rfl : head = head' := Form.head_eq h
      exact absurd (hf.2.1.symm.trans hf'.2.1) (by decide)
    | operation paren' head' operands' close' =>
      simp only [Form.Valid] at hf hf'
      obtain rfl : head = head' := Form.head_eq h
      exact absurd ⟨hf.2.1, hf.2.2.1⟩ hf'.2.1.kind_ne.2
    | declaration paren' head' bindings' close' =>
      simp only [Form.Valid] at hf hf'
      simp only [Form.tokens, List.cons_append, List.append_assoc, List.nil_append,
        List.cons.injEq] at h
      obtain ⟨rfl, rfl, h⟩ := h
      obtain ⟨rfl, rfl, rfl⟩ := Binding.flatMap_tokens_inj hf.2.2.2.2.1 hf'.2.2.2.2.1
        hf.2.2.2.2.2 hf'.2.2.2.2.2 h
      exact ⟨rfl, rfl⟩

/-- A sequence starts with at most one operand, and with it in at most one way. -/
theorem Operand.tokens_append_inj : ∀ (o o' : Operand) {r r' : List Token}, o.Valid → o'.Valid →
    o.tokens ++ r = o'.tokens ++ r' → o = o' ∧ r = r'
  | .form f, o', r, r', ho, ho', h => by
    -- operands of different kinds start with tokens of different kinds
    obtain ⟨paren, rest, heq, hkind⟩ := Form.exists_tokens_eq ho
    cases o' with
    | form f' =>
      obtain ⟨rfl, rfl⟩ := Form.tokens_append_inj f f' ho ho' h
      exact ⟨rfl, rfl⟩
    | leaf t' =>
      rw [Operand.tokens, heq] at h
      obtain ⟨rfl, -⟩ := List.cons.inj h
      rw [Operand.Valid, hkind] at ho'
      cases ho'
    | negation sign' operand' =>
      rw [Operand.tokens, heq] at h
      obtain ⟨rfl, -⟩ := List.cons.inj h
      exact absurd (hkind.symm.trans ho'.1) (by decide)
  | .leaf t, o', r, r', ho, ho', h => by
    cases o' with
    | form f' =>
      obtain ⟨paren, rest, heq, hkind⟩ := Form.exists_tokens_eq ho'
      rw [Operand.tokens, Operand.tokens, heq] at h
      obtain ⟨rfl, -⟩ := List.cons.inj h
      rw [Operand.Valid, hkind] at ho
      cases ho
    | leaf t' =>
      obtain ⟨rfl, rfl⟩ := List.cons.inj h
      exact ⟨rfl, rfl⟩
    | negation sign' operand' =>
      obtain ⟨rfl, -⟩ := List.cons.inj h
      rw [Operand.Valid, ho'.1] at ho
      cases ho
  | .negation sign operand, o', r, r', ho, ho', h => by
    cases o' with
    | form f' =>
      obtain ⟨paren, rest, heq, hkind⟩ := Form.exists_tokens_eq ho'
      rw [Operand.tokens, Operand.tokens, heq] at h
      obtain ⟨rfl, -⟩ := List.cons.inj h
      exact absurd (ho.1.symm.trans hkind) (by decide)
    | leaf t' =>
      obtain ⟨rfl, -⟩ := List.cons.inj h
      rw [Operand.Valid, ho.1] at ho'
      cases ho'
    | negation sign' operand' =>
      obtain ⟨rfl, hrest⟩ := List.cons.inj h
      obtain ⟨rfl, rfl⟩ := Operand.tokens_append_inj operand operand' ho.2 ho'.2 hrest
      exact ⟨rfl, rfl⟩

/-- Operands up to a closing parenthesis are cut in one way only: none starts with one. -/
theorem Operand.tokensAll_append_inj : ∀ (os os' : List Operand) {close close' : Token}
    {r r' : List Token}, Operand.ValidAll os → Operand.ValidAll os' → close.kind = .closeParen →
    close'.kind = .closeParen → Operand.tokensAll os ++ close :: r = Operand.tokensAll os' ++ close' :: r' →
    os = os' ∧ close = close' ∧ r = r'
  | [], os', close, close', r, r', _, hos', hc, _, h => by
    cases os' with
    | nil =>
      obtain ⟨rfl, rfl⟩ := List.cons.inj h
      exact ⟨rfl, rfl, rfl⟩
    | cons o' os' =>
      obtain ⟨t, rest, heq, hstart⟩ := Operand.exists_tokens_eq hos'.1
      rw [Operand.tokensAll, Operand.tokensAll, heq] at h
      obtain ⟨rfl, -⟩ := List.cons.inj h
      exact absurd hc hstart.ne_closeParen
  | o :: os, os', close, close', r, r', hos, hos', hc, hc', h => by
    cases os' with
    | nil =>
      obtain ⟨t, rest, heq, hstart⟩ := Operand.exists_tokens_eq hos.1
      rw [Operand.tokensAll, Operand.tokensAll, heq] at h
      obtain ⟨rfl, -⟩ := List.cons.inj h
      exact absurd hc' hstart.ne_closeParen
    | cons o' os' =>
      rw [Operand.tokensAll, Operand.tokensAll, List.append_assoc, List.append_assoc] at h
      obtain ⟨rfl, hrest⟩ := Operand.tokens_append_inj o o' hos.1 hos'.1 h
      obtain ⟨rfl, rfl, rfl⟩ := Operand.tokensAll_append_inj os os' hos.2 hos'.2 hc hc' hrest
      exact ⟨rfl, rfl, rfl⟩

end

/-- A sequence of tokens has at most one derivation. -/
theorem Derivation.unique {d d' : Derivation} (hd : d.Valid) (hd' : d'.Valid)
    (h : d.tokens = d'.tokens) : d = d' := by
  induction d generalizing d' with
  | nil =>
    cases d' with
    | nil => rfl
    | cons f' d' =>
      obtain ⟨paren, rest, heq, -⟩ := Form.exists_tokens_eq (hd' f' List.mem_cons_self)
      simp [Derivation.tokens, heq] at h
  | cons f d ih =>
    cases d' with
    | nil =>
      obtain ⟨paren, rest, heq, -⟩ := Form.exists_tokens_eq (hd f List.mem_cons_self)
      simp [Derivation.tokens, heq] at h
    | cons f' d' =>
      obtain ⟨rfl, hrest⟩ := Form.tokens_append_inj f f' (hd f List.mem_cons_self)
        (hd' f' List.mem_cons_self) h
      rw [ih (fun g hg => hd g (List.mem_cons_of_mem _ hg))
        (fun g hg => hd' g (List.mem_cons_of_mem _ hg)) hrest]

/-! ### The nodes of the tree in pre-order -/

/-- The token is no parenthesis. -/
def notParen (t : Token) : Bool :=
  t.kind ≠ .openParen && t.kind ≠ .closeParen

mutual

/-- The nodes of a tree, each before its parts and the parts from left to right. -/
def preorder : Node → List Node
  | .mk t cs => .mk t cs :: preorderAll cs

/-- The nodes of some trees, in order. -/
def preorderAll : List Node → List Node
  | [] => []
  | c :: cs => preorder c ++ preorderAll cs

end

/-- The node stands for the token: it has its text and position, and its kind unless it is a minus
sign, which is a unary operator before one operand and a binary operator before two. -/
def StandsFor (t : Token) (n : Node) : Prop :=
  n.token.text = t.text ∧ n.token.position = t.position ∧
    ((t.kind ≠ .minus ∧ n.token.kind = t.kind) ∨
      (t.kind = .minus ∧ n.token.kind = .unaryOperator ∧ n.children.length = 1) ∨
      (t.kind = .minus ∧ n.token.kind = .binaryOperator ∧ n.children.length = 2))

/-- The tokens without the parentheses stand for the nodes, one by one. The node of a declaration of
one name has a parenthesis for its token and is left out. -/
def Reflects (ts : List Token) (ns : List Node) : Prop :=
  List.Forall₂ StandsFor (ts.filter notParen) (ns.filter fun n => notParen n.token)

namespace Reflects

variable {ts ts' : List Token} {ns ns' : List Node} {t : Token} {n : Node}

theorem nil : Reflects [] [] := List.Forall₂.nil

/-- Tokens and nodes are set against each other in two parts. -/
theorem append (h : Reflects ts ns) (h' : Reflects ts' ns') :
    Reflects (ts ++ ts') (ns ++ ns') := by
  rw [Reflects, List.filter_append, List.filter_append]
  exact List.rel_append h h'

/-- One more token, with the node that it stands for. -/
theorem cons (ht : notParen t = true) (hn : StandsFor t n) (hp : notParen n.token = true)
    (h : Reflects ts ns) : Reflects (t :: ts) (n :: ns) := by
  rw [Reflects, List.filter_cons, if_pos ht, List.filter_cons, if_pos hp]
  exact List.Forall₂.cons hn h

/-- A parenthesis stands for nothing. -/
theorem skip (ht : notParen t = false) (h : Reflects ts ns) : Reflects (t :: ts) ns := by
  rw [Reflects, List.filter_cons_of_neg (by simp [ht])]
  exact h

/-- The node of a declaration stands for nothing. -/
theorem skipNode (hn : notParen n.token = false) (h : Reflects ts ns) : Reflects ts (n :: ns) := by
  rw [Reflects, List.filter_cons_of_neg (by simp [hn])]
  exact h

end Reflects

/-- A token that is no minus sign and no parenthesis stands for a node of its own. -/
theorem Reflects.cons_mk {t : Token} {cs : List Node} {ts : List Token} {ns : List Node}
    (hparen : notParen t = true) (hminus : t.kind ≠ .minus) (h : Reflects ts ns) :
    Reflects (t :: ts) (.mk t cs :: ns) :=
  .cons hparen ⟨rfl, rfl, .inl ⟨hminus, rfl⟩⟩ hparen h

theorem notParen_of_kind {t : Token} {k : TokenKind} (h : t.kind = k)
    (hopen : k ≠ .openParen) (hclose : k ≠ .closeParen) : notParen t = true := by
  simp [notParen, h, hopen, hclose]

private theorem notParen_of_openParen {t : Token} (h : t.kind = .openParen) :
    notParen t = false := by
  simp [notParen, h]

private theorem notParen_of_closeParen {t : Token} (h : t.kind = .closeParen) :
    notParen t = false := by
  simp [notParen, h]

/-- The tokens of a declaration stand for its nodes. -/
theorem Binding.reflects_tokens {b : Binding} (h : b.Valid) :
    Reflects b.tokens (preorder b.tree) := by
  obtain ⟨hparen, hname, htype, hclose⟩ := h
  refine .skip (notParen_of_openParen hparen) (.skipNode (notParen_of_openParen hparen) ?_)
  refine .cons_mk (notParen_of_kind hname (by decide) (by decide)) (by simp [hname]) ?_
  refine .cons_mk (notParen_of_kind htype (by decide) (by decide)) (by simp [htype]) ?_
  exact .skip (notParen_of_closeParen hclose) .nil

private theorem Binding.reflects_flatMap {bs : List Binding} (h : ∀ b ∈ bs, b.Valid) :
    Reflects (bs.flatMap tokens) (preorderAll (bs.map tree)) := by
  induction bs with
  | nil => exact .nil
  | cons b bs ih =>
    exact (Binding.reflects_tokens (h b List.mem_cons_self)).append
      (ih fun b hb => h b (List.mem_cons_of_mem _ hb))

/-- The head of a form with `n` operands stands for its node. -/
theorem standsFor_classified {head : Token} {cs : List Node} (h : Admits head cs.length) :
    StandsFor head (.mk (classified head cs.length) cs) := by
  by_cases hminus : head.kind = .minus
  · simp only [Admits, hminus] at h
    rcases h with h | h
    · exact ⟨by simp [classified, Node.token, hminus], by simp [classified, Node.token, hminus],
        .inr (.inl ⟨hminus, by simp [classified, Node.token, hminus, h], h⟩)⟩
    · exact ⟨by simp [classified, Node.token, hminus], by simp [classified, Node.token, hminus],
        .inr (.inr ⟨hminus, by simp [classified, Node.token, hminus, h], h⟩)⟩
  · exact ⟨by simp [classified, Node.token, hminus], by simp [classified, Node.token, hminus],
      .inl ⟨hminus, by simp [classified, Node.token, hminus]⟩⟩

/-- Neither the head of a form nor what it is classified as is a parenthesis. -/
theorem Admits.notParen {head : Token} {n : Nat} (h : Admits head n) :
    notParen head = true ∧ Grammar.notParen (classified head n) = true := by
  have hopen : head.kind ≠ .openParen := fun hk => by simp [Admits, hk] at h
  have hclose : head.kind ≠ .closeParen := fun hk => by simp [Admits, hk] at h
  refine ⟨notParen_of_kind rfl hopen hclose, ?_⟩
  rw [classified]
  split
  · by_cases hn : n = 1 <;> simp [Grammar.notParen, hn]
  · exact notParen_of_kind rfl hopen hclose

mutual

/-- The tokens of a form stand for its nodes, in the order of the text, -/
theorem Form.reflects_tokens : ∀ f : Form, f.Valid → Reflects f.tokens (preorder f.tree)
  | .assignment paren head target value close, h => by
    simp only [Form.Valid] at h
    obtain ⟨hparen, hhead, htarget, hvalue, hclose⟩ := h
    refine .skip (notParen_of_openParen hparen) ?_
    refine .cons_mk (notParen_of_kind hhead (by decide) (by decide)) (by simp [hhead]) ?_
    refine .cons_mk (notParen_of_kind htarget (by decide) (by decide)) (by simp [htarget]) ?_
    exact (Operand.reflects_tokens value hvalue).append
      (.skip (notParen_of_closeParen hclose) .nil)
  | .operation paren head operands close, h => by
    simp only [Form.Valid] at h
    obtain ⟨hparen, hadmits, hoperands, hclose⟩ := h
    refine .skip (notParen_of_openParen hparen) ?_
    have hstands : StandsFor head
        (.mk (classified head operands.length) (Operand.treeAll operands)) := by
      rw [← Operand.length_treeAll operands] at hadmits ⊢
      exact standsFor_classified hadmits
    refine .cons hadmits.notParen.1 hstands hadmits.notParen.2 ?_
    have hclosed := (Operand.reflects_tokensAll operands hoperands).append
      (.skip (notParen_of_closeParen hclose) .nil)
    rwa [List.append_nil] at hclosed
  | .declaration paren head bindings close, h => by
    simp only [Form.Valid] at h
    obtain ⟨hparen, hhead, -, -, hbindings, hclose⟩ := h
    refine .skip (notParen_of_openParen hparen) ?_
    refine .cons_mk (notParen_of_kind hhead (by decide) (by decide)) (by simp [hhead]) ?_
    have hclosed := (Binding.reflects_flatMap hbindings).append
      (.skip (notParen_of_closeParen hclose) .nil)
    rwa [List.append_nil] at hclosed

/-- and so do those of an operand. -/
theorem Operand.reflects_tokens : ∀ o : Operand, o.Valid → Reflects o.tokens (preorder o.tree)
  | .form f, h => Form.reflects_tokens f h
  | .leaf t, h => by
    have hparen : notParen t = true := by
      rw [Operand.Valid] at h
      cases hk : t.kind <;> simp_all [notParen, TokenKind.isOperand, TokenKind.isLiteral]
    refine .cons_mk hparen (fun hk => ?_) .nil
    rw [Operand.Valid, hk] at h
    cases h
  | .negation sign operand, h => by
    obtain ⟨hsign, hoperand⟩ := h
    refine .cons (notParen_of_kind hsign (by decide) (by decide))
      ⟨rfl, rfl, .inr (.inl ⟨hsign, rfl, rfl⟩)⟩ rfl ?_
    rw [← List.append_nil (Operand.tokens operand)]
    exact (Operand.reflects_tokens operand hoperand).append .nil

private theorem Operand.reflects_tokensAll : ∀ os : List Operand, Operand.ValidAll os →
    Reflects (Operand.tokensAll os) (preorderAll (Operand.treeAll os))
  | [], _ => .nil
  | o :: os, h =>
    (Operand.reflects_tokens o h.1).append (Operand.reflects_tokensAll os h.2)

end

/-- The derived tokens without the parentheses are the nodes of the program, in pre-order. -/
theorem Derivation.reflects_tokens {d : Derivation} (h : d.Valid) :
    Reflects d.tokens (preorderAll d.program) := by
  induction d with
  | nil => exact .nil
  | cons f d ih =>
    exact (Form.reflects_tokens f (h f List.mem_cons_self)).append
      (ih fun g hg => h g (List.mem_cons_of_mem _ hg))

end Grammar

end PrefixForth

import PrefixForth.Proofs.Forth.Lines
import PrefixForth.Proofs.LifeCycle

/-!
# The symbols of a compilation

A program says of its names which of them its `let` forms declare, and with which types
(`Program.pairs`), and to which of them it assigns (`Program.targets`). Both are read off all nodes of
its trees, at any depth.

To generate code is to walk through the trees, and the walk works on the symbol table. What it does
there is a list of operations that the tree alone decides (`Node.operations`): names are read at the
leaves, assigned behind the code of the value, and declared in the order of the pairs. Where the walk
succeeds each of these operations has succeeded (`Node.performs_value`). What such a list leaves of a
name follows from what one operation does to it: a name is declared at most once, it has the type of
that operation, it is marked if an operation assigns to it, and no name is held that is not declared
(`Performs.nodup`, `Performs.type_eq_iff`, `Performs.assigned_iff`, `Performs.declared`).

The operations of a parsed program are those that its pairs and targets call for
(`Node.WellFormed.registers`). Main statement: `symbols_are_exact`.
-/

namespace PrefixForth

open Generation Grammar

/-! ### What a program says about its names -/

/-- The name and the keyword in a declaration of one name. -/
def Node.pair? (n : Node) : Option (Bytes × Bytes) :=
  match n.children with
  | x :: type :: _ => some (x.token.text, type.token.text)
  | _ => none

/-- The pairs of name and keyword, if the node is a `let`. -/
def Node.pairs (n : Node) : List (Bytes × Bytes) :=
  if n.token.kind = .statement ∧ n.token.text = Statement.declare.keyword then
    n.children.filterMap pair?
  else
    []

/-- The name that is assigned to, if the node is an assignment. -/
def Node.target? (n : Node) : Option Bytes :=
  if n.token.kind = .assignment then n.children.head?.map (·.token.text) else none

/-- The pairs of all `let` forms of a program, at any depth. -/
def Program.pairs (p : Program) : List (Bytes × Bytes) :=
  (preorderAll p).flatMap Node.pairs

/-- The targets of all assignments of a program, at any depth. -/
def Program.targets (p : Program) : List Bytes :=
  (preorderAll p).filterMap Node.target?

namespace SymbolOperation

variable {t t₁ t' : SymbolTable} {op : SymbolOperation} {ops ops' : List SymbolOperation}
  {x : Bytes} {τ : ValueType}

/-! ### Operations that succeed -/

/-- The name and the type that an operation declares. -/
def declared? : SymbolOperation → Option (Bytes × ValueType)
  | declare x τ => some (x, τ)
  | _ => none

/-- The operation succeeds, and its name is declared then. -/
def Uses (op : SymbolOperation) (t t' : SymbolTable) : Prop :=
  op.Succeeds t ∧ (op.apply t).2 = t' ∧ ∃ x, op.name? = some x ∧ (t'.entry x).type ≠ .unbound

/-- An operation never takes a type away. -/
theorem type_apply_ne_unbound (op : SymbolOperation) (h : (t.entry x).type ≠ .unbound) :
    ((op.apply t).2.entry x).type ≠ .unbound := by
  have hkept : ((op.apply t).2.entry x).type = (t.entry x).type :=
    (type_entry_apply_iff h).mpr (.inl rfl)
  rwa [hkept]

/-- A declaration that code generation makes is one that is performed. -/
private theorem uses_declare {e : Entry} (h : t.declare x τ = (.ok e, t')) :
    (declare x τ).Uses t t' := by
  have happly : (declare x τ).apply t = (.ok [e], t') := by simp [apply, h, Except.map]
  have hsucceeds : (declare x τ).Succeeds t := ⟨[e], by rw [happly]⟩
  have hτ : τ ≠ .unbound := (hasValue_iff.mp (succeeds_declare_iff.mp hsucceeds).1).1
  have htype : (((declare x τ).apply t).2.entry x).type = τ :=
    (type_entry_apply_iff hτ).mpr (.inr ⟨rfl, hsucceeds⟩)
  rw [happly] at htype
  exact ⟨hsucceeds, by rw [happly], x, rfl, htype ▸ hτ⟩

/-- An operation that succeeds on declared names only. -/
theorem uses_of_apply {e : Entry} (happly : op.apply t = (.ok [e], t')) (hname : op.name? = some x)
    (hx : op.Succeeds t → (t.entry x).type ≠ .unbound) : op.Uses t t' := by
  have hsucceeds : op.Succeeds t := ⟨[e], by rw [happly]⟩
  have hkept := type_apply_ne_unbound op (hx hsucceeds)
  rw [happly] at hkept
  exact ⟨hsucceeds, by rw [happly], x, hname, hkept⟩

/-- An assignment that it makes is performed, -/
private theorem uses_assign {e : Entry} (h : t.assign x = (.ok e, t')) : (assign x).Uses t t' := by
  have happly : (assign x).apply t = (.ok [e], t') := by simp [apply, h, Except.map]
  exact uses_of_apply happly rfl succeeds_assign_iff.mp

/-- and so is reading. -/
private theorem uses_read {e : Entry} (h : t.read x = (.ok e, t')) : (read x).Uses t t' := by
  have happly : (read x).apply t = (.ok [e], t') := by simp [apply, h, Except.map]
  exact uses_of_apply happly rfl fun hsucceeds => (succeeds_read_iff.mp hsucceeds).1

/-- The operations succeed one after another, and lead from the first table to the second. -/
inductive Performs : SymbolTable → List SymbolOperation → SymbolTable → Prop
  | nil (t : SymbolTable) : Performs t [] t
  | cons {t t₁ t' : SymbolTable} {op : SymbolOperation} {ops : List SymbolOperation}
      (first : op.Uses t t₁) (rest : Performs t₁ ops t') : Performs t (op :: ops) t'

namespace Performs

theorem single (h : op.Uses t t') : Performs t [op] t' := .cons h (.nil t')

/-- Operations are performed in two parts, the second on the table that the first leaves. -/
theorem append (h : Performs t ops t₁) (h' : Performs t₁ ops' t') : Performs t (ops ++ ops') t' := by
  induction h with
  | nil => exact h'
  | cons first _ ih => exact .cons first (ih h')

private theorem applyAll_eq (h : Performs t ops t') : applyAll t ops = t' := by
  induction h with
  | nil => rfl
  | cons first _ ih =>
    obtain ⟨-, rfl, -⟩ := first
    exact ih

/-- A name has the type that it had, or the one of an operation that declares it. -/
theorem type_eq_iff (h : Performs t ops t') (hτ : τ ≠ .unbound) :
    (t'.entry x).type = τ ↔ (t.entry x).type = τ ∨ declare x τ ∈ ops := by
  induction h with
  | nil => simp
  | cons first _ ih =>
    obtain ⟨hsucceeds, rfl, -⟩ := first
    rw [ih, type_entry_apply_iff hτ, List.mem_cons, and_iff_left hsucceeds, or_assoc,
      eq_comm (b := declare x τ)]

/-- A name is marked if it was so, or if an operation assigns to it. -/
theorem assigned_iff (h : Performs t ops t') :
    (t'.entry x).assigned = true ↔ (t.entry x).assigned = true ∨ assign x ∈ ops := by
  induction h with
  | nil => simp
  | cons first _ ih =>
    obtain ⟨hsucceeds, rfl, -⟩ := first
    rw [ih, assigned_entry_apply_iff, List.mem_cons, or_assoc, eq_comm (b := assign x)]
    refine or_congr_right (or_congr_left (and_iff_left_of_imp ?_))
    rintro rfl
    exact succeeds_assign_iff.mp hsucceeds

/-- If all names that are held are declared, it stays so. -/
theorem declared (h : Performs t ops t')
    (ht : ∀ x, t.lookup x ≠ none → (t.entry x).type ≠ .unbound) :
    ∀ x, t'.lookup x ≠ none → (t'.entry x).type ≠ .unbound := by
  induction h with
  | nil => exact ht
  | @cons _ _ _ op _ first _ ih =>
    obtain ⟨-, rfl, y, hy, htype⟩ := first
    refine ih fun x hx => ?_
    rcases lookup_apply_ne_none_iff.mp hx with hx | ⟨hname, -⟩
    · exact type_apply_ne_unbound op (ht x hx)
    · obtain rfl : y = x := Option.some.inj (hy.symm.trans hname)
      exact htype

/-- What is declared on the way was not declared before. -/
theorem type_eq_unbound (h : Performs t ops t') (hmem : declare x τ ∈ ops) :
    (t.entry x).type = .unbound := by
  induction h with
  | nil => simp at hmem
  | @cons _ _ _ op _ first _ ih =>
    obtain ⟨hsucceeds, rfl, -⟩ := first
    rcases List.mem_cons.mp hmem with rfl | hmem
    · exact (succeeds_declare_iff.mp hsucceeds).2
    · by_contra hne
      exact type_apply_ne_unbound op hne (ih hmem)

private theorem mem_declared_iff : (x, τ) ∈ ops.filterMap declared? ↔ declare x τ ∈ ops := by
  rw [List.mem_filterMap]
  constructor
  · rintro ⟨op, hmem, hop⟩
    cases op with
    | declare y σ =>
      obtain ⟨rfl, rfl⟩ : y = x ∧ σ = τ := by simpa [declared?] using hop
      exact hmem
    | assign | read | observe | lookup | list => cases hop
  · intro hmem
    exact ⟨declare x τ, hmem, rfl⟩

/-- No name is declared twice. -/
theorem nodup (h : Performs t ops t') : ((ops.filterMap declared?).map Prod.fst).Nodup := by
  induction h with
  | nil => exact List.nodup_nil
  | @cons _ _ _ op ops first rest ih =>
    cases op with
    | declare x τ =>
      obtain ⟨-, rfl, y, hy, htype⟩ := first
      obtain rfl : x = y := Option.some.inj hy
      refine List.nodup_cons.mpr ⟨fun hmem => ?_, ih⟩
      -- a later declaration of the name would not have succeeded
      obtain ⟨⟨z, σ⟩, hlater, rfl⟩ := List.mem_map.mp hmem
      exact htype (rest.type_eq_unbound (mem_declared_iff.mp hlater))
    | assign | read | observe | lookup | list => exact ih

end Performs

end SymbolOperation

open SymbolOperation

/-! ### What generating code does to the table -/

/-- The declaration that a pair of a `let` calls for, if its keyword is one of a type. -/
def Node.declaration? (n : Node) : Option SymbolOperation :=
  n.pair?.bind fun pair => (ValueType.ofKeyword? pair.2).map (.declare pair.1)

mutual

/-- The operations on the symbol table that a tree calls for, in their order. -/
def Node.operations : Node → List SymbolOperation
  | .mk t [] => if t.kind = .identifier then [.read t.text] else []
  | .mk t (c :: cs) =>
    if t.kind = .assignment then
      match cs with
      | operand :: _ => operand.operations ++ [.assign c.token.text]
      | [] => []
    else if t.kind = .statement ∧ t.text = Statement.declare.keyword then
      (c :: cs).filterMap Node.declaration?
    else
      Node.operationsAll (c :: cs)

/-- The operations of some trees, one tree after the other. -/
def Node.operationsAll : List Node → List SymbolOperation
  | [] => []
  | c :: cs => c.operations ++ Node.operationsAll cs

end

section Walk

variable {t t' : SymbolTable} {v : Value} {consumed : Bool}

private theorem performs_leafValue {token : Token} (h : leafValue token t = (.ok v, t')) :
    Performs t (Node.leaf token).operations t' := by
  rw [Node.leaf, Node.operations]
  cases hkind : token.kind with
  | identifier =>
    simp only [leafValue, hkind] at h
    obtain ⟨e, t₁, hread, hpure⟩ := bind_eq_ok_iff.mp h
    obtain ⟨-, rfl⟩ := pure_eq_ok_iff.mp hpure
    exact .single (uses_read hread)
  | intLiteral | realLiteral | stringLiteral | boolLiteral =>
    simp only [leafValue, hkind] at h
    obtain ⟨-, rfl⟩ := pure_eq_ok_iff.mp h
    exact .nil t
  | _ =>
    simp only [leafValue, hkind] at h
    exact (fail_eq_ok_iff.mp h).elim

private theorem performs_assignValue {x : Bytes} {u : Value}
    (h : assignValue x u consumed t = (.ok v, t')) : Performs t [.assign x] t' := by
  rw [assignValue] at h
  by_cases hvalue : (!u.type.hasValue) = true
  · rw [if_pos hvalue] at h
    exact (fail_eq_ok_iff.mp h).elim
  · rw [if_neg hvalue] at h
    obtain ⟨e, t₁, hentry, h⟩ := bind_eq_ok_iff.mp h
    obtain rfl : t = t₁ := congrArg Prod.snd hentry
    by_cases hfits : e.isDeclared ∧ e.type ≠ u.type ∧ ¬(e.type = .real ∧ u.type = .int)
    · rw [if_pos hfits] at h
      exact (fail_eq_ok_iff.mp h).elim
    · rw [if_neg hfits] at h
      obtain ⟨e', t₂, hassign, hpure⟩ := bind_eq_ok_iff.mp h
      obtain ⟨-, rfl⟩ := pure_eq_ok_iff.mp hpure
      exact .single (uses_assign hassign)

/-- Declarations are performed one name at a time. -/
private theorem performs_declareCode {bindings : List Node} {code : Code}
    (h : declareCode bindings t = (.ok code, t')) :
    Performs t (bindings.filterMap Node.declaration?) t' := by
  induction bindings generalizing t code with
  | nil =>
    obtain ⟨-, rfl⟩ := pure_eq_ok_iff.mp h
    exact .nil t
  | cons binding bindings ih =>
    rcases hchildren : binding.children with _ | ⟨x, _ | ⟨type, rest⟩⟩
    case nil | cons.nil =>
      simp only [declareCode, hchildren] at h
      exact (fail_eq_ok_iff.mp h).elim
    case cons.cons =>
      cases hτ : ValueType.ofKeyword? type.token.text with
      | none =>
        simp only [declareCode, hchildren, hτ] at h
        exact (fail_eq_ok_iff.mp h).elim
      | some τ =>
        simp only [declareCode, hchildren, hτ] at h
        obtain ⟨e, t₁, hdeclare, h⟩ := bind_eq_ok_iff.mp h
        obtain ⟨code', t₂, hrest, hpure⟩ := bind_eq_ok_iff.mp h
        obtain ⟨-, rfl⟩ := pure_eq_ok_iff.mp hpure
        have hfirst : binding.declaration? = some (.declare x.token.text τ) := by
          simp [Node.declaration?, Node.pair?, hchildren, hτ]
        rw [List.filterMap_cons_some hfirst]
        exact .cons (uses_declare hdeclare) (ih hrest)

mutual

/-- Where the value of a tree is found, the operations that the tree calls for have succeeded. -/
theorem Node.performs_value {consumed : Bool} {t t' : SymbolTable} {v : Value} :
    ∀ n : Node, n.value consumed t = (.ok v, t') → Performs t n.operations t'
  | .mk token [], h => by
    rw [Node.value] at h
    exact performs_leafValue h
  | .mk token (c :: cs), h => by
    unfold Node.value at h
    unfold Node.operations
    split at h
    · rename_i hkind
      rw [if_pos hkind]
      rcases cs with _ | ⟨operand, cs⟩
      · exact absurd h (by simp [fail_eq_ok_iff])
      · obtain ⟨u, t₁, hoperand, hassign⟩ := bind_eq_ok_iff.mp h
        exact (Node.performs_value operand hoperand).append (performs_assignValue hassign)
    · rename_i hkind
      rw [if_neg hkind]
      split at h
      · rename_i hlet
        rw [if_pos hlet]
        obtain ⟨code, t₁, hdeclare, hpure⟩ := bind_eq_ok_iff.mp h
        obtain ⟨-, rfl⟩ := pure_eq_ok_iff.mp hpure
        exact performs_declareCode hdeclare
      · rename_i hlet
        rw [if_neg hlet]
        obtain ⟨args, t₁, hargs, hform⟩ := bind_eq_ok_iff.mp h
        obtain ⟨-, rfl⟩ := ofExcept_eq_ok_iff.mp hform
        exact Node.performs_values (c :: cs) hargs

private theorem Node.performs_values {head : Token} {consumed : Bool} {i : Nat} {t t' : SymbolTable}
    {vs : List Value} :
    ∀ ns : List Node, Node.values head consumed i ns t = (.ok vs, t') →
      Performs t (Node.operationsAll ns) t'
  | [], h => by
    rw [Node.values] at h
    obtain ⟨-, rfl⟩ := pure_eq_ok_iff.mp h
    rw [Node.operationsAll]
    exact .nil t
  | n :: ns, h => by
    rw [Node.values] at h
    rw [Node.operationsAll]
    obtain ⟨u, t₁, hvalue, h⟩ := bind_eq_ok_iff.mp h
    obtain ⟨us, t₂, hvalues, hpure⟩ := bind_eq_ok_iff.mp h
    obtain ⟨-, rfl⟩ := pure_eq_ok_iff.mp hpure
    exact (Node.performs_value n hvalue).append (Node.performs_values ns hvalues)

end

private theorem performs_of_emitsAll {ns : List Node} {vs : List Value} (h : EmitsAll t ns vs t') :
    Performs t (Node.operationsAll ns) t' := by
  induction h with
  | nil t =>
    rw [Node.operationsAll]
    exact .nil t
  | cons first _ ih =>
    rw [Node.operationsAll]
    exact (Node.performs_value _ first).append ih

end Walk

/-! ### The operations that a program calls for -/

/-- The operations declare the pairs of the nodes, in their order, and assign to their targets. -/
def Registers (ms : List Node) (ops : List SymbolOperation) : Prop :=
  (ops.filterMap declared?).map (fun d => (d.1, some d.2)) =
      (ms.flatMap Node.pairs).map (fun pair => (pair.1, ValueType.ofKeyword? pair.2)) ∧
    ∀ x, SymbolOperation.assign x ∈ ops ↔ x ∈ ms.filterMap Node.target?

section Registers

variable {ms ms' : List Node} {ops ops' : List SymbolOperation} {n : Node}

private theorem registers_nil : Registers [] [] := ⟨rfl, by simp⟩

/-- What operations register for two lists of nodes, one after the other. -/
theorem Registers.append (h : Registers ms ops) (h' : Registers ms' ops') :
    Registers (ms ++ ms') (ops ++ ops') := by
  refine ⟨?_, fun x => ?_⟩
  · rw [List.filterMap_append, List.map_append, h.1, h'.1, List.flatMap_append, List.map_append]
  · rw [List.mem_append, h.2, h'.2, List.filterMap_append, List.mem_append]

/-- A node that is neither a `let` nor an assignment calls for nothing by itself. -/
theorem Registers.cons (h : Registers ms ops) (hpairs : n.pairs = []) (htarget : n.target? = none) :
    Registers (n :: ms) ops := by
  refine ⟨?_, fun x => ?_⟩
  · rw [List.flatMap_cons, hpairs, List.nil_append, h.1]
  · rw [List.filterMap_cons_none htarget, h.2]

private theorem registers_operationsAll {ns : List Node}
    (h : ∀ n ∈ ns, Registers (preorder n) n.operations) :
    Registers (preorderAll ns) (Node.operationsAll ns) := by
  induction ns with
  | nil => simpa [preorderAll, Node.operationsAll] using registers_nil
  | cons n ns ih =>
    rw [preorderAll, Node.operationsAll]
    exact (h n List.mem_cons_self).append (ih fun m hm => h m (List.mem_cons_of_mem n hm))

/-- The forms whose parts are walked one after the other. -/
theorem registers_form {head : Token} {ns : List Node} (hne : ns ≠ [])
    (hassign : head.kind ≠ .assignment)
    (hlet : ¬(head.kind = .statement ∧ head.text = Statement.declare.keyword))
    (h : ∀ n ∈ ns, Registers (preorder n) n.operations) :
    Registers (preorder (.mk head ns)) (Node.mk head ns).operations := by
  have hpairs : (Node.mk head ns).pairs = [] := if_neg hlet
  have htarget : (Node.mk head ns).target? = none := if_neg hassign
  obtain ⟨c, cs, rfl⟩ := List.exists_cons_of_ne_nil hne
  have hoperations : (Node.mk head (c :: cs)).operations = Node.operationsAll (c :: cs) := by
    unfold Node.operations
    rw [if_neg hassign, if_neg hlet]
  rw [preorder, hoperations]
  exact (registers_operationsAll h).cons hpairs htarget

/-- A declaration of one name calls for nothing but what the `let` around it does. -/
theorem Node.IsBinding.registers (h : n.IsBinding) : Registers (preorder n) [] := by
  obtain ⟨paren, x, type, rfl, hparen, hx, -, htype, -⟩ := h
  refine ⟨?_, fun y => ?_⟩
  · simp [preorder, preorderAll, Node.leaf, Node.pairs, Node.token, hparen, hx, htype]
  · simp [preorder, preorderAll, Node.leaf, Node.target?, Node.token, hparen, hx, htype]

private theorem registers_bindings {bs : List Node} (hbs : ∀ b ∈ bs, b.IsBinding) :
    Registers (preorderAll bs) [] := by
  induction bs with
  | nil => simpa [preorderAll] using registers_nil
  | cons b bs ih =>
    rw [preorderAll]
    exact (hbs b List.mem_cons_self).registers.append (ih fun m hm => hbs m (List.mem_cons_of_mem b hm))

private theorem Node.IsBinding.exists_declaration (h : n.IsBinding) :
    ∃ x keyword τ, n.pair? = some (x, keyword) ∧ ValueType.ofKeyword? keyword = some τ ∧
      n.declaration? = some (.declare x τ) := by
  obtain ⟨paren, x, type, rfl, -, -, -, -, τ, hτ⟩ := h
  refine ⟨x.text, type.text, τ, rfl, hτ, ?_⟩
  simp [Node.declaration?, Node.pair?, Node.children, Node.leaf, Node.token, hτ]

/-- The operations of a `let` are the declarations of its pairs. -/
theorem declared?_declarations {bs : List Node} (hbs : ∀ b ∈ bs, b.IsBinding) :
    ((bs.filterMap Node.declaration?).filterMap declared?).map (fun d => (d.1, some d.2)) =
      (bs.filterMap Node.pair?).map (fun pair => (pair.1, ValueType.ofKeyword? pair.2)) := by
  induction bs with
  | nil => rfl
  | cons b bs ih =>
    obtain ⟨x, keyword, τ, hpair, hτ, hdeclaration⟩ := (hbs b List.mem_cons_self).exists_declaration
    have ih := ih fun m hm => hbs m (List.mem_cons_of_mem b hm)
    have hdeclared : declared? (.declare x τ) = some (x, τ) := rfl
    rw [List.filterMap_cons_some hdeclaration, List.filterMap_cons_some hpair,
      List.filterMap_cons_some hdeclared, List.map_cons, List.map_cons, ih, hτ]

private theorem assign_not_mem_declarations {bs : List Node} {x : Bytes} :
    SymbolOperation.assign x ∉ bs.filterMap Node.declaration? := by
  intro hmem
  obtain ⟨b, -, hb⟩ := List.mem_filterMap.mp hmem
  obtain ⟨pair, -, hpair⟩ := Option.bind_eq_some_iff.mp hb
  obtain ⟨τ, -, hτ⟩ := Option.map_eq_some_iff.mp hpair
  cases hτ

/-- A form with declarations registers them, and no assignment. -/
private theorem registers_let {head : Token} {bs : List Node} (hkind : head.kind = .statement)
    (htext : head.text = Statement.declare.keyword) (hne : bs ≠ []) (hbs : ∀ b ∈ bs, b.IsBinding) :
    Registers (preorder (.mk head bs)) (Node.mk head bs).operations := by
  have hpairs : (Node.mk head bs).pairs = bs.filterMap Node.pair? := if_pos ⟨hkind, htext⟩
  have htarget : (Node.mk head bs).target? = none := if_neg (by simp [Node.token, hkind])
  have hoperations : (Node.mk head bs).operations = bs.filterMap Node.declaration? := by
    obtain ⟨c, cs, rfl⟩ := List.exists_cons_of_ne_nil hne
    unfold Node.operations
    rw [if_neg (by simp [hkind]), if_pos ⟨hkind, htext⟩]
  obtain ⟨hbelow, hbelow'⟩ := registers_bindings hbs
  rw [preorder, hoperations]
  refine ⟨?_, fun x => ?_⟩
  · rw [List.flatMap_cons, hpairs, List.map_append, ← hbelow, declared?_declarations hbs]
    simp
  · rw [List.filterMap_cons_none htarget, ← hbelow']
    exact iff_of_false assign_not_mem_declarations List.not_mem_nil

/-- An assignment registers its target behind what its operand registers. -/
private theorem registers_assignment {head x : Token} {e : Node} (hkind : head.kind = .assignment)
    (hx : x.kind = .identifier) (h : Registers (preorder e) e.operations) :
    Registers (preorder (.mk head [.leaf x, e])) (Node.mk head [.leaf x, e]).operations := by
  have hoperations : (Node.mk head [.leaf x, e]).operations = e.operations ++ [.assign x.text] := by
    rw [Node.operations, if_pos hkind]
    rfl
  have hnodes : preorder (.mk head [.leaf x, e]) = .mk head [.leaf x, e] :: .leaf x :: preorder e := by
    simp [preorder, preorderAll, Node.leaf]
  have hpairs : (Node.mk head [.leaf x, e]).pairs = [] := if_neg (by simp [Node.token, hkind])
  have htarget : (Node.mk head [.leaf x, e]).target? = some x.text := if_pos hkind
  have hbelow : Registers (.leaf x :: preorder e) e.operations :=
    h.cons (if_neg (by simp [Node.leaf, Node.token, hx])) (if_neg (by simp [Node.leaf, Node.token, hx]))
  rw [hoperations, hnodes]
  refine ⟨?_, fun y => ?_⟩
  · rw [List.flatMap_cons, hpairs, List.nil_append, ← hbelow.1, List.filterMap_append]
    simp [declared?]
  · rw [List.filterMap_cons_some htarget, List.mem_append, hbelow.2, List.mem_cons]
    simp [or_comm]

/-- The operations of a well-formed tree are those that its `let` forms and assignments call for. -/
theorem Node.WellFormed.registers (h : n.WellFormed) : Registers (preorder n) n.operations := by
  have hother : ∀ {head : Token} {k : Statement}, head.text = k.keyword → k ≠ .declare →
      ¬(head.kind = .statement ∧ head.text = Statement.declare.keyword) := by
    rintro head k htext hk ⟨-, hlet⟩
    have hsame := congrArg Statement.ofKeyword? (htext.symm.trans hlet)
    rw [Statement.ofKeyword?_keyword, Statement.ofKeyword?_keyword] at hsame
    exact hk (Option.some.inj hsame)
  induction h with
  | @operand t kind spelled =>
    have hpairs : (Node.mk t []).pairs = [] := by simp [Node.pairs, Node.children]
    have htarget : (Node.mk t []).target? = none := by simp [Node.target?, Node.children]
    have hnodes : Registers [] (Node.mk t []).operations := by
      rw [Node.operations]
      split
      · exact ⟨rfl, by simp⟩
      · exact registers_nil
    simpa [preorder, preorderAll] using hnodes.cons hpairs htarget
  | assignment kind target spelled value ih => exact registers_assignment kind target ih
  | binary kind spelling left right ihl ihr =>
    exact registers_form (by simp) (by simp [kind]) (by simp [kind]) (by simp [ihl, ihr])
  | unary kind spelling operand ih =>
    exact registers_form (by simp) (by simp [kind]) (by simp [kind]) (by simp [ih])
  | declaration kind text nonempty each => exact registers_let kind text nonempty each
  | loop kind text nonempty condition each ih ihs =>
    exact registers_form (by simp) (by simp [kind]) (hother text (by decide))
      (by simpa [ih] using ihs)
  | choose kind text condition branch ih ih₁ =>
    exact registers_form (by simp) (by simp [kind]) (hother text (by decide)) (by simp [ih, ih₁])
  | chooseElse kind text condition branch otherwise ih ih₁ ih₂ =>
    exact registers_form (by simp) (by simp [kind]) (hother text (by decide)) (by simp [ih, ih₁, ih₂])
  | print kind text operand ih =>
    exact registers_form (by simp) (by simp [kind]) (hother text (by decide)) (by simp [ih])

/-- Operations that declare the pairs of the nodes declare each name as often as the pairs do. -/
theorem Registers.map_fst (h : Registers ms ops) :
    (ops.filterMap declared?).map Prod.fst = (ms.flatMap Node.pairs).map Prod.fst := by
  have hnames := congrArg (List.map Prod.fst) h.1
  rwa [List.map_map, List.map_map] at hnames

/-- A name is declared with a type if it stands in a pair with a keyword for the type. -/
theorem Registers.declare_mem_iff (h : Registers ms ops) {x : Bytes} {τ : ValueType} :
    SymbolOperation.declare x τ ∈ ops ↔
      ∃ keyword, (x, keyword) ∈ ms.flatMap Node.pairs ∧ ValueType.ofKeyword? keyword = some τ := by
  have hmem : (x, some τ) ∈ (ops.filterMap declared?).map (fun d => (d.1, some d.2)) ↔
      SymbolOperation.declare x τ ∈ ops := by
    rw [← Performs.mem_declared_iff, List.mem_map]
    constructor
    · rintro ⟨⟨y, σ⟩, hmem, heq⟩
      obtain ⟨rfl, rfl⟩ : y = x ∧ σ = τ := by simpa using heq
      exact hmem
    · intro hmem
      exact ⟨(x, τ), hmem, rfl⟩
  rw [← hmem, h.1, List.mem_map]
  constructor
  · rintro ⟨⟨y, keyword⟩, hpair, heq⟩
    obtain ⟨rfl, hτ⟩ : y = x ∧ ValueType.ofKeyword? keyword = some τ := by simpa using heq
    exact ⟨keyword, hpair, hτ⟩
  · rintro ⟨keyword, hpair, hτ⟩
    exact ⟨(x, keyword), hpair, by rw [hτ]⟩

end Registers

/-! ### The table of a compilation -/

/-- An entry is in an ordered table exactly if its name is held there, with this entry. -/
theorem SymbolTable.Ordered.mem_entries_iff {t : SymbolTable} (h : t.Ordered) {e : Entry} :
    e ∈ t.entries ↔ t.lookup e.name ≠ none ∧ t.entry e.name = e := by
  constructor
  · intro he
    have hlookup := h.lookup_of_mem he
    exact ⟨by simp [hlookup], SymbolTable.entry_of_lookup hlookup⟩
  · rintro ⟨hheld, hentry⟩
    obtain ⟨f, hf⟩ := Option.ne_none_iff_exists'.mp hheld
    have hfe : f = e := (SymbolTable.entry_of_lookup hf).symm.trans hentry
    exact hfe ▸ List.mem_of_find?_eq_some hf

/-- A name that has a type is held. -/
theorem SymbolTable.lookup_ne_none_of_type {t : SymbolTable} {x : Bytes}
    (h : (t.entry x).type ≠ .unbound) : t.lookup x ≠ none := by
  intro hnone
  rw [SymbolTable.entry, hnone] at h
  exact h rfl

/-- **The symbols of a compilation are exact.** The table stands in the strict order of the names. No
name stands in two pairs of the `let` forms of the program. And an entry is in the table exactly if its
name stands in a pair, with a keyword for the type of the entry, and the entry is marked as assigned if
and only if some assignment of the program, at any depth, has the name as its target. -/
theorem symbols_are_exact {s : Bytes} {c : Compilation} (h : compileFully s = .ok c) :
    parse s = .ok c.program ∧
    (c.symbols.entries.map Entry.name).Pairwise (· < ·) ∧
    (c.program.pairs.map Prod.fst).Nodup ∧
    ∀ e : Entry, e ∈ c.symbols.entries ↔
      (∃ keyword, (e.name, keyword) ∈ c.program.pairs ∧ ValueType.ofKeyword? keyword = some e.type) ∧
        (e.assigned = true ↔ e.name ∈ c.program.targets) := by
  obtain ⟨vs, hwf, hemits, -⟩ := exists_of_compileFully h
  have hperforms := performs_of_emitsAll hemits
  have hregisters : Registers (preorderAll c.program) (Node.operationsAll c.program) :=
    registers_operationsAll fun n hn => (hwf n hn).registers
  have hordered : c.symbols.Ordered := by
    rw [← hperforms.applyAll_eq]
    exact ordered_tableAfter _
  have hdeclared := hperforms.declared (by simp [SymbolTable.lookup, SymbolTable.empty])
  -- the empty table has neither types nor marks, so all of them come from the operations
  have htype : ∀ x τ, τ ≠ .unbound → ((c.symbols.entry x).type = τ ↔
      ∃ keyword, (x, keyword) ∈ c.program.pairs ∧ ValueType.ofKeyword? keyword = some τ) := by
    intro x τ hτ
    have hempty : (SymbolTable.empty.entry x).type ≠ τ := hτ.symm
    rw [hperforms.type_eq_iff hτ, or_iff_right hempty]
    exact hregisters.declare_mem_iff
  have hassigned : ∀ x, (c.symbols.entry x).assigned = true ↔ x ∈ c.program.targets := by
    intro x
    have hempty : ¬(SymbolTable.empty.entry x).assigned = true := Bool.false_ne_true
    rw [hperforms.assigned_iff, or_iff_right hempty]
    exact hregisters.2 x
  refine ⟨parse_of_compileFully h, hordered, ?_, fun e => ?_⟩
  · have hnodup := hperforms.nodup
    rwa [hregisters.map_fst] at hnodup
  · rw [hordered.mem_entries_iff]
    constructor
    · rintro ⟨hheld, hentry⟩
      have hbound := hdeclared e.name hheld
      rw [hentry] at hbound
      refine ⟨(htype e.name e.type hbound).mp (by rw [hentry]), ?_⟩
      rw [← hassigned, hentry]
    · rintro ⟨⟨keyword, hpair, hτ⟩, hmark⟩
      have hbound : e.type ≠ .unbound := by
        intro hunbound
        have hstorage := ValueType.storage?_isSome_of_ofKeyword? hτ
        rw [hunbound] at hstorage
        cases hstorage
      have hsame := (htype e.name e.type hbound).mpr ⟨keyword, hpair, hτ⟩
      refine ⟨SymbolTable.lookup_ne_none_of_type (hsame ▸ hbound), ?_⟩
      have hmarked : (c.symbols.entry e.name).assigned = e.assigned :=
        Bool.eq_iff_iff.mpr ((hassigned e.name).trans hmark.symm)
      have hext : ∀ f : Entry, f.name = e.name → f.type = e.type → f.assigned = e.assigned → f = e := by
        rintro ⟨name, type, assigned⟩ rfl rfl rfl
        rfl
      exact hext _ (SymbolTable.entry_name c.symbols e.name) hsame hmarked

/-- Declarations in a branch, and an assignment that is the value of another. -/
theorem symbols_are_exact_nested :
    ∃ c, compileFully (utf8 "(let (b int)) (if true (let (a real) (c string)) (:= a (:= b 1)))") =
        .ok c ∧
      (c.program.pairs.map Prod.fst).Nodup ∧
      c.program.pairs = [(utf8 "b", utf8 "int"), (utf8 "a", utf8 "real"), (utf8 "c", utf8 "string")] ∧
      c.program.targets = [utf8 "a", utf8 "b"] ∧
      (⟨utf8 "a", .real, true⟩ : Entry) ∈ c.symbols.entries ∧
      (⟨utf8 "c", .string, false⟩ : Entry) ∈ c.symbols.entries ∧
      (⟨utf8 "c", .string, true⟩ : Entry) ∉ c.symbols.entries := by
  have hrun : ((compileFully
      (utf8 "(let (b int)) (if true (let (a real) (c string)) (:= a (:= b 1)))")).toOption.any fun c =>
        decide (c.program.pairs =
          [(utf8 "b", utf8 "int"), (utf8 "a", utf8 "real"), (utf8 "c", utf8 "string")]) &&
        decide (c.program.targets = [utf8 "a", utf8 "b"])) = true := by decide +kernel
  simp only [Option.any_eq_true, toOption_eq_some_iff, Bool.and_eq_true, decide_eq_true_eq] at hrun
  obtain ⟨c, hc, hpairs, htargets⟩ := hrun
  obtain ⟨-, -, hnodup, hentries⟩ := symbols_are_exact hc
  refine ⟨c, hc, hnodup, hpairs, htargets, ?_⟩
  simp only [hentries, hpairs, htargets]
  exact ⟨⟨⟨utf8 "real", by decide +kernel, by decide +kernel⟩, by decide +kernel⟩,
    ⟨⟨utf8 "string", by decide +kernel, by decide +kernel⟩, by decide +kernel⟩,
    fun hmarked => absurd hmarked.2 (by decide +kernel)⟩

end PrefixForth

import PrefixForth.Proofs.Forth.Generation
import PrefixForth.Proofs.Forth.Operators
import PrefixForth.Proofs.Tree.Shape

/-!
# The code of each shape

For every shape of a well-formed tree one statement says when its value is generated and what its
code is, in terms of its parts (`value_literal_iff` to `value_loop_iff`). Codes are plain
concatenations there: no part of a well-formed tree has a blank code, so nothing is left out when
codes are joined (`Node.WellFormed.emitsProper`).

All that is said about the code of parsed programs is proved by induction on the shape of their trees,
with these statements for the cases.
-/

namespace PrefixForth

open Generation

/-! ### The parts of a form -/

section Parts

variable {head : Token} {c : Bool} {t t' : SymbolTable} {w : Value}

theorem values_nil_iff {i : Nat} {vs : List Value} :
    Node.values head c i [] t = (.ok vs, t') ↔ vs = [] ∧ t' = t := by
  rw [Node.values, pure_eq_ok_iff]
  exact and_congr eq_comm eq_comm

/-- Operands are generated from left to right, each with the table that the one before leaves. -/
theorem values_cons_iff {i : Nat} {n : Node} {ns : List Node} {vs : List Value} :
    Node.values head c i (n :: ns) t = (.ok vs, t') ↔ ∃ v t₁ us,
      n.value (consumesPart head i c) t = (.ok v, t₁) ∧
      Node.values head c (i + 1) ns t₁ = (.ok us, t') ∧ vs = v :: us := by
  simp only [Node.values, bind_eq_ok_iff, pure_eq_ok_iff]
  constructor
  · rintro ⟨v, t₁, hv, us, t₂, hus, rfl, rfl⟩
    exact ⟨v, t₁, us, hv, hus, rfl⟩
  · rintro ⟨v, t₁, us, hv, hus, rfl⟩
    exact ⟨v, t₁, hv, us, t', hus, rfl, rfl⟩

/-- A form that is neither an assignment nor a `let` has the value that its parts give. -/
theorem value_form_iff {n : Node} {ns : List Node} (hassign : head.kind ≠ .assignment)
    (hlet : ¬(head.kind = .statement ∧ head.text = Statement.declare.keyword)) :
    (Node.mk head (n :: ns)).value c t = (.ok w, t') ↔ ∃ vs,
      Node.values head c 0 (n :: ns) t = (.ok vs, t') ∧ formValue head vs = .ok w := by
  unfold Node.value
  rw [if_neg hassign, if_neg hlet, bind_eq_ok_iff]
  constructor
  · rintro ⟨vs, t₁, hvs, h⟩
    obtain ⟨hw, rfl⟩ := ofExcept_eq_ok_iff.mp h
    exact ⟨vs, hvs, hw⟩
  · rintro ⟨vs, hvs, hw⟩
    exact ⟨vs, t', hvs, ofExcept_eq_ok_iff.mpr ⟨hw, rfl⟩⟩

private theorem exists_values_nil_iff {i : Nat} {P : List Value → Prop} :
    (∃ vs, Node.values head c i [] t = (.ok vs, t') ∧ P vs) ↔ t' = t ∧ P [] := by
  simp only [values_nil_iff, and_assoc, exists_eq_left]

/-- What holds of the values of the parts, by the value of the first part. -/
theorem exists_values_cons_iff {i : Nat} {n : Node} {ns : List Node} {P : List Value → Prop} :
    (∃ vs, Node.values head c i (n :: ns) t = (.ok vs, t') ∧ P vs) ↔ ∃ v t₁,
      n.value (consumesPart head i c) t = (.ok v, t₁) ∧
      ∃ us, Node.values head c (i + 1) ns t₁ = (.ok us, t') ∧ P (v :: us) := by
  simp only [values_cons_iff]
  constructor
  · rintro ⟨_, ⟨v, t₁, us, hv, hus, rfl⟩, h⟩
    exact ⟨v, t₁, hv, us, hus, h⟩
  · rintro ⟨v, t₁, hv, us, hus, h⟩
    exact ⟨_, ⟨v, t₁, us, hv, hus, rfl⟩, h⟩

/-- The part of a form with one part. -/
theorem value_one_iff {n : Node} (hassign : head.kind ≠ .assignment)
    (hlet : ¬(head.kind = .statement ∧ head.text = Statement.declare.keyword)) :
    (Node.mk head [n]).value c t = (.ok w, t') ↔ ∃ u,
      n.value (consumesPart head 0 c) t = (.ok u, t') ∧ formValue head [u] = .ok w := by
  simp [value_form_iff hassign hlet, exists_values_cons_iff, exists_values_nil_iff]

/-- The parts of a form with two parts. -/
theorem value_two_iff {n m : Node} (hassign : head.kind ≠ .assignment)
    (hlet : ¬(head.kind = .statement ∧ head.text = Statement.declare.keyword)) :
    (Node.mk head [n, m]).value c t = (.ok w, t') ↔ ∃ u t₁ v,
      n.value (consumesPart head 0 c) t = (.ok u, t₁) ∧
      m.value (consumesPart head 1 c) t₁ = (.ok v, t') ∧ formValue head [u, v] = .ok w := by
  simp [value_form_iff hassign hlet, exists_values_cons_iff, exists_values_nil_iff]

/-- The parts of a form with three parts. -/
theorem value_three_iff {n m o : Node} (hassign : head.kind ≠ .assignment)
    (hlet : ¬(head.kind = .statement ∧ head.text = Statement.declare.keyword)) :
    (Node.mk head [n, m, o]).value c t = (.ok w, t') ↔ ∃ u t₁ v t₂ x,
      n.value (consumesPart head 0 c) t = (.ok u, t₁) ∧
      m.value (consumesPart head 1 c) t₁ = (.ok v, t₂) ∧
      o.value (consumesPart head 2 c) t₂ = (.ok x, t') ∧ formValue head [u, v, x] = .ok w := by
  simp [value_form_iff hassign hlet, exists_values_cons_iff, exists_values_nil_iff]

/-- Trees whose values are not taken, one after the other. -/
inductive EmitsAll : SymbolTable → List Node → List Value → SymbolTable → Prop
  | nil (t : SymbolTable) : EmitsAll t [] [] t
  | cons {t t₁ t' : SymbolTable} {n : Node} {ns : List Node} {v : Value} {vs : List Value}
      (first : n.value false t = (.ok v, t₁)) (rest : EmitsAll t₁ ns vs t') :
      EmitsAll t (n :: ns) (v :: vs) t'

/-- A sequence of trees leaves a sound table sound. -/
theorem EmitsAll.sound {ns : List Node} {vs : List Value} (h : EmitsAll t ns vs t') (ht : t.Sound) :
    t'.Sound := by
  induction h with
  | nil => exact ht
  | cons first _ ih => exact ih (ht.value first)

/-- A sequence of trees takes no declaration away. -/
theorem EmitsAll.extends {ns : List Node} {vs : List Value} (h : EmitsAll t ns vs t') :
    t.Extends t' := by
  induction h with
  | nil t => exact SymbolTable.admits_extends.refl t
  | cons first _ ih => exact (SymbolTable.extends_value first).trans ih

/-- The parts of a loop's body. -/
theorem values_loop_iff (hk : head.kind = .statement) (htext : head.text = Statement.loop.keyword)
    {i : Nat} {ns : List Node} {vs : List Value} :
    Node.values head c (i + 1) ns t = (.ok vs, t') ↔ EmitsAll t ns vs t' := by
  have hpart : ∀ j, consumesPart head (j + 1) c = false := fun j => by
    simp [consumesPart, hk, htext]
  induction ns generalizing i t vs with
  | nil =>
    rw [values_nil_iff]
    constructor
    · rintro ⟨rfl, rfl⟩
      exact .nil _
    · rintro ⟨⟩
      exact ⟨rfl, rfl⟩
  | cons n ns ih =>
    rw [values_cons_iff, hpart]
    constructor
    · rintro ⟨v, t₁, us, hv, hus, rfl⟩
      exact .cons hv (ih.mp hus)
    · rintro (_ | ⟨hv, hus⟩)
      exact ⟨_, _, _, hv, ih.mpr hus, rfl⟩

end Parts

/-! ### The code of each shape -/

/-- All values of the tree are proper. -/
def Node.EmitsProper (n : Node) : Prop :=
  ∀ {c : Bool} {t t' : SymbolTable} {v : Value}, t.Sound → n.value c t = (.ok v, t') → v.Proper

/-- The value of a literal. -/
def literalValue? (t : Token) : Option Value :=
  match t.kind with
  | .intLiteral => some ⟨.int, [.int t.text]⟩
  | .realLiteral => some ⟨.real, [.real (realNumeral t.text)]⟩
  | .stringLiteral => some ⟨.string, [.string (stringBody t.text)]⟩
  | .boolLiteral => some ⟨.bool, [.flag t.text]⟩
  | _ => none

/-- The text between the quotes of a string literal. -/
theorem stringBody_quoted (body : Bytes) :
    stringBody (quoteMark :: (body ++ [quoteMark])) = body := by
  simp [stringBody, dropLeading, dropTrailing]

section Shapes

variable {head : Token} {c : Bool} {t t' : SymbolTable} {w : Value}

/-- A literal stands for its value and leaves the table as it is. -/
theorem value_literal_iff {tok : Token} (hk : tok.kind.isLiteral = true) :
    (Node.mk tok []).value c t = (.ok w, t') ↔ literalValue? tok = some w ∧ t' = t := by
  rw [Node.value, leafValue, literalValue?]
  cases h : tok.kind <;> simp only [h, TokenKind.isLiteral, reduceCtorEq] at hk ⊢ <;>
    simp [pure, eq_comm]

/-- An identifier stands for the variable in scope, which has to be assigned, and is fetched. -/
theorem value_identifier_iff {tok : Token} (hk : tok.kind = .identifier) (hx : tok.text ≠ [])
    (ht : t.Sound) :
    (Node.mk tok []).value c t = (.ok w, t') ↔ ∃ τ s, t.scope tok.text = some ⟨τ, true⟩ ∧
      τ.storage? = some s ∧ w = ⟨τ, [.name tok.text, .word (.fetch s)]⟩ ∧
      t' = t.put ⟨tok.text, τ, true⟩ := by
  have hvalue : (Node.mk tok []).value c =
      (Generation.read tok.text >>= fun e =>
        pure ⟨e.type, .join [[.name tok.text], fetchCode e.type]⟩) := by
    rw [Node.value, leafValue, hk]
  have hcode : ∀ {τ : ValueType} {s : Storage}, τ.storage? = some s →
      Code.join [[.name tok.text], fetchCode τ] = [.name tok.text, .word (.fetch s)] := by
    intro τ s hs
    rw [Code.join_cons_of_isBlank (Code.isBlank_name hx), fetchCode, hs]
    rfl
  rw [hvalue, bind_eq_ok_iff]
  constructor
  · rintro ⟨e, t₁, hread, hw⟩
    obtain ⟨τ, hscope⟩ := SymbolTable.scope_of_read hread
    rw [Generation.read, SymbolTable.read_of_scope hscope, Prod.mk.injEq, Except.ok.injEq] at hread
    obtain ⟨rfl, rfl⟩ := hread
    obtain ⟨rfl, rfl⟩ := pure_eq_ok_iff.mp hw
    obtain ⟨s, hs⟩ := Option.isSome_iff_exists.mp (ht.storage?_isSome hscope)
    exact ⟨τ, s, hscope, hs, by rw [hcode hs], rfl⟩
  · rintro ⟨τ, s, hscope, hs, rfl, rfl⟩
    exact ⟨_, _, SymbolTable.read_of_scope hscope, pure_eq_ok_iff.mpr ⟨by rw [hcode hs], rfl⟩⟩

/-- The code of an assignment, whose value is doubled if it is taken. -/
theorem join_assignment {x : Bytes} {τ : ValueType} {s : Storage} {code : Code} (hx : x ≠ [])
    (hs : τ.storage? = some s) (hcode : code.isBlank = false) :
    Code.join [if c then .join [code, dupCode τ] else code, [.name x], storeCode τ] =
      code ++ (if c then [.word (.dup s)] else []) ++ [.name x, .word (.store s)] := by
  have hdoubled : (if c then Code.join [code, dupCode τ] else code) =
      code ++ (if c then [.word (.dup s)] else []) := by
    cases c with
    | false => simp
    | true =>
      simp only [if_true]
      rw [Code.join_cons_of_isBlank hcode, dupCode, hs]
      rfl
  rw [hdoubled, Code.join_cons_of_isBlank (Code.isBlank_append hcode _),
    Code.join_cons_of_isBlank (Code.isBlank_name hx), storeCode, hs]
  rfl

/-- The types that can be stored in a declared variable: its own, and integers if it is real. -/
theorem not_mistyped_iff {x : Bytes} {τ υ : ValueType} {a : Bool} (h : t.scope x = some ⟨τ, a⟩) :
    ¬((t.entry x).isDeclared = true ∧ (t.entry x).type ≠ υ ∧
      ¬((t.entry x).type = .real ∧ υ = .int)) ↔ υ = τ ∨ (υ = .int ∧ τ = .real) := by
  obtain ⟨hτ, hentry⟩ := SymbolTable.scope_eq_some_iff.mp h
  have hdeclared : (⟨x, τ, a⟩ : Entry).isDeclared = true := by simp [Entry.isDeclared, hτ]
  rw [hentry, and_iff_right hdeclared, not_and, not_not, ne_eq, ← or_iff_not_imp_left]
  exact or_congr eq_comm and_comm

private theorem assignValue_eq_ok_iff {x : Bytes} {u : Value} (hx : x ≠ []) (hu : u.Proper)
    (ht : t.Sound) :
    assignValue x u c t = (.ok w, t') ↔ ∃ τ a s, t.scope x = some ⟨τ, a⟩ ∧ τ.storage? = some s ∧
      (u.type = τ ∨ (u.type = .int ∧ τ = .real)) ∧
      w = ⟨τ, (if τ = .real then u.realCode else u.code) ++ (if c then [.word (.dup s)] else []) ++
        [.name x, .word (.store s)]⟩ ∧
      t' = t.put ⟨x, τ, true⟩ := by
  -- neither the code of the operand nor its conversion is blank, so all parts are joined
  have hblank : ∀ τ : ValueType, (if τ = .real then u.realCode else u.code).isBlank = false := by
    intro τ
    split
    · exact Value.isBlank_realCode hu.code
    · exact hu.code
  rw [assignValue]
  constructor
  · intro h
    split at h
    · exact (fail_eq_ok_iff.mp h).elim
    obtain ⟨_, _, hentry, h⟩ := bind_eq_ok_iff.mp h
    cases hentry
    split at h
    · exact (fail_eq_ok_iff.mp h).elim
    rename_i htypes
    obtain ⟨_, _, hassign, h⟩ := bind_eq_ok_iff.mp h
    obtain ⟨τ, a, hscope⟩ := SymbolTable.scope_of_assign hassign
    rw [Generation.assign, SymbolTable.assign_of_scope hscope, Prod.mk.injEq,
      Except.ok.injEq] at hassign
    obtain ⟨rfl, rfl⟩ := hassign
    obtain ⟨rfl, rfl⟩ := pure_eq_ok_iff.mp h
    obtain ⟨s, hs⟩ := Option.isSome_iff_exists.mp (ht.storage?_isSome hscope)
    exact ⟨τ, a, s, hscope, hs, (not_mistyped_iff hscope).mp htypes,
      by rw [← join_assignment hx hs (hblank τ)], rfl⟩
  · rintro ⟨τ, a, s, hscope, hs, htypes, rfl, rfl⟩
    have hvalue : u.type.hasValue = true := by
      rcases htypes with h | ⟨h, -⟩
      · rw [h]
        exact ValueType.hasValue_of_storable (by rw [hs]; rfl)
      · rw [h]
        rfl
    rw [hvalue]
    refine bind_eq_ok_iff.mpr ⟨t.entry x, t, rfl, ?_⟩
    rw [if_neg ((not_mistyped_iff hscope).mpr htypes)]
    refine bind_eq_ok_iff.mpr ⟨_, _, SymbolTable.assign_of_scope hscope, ?_⟩
    exact pure_eq_ok_iff.mpr ⟨by rw [← join_assignment hx hs (hblank τ)], rfl⟩

/-- An assignment stores the value of its operand, and leaves a copy of it where that is consumed. -/
theorem value_assignment_iff {x : Token} {e : Node} (hk : head.kind = .assignment)
    (hx : x.text ≠ []) (he : e.EmitsProper) (ht : t.Sound) :
    (Node.mk head [.leaf x, e]).value c t = (.ok w, t') ↔ ∃ u t₁ τ a s,
      e.value true t = (.ok u, t₁) ∧ t₁.scope x.text = some ⟨τ, a⟩ ∧ τ.storage? = some s ∧
      (u.type = τ ∨ (u.type = .int ∧ τ = .real)) ∧
      w = ⟨τ, (if τ = .real then u.realCode else u.code) ++ (if c then [.word (.dup s)] else []) ++
        [.name x.text, .word (.store s)]⟩ ∧
      t' = t₁.put ⟨x.text, τ, true⟩ := by
  have hvalue : (Node.mk head [.leaf x, e]).value c =
      (e.value true >>= fun v => assignValue x.text v c) := by
    conv_lhs => unfold Node.value
    rw [if_pos hk]
    rfl
  rw [hvalue, bind_eq_ok_iff]
  simp only [exists_and_left]
  refine exists_congr fun u => exists_congr fun t₁ => and_congr_right fun hu => ?_
  simpa only [exists_and_left] using assignValue_eq_ok_iff hx (he ht hu) (ht.value hu)

/-- A binary operator generates both operands and applies itself to them. -/
theorem value_binary_iff {l r : Node} {op : BinaryOperator} (hk : head.kind = .binaryOperator)
    (hop : BinaryOperator.ofSpelling? head.text = some op) (hl : l.EmitsProper) (hr : r.EmitsProper)
    (ht : t.Sound) :
    (Node.mk head [l, r]).value c t = (.ok w, t') ↔ ∃ u t₁ v,
      l.value true t = (.ok u, t₁) ∧ r.value true t₁ = (.ok v, t') ∧ BinaryCode op u v w := by
  have hpart : ∀ i, consumesPart head i c = true := fun i => by simp [consumesPart, hk]
  rw [value_two_iff (by simp [hk]) (by simp [hk]), hpart, hpart]
  refine exists_congr fun u => exists_congr fun t₁ => exists_congr fun v =>
    and_congr_right fun hu => and_congr_right fun hv => ?_
  simp only [formValue, hk]
  exact binaryValue_eq_ok_iff hop (hl ht hu) (hr (ht.value hu) hv)

/-- A unary operator generates its operand and applies itself to it. -/
theorem value_unary_iff {e : Node} {op : UnaryOperator} (hk : head.kind = .unaryOperator)
    (hop : UnaryOperator.ofSpelling? head.text = some op) (he : e.EmitsProper) (ht : t.Sound) :
    (Node.mk head [e]).value c t = (.ok w, t') ↔ ∃ u,
      e.value true t = (.ok u, t') ∧ UnaryCode op u w := by
  have hpart : ∀ i, consumesPart head i c = true := fun i => by simp [consumesPart, hk]
  rw [value_one_iff (by simp [hk]) (by simp [hk]), hpart]
  refine exists_congr fun u => and_congr_right fun hu => ?_
  simp only [formValue, hk]
  exact unaryValue_eq_ok_iff hop (he ht hu)

/-- The declarations of a `let` with their code. -/
inductive Declares : SymbolTable → List Node → Code → SymbolTable → Prop
  | nil (t : SymbolTable) : Declares t [] [] t
  | cons {t t' : SymbolTable} {paren x type : Token} {bs : List Node} {code : Code} {τ : ValueType}
      {s : Storage} (keyword : ValueType.ofKeyword? type.text = some τ)
      (fresh : t.scope x.text = none) (storage : τ.storage? = some s)
      (rest : Declares (t.put ⟨x.text, τ, false⟩) bs code t') :
      Declares t (.mk paren [.leaf x, .leaf type] :: bs) (.define s x.text :: code) t'

/-- A declaration takes no other one away. -/
theorem Declares.extends {bs : List Node} {code : Code} (h : Declares t bs code t') :
    t.Extends t' := by
  induction h with
  | nil t => exact SymbolTable.admits_extends.refl t
  | @cons t t' paren x type bs code τ s keyword fresh storage rest ih =>
    refine SymbolTable.Extends.trans (fun y υ a hy => ⟨a, ?_⟩) ih
    rwa [SymbolTable.scope_put_of_storage? storage, Function.update_of_ne]
    rintro rfl
    rw [fresh] at hy
    cases hy

private theorem declareCode_eq_ok_iff {bs : List Node} {code : Code} (hbs : ∀ b ∈ bs, b.IsBinding)
    (ht : t.Sound) : declareCode bs t = (.ok code, t') ↔ Declares t bs code t' := by
  induction bs generalizing t code with
  | nil =>
    rw [declareCode, pure_eq_ok_iff]
    constructor
    · rintro ⟨rfl, rfl⟩
      exact .nil _
    · rintro ⟨⟩
      exact ⟨rfl, rfl⟩
  | cons b bs ih =>
    obtain ⟨paren, x, type, rfl, -, -, -, -, τ, hτ⟩ := hbs b List.mem_cons_self
    have hstorable := ValueType.storage?_isSome_of_ofKeyword? hτ
    obtain ⟨s, hs⟩ := Option.isSome_iff_exists.mp hstorable
    -- a binding declares its name before the rest is looked at
    have hdeclare : declareCode (.mk paren [.leaf x, .leaf type] :: bs) =
        (Generation.declare x.text τ >>= fun e => declareCode bs >>= fun rest =>
          pure (e.type.storage?.toList.map (fun s => .define s e.name) ++ rest)) := by
      rw [declareCode]
      simp only [Node.children, Node.leaf, Node.token, hτ]
    have hrest : ∀ {code : Code}, declareCode bs (t.put ⟨x.text, τ, false⟩) = (.ok code, t') ↔
        Declares (t.put ⟨x.text, τ, false⟩) bs code t' :=
      ih (fun b hb => hbs b (List.mem_cons_of_mem _ hb)) (ht.put hstorable)
    rw [hdeclare, bind_eq_ok_iff]
    constructor
    · rintro ⟨e, t₁, he, h⟩
      have hfresh := SymbolTable.scope_of_declare he
      rw [Generation.declare, SymbolTable.declare_of_scope ht hfresh
        (ValueType.hasValue_of_storable hstorable), Prod.mk.injEq, Except.ok.injEq] at he
      obtain ⟨rfl, rfl⟩ := he
      obtain ⟨rest, t₂, hcode, h⟩ := bind_eq_ok_iff.mp h
      obtain ⟨rfl, rfl⟩ := pure_eq_ok_iff.mp h
      simp only [hs, Option.toList_some, List.map_cons, List.map_nil, List.singleton_append]
      exact .cons hτ hfresh hs (hrest.mp hcode)
    · intro h
      cases h with
      | cons keyword fresh storage rest =>
        obtain rfl := Option.some.inj (hτ.symm.trans keyword)
        refine ⟨_, _, SymbolTable.declare_of_scope ht fresh
          (ValueType.hasValue_of_storable hstorable), ?_⟩
        refine bind_eq_ok_iff.mpr ⟨_, _, hrest.mpr rest, pure_eq_ok_iff.mpr ⟨?_, rfl⟩⟩
        simp [storage]

/-- A declaration of names is the code that defines them, and has no value. -/
theorem value_declaration_iff {bs : List Node} (hk : head.kind = .statement)
    (htext : head.text = Statement.declare.keyword) (hne : bs ≠ []) (hbs : ∀ b ∈ bs, b.IsBinding)
    (ht : t.Sound) :
    (Node.mk head bs).value c t = (.ok w, t') ↔ ∃ code,
      Declares t bs code t' ∧ w = ⟨.void, code⟩ := by
  obtain ⟨b, bs, rfl⟩ := List.exists_cons_of_ne_nil hne
  unfold Node.value
  rw [if_neg (by simp [hk]), if_pos ⟨hk, htext⟩, bind_eq_ok_iff]
  constructor
  · rintro ⟨code, t₁, hcode, h⟩
    obtain ⟨rfl, rfl⟩ := pure_eq_ok_iff.mp h
    exact ⟨code, (declareCode_eq_ok_iff hbs ht).mp hcode, rfl⟩
  · rintro ⟨code, hcode, rfl⟩
    exact ⟨code, t', (declareCode_eq_ok_iff hbs ht).mpr hcode, pure_eq_ok_iff.mpr ⟨rfl, rfl⟩⟩

/-- A print statement generates its operand and the word that prints its type. -/
theorem value_print_iff {e : Node} (hk : head.kind = .statement)
    (htext : head.text = Statement.print.keyword) (he : e.EmitsProper) (ht : t.Sound) :
    (Node.mk head [e]).value c t = (.ok w, t') ↔ ∃ u pw,
      e.value true t = (.ok u, t') ∧ u.type.printWord? = some pw ∧
      w = ⟨.void, u.code ++ [.word pw]⟩ := by
  have hpart : consumesPart head 0 c = true := by simp [consumesPart, hk, htext]
  rw [value_one_iff (by simp [hk]) (by simp [htext]), hpart]
  simp only [formValue, statementValue, hk, htext, Statement.ofKeyword?_keyword]
  constructor
  · rintro ⟨u, hu, h⟩
    split at h
    · rename_i pw hpw
      cases h
      rw [Code.join_instruction (he ht hu).code rfl]
      exact ⟨u, pw, hu, hpw, rfl⟩
    · cases h
  · rintro ⟨u, pw, hu, hpw, rfl⟩
    refine ⟨u, hu, ?_⟩
    rw [hpw, ← Code.join_instruction (he ht hu).code (Code.isBlank_word pw)]

/-- A choice of one branch needs a truth value, and has no value. -/
theorem value_choose_iff {n m : Node} (hk : head.kind = .statement)
    (htext : head.text = Statement.choose.keyword) (hn : n.EmitsProper) (ht : t.Sound) :
    (Node.mk head [n, m]).value c t = (.ok w, t') ↔ ∃ u t₁ v,
      n.value true t = (.ok u, t₁) ∧ m.value c t₁ = (.ok v, t') ∧ u.type = .bool ∧
      w = ⟨.void, u.code ++ [.choose v.code]⟩ := by
  have hfirst : consumesPart head 0 c = true := by simp [consumesPart, hk, htext]
  have hbranch : consumesPart head 1 c = c := by simp [consumesPart, hk, htext]
  rw [value_two_iff (by simp [hk]) (by simp [htext]), hfirst, hbranch]
  refine exists_congr fun u => exists_congr fun t₁ => exists_congr fun v =>
    and_congr_right fun hu => and_congr_right fun _ => ?_
  have hjoin : Code.join [u.code, [.choose v.code]] = u.code ++ [.choose v.code] :=
    Code.join_instruction (hn ht hu).code rfl
  simp only [formValue, statementValue, hk, htext, Statement.ofKeyword?_keyword, hjoin]
  by_cases hbool : u.type = .bool <;> simp [hbool, eq_comm]

/-- A choice of two branches needs a truth value; it has their type, if that is the same, or none. -/
theorem value_chooseElse_iff {n m o : Node} (hk : head.kind = .statement)
    (htext : head.text = Statement.choose.keyword) (hn : n.EmitsProper) (ht : t.Sound) :
    (Node.mk head [n, m, o]).value c t = (.ok w, t') ↔ ∃ u t₁ v t₂ x,
      n.value true t = (.ok u, t₁) ∧ m.value c t₁ = (.ok v, t₂) ∧ o.value c t₂ = (.ok x, t') ∧
      u.type = .bool ∧ w = ⟨if v.type = x.type then v.type else .void,
        u.code ++ [.chooseElse v.code x.code]⟩ := by
  have hfirst : consumesPart head 0 c = true := by simp [consumesPart, hk, htext]
  have hbranch : ∀ i, consumesPart head (i + 1) c = c := by simp [consumesPart, hk, htext]
  rw [value_three_iff (by simp [hk]) (by simp [htext]), hfirst, hbranch, hbranch]
  refine exists_congr fun u => exists_congr fun t₁ => exists_congr fun v => exists_congr fun t₂ =>
    exists_congr fun x => and_congr_right fun hu => and_congr_right fun _ =>
    and_congr_right fun _ => ?_
  have hjoin : Code.join [u.code, [.chooseElse v.code x.code]] =
      u.code ++ [.chooseElse v.code x.code] := Code.join_instruction (hn ht hu).code rfl
  simp only [formValue, statementValue, hk, htext, Statement.ofKeyword?_keyword, hjoin]
  by_cases hbool : u.type = .bool <;> simp [hbool, eq_comm]

/-- No code of a list of trees is blank. -/
theorem EmitsAll.isBlank {ns : List Node} {vs : List Value} (h : EmitsAll t ns vs t')
    (hns : ∀ n ∈ ns, n.EmitsProper) (ht : t.Sound) :
    ∀ code ∈ vs.map Value.code, code.isBlank = false := by
  induction h with
  | nil => simp
  | cons first rest ih =>
    simp only [List.map_cons, List.mem_cons, forall_eq_or_imp]
    exact ⟨(hns _ List.mem_cons_self ht first).code,
      ih (fun n hn => hns n (List.mem_cons_of_mem _ hn)) (ht.value first)⟩

/-- A loop needs a truth value, and its body is a sequence of trees. -/
theorem value_loop_iff {n : Node} {ns : List Node} (hk : head.kind = .statement)
    (htext : head.text = Statement.loop.keyword) (hns : ∀ m ∈ ns, m.EmitsProper) (ht : t.Sound) :
    (Node.mk head (n :: ns)).value c t = (.ok w, t') ↔ ∃ u t₁ vs,
      n.value true t = (.ok u, t₁) ∧ EmitsAll t₁ ns vs t' ∧ u.type = .bool ∧
      w = ⟨.void, [.loop u.code (vs.map Value.code).flatten]⟩ := by
  have hfirst : consumesPart head 0 c = true := by simp [consumesPart, hk, htext]
  rw [value_form_iff (by simp [hk]) (by simp [htext])]
  simp only [values_cons_iff, values_loop_iff hk htext, hfirst]
  constructor
  · rintro ⟨_, ⟨u, t₁, vs, hu, hvs, rfl⟩, h⟩
    simp only [formValue, statementValue, hk, htext, Statement.ofKeyword?_keyword] at h
    split at h
    · rename_i hbool
      cases h
      rw [Code.join_of_forall (hvs.isBlank hns (ht.value hu))]
      exact ⟨u, t₁, vs, hu, hvs, hbool, rfl⟩
    · cases h
  · rintro ⟨u, t₁, vs, hu, hvs, hbool, rfl⟩
    refine ⟨_, ⟨u, t₁, vs, hu, hvs, rfl⟩, ?_⟩
    simp only [formValue, statementValue, hk, htext, Statement.ofKeyword?_keyword]
    rw [if_pos hbool, Code.join_of_forall (hvs.isBlank hns (ht.value hu))]

end Shapes

/-! ### Proper values -/

/-- An identifier has a text. -/
theorem Token.WellSpelled.text_ne_nil {x : Token} (h : x.WellSpelled) (hk : x.kind = .identifier) :
    x.text ≠ [] := by
  simp only [Token.WellSpelled, hk, TokenKind.Spells] at h
  obtain ⟨⟨b, rest, hx, -⟩, -⟩ := h
  simp [hx]

/-- What a literal stands for, by the way it is written. -/
inductive LiteralCode (t : Token) : Value → Prop
  | int (kind : t.kind = .intLiteral) (numeral : IsNumeral t.text) :
      LiteralCode t ⟨.int, [.int t.text]⟩
  | real (kind : t.kind = .realLiteral) (numeral : IsRealNumeral t.text) :
      LiteralCode t ⟨.real, [.real (realNumeral t.text)]⟩
  | string {body : Bytes} (kind : t.kind = .stringLiteral)
      (text : t.text = quoteMark :: (body ++ [quoteMark])) (inside : IsStringBody body) :
      LiteralCode t ⟨.string, [.string body]⟩
  | bool (kind : t.kind = .boolLiteral) (name : t.text = utf8 "true" ∨ t.text = utf8 "false") :
      LiteralCode t ⟨.bool, [.flag t.text]⟩

/-- The value of a well-spelled literal is written as its spelling says. -/
theorem Token.WellSpelled.literalCode {t : Token} {v : Value} (h : t.WellSpelled)
    (hv : literalValue? t = some v) : LiteralCode t v := by
  rw [Token.WellSpelled] at h
  rw [literalValue?] at hv
  cases hk : t.kind <;> simp only [hk, reduceCtorEq, Option.some.injEq] at h hv <;> subst hv
  case intLiteral => exact .int hk h
  case realLiteral => exact .real hk h
  case stringLiteral =>
    obtain ⟨body, htext, hbody⟩ := h
    rw [htext, stringBody_quoted]
    exact .string hk htext hbody
  case boolLiteral => exact .bool hk h

/-- A literal has a text and the type of a variable. -/
theorem LiteralCode.proper {t : Token} {v : Value} (h : LiteralCode t v) : v.Proper := by
  cases h with
  | int _ numeral => exact ⟨.inr rfl, by simpa [Code.isBlank] using numeral.1⟩
  | real =>
    have hne : realNumeral t.text ≠ [] := by
      rw [realNumeral]
      split
      · rename_i hmark
        rintro hnil
        simp [hnil] at hmark
      · exact List.append_ne_nil_of_right_ne_nil _ (by decide)
    exact ⟨.inr rfl, by simpa [Code.isBlank] using hne⟩
  | string => exact ⟨.inr rfl, rfl⟩
  | bool _ name =>
    refine ⟨.inr rfl, ?_⟩
    rcases name with h | h <;> rw [h] <;> rfl

/-- The values of a well-formed tree are proper. -/
theorem Node.WellFormed.emitsProper {n : Node} (h : n.WellFormed) : n.EmitsProper := by
  induction h with
  | @operand tok kind spelled =>
    intro c t t' v ht hv
    by_cases hk : tok.kind = .identifier
    · obtain ⟨τ, s, -, hs, rfl, -⟩ := (value_identifier_iff hk (spelled.text_ne_nil hk) ht).mp hv
      exact ⟨.inr (by rw [hs]; rfl), rfl⟩
    · have hliteral : tok.kind.isLiteral = true := by simpa [TokenKind.isOperand, hk] using kind
      exact (spelled.literalCode ((value_literal_iff hliteral).mp hv).1).proper
  | assignment kind target spelled value ih =>
    intro c t t' v ht hv
    obtain ⟨u, t₁, τ, a, s, hu, -, hs, -, rfl, -⟩ :=
      (value_assignment_iff kind (spelled.text_ne_nil target) ih ht).mp hv
    refine ⟨.inr (by rw [hs]; rfl), ?_⟩
    -- the store at the end has a text, so the code has one
    have hword : ∀ (code : Code) (i j : Instruction), code ++ [i, j] = (code ++ [i]) ++ [j] := by simp
    rw [hword]
    exact Code.isBlank_append_word _ _
  | binary kind spelling left right ihl ihr =>
    intro c t t' v ht hv
    obtain ⟨u, t₁, w, -, -, hcode⟩ := (value_binary_iff kind spelling ihl ihr ht).mp hv
    exact hcode.proper
  | unary kind spelling operand ih =>
    intro c t t' v ht hv
    obtain ⟨u, -, hcode⟩ := (value_unary_iff kind spelling ih ht).mp hv
    exact hcode.proper
  | declaration kind text nonempty each =>
    intro c t t' v ht hv
    obtain ⟨code, hcode, rfl⟩ := (value_declaration_iff kind text nonempty each ht).mp hv
    refine ⟨.inl rfl, ?_⟩
    cases hcode with
    | nil => exact absurd rfl nonempty
    | @cons _ _ _ _ _ _ rest => rcases rest with _ | ⟨i, rest⟩ <;> rfl
  | loop kind text nonempty condition each ih ihs =>
    intro c t t' v ht hv
    obtain ⟨u, t₁, vs, -, -, -, rfl⟩ := (value_loop_iff kind text ihs ht).mp hv
    exact ⟨.inl rfl, rfl⟩
  | choose kind text condition branch ih ih₁ =>
    intro c t t' v ht hv
    obtain ⟨u, t₁, w, hu, -, -, rfl⟩ := (value_choose_iff kind text ih ht).mp hv
    exact ⟨.inl rfl, Code.isBlank_append (ih ht hu).code _⟩
  | chooseElse kind text condition branch otherwise ih ih₁ ih₂ =>
    intro c t t' v ht hv
    obtain ⟨u, t₁, w, t₂, x, hu, hw, -, -, rfl⟩ := (value_chooseElse_iff kind text ih ht).mp hv
    refine ⟨?_, Code.isBlank_append (ih ht hu).code _⟩
    simp only
    split
    · exact (ih₁ (ht.value hu) hw).type
    · exact .inl rfl
  | print kind text operand ih =>
    intro c t t' v ht hv
    obtain ⟨u, pw, hu, -, rfl⟩ := (value_print_iff kind text ih ht).mp hv
    exact ⟨.inl rfl, Code.isBlank_append (ih ht hu).code _⟩

/-! ### Programs -/

/-- The lines of a program, one for each form. -/
theorem Program.code_eq_ok_iff {p : Program} {lines : List Code} {t t' : SymbolTable}
    (hp : ∀ n ∈ p, n.WellFormed) (ht : t.Sound) :
    Program.code p t = (.ok lines, t') ↔ ∃ vs, EmitsAll t p vs t' ∧
      lines = vs.map fun v => v.code ++ [.word .newLine] := by
  induction p generalizing t lines with
  | nil =>
    rw [Program.code, pure_eq_ok_iff]
    constructor
    · rintro ⟨rfl, rfl⟩
      exact ⟨[], .nil t, rfl⟩
    · rintro ⟨_, ⟨⟩, rfl⟩
      exact ⟨rfl, rfl⟩
  | cons n ns ih =>
    have hn : n.EmitsProper := (hp n List.mem_cons_self).emitsProper
    have hline : ∀ {v : Value} {t₁ : SymbolTable}, n.value false t = (.ok v, t₁) →
        Code.join [v.code, [.word .newLine]] = v.code ++ [.word .newLine] := fun hv =>
      Code.join_instruction (hn ht hv).code rfl
    rw [Program.code, bind_eq_ok_iff]
    constructor
    · rintro ⟨v, t₁, hv, h⟩
      obtain ⟨rest, t₂, hrest, h⟩ := bind_eq_ok_iff.mp h
      obtain ⟨rfl, rfl⟩ := pure_eq_ok_iff.mp h
      obtain ⟨vs, hvs, rfl⟩ := (ih (fun m hm => hp m (List.mem_cons_of_mem _ hm)) (ht.value hv)).mp hrest
      exact ⟨v :: vs, .cons hv hvs, by rw [hline hv]; rfl⟩
    · rintro ⟨_, _ | ⟨hv, hvs⟩, rfl⟩
      refine ⟨_, _, hv, bind_eq_ok_iff.mpr ⟨_, _,
        (ih (fun m hm => hp m (List.mem_cons_of_mem _ hm)) (ht.value hv)).mpr ⟨_, hvs, rfl⟩, ?_⟩⟩
      exact pure_eq_ok_iff.mpr ⟨by rw [hline hv]; rfl, rfl⟩

/-! ### What has no value -/

/-- A type by itself has no value. -/
theorem value_type_ne_ok {tok : Token} (hk : tok.kind = .typeKeyword) {c : Bool}
    {t t' : SymbolTable} {v : Value} : (Node.mk tok []).value c t ≠ (.ok v, t') := by
  simp [Node.value, leafValue, hk, fail]

/-- A declaration of one name by itself has no value. -/
theorem Node.IsBinding.value_ne_ok {n : Node} (h : n.IsBinding) {c : Bool} {t t' : SymbolTable}
    {v : Value} : n.value c t ≠ (.ok v, t') := by
  obtain ⟨paren, x, type, rfl, hparen, -, -, htype, -⟩ := h
  intro hv
  obtain ⟨u, t₁, w, -, hw, -⟩ := (value_two_iff (by simp [hparen]) (by simp [hparen])).mp hv
  exact value_type_ne_ok htype hw

/-- What stands in a parsed tree and has a value is a well-formed tree. -/
theorem Node.IsPart.wellFormed {n : Node} (h : n.IsPart) {c : Bool} {t t' : SymbolTable} {v : Value}
    (hv : n.value c t = (.ok v, t')) : n.WellFormed := by
  cases h with
  | tree h => exact h
  | binding h => exact absurd hv h.value_ne_ok
  | type h kind => exact absurd (h ▸ hv) (value_type_ne_ok kind)

end PrefixForth

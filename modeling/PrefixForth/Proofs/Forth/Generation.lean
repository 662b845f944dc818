import PrefixForth.Forth.Generator
import PrefixForth.Proofs.Scope

/-!
# Computations on a symbol table

How a `Generation` succeeds is read off its steps: a sequence succeeds if its first step does and the
rest does with what that step gave and left (`Generation.bind_eq_ok_iff`).

What a generation does to the table, whether it succeeds or not, is a sequence of declarations,
assignments and reads. A relation between tables that holds of these, of no step at all and of one
step after another holds between the table before and the table after every tree
(`Node.respects_value`). Two facts come from this: tables stay sound, and a declared name keeps its
type.

`SymbolTable.Reachable` are the tables that programs can leave behind, from the empty one.
-/

namespace PrefixForth

namespace Generation

variable {α β : Type} {m : Generation α} {f : α → Generation β} {t t' : SymbolTable}

/-! ### Success -/

/-- What comes after a success goes on with its result and its table. -/
theorem bind_of_ok {a : α} (h : m t = (.ok a, t')) : (m >>= f) t = f a t' := by
  simp only [bind, h]

/-- Nothing comes after a fault, and the table is the one at the fault. -/
theorem bind_of_error {fault : SemanticFault} (h : m t = (.error fault, t')) :
    (m >>= f) t = (.error fault, t') := by
  simp only [bind, h]

/-- Two steps succeed if the first one does, and the second one with what the first one leaves. -/
theorem bind_eq_ok_iff {b : β} {t'' : SymbolTable} :
    (m >>= f) t = (.ok b, t'') ↔ ∃ a t', m t = (.ok a, t') ∧ f a t' = (.ok b, t'') := by
  constructor
  · intro hb
    rcases h : m t with ⟨fault | a, t'⟩
    · rw [bind_of_error h] at hb
      cases hb
    · rw [bind_of_ok h] at hb
      exact ⟨a, t', rfl, hb⟩
  · rintro ⟨a, t', h, hf⟩
    rw [bind_of_ok h, hf]

theorem pure_eq_ok_iff {a b : α} : (pure a : Generation α) t = (.ok b, t') ↔ a = b ∧ t = t' := by
  simp [pure]

theorem fail_eq_ok_iff {fault : SemanticFault} {a : α} :
    (fail fault : Generation α) t = (.ok a, t') ↔ False := by
  simp [fail]

/-- A check leaves the table as it is. -/
theorem ofExcept_eq_ok_iff {result : Except SemanticFault α} {a : α} :
    ofExcept result t = (.ok a, t') ↔ result = .ok a ∧ t = t' := by
  simp [ofExcept]

/-! ### Tables before and after -/

/-- The computation leaves a table that the relation allows. -/
def Respects (R : SymbolTable → SymbolTable → Prop) (m : Generation α) : Prop :=
  ∀ t, R t (m t).2

/-- The relation allows what a program does to its table. -/
structure Admits (R : SymbolTable → SymbolTable → Prop) : Prop where
  refl : ∀ t, R t t
  trans : ∀ {t t' t''}, R t t' → R t' t'' → R t t''
  declare : ∀ t x {τ : ValueType}, τ.storage?.isSome = true → R t (t.declare x τ).2
  assign : ∀ t x, R t (t.assign x).2
  read : ∀ t x, R t (t.read x).2

variable {R : SymbolTable → SymbolTable → Prop}

theorem Admits.pure (hR : Admits R) (a : α) : Respects R (pure a : Generation α) := hR.refl

theorem Admits.fail (hR : Admits R) (fault : SemanticFault) :
    Respects R (fail fault : Generation α) := hR.refl

theorem Admits.ofExcept (hR : Admits R) (result : Except SemanticFault α) :
    Respects R (ofExcept result) := hR.refl

/-- Steps that keep to a relation keep to it together, as it is transitive. -/
theorem Admits.bind (hR : Admits R) (hm : Respects R m) (hf : ∀ a, Respects R (f a)) :
    Respects R (m >>= f) := by
  intro t
  have ht := hm t
  rcases h : m t with ⟨fault | a, t'⟩ <;> rw [h] at ht
  · rw [bind_of_error h]
    exact ht
  · rw [bind_of_ok h]
    exact hR.trans ht (hf a t')

end Generation

open Generation

section Respects

variable {R : SymbolTable → SymbolTable → Prop}

private theorem respects_leafValue (hR : Admits R) (t : Token) : Respects R (leafValue t) := by
  rw [leafValue]
  split
  case h_5 => exact hR.bind (fun s => hR.read s t.text) fun e => hR.pure _
  case h_6 => exact hR.fail _
  all_goals exact hR.pure _

/-- An assignment touches the table through its name only. -/
private theorem respects_assignValue (hR : Admits R) (x : Bytes) (v : Value) (consumed : Bool) :
    Respects R (assignValue x v consumed) := by
  rw [assignValue]
  split
  · exact hR.fail _
  · refine hR.bind (m := Generation.entry x) (fun s => hR.refl s) fun e => ?_
    split
    · exact hR.fail _
    · exact hR.bind (fun s => hR.assign s x) fun e => hR.pure _

/-- Only types that variables can have are written as keywords. -/
theorem ValueType.storage?_isSome_of_ofKeyword? {s : Bytes} {τ : ValueType}
    (h : ValueType.ofKeyword? s = some τ) : τ.storage?.isSome = true := by
  have hmem := List.mem_of_find?_eq_some h
  simp only [List.mem_cons, List.not_mem_nil, or_false] at hmem
  rcases hmem with rfl | rfl | rfl | rfl <;> rfl

/-- Declarations touch the table one name at a time. -/
private theorem respects_declareCode (hR : Admits R) (bindings : List Node) :
    Respects R (declareCode bindings) := by
  induction bindings with
  | nil => exact hR.pure _
  | cons binding bindings ih =>
    rw [declareCode]
    split
    · split
      · rename_i τ hτ
        refine hR.bind (fun s => hR.declare s _ (ValueType.storage?_isSome_of_ofKeyword? hτ)) fun e => ?_
        exact hR.bind ih fun rest => hR.pure _
      · exact hR.fail _
    · exact hR.fail _

mutual

/-- Code generation for a node keeps to a relation that each access to the table keeps to, -/
theorem Node.respects_value (hR : Admits R) (consumed : Bool) :
    ∀ n : Node, Respects R (n.value consumed)
  | .mk t [] => by
    rw [Node.value]
    exact respects_leafValue hR t
  | .mk t (c :: cs) => by
    unfold Node.value
    split
    · rcases cs with _ | ⟨operand, cs⟩
      · exact hR.fail _
      · exact hR.bind (Node.respects_value hR true operand) fun v => respects_assignValue hR _ v _
    · split
      · exact hR.bind (respects_declareCode hR _) fun code => hR.pure _
      · exact hR.bind (Node.respects_values hR t consumed 0 (c :: cs)) fun args => hR.ofExcept _

/-- and so does that for its operands. -/
private theorem Node.respects_values (hR : Admits R) (head : Token) (consumed : Bool) (i : Nat) :
    ∀ ns : List Node, Respects R (Node.values head consumed i ns)
  | [] => by
    rw [Node.values]
    exact hR.pure _
  | c :: cs => by
    rw [Node.values]
    refine hR.bind (Node.respects_value hR _ c) fun v => ?_
    exact hR.bind (Node.respects_values hR head consumed (i + 1) cs) fun vs => hR.pure _

end

private theorem Program.respects_code (hR : Admits R) (p : Program) :
    Respects R (Program.code p) := by
  induction p with
  | nil => exact hR.pure _
  | cons n ns ih =>
    rw [Program.code]
    refine hR.bind (Node.respects_value hR false n) fun v => ?_
    exact hR.bind ih fun rest => hR.pure _

/-- A whole program keeps to it. -/
private theorem respects_generate (hR : Admits R) (p : Program) : Respects R (generate p) :=
  hR.bind (Program.respects_code hR p) fun _ => hR.pure _

end Respects

/-! ### Sound tables -/

namespace SymbolTable

/-- An operation either leaves a name as met, or puts a declared entry for it. -/
theorem sound_update {t : SymbolTable} (ht : t.Sound) (x : Bytes)
    {f : Entry → Except SemanticFault Entry}
    (hf : ∀ e, f (t.entry x) = .ok e → e.type.storage?.isSome = true) : (t.update x f).2.Sound := by
  rw [update]
  split
  · rename_i e he
    exact ht.put (hf e he)
  · exact ht.observe x

/-- Soundness of the table is something to keep to. -/
theorem admits_sound : Admits fun t t' => t.Sound → t'.Sound where
  refl _ := id
  trans h h' := h' ∘ h
  declare t x τ hτ ht := by
    refine sound_update ht x fun e he => ?_
    rw [Entry.declare] at he
    split at he
    · cases he
    · split at he
      · cases he
        exact hτ
      · cases he
  assign t x ht := by
    refine sound_update ht x fun e he => ?_
    rw [Entry.assign] at he
    split at he
    · rename_i hd
      cases he
      exact (ht.storable x).resolve_left (by simpa [Entry.isDeclared] using hd)
    · cases he
  read t x ht := by
    refine sound_update ht x fun e he => ?_
    rw [Entry.read] at he
    split at he
    · cases he
    · rename_i hd
      split at he
      · cases he
      · cases he
        exact (ht.storable x).resolve_left (by simpa [Entry.isDeclared] using hd)

/-- Code generation for a node, with or without a fault, leaves a sound table sound. -/
theorem Sound.value {t t' : SymbolTable} {consumed : Bool} {n : Node}
    {r : Except SemanticFault Value} (ht : t.Sound) (h : n.value consumed t = (r, t')) : t'.Sound := by
  have := Node.respects_value admits_sound consumed n t ht
  rwa [h] at this

/-- The tables that programs and their parts leave behind, whether they succeed or not. -/
inductive Reachable : SymbolTable → Prop
  | empty : Reachable empty
  | program {t : SymbolTable} (p : Program) : Reachable t → Reachable (generate p t).2
  | part {t : SymbolTable} (consumed : Bool) (n : Node) : Reachable t →
      Reachable (n.value consumed t).2

/-- Every table that code generation comes to is sound. -/
theorem Reachable.sound {t : SymbolTable} (h : t.Reachable) : t.Sound := by
  induction h with
  | empty => exact sound_empty
  | program p _ ih => exact respects_generate admits_sound p _ ih
  | part consumed n _ ih => exact Node.respects_value admits_sound consumed n _ ih

/-! ### Declared names keep their types -/

/-- What is declared in the first table is declared in the second, with the same type. -/
def Extends (t t' : SymbolTable) : Prop :=
  ∀ x τ a, t.scope x = some ⟨τ, a⟩ → ∃ b, t'.scope x = some ⟨τ, b⟩

private theorem extends_observe (t : SymbolTable) (x : Bytes) : Extends t (t.observe x) := by
  intro y τ a hy
  rw [scope_eq_some_iff, ← entry_observe t x] at hy
  exact ⟨a, scope_eq_some_iff.mpr hy⟩

/-- An operation that keeps the type of its name, if the name is declared, keeps all types. -/
theorem extends_update {t : SymbolTable} (x : Bytes) {f : Entry → Except SemanticFault Entry}
    (hf : ∀ e, f (t.entry x) = .ok e → e.name = x ∧
      ((t.entry x).isDeclared = true → e.type = (t.entry x).type)) :
    Extends t (t.update x f).2 := by
  rw [update]
  split
  · rename_i e he
    obtain ⟨hname, htype⟩ := hf e he
    intro y τ a hy
    obtain ⟨hτ, hentry⟩ := scope_eq_some_iff.mp hy
    by_cases hyx : y = x
    · subst hyx
      rw [hentry] at htype
      obtain ⟨name, type, assigned⟩ := e
      obtain rfl : type = τ := htype (by simpa [Entry.isDeclared] using hτ)
      subst hname
      exact ⟨assigned, by rw [scope_put hτ, Function.update_self]⟩
    · refine ⟨a, scope_eq_some_iff.mpr ⟨hτ, ?_⟩⟩
      rw [entry_put, if_neg (by rwa [hname]), hentry]
  · exact extends_observe t x

/-- That no name is lost, and no type changes, is something to keep to. -/
theorem admits_extends : Admits Extends where
  refl t x τ a h := ⟨a, h⟩
  trans h h' x τ a hx := by
    obtain ⟨b, hb⟩ := h x τ a hx
    exact h' x τ b hb
  declare t x τ _ := by
    -- an entry that is replaced keeps its name, and its type if it has one
    refine extends_update x fun e he => ?_
    rw [Entry.declare] at he
    split at he
    · cases he
    · rename_i hd
      split at he
      · cases he
        exact ⟨entry_name t x, fun h => absurd h hd⟩
      · cases he
  assign t x := by
    refine extends_update x fun e he => ?_
    rw [Entry.assign] at he
    split at he
    · cases he
      exact ⟨entry_name t x, fun _ => rfl⟩
    · cases he
  read t x := by
    refine extends_update x fun e he => ?_
    rw [Entry.read] at he
    split at he
    · cases he
    · split at he
      · cases he
      · cases he
        exact ⟨entry_name t x, fun _ => rfl⟩

/-- What is declared stays declared from table to table. -/
theorem Extends.trans {t t' t'' : SymbolTable} (h : Extends t t') (h' : Extends t' t'') :
    Extends t t'' :=
  admits_extends.trans h h'

/-- An entry that replaces one of the same name and type takes nothing away. -/
theorem extends_put {t : SymbolTable} {x : Bytes} {τ : ValueType} {a b : Bool}
    (hx : t.scope x = some ⟨τ, a⟩) : Extends t (t.put ⟨x, τ, b⟩) := by
  obtain ⟨hτ, -⟩ := scope_eq_some_iff.mp hx
  intro y υ c hy
  rw [scope_put hτ]
  by_cases hyx : y = x
  · subst hyx
    rw [hx] at hy
    cases hy
    exact ⟨b, Function.update_self ..⟩
  · exact ⟨c, by rwa [Function.update_of_ne hyx]⟩

/-- Code generation for a node takes no name away and changes no type. -/
theorem extends_value {t t' : SymbolTable} {consumed : Bool} {n : Node}
    {r : Except SemanticFault Value} (h : n.value consumed t = (r, t')) : Extends t t' := by
  have := Node.respects_value admits_extends consumed n t
  rwa [h] at this

end SymbolTable

end PrefixForth

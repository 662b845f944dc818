import PrefixForth.Proofs.Forth.Emission
import PrefixForth.Proofs.Forth.Representation

/-!
# Generated code does what trees do

The code of a tree, run on the machine, follows the evaluation of the tree. `Represents` relates a run
to the memory of a machine: the variables hold the same values, the same values have been printed, and
every declared variable holds a value of its type. Two notions say that code follows an evaluation.

* `Computes` is about values that are taken: the code leaves the value on the stacks, and below it
  what was there before.
* `Simulates` is about trees: the code keeps run and memory together, and leaves the value of the tree
  if it is taken. Code whose value is not taken may leave anything.

Main statement: the code of a well-formed tree simulates its evaluation, at every depth
(`Node.WellFormed.simulates`). The proof is by induction on the depth, as loops are evaluated again
and again, with the shapes of trees for the cases.
-/

namespace PrefixForth

open Evaluation
open Forth (Cell Memory State Runs)

variable {w : Nat} {R : Type} {M : Operations w R} {T : SymbolTable}

/-! ### Runs and memories -/

/-- The memory is that of the run, and the run fits the table. -/
structure Represents (T : SymbolTable) (σ : Run w R) (m : Memory w R) : Prop where
  fits : ∀ x τ a, T.scope x = some ⟨τ, a⟩ → (σ.contents x).type = τ
  contents : ∀ x, m.contents x = (σ.contents x).contents
  printed : m.values = σ.printed.map Datum.shown

namespace Represents

variable {σ : Run w R} {m : Memory w R} {d : Datum w R} {x : Bytes}

/-- Memory goes along with an assignment of the right type. -/
theorem store {υ : ValueType} {b : Bool} (h : Represents T σ m) (hx : T.scope x = some ⟨υ, b⟩)
    (hd : d.type = υ) :
    Represents T { σ with contents := Function.update σ.contents x d } (m.store x d.contents) where
  fits y τ a hy := by
    by_cases hyx : y = x
    · subst hyx
      cases hx.symm.trans hy
      simpa using hd
    · simpa [hyx] using h.fits y τ a hy
  contents y := by
    by_cases hyx : y = x
    · subst hyx
      simp [Memory.store]
    · simpa [Memory.store, hyx] using h.contents y
  printed := h.printed

/-- Memory goes along with what is printed. -/
theorem print (h : Represents T σ m) (d : Datum w R) :
    Represents T { σ with printed := σ.printed ++ [d] } (m.print d.shown) where
  fits := h.fits
  contents := h.contents
  printed := by
    have hvalue : d.shown.isValue = true := by cases d <;> rfl
    have hprinted : m.output.filter Forth.Printed.isValue = σ.printed.map Datum.shown := h.printed
    simp [Memory.values, Memory.print, hprinted, hvalue]

/-- A new line is no value. -/
theorem newLine (h : Represents T σ m) : Represents T σ (m.print .newLine) where
  fits := h.fits
  contents := h.contents
  printed := by
    have hprinted : m.output.filter Forth.Printed.isValue = σ.printed.map Datum.shown := h.printed
    simp [Memory.values, Memory.print, hprinted, Forth.Printed.isValue]

end Represents

/-! ### Values that are taken -/

variable (M T) in
/-- The code leaves the value of the computation, which is of the given type, in the form that `g`
gives it, and below it what was on the stacks before. -/
def Computes (e : Evaluation w R (Datum w R)) (c : Code) (τ : ValueType)
    (g : Datum w R → Datum w R) : Prop :=
  ∀ (σ : Run w R) ds fs m, Represents T σ m → e.Yields σ fun a σ' => a.type = τ ∧
    ∃ m', Runs M [powerDefinition] c ⟨ds, fs, m⟩ ⟨(g a).cells ++ ds, (g a).floats ++ fs, m'⟩ ∧
      Represents T σ' m'

section Computes

variable {e e₁ e₂ : Evaluation w R (Datum w R)} {c c₁ c₂ : Code} {τ τ₁ τ₂ : ValueType}
  {g g₁ g₂ : Datum w R → Datum w R} {v : Word}

/-- An operation on two values that a word carries out. -/
theorem Computes.binary (h₁ : Computes M T e₁ c₁ τ₁ g₁) (h₂ : Computes M T e₂ c₂ τ₂ g₂)
    {f : Datum w R → Datum w R → Except Stop (Datum w R)}
    (hf : ∀ a b, a.type = τ₁ → b.type = τ₂ →
      Settles (f a b) fun d => d.type = τ ∧ Turns M v [g₂ b, g₁ a] d) :
    Computes M T (do let a ← e₁; let b ← e₂; ofExcept (f a b)) (c₁ ++ c₂ ++ [.word v]) τ id := by
  intro σ ds fs m hm
  refine (h₁ σ ds fs m hm).bind ?_
  rintro a σ₁ ⟨ha, m₁, hrun₁, hm₁⟩
  refine (h₂ σ₁ ((g₁ a).cells ++ ds) ((g₁ a).floats ++ fs) m₁ hm₁).bind ?_
  rintro b σ₂ ⟨hb, m₂, hrun₂, hm₂⟩
  refine yields_ofExcept ((hf a b ha hb).mono ?_)
  rintro d ⟨hd, hturns⟩
  have hword := hturns ds fs m₂
  simp only [List.flatMap_cons, List.flatMap_nil, List.append_nil, List.append_assoc] at hword
  exact ⟨hd, m₂, (hrun₁.append hrun₂).append hword, hm₂⟩

/-- An operation on one value that a word carries out. -/
theorem Computes.unary (h : Computes M T e c τ₁ g)
    {f : Datum w R → Except Stop (Datum w R)}
    (hf : ∀ a, a.type = τ₁ → Settles (f a) fun d => d.type = τ ∧ Turns M v [g a] d) :
    Computes M T (do let a ← e; ofExcept (f a)) (c ++ [.word v]) τ id := by
  intro σ ds fs m hm
  refine (h σ ds fs m hm).bind ?_
  rintro a σ₁ ⟨ha, m₁, hrun, hm₁⟩
  refine yields_ofExcept ((hf a ha).mono ?_)
  rintro d ⟨hd, hturns⟩
  have hword := hturns ds fs m₁
  simp only [List.flatMap_cons, List.flatMap_nil, List.append_nil] at hword
  exact ⟨hd, m₁, hrun.append hword, hm₁⟩

/-- The code of a number as a real leaves it as a real. -/
theorem Computes.toReal {u : Value} (h : Computes M T e u.code u.type id)
    (hcode : u.code.isBlank = false) : Computes M T e u.realCode u.type M.toReal := by
  intro σ ds fs m hm
  refine (h σ ds fs m hm).mono ?_
  rintro a σ' ⟨ha, m', hrun, hm'⟩
  refine ⟨ha, m', ?_, hm'⟩
  by_cases hint : u.type = .int
  · obtain ⟨n, rfl⟩ := Datum.type_eq_int_iff.mp (ha.trans hint)
    rw [Value.realCode_of_int hint hcode]
    exact hrun.append (turns_intToFloat n ds fs m')
  · have hself : M.toReal a = a := by
      cases a with
      | int n => exact absurd ha.symm hint
      | _ => rfl
    rw [Value.realCode_of_ne_int hint, hself]
    exact hrun

/-- What the code of an operator with two operands computes. -/
theorem BinaryCode.computes {op : BinaryOperator} {l r u : Value} (h : BinaryCode op l r u)
    (hl : Computes M T e₁ l.code l.type id) (hr : Computes M T e₂ r.code r.type id)
    (hl' : l.code.isBlank = false) (hr' : r.code.isBlank = false) :
    Computes M T (do let a ← e₁; let b ← e₂; ofExcept (M.binary op a b)) u.code u.type id := by
  cases h with
  | concat left right =>
    refine hl.binary hr fun a b ha hb => ?_
    obtain ⟨s, rfl⟩ := Datum.type_eq_string_iff.mp (ha.trans left)
    obtain ⟨t, rfl⟩ := Datum.type_eq_string_iff.mp (hb.trans right)
    exact settles_concat s t
  | connective op left right =>
    refine hl.binary hr fun a b ha hb => ?_
    obtain ⟨a, rfl⟩ := Datum.type_eq_bool_iff.mp (ha.trans left)
    obtain ⟨b, rfl⟩ := Datum.type_eq_bool_iff.mp (hb.trans right)
    exact settles_connective op a b
  | equality equality left right =>
    refine hl.binary hr fun a b ha hb => ?_
    obtain ⟨a, rfl⟩ := Datum.type_eq_bool_iff.mp (ha.trans left)
    obtain ⟨b, rfl⟩ := Datum.type_eq_bool_iff.mp (hb.trans right)
    exact settles_equality equality a b
  | realArithmetic op left right real =>
    -- one of the operands is a real, and the other one is converted
    refine (hl.toReal hl').binary (hr.toReal hr') fun a b ha hb => ?_
    obtain ⟨x, y, hx, hy, hbinary⟩ := binary_toReal (M := M) (.arithmetic op)
      (ha ▸ left) (hb ▸ right) (ha ▸ hb ▸ real)
    rw [hbinary, hx, hy]
    exact settles_realArithmetic op x y
  | realComparison op left right real =>
    refine (hl.toReal hl').binary (hr.toReal hr') fun a b ha hb => ?_
    obtain ⟨x, y, hx, hy, hbinary⟩ := binary_toReal (M := M) (.comparison op)
      (ha ▸ left) (hb ▸ right) (ha ▸ hb ▸ real)
    rw [hbinary, hx, hy]
    exact settles_realComparison op x y
  | intArithmetic op left right =>
    refine hl.binary hr fun a b ha hb => ?_
    obtain ⟨a, rfl⟩ := Datum.type_eq_int_iff.mp (ha.trans left)
    obtain ⟨b, rfl⟩ := Datum.type_eq_int_iff.mp (hb.trans right)
    exact settles_intArithmetic op a b
  | intComparison op left right =>
    refine hl.binary hr fun a b ha hb => ?_
    obtain ⟨a, rfl⟩ := Datum.type_eq_int_iff.mp (ha.trans left)
    obtain ⟨b, rfl⟩ := Datum.type_eq_int_iff.mp (hb.trans right)
    exact settles_intComparison op a b

/-- What the code of an operator with one operand computes. -/
theorem UnaryCode.computes {op : UnaryOperator} {u v : Value} (h : UnaryCode op u v)
    (hu : Computes M T e u.code u.type id) (hu' : u.code.isBlank = false) :
    Computes M T (do let a ← e; ofExcept (M.unary op a)) v.code v.type id := by
  cases h with
  | not operand =>
    refine hu.unary fun a ha => ?_
    obtain ⟨a, rfl⟩ := Datum.type_eq_bool_iff.mp (ha.trans operand)
    refine ⟨rfl, turns_of_perform (by simp) fun ds fs m => ?_⟩
    simp [Forth.perform, Forth.onNumber, Datum.cells, Datum.floats, Forth.not_flag]
  | negate operand =>
    refine hu.unary fun a ha => ?_
    obtain ⟨a, rfl⟩ := Datum.type_eq_int_iff.mp (ha.trans operand)
    exact ⟨rfl, turns_of_perform (by simp) fun _ _ _ => rfl⟩
  | floatNegate operand =>
    refine hu.unary fun a ha => ?_
    obtain ⟨x, rfl⟩ := Datum.type_eq_real_iff.mp (ha.trans operand)
    exact ⟨rfl, turns_of_perform (by simp) fun _ _ _ => rfl⟩
  | trigonometric op operand =>
    refine (hu.toReal hu').unary fun a ha => ?_
    rw [← ha] at operand
    rcases ValueType.isNumeric_iff.mp operand with h | h
    · obtain ⟨n, rfl⟩ := Datum.type_eq_int_iff.mp h
      exact ⟨rfl, turns_of_perform (by simp) fun _ _ _ => rfl⟩
    · obtain ⟨x, rfl⟩ := Datum.type_eq_real_iff.mp h
      exact ⟨rfl, turns_of_perform (by simp) fun _ _ _ => rfl⟩

/-- A literal leaves what it stands for. -/
theorem LiteralCode.computes {t : Token} {u : Value} (h : LiteralCode t u) :
    Computes M T (M.leaf t) u.code u.type id := by
  intro σ ds fs m hm
  rw [Operations.leaf]
  cases h with
  | int kind =>
    rw [kind]
    exact yields_pure ⟨rfl, m, .instruction fun _ => rfl, hm⟩
  | real kind =>
    rw [kind]
    refine yields_pure ⟨rfl, m, .instruction fun k => ?_, hm⟩
    rw [Forth.step, M.ofNumeral_realNumeral]
    rfl
  | string kind text =>
    rw [kind, text, List.tail_cons, List.dropLast_concat]
    exact yields_pure ⟨rfl, m, .instruction fun _ => rfl, hm⟩
  | bool kind name =>
    rw [kind]
    refine yields_pure ⟨rfl, m, .instruction fun k => ?_, hm⟩
    rw [Forth.step, if_pos name]
    rfl

/-- A variable leaves its contents. -/
theorem computes_identifier {t : Token} {s : Storage} (hk : t.kind = .identifier) {a : Bool}
    (hx : T.scope t.text = some ⟨τ, a⟩) (hs : τ.storage? = some s) :
    Computes M T (M.leaf t) [.name t.text, .word (.fetch s)] τ id := by
  intro σ ds fs m hm
  rw [Operations.leaf, hk]
  have htype := hm.fits _ τ a hx
  exact yields_fetch ⟨htype, m, runs_fetch (htype ▸ hs) (hm.contents _), hm⟩

/-- A value in the form in which a variable of the given type stores it. -/
theorem Computes.stored {u : Value} (τ : ValueType) (h : Computes M T e u.code u.type id)
    (hcode : u.code.isBlank = false) :
    Computes M T e (if τ = .real then u.realCode else u.code) u.type
      (if τ = .real then M.toReal else id) := by
  split
  · exact h.toReal hcode
  · exact h

/-- A variable stores a value of its own type as it is, and an integer as a real. -/
theorem stored_eq_ok {contents d : Datum w R} {υ : ValueType} (hcontents : contents.type = τ)
    (hd : d.type = υ) (hτ : υ = τ ∨ (υ = .int ∧ τ = .real)) :
    let d' := (if τ = .real then M.toReal else id) d
    M.stored contents d = .ok d' ∧ d'.type = τ := by
  subst hcontents hd
  cases contents <;> cases d <;>
    simp [Operations.stored, Operations.toReal, Datum.type] at hτ ⊢

/-- An assignment: the code leaves the value as the variable stores it, and then stores it. -/
theorem Computes.assign {u : Value} {x : Bytes} {s : Storage} {a : Bool} {σ : Run w R}
    {m : Memory w R} (h : Computes M T e u.code u.type id) (hcode : u.code.isBlank = false)
    (hx : T.scope x = some ⟨τ, a⟩) (hs : τ.storage? = some s)
    (hτ : u.type = τ ∨ (u.type = .int ∧ τ = .real)) (hm : Represents T σ m) (ds : List (Cell w))
    (fs : List R) : (M.assign x e).Yields σ fun d σ' => d.type = τ ∧ ∃ m',
      Runs M [powerDefinition] (if τ = .real then u.realCode else u.code) ⟨ds, fs, m⟩
        ⟨d.cells ++ ds, d.floats ++ fs, m'⟩ ∧
      (∀ ds fs, Runs M [powerDefinition] [.name x, .word (.store s)]
        ⟨d.cells ++ ds, d.floats ++ fs, m'⟩ ⟨ds, fs, m'.store x d.contents⟩) ∧
      Represents T σ' (m'.store x d.contents) := by
  -- Evaluation looks at the old contents for the type to store, the code has it from the table.
  refine (h.stored τ hcode σ ds fs m hm).bind ?_
  rintro d σ₁ ⟨hd, m₁, hrun, hm₁⟩
  have htype := hm₁.fits x τ a hx
  obtain ⟨hstored, hd'⟩ := stored_eq_ok (M := M) htype hd hτ
  refine Yields.after rfl (Yields.after (congrArg (Except.map (·, σ₁)) hstored) ?_)
  refine Yields.after rfl (yields_pure ⟨hd', m₁, hrun, fun ds fs => ?_, hm₁.store hx hd'⟩)
  exact runs_store (hd'.symm ▸ hs) (hm₁.contents x) (htype.trans hd'.symm)

/-- A truth value decides which computation goes on. -/
theorem Computes.branch {α : Type} (h : Computes M T e c .bool id) {σ : Run w R} {m : Memory w R}
    (hm : Represents T σ m) (ds : List (Cell w)) (fs : List R) {onTrue onFalse : Evaluation w R α}
    {Q : α → Run w R → Prop}
    (hQ : ∀ b σ' m', Represents T σ' m' →
      Runs M [powerDefinition] c ⟨ds, fs, m⟩ ⟨.number (Forth.flag b) :: ds, fs, m'⟩ →
      (if b then onTrue else onFalse).Yields σ' Q) :
    (e >>= branch onTrue onFalse).Yields σ Q := by
  refine (h σ ds fs m hm).bind ?_
  rintro a σ' ⟨ha, m', hrun, hm'⟩
  obtain ⟨b, rfl⟩ := Datum.type_eq_bool_iff.mp ha
  exact yields_branch (hQ b σ' m' hm' hrun)

end Computes

/-! ### Trees -/

variable (M T) in
/-- The code keeps run and memory together. -/
def Follows {α : Type} (e : Evaluation w R α) (c : Code) : Prop :=
  ∀ (σ : Run w R) st, Represents T σ st.memory → e.Yields σ fun _ σ' =>
    ∃ st', Runs M [powerDefinition] c st st' ∧ Represents T σ' st'.memory

variable (M T) in
/-- The code keeps run and memory together, and leaves the value if it is taken. -/
def Simulates (e : Evaluation w R (Option (Datum w R))) (c : Code) (isTaken : Prop)
    (τ : ValueType) : Prop :=
  ∀ (σ : Run w R) st, Represents T σ st.memory → e.Yields σ fun d σ' =>
    ∃ st', Runs M [powerDefinition] c st st' ∧ Represents T σ' st'.memory ∧
      (isTaken → ∃ a, d = some a ∧ a.type = τ ∧ st'.data = a.cells ++ st.data ∧
        st'.floats = a.floats ++ st.floats)

section Simulates

variable {e : Evaluation w R (Option (Datum w R))} {c c' : Code} {isTaken : Prop} {τ : ValueType}
  {α β : Type}

/-- Code that leaves the value keeps run and memory together. -/
theorem Simulates.follows (h : Simulates M T e c isTaken τ) : Follows M T e c := fun σ st hm =>
  (h σ st hm).mono fun _ _ ⟨st', hrun, hm', _⟩ => ⟨st', hrun, hm'⟩

/-- Code whose value is not taken has to keep run and memory together, no more. -/
theorem Follows.simulates (h : Follows M T e c) (hvoid : ¬isTaken) : Simulates M T e c isTaken τ :=
  fun σ st hm => (h σ st hm).mono fun _ _ ⟨st', hrun, hm'⟩ =>
    ⟨st', hrun, hm', fun ht => absurd ht hvoid⟩

private theorem Simulates.weaken {isTaken' : Prop} {τ' : ValueType}
    (h : Simulates M T e c isTaken τ)
    (htaken : isTaken' → isTaken ∧ τ = τ') : Simulates M T e c isTaken' τ' := by
  intro σ st hm
  refine (h σ st hm).mono ?_
  rintro d σ' ⟨st', hrun, hm', hvalue⟩
  refine ⟨st', hrun, hm', fun ht => ?_⟩
  obtain ⟨ht, rfl⟩ := htaken ht
  exact hvalue ht

/-- A value that is taken is computed. -/
theorem Simulates.computes (h : Simulates M T e c isTaken τ) (ht : isTaken) :
    Computes M T (taken e) c τ id := by
  intro σ ds fs m hm
  refine Yields.taken ((h σ ⟨ds, fs, m⟩ hm).mono ?_)
  rintro d σ' ⟨⟨ds', fs', m'⟩, hrun, hm', hvalue⟩
  obtain ⟨a, rfl, ha, rfl, rfl⟩ := hvalue ht
  exact ⟨a, rfl, ha, m', hrun, hm'⟩

/-- Code that leaves the value of a computation leaves it for a tree with that value. -/
theorem Computes.simulates {e : Evaluation w R (Datum w R)} (h : Computes M T e c τ id) :
    Simulates M T (some <$> e) c isTaken τ := by
  intro σ st hm
  refine Yields.map ((h σ st.data st.floats st.memory hm).mono ?_)
  rintro a σ' ⟨ha, m', hrun, hm'⟩
  exact ⟨_, hrun, hm', fun _ => ⟨a, rfl, ha, rfl, rfl⟩⟩

private theorem follows_pure (a : α) : Follows M T (pure a) [] := fun _ st hm =>
  yields_pure ⟨st, .nil st, hm⟩

/-- Code after code keeps together what each of them does. -/
theorem Follows.bind {e : Evaluation w R α} {f : α → Evaluation w R β} (h : Follows M T e c)
    (hf : ∀ a, Follows M T (f a) c') : Follows M T (e >>= f) (c ++ c') := by
  intro σ st hm
  refine (h σ st hm).bind ?_
  rintro a σ₁ ⟨st₁, hrun₁, hm₁⟩
  refine (hf a σ₁ st₁ hm₁).mono ?_
  rintro b σ₂ ⟨st₂, hrun₂, hm₂⟩
  exact ⟨st₂, hrun₁.append hrun₂, hm₂⟩

/-- The names of a `let` are given fresh contents. -/
theorem Declares.follows {t t' : SymbolTable} {bs : List Node} (h : Declares t bs c t')
    (hT : t'.Extends T) : Follows M T (each M.declare bs) c := by
  induction h with
  | nil t => exact follows_pure ()
  | @cons t t' paren x type bs code τ s keyword fresh storage rest ih =>
    obtain ⟨a, hx⟩ := rest.extends.trans hT x.text τ false (SymbolTable.scope_put_self storage)
    obtain ⟨d, hd, htype, hcontents⟩ := exists_fresh (M := M) storage
    refine Follows.bind (c := [.define s x.text]) (fun σ st hm => ?_) fun _ => ih hT
    have hdeclare : M.declare (.mk paren [.leaf x, .leaf type]) =
        (Evaluation.ofExcept (M.fresh τ) >>= store x.text) := by
      simp only [Operations.declare, Node.children, Node.leaf, Node.token, keyword]
    rw [hdeclare]
    refine Yields.after (congrArg (Except.map (·, σ)) hd) ?_
    refine ⟨_, runs_define, ?_⟩
    rw [← hcontents]
    exact hm.store hx htype

/-- The trees of a list, each followed by some more code that does not change what counts. -/
theorem EmitsAll.follows {t t' : SymbolTable} {ns : List Node} {vs : List Value} {depth : Nat}
    (h : EmitsAll t ns vs t') (ht : t.Sound) (hT : t'.Extends T)
    (hns : ∀ n ∈ ns, ∀ {t t' : SymbolTable} {v : Value}, t.Sound → t'.Extends T →
      n.value false t = (.ok v, t') → Follows M T (n.evaluate M depth) v.code)
    {tail : Code} (htail : Follows M T (pure ()) tail) :
    Follows M T (each (Node.evaluate M depth) ns) (vs.map fun v => v.code ++ tail).flatten := by
  induction h with
  | nil t => exact follows_pure ()
  | cons first rest ih =>
    have hfirst := hns _ List.mem_cons_self ht (rest.extends.trans hT) first
    have hrest := ih (ht.value first) hT fun n hn => hns n (List.mem_cons_of_mem _ hn)
    rw [List.map_cons, List.flatten_cons, List.append_assoc]
    exact hfirst.bind fun _ => htail.bind fun _ => hrest

end Simulates

section Shapes

variable {depth : Nat} {head : Token} {e a b : Node} {u : Value} {c c' : Code} {τ : ValueType}
  {isTaken : Prop}

private theorem simulates_assignment {x : Token} {s : Storage} {assigned consumed : Bool}
    (kind : head.kind = .assignment)
    (he : Computes M T (taken (e.evaluate M depth)) u.code u.type id) (hu : u.code.isBlank = false)
    (hx : T.scope x.text = some ⟨τ, assigned⟩) (hs : τ.storage? = some s)
    (hτ : u.type = τ ∨ (u.type = .int ∧ τ = .real)) :
    Simulates M T ((Node.mk head [.leaf x, e]).evaluate M (depth + 1))
      ((if τ = .real then u.realCode else u.code) ++ (if consumed then [.word (.dup s)] else []) ++
        [.name x.text, .word (.store s)]) (consumed = true ∧ τ ≠ .void) τ := by
  rw [evaluate_assignment kind]
  intro σ st hm
  refine Yields.map ((he.assign hu hx hs hτ hm st.data st.floats).mono ?_)
  rintro d σ' ⟨hd, m', hrun, hstore, hm'⟩
  cases consumed with
  | false => exact ⟨_, (hrun.append (.nil _)).append (hstore _ _), hm', fun h => nomatch h.1⟩
  | true =>
    exact ⟨_, (hrun.append (runs_double (hd.symm ▸ hs))).append (hstore _ _), hm',
      fun _ => ⟨d, rfl, hd, rfl, rfl⟩⟩

private theorem follows_print {pw : Word} (kind : head.kind = .statement)
    (text : head.text = Statement.print.keyword)
    (he : Computes M T (taken (e.evaluate M depth)) c τ id) (hpw : τ.printWord? = some pw) :
    Follows M T ((Node.mk head [e]).evaluate M (depth + 1)) (c ++ [.word pw]) := by
  rw [evaluate_print kind text]
  intro σ st hm
  refine (he σ st.data st.floats st.memory hm).bind ?_
  rintro d σ₁ ⟨hd, m₁, hrun, hm₁⟩
  refine Yields.after rfl (yields_pure ?_)
  exact ⟨_, hrun.append (runs_print (hd.symm ▸ hpw)), hm₁.print d⟩

private theorem follows_choose (kind : head.kind = .statement)
    (text : head.text = Statement.choose.keyword)
    (he : Computes M T (taken (e.evaluate M depth)) c .bool id)
    (ha : Follows M T (a.evaluate M depth) c') :
    Follows M T ((Node.mk head [e, a]).evaluate M (depth + 1)) (c ++ [.choose c']) := by
  rw [evaluate_choose kind text]
  intro σ st hm
  refine he.branch hm st.data st.floats fun t σ₁ m₁ hm₁ hrun => ?_
  cases t with
  | false => exact yields_pure ⟨_, hrun.append (runs_choose (.nil _)), hm₁⟩
  | true =>
    refine (ha σ₁ ⟨st.data, st.floats, m₁⟩ hm₁).bind ?_
    rintro _ σ₂ ⟨st₂, hrun₂, hm₂⟩
    exact yields_pure ⟨st₂, hrun.append (runs_choose hrun₂), hm₂⟩

private theorem simulates_chooseElse {c₁ c₂ : Code} (kind : head.kind = .statement)
    (text : head.text = Statement.choose.keyword)
    (he : Computes M T (taken (e.evaluate M depth)) c .bool id)
    (ha : Simulates M T (a.evaluate M depth) c₁ isTaken τ)
    (hb : Simulates M T (b.evaluate M depth) c₂ isTaken τ) :
    Simulates M T ((Node.mk head [e, a, b]).evaluate M (depth + 1)) (c ++ [.chooseElse c₁ c₂])
      isTaken τ := by
  rw [evaluate_chooseElse kind text]
  intro σ st hm
  refine he.branch hm st.data st.floats fun t σ₁ m₁ hm₁ hrun => ?_
  have hbranch : Simulates M T (if t then a.evaluate M depth else b.evaluate M depth)
      (if t then c₁ else c₂) isTaken τ := by
    cases t with
    | false => exact hb
    | true => exact ha
  refine (hbranch σ₁ ⟨st.data, st.floats, m₁⟩ hm₁).mono ?_
  rintro d σ₂ ⟨st₂, hrun₂, hm₂, hvalue⟩
  exact ⟨st₂, hrun.append (runs_chooseElse hrun₂), hm₂, hvalue⟩

/-- A loop, if it does what it should from its second test on. -/
theorem follows_loop {ns : List Node} (kind : head.kind = .statement)
    (text : head.text = Statement.loop.keyword)
    (he : Computes M T (taken (e.evaluate M depth)) c .bool id)
    (hbody : Follows M T (each (Node.evaluate M depth) ns) c')
    (hagain : Follows M T ((Node.mk head (e :: ns)).evaluate M depth) [.loop c c']) :
    Follows M T ((Node.mk head (e :: ns)).evaluate M (depth + 1)) [.loop c c'] := by
  rw [evaluate_loop kind text]
  intro σ st hm
  refine he.branch hm st.data st.floats fun t σ₁ m₁ hm₁ hrun => ?_
  cases t with
  | false => exact yields_pure ⟨_, runs_loop hrun (.nil _), hm₁⟩
  | true =>
    refine ((hbody.bind fun _ => hagain) σ₁ ⟨st.data, st.floats, m₁⟩ hm₁).mono ?_
    rintro _ σ₂ ⟨st₂, hrun₂, hm₂⟩
    exact ⟨st₂, runs_loop hrun hrun₂, hm₂⟩

end Shapes

/-- The code of a tree follows its evaluation. -/
theorem Node.WellFormed.simulates {depth : Nat} {n : Node} (hn : n.WellFormed) {consumed : Bool}
    {t t' : SymbolTable} {v : Value} (ht : t.Sound) (hT : t'.Extends T)
    (hv : n.value consumed t = (.ok v, t')) :
    Simulates M T (n.evaluate M depth) v.code (consumed = true ∧ v.type ≠ .void) v.type := by
  induction depth generalizing n consumed t t' v with
  | zero =>
    intro σ st hm
    rw [Node.evaluate]
    exact yields_stop (by decide)
  | succ depth ih =>
    -- The parts of a form that are taken leave their values, as they are evaluated less deep.
    have hpart : ∀ {n : Node} {t t' : SymbolTable} {u : Value}, n.WellFormed → t.Sound →
        t'.Extends T → n.value true t = (.ok u, t') → u.type ≠ .void →
        Computes M T (taken (n.evaluate M depth)) u.code u.type id :=
      fun hn ht hT hu hvoid => (ih hn ht hT hu).computes ⟨rfl, hvoid⟩
    have hbool : ∀ {τ : ValueType}, τ = .bool → τ ≠ .void := by
      rintro _ rfl
      decide
    cases hn with
    | @operand tok kind spelled =>
      rw [Node.evaluate]
      by_cases hk : tok.kind = .identifier
      · obtain ⟨τ, s, hx, hs, rfl, rfl⟩ :=
          (value_identifier_iff hk (spelled.text_ne_nil hk) ht).mp hv
        obtain ⟨a, hx⟩ := (SymbolTable.extends_value hv).trans hT _ _ _ hx
        exact (computes_identifier hk hx hs).simulates
      · have hliteral : tok.kind.isLiteral = true := by simpa [TokenKind.isOperand, hk] using kind
        exact (spelled.literalCode ((value_literal_iff hliteral).mp hv).1).computes.simulates
    | @assignment head x e kind target spelled value =>
      obtain ⟨u, t₁, τ, a, s, hu, hx, hs, hτ, rfl, rfl⟩ :=
        (value_assignment_iff kind (spelled.text_ne_nil target) value.emitsProper ht).mp hv
      have ht₁ : t₁.Extends T := (SymbolTable.extends_put hx).trans hT
      have hvoid : u.type ≠ .void := by
        rcases hτ with h | ⟨h, -⟩
        · rw [h]
          rintro rfl
          cases hs
        · rw [h]
          decide
      obtain ⟨a, hx⟩ := ht₁ _ _ _ hx
      exact simulates_assignment kind (hpart value ht ht₁ hu hvoid) (value.emitsProper ht hu).code hx
        hs hτ
    | @binary head op l r kind spelling left right =>
      obtain ⟨u₁, t₁, u₂, hu₁, hu₂, hcode⟩ :=
        (value_binary_iff kind spelling left.emitsProper right.emitsProper ht).mp hv
      rw [evaluate_binary kind spelling]
      have hl := hpart left ht ((SymbolTable.extends_value hu₂).trans hT) hu₁ hcode.ne_void.1
      have hr := hpart right (ht.value hu₁) hT hu₂ hcode.ne_void.2
      exact (hcode.computes hl hr (left.emitsProper ht hu₁).code
        (right.emitsProper (ht.value hu₁) hu₂).code).simulates
    | @unary head op e kind spelling operand =>
      obtain ⟨u, hu, hcode⟩ := (value_unary_iff kind spelling operand.emitsProper ht).mp hv
      rw [evaluate_unary kind spelling]
      exact (hcode.computes (hpart operand ht hT hu hcode.ne_void)
        (operand.emitsProper ht hu).code).simulates
    | @declaration head bs kind text nonempty each =>
      obtain ⟨code, hcode, rfl⟩ := (value_declaration_iff kind text nonempty each ht).mp hv
      obtain ⟨b, bs, rfl⟩ := List.exists_cons_of_ne_nil nonempty
      rw [evaluate_declaration kind text]
      refine Follows.simulates ?_ fun h => h.2 rfl
      rw [← List.append_nil code]
      exact (hcode.follows hT).bind fun _ => follows_pure none
    | @loop head test body kind text nonempty condition each =>
      obtain ⟨u, t₁, vs, hu, hvs, htest, rfl⟩ :=
        (value_loop_iff kind text (fun m hm => (each m hm).emitsProper) ht).mp hv
      have he := hpart condition ht (hvs.extends.trans hT) hu (hbool htest)
      have hbody : Follows M T (Evaluation.each (Node.evaluate M depth) body)
          (vs.map Value.code).flatten := by
        simpa only [List.append_nil] using hvs.follows (ht.value hu) hT
          (fun n hn _ _ _ ht hT hv => (ih (each n hn) ht hT hv).follows) (follows_pure ())
      -- The loop itself is evaluated less deep after each pass, as the hypothesis on the depth asks.
      refine Follows.simulates ?_ fun h => h.2 rfl
      exact follows_loop kind text (htest ▸ he) hbody
        (ih (.loop kind text nonempty condition each) ht hT hv).follows
    | @choose head test onTrue kind text condition branch =>
      obtain ⟨u, t₁, v₁, hu, hv₁, htest, rfl⟩ :=
        (value_choose_iff kind text condition.emitsProper ht).mp hv
      have he := hpart condition ht ((SymbolTable.extends_value hv₁).trans hT) hu (hbool htest)
      refine Follows.simulates ?_ fun h => h.2 rfl
      exact follows_choose kind text (htest ▸ he) (ih branch (ht.value hu) hT hv₁).follows
    | @chooseElse head test onTrue onFalse kind text condition branch otherwise =>
      obtain ⟨u, t₁, v₁, t₂, v₂, hu, hv₁, hv₂, htest, rfl⟩ :=
        (value_chooseElse_iff kind text condition.emitsProper ht).mp hv
      have ht₂ := (SymbolTable.extends_value hv₂).trans hT
      have he := hpart condition ht ((SymbolTable.extends_value hv₁).trans ht₂) hu (hbool htest)
      have ha := ih branch (ht.value hu) ht₂ hv₁
      have hb := ih otherwise ((ht.value hu).value hv₁) hT hv₂
      -- The value counts only if the branches have one type, and then it is the type of both.
      refine simulates_chooseElse kind text (htest ▸ he) (ha.weaken ?_) (hb.weaken ?_)
      · rintro ⟨hc, hvoid⟩
        split at hvoid
        · exact ⟨⟨hc, hvoid⟩, (if_pos ‹_›).symm⟩
        · exact absurd rfl hvoid
      · rintro ⟨hc, hvoid⟩
        split at hvoid
        · rename_i heq
          exact ⟨⟨hc, heq ▸ hvoid⟩, (if_pos heq).symm ▸ heq.symm⟩
        · exact absurd rfl hvoid
    | @print head e kind text operand =>
      obtain ⟨u, pw, hu, hpw, rfl⟩ := (value_print_iff kind text operand.emitsProper ht).mp hv
      have hvoid : u.type ≠ .void := by
        intro h
        rw [h] at hpw
        cases hpw
      refine Follows.simulates ?_ fun h => h.2 rfl
      exact follows_print kind text (hpart operand ht hT hu hvoid) hpw

end PrefixForth

import PrefixForth.Proofs.Forth.Emission

/-!
# Stack effects

Every word takes some cells off the data stack and some floats off the float stack and puts others
there; the table `Word.effect` says how many. Knowing no more than that, `Effect.Step` runs code on
two stacks of anything: what a word puts there is left open, a choice may go either way and a loop
may go on or end after each round.

`Balanced` is the bookkeeping for code without loops: from which depths of the stacks, above some
base, to which depths it leads, on all ways through it. Balanced code never takes what lies below the
base, cannot get stuck, and comes to its end (`Balanced.run`).

Main statement: the code of a tree whose value is taken is balanced and leaves exactly one value of
its type (`consumed_value_is_pushed`).
-/

namespace PrefixForth

open Grammar

/-! ### The table of effects -/

/-- The data cells of a value that is kept in a given way. -/
def Storage.cells : Storage → Nat
  | cell => 1
  | float => 0
  | pair => 2

/-- The floats of a value that is kept in a given way. -/
def Storage.floats : Storage → Nat
  | float => 1
  | _ => 0

/-- A number of data cells and a number of floats. -/
structure Depth where
  cells : Nat := 0
  floats : Nat := 0
  deriving DecidableEq, Repr

/-- What is taken off the stacks and what is put there instead. -/
structure Effect where
  takes : Depth
  gives : Depth
  deriving DecidableEq, Repr

/-- A value of its own on the stacks. -/
def Storage.depth (s : Storage) : Depth :=
  ⟨s.cells, s.floats⟩

/-- The stack effect of a word. -/
def Word.effect : Word → Effect
  | fetch s => ⟨⟨1, 0⟩, s.depth⟩
  | store s => ⟨⟨s.cells + 1, s.floats⟩, ⟨0, 0⟩⟩
  | dup s => ⟨s.depth, ⟨s.cells + s.cells, s.floats + s.floats⟩⟩
  | swap => ⟨⟨2, 0⟩, ⟨2, 0⟩⟩
  | dupSecond => ⟨⟨2, 0⟩, ⟨3, 0⟩⟩
  | nip => ⟨⟨2, 0⟩, ⟨1, 0⟩⟩
  | int _ => ⟨⟨2, 0⟩, ⟨1, 0⟩⟩
  | intCompare _ => ⟨⟨2, 0⟩, ⟨1, 0⟩⟩
  | negate => ⟨⟨1, 0⟩, ⟨1, 0⟩⟩
  | logic _ => ⟨⟨2, 0⟩, ⟨1, 0⟩⟩
  | invert => ⟨⟨1, 0⟩, ⟨1, 0⟩⟩
  | float _ => ⟨⟨0, 2⟩, ⟨0, 1⟩⟩
  | floatCompare _ => ⟨⟨0, 2⟩, ⟨1, 0⟩⟩
  | floatNegate => ⟨⟨0, 1⟩, ⟨0, 1⟩⟩
  | trigonometric _ => ⟨⟨0, 1⟩, ⟨0, 1⟩⟩
  | intToFloat => ⟨⟨1, 0⟩, ⟨0, 1⟩⟩
  | concat => ⟨⟨4, 0⟩, ⟨2, 0⟩⟩
  | printCell => ⟨⟨1, 0⟩, ⟨0, 0⟩⟩
  | printFloat => ⟨⟨0, 1⟩, ⟨0, 0⟩⟩
  | printString => ⟨⟨2, 0⟩, ⟨0, 0⟩⟩
  | newLine => ⟨⟨0, 0⟩, ⟨0, 0⟩⟩

/-- The stack effect of an instruction that is no control structure. -/
def Instruction.effect? : Instruction → Option Effect
  | int _ => some ⟨⟨0, 0⟩, ⟨1, 0⟩⟩
  | real _ => some ⟨⟨0, 0⟩, ⟨0, 1⟩⟩
  | flag _ => some ⟨⟨0, 0⟩, ⟨1, 0⟩⟩
  | string _ => some ⟨⟨0, 0⟩, ⟨2, 0⟩⟩
  | name _ => some ⟨⟨0, 0⟩, ⟨1, 0⟩⟩
  | define _ _ => some ⟨⟨0, 0⟩, ⟨0, 0⟩⟩
  | word w => some w.effect
  | choose _ | chooseElse _ _ | loop _ _ | count _ => none

/-- What an instruction takes off the stacks: a choice takes its flag, a counted loop its bounds. -/
def Instruction.takes : Instruction → Depth
  | choose _ | chooseElse _ _ => ⟨1, 0⟩
  | loop _ _ => ⟨0, 0⟩
  | count _ => ⟨2, 0⟩
  | i => (i.effect?.map Effect.takes).getD ⟨0, 0⟩

/-! ### Runs on stacks of anything -/

namespace Effect

/-- What is still to be run, and the two stacks, their tops first. -/
structure Config (α β : Type) where
  code : Code
  data : List α
  floats : List β

variable {α β : Type}

/-- One step: any values of the right number may be put on the stacks, and control may take any
way. -/
inductive Step : Config α β → Config α β → Prop
  | plain {i : Instruction} {e : Effect} {k : Code} {xs us ds : List α} {ys vs fs : List β}
      (effect : i.effect? = some e) (takesCells : xs.length = e.takes.cells)
      (takesFloats : ys.length = e.takes.floats) (givesCells : us.length = e.gives.cells)
      (givesFloats : vs.length = e.gives.floats) :
      Step ⟨i :: k, xs ++ ds, ys ++ fs⟩ ⟨k, us ++ ds, vs ++ fs⟩
  | choose {a k : Code} {x : α} {ds : List α} {fs : List β} :
      Step ⟨.choose a :: k, x :: ds, fs⟩ ⟨a ++ k, ds, fs⟩
  | skip {a k : Code} {x : α} {ds : List α} {fs : List β} :
      Step ⟨.choose a :: k, x :: ds, fs⟩ ⟨k, ds, fs⟩
  | onTrue {a b k : Code} {x : α} {ds : List α} {fs : List β} :
      Step ⟨.chooseElse a b :: k, x :: ds, fs⟩ ⟨a ++ k, ds, fs⟩
  | onFalse {a b k : Code} {x : α} {ds : List α} {fs : List β} :
      Step ⟨.chooseElse a b :: k, x :: ds, fs⟩ ⟨b ++ k, ds, fs⟩
  | loop {a b k : Code} {ds : List α} {fs : List β} :
      Step ⟨.loop a b :: k, ds, fs⟩ ⟨a ++ .choose (b ++ [.loop a b]) :: k, ds, fs⟩
  | count {a k : Code} {x y : α} {ds : List α} {fs : List β} (n : Nat) :
      Step ⟨.count a :: k, x :: y :: ds, fs⟩ ⟨(List.replicate n a).flatten ++ k, ds, fs⟩

/-- A number of steps. -/
inductive Steps : Nat → Config α β → Config α β → Prop
  | zero (s : Config α β) : Steps 0 s s
  | succ {n : Nat} {s s' s'' : Config α β} (first : Step s s') (rest : Steps n s' s'') :
      Steps (n + 1) s s''

end Effect

/-! ### Balanced code -/

/-- The code leads from the first depths of the two stacks to the second ones, whichever way control
takes. -/
inductive Balanced : Code → Depth → Depth → Prop
  | nil (d : Depth) : Balanced [] d d
  | plain {i : Instruction} {e : Effect} {k : Code} {d d₀ d' : Depth} (effect : i.effect? = some e)
      (cells : d₀.cells = d.cells + e.takes.cells) (floats : d₀.floats = d.floats + e.takes.floats)
      (rest : Balanced k ⟨d.cells + e.gives.cells, d.floats + e.gives.floats⟩ d') :
      Balanced (i :: k) d₀ d'
  | chooseElse {a b k : Code} {d d₀ d₁ d' : Depth} (cells : d₀.cells = d.cells + 1)
      (floats : d₀.floats = d.floats) (onTrue : Balanced a d d₁) (onFalse : Balanced b d d₁)
      (rest : Balanced k d₁ d') : Balanced (.chooseElse a b :: k) d₀ d'

namespace Balanced

variable {a b c k : Code} {d d' d'' : Depth}

/-- Depths add up along code. -/
theorem append (ha : Balanced a d d') (hb : Balanced b d' d'') : Balanced (a ++ b) d d'' := by
  induction ha with
  | nil => exact hb
  | plain effect cells floats _ ih => exact .plain effect cells floats (ih hb)
  | chooseElse cells floats onTrue onFalse _ _ _ ih =>
    exact .chooseElse cells floats onTrue onFalse (ih hb)

/-- What lies below is left alone. -/
theorem frame (h : Balanced c d d') (m : Depth) :
    Balanced c ⟨d.cells + m.cells, d.floats + m.floats⟩ ⟨d'.cells + m.cells, d'.floats + m.floats⟩ := by
  induction h with
  | nil => exact .nil _
  | @plain i e k d d₀ d' effect cells floats _ ih =>
    refine .plain (d := ⟨d.cells + m.cells, d.floats + m.floats⟩) effect ?_ ?_ ?_
    · simp only [cells]
      omega
    · simp only [floats]
      omega
    · simpa only [Nat.add_right_comm] using ih
  | @chooseElse a b k d d₀ d₁ d' cells floats _ _ _ ihTrue ihFalse ih =>
    refine .chooseElse ?_ ?_ ihTrue ihFalse ih
    · simp only [cells]
      omega
    · simp only [floats]

/-- A single instruction. -/
theorem instruction {i : Instruction} {e : Effect} (h : i.effect? = some e) :
    Balanced [i] e.takes e.gives :=
  .plain (d := {}) h (Nat.zero_add _).symm (Nat.zero_add _).symm
    (by simpa using Balanced.nil e.gives)

end Balanced

/-! ### Runs of balanced code -/

mutual

/-- The number of instructions, those inside control structures counted. -/
def Instruction.weight : Instruction → Nat
  | .choose a => Code.weight a + 1
  | .chooseElse a b => Code.weight a + Code.weight b + 1
  | .loop a b => Code.weight a + Code.weight b + 1
  | .count a => Code.weight a + 1
  | _ => 1

/-- The number of instructions in code. -/
def Code.weight : List Instruction → Nat
  | [] => 0
  | i :: is => i.weight + Code.weight is

end

private theorem Instruction.weight_pos (i : Instruction) : 0 < i.weight := by
  cases i <;> simp [weight]

private theorem Code.weight_append (a b : Code) : weight (a ++ b) = weight a + weight b := by
  induction a with
  | nil => simp [weight]
  | cons i a ih =>
    rw [List.cons_append, weight, weight, ih]
    omega

namespace Balanced

open Effect

variable {α β : Type} {c : Code} {d d' : Depth} {xs ds : List α} {ys fs : List β}

/-- What is taken off a stack that is high enough comes from above its base. -/
private theorem exists_above {γ : Type} {us xs ds es : List γ} (h : us ++ es = xs ++ ds)
    (hle : us.length ≤ xs.length) : ∃ zs, xs = us ++ zs ∧ es = zs ++ ds := by
  rcases List.append_eq_append_iff.mp h with ⟨zs, hxs, hes⟩ | ⟨zs, hus, hds⟩
  · exact ⟨zs, hxs, hes⟩
  · have hzs : zs = [] := by
      rw [hus, List.length_append] at hle
      exact List.length_eq_zero_iff.mp (by omega)
    subst hzs
    exact ⟨[], by simpa using hus.symm, by simpa using hds.symm⟩

/-- A step of balanced code leads to balanced code with fewer instructions; the stacks keep their
base. -/
theorem step (h : Balanced c d d') (hxs : xs.length = d.cells) (hys : ys.length = d.floats)
    {s : Config α β} (hstep : Step ⟨c, xs ++ ds, ys ++ fs⟩ s) :
    ∃ d₁ us vs, s.data = us ++ ds ∧ s.floats = vs ++ fs ∧ us.length = d₁.cells ∧
      vs.length = d₁.floats ∧ Balanced s.code d₁ d' ∧ Code.weight s.code < Code.weight c := by
  generalize hs₀ : (⟨c, xs ++ ds, ys ++ fs⟩ : Config α β) = s₀ at hstep
  cases h with
  | nil => cases hstep <;> cases hs₀
  | @plain i e k d _ _ effect cells floats rest =>
    cases hstep with
    | @plain _ e' _ us ws es vs zs gs effect' takesCells takesFloats givesCells givesFloats =>
      rw [Config.mk.injEq, List.cons.injEq] at hs₀
      obtain ⟨⟨rfl, rfl⟩, hdata, hfloats⟩ := hs₀
      obtain rfl := Option.some.inj (effect.symm.trans effect')
      obtain ⟨as, rfl, rfl⟩ := exists_above hdata.symm (by omega)
      obtain ⟨bs, rfl, rfl⟩ := exists_above hfloats.symm (by omega)
      rw [List.length_append] at hxs hys
      refine ⟨_, ws ++ as, zs ++ bs, by simp, by simp, ?_, ?_, rest, ?_⟩
      · simp only [List.length_append]
        omega
      · simp only [List.length_append]
        omega
      · have := i.weight_pos
        simp only [Code.weight]
        omega
    | _ =>
      rw [Config.mk.injEq, List.cons.injEq] at hs₀
      obtain ⟨⟨rfl, -⟩, -⟩ := hs₀
      cases effect
  | @chooseElse a b k d _ d₁ _ cells floats onTrue onFalse rest =>
    -- The flag lies above the base; below it are the stacks that both branches start from.
    have hflag : ∃ x us, xs = x :: us ∧ us.length = d.cells := by
      rcases xs with _ | ⟨x, us⟩
      · simp at hxs
        omega
      · exact ⟨x, us, rfl, by simp at hxs; omega⟩
    obtain ⟨x, us, rfl, hus⟩ := hflag
    cases hstep with
    | plain effect =>
      rw [Config.mk.injEq, List.cons.injEq] at hs₀
      obtain ⟨⟨rfl, -⟩, -⟩ := hs₀
      cases effect
    | onTrue =>
      cases hs₀
      refine ⟨d, us, ys, rfl, rfl, hus, by omega, onTrue.append rest, ?_⟩
      rw [Code.weight_append, Code.weight, Instruction.weight]
      omega
    | onFalse =>
      cases hs₀
      refine ⟨d, us, ys, rfl, rfl, hus, by omega, onFalse.append rest, ?_⟩
      rw [Code.weight_append, Code.weight, Instruction.weight]
      omega
    | _ => cases hs₀

/-- The next instruction of balanced code takes nothing from below the base. -/
theorem takes_le {i : Instruction} {k : Code} (h : Balanced (i :: k) d d') :
    i.takes.cells ≤ d.cells ∧ i.takes.floats ≤ d.floats := by
  cases h with
  | @plain _ e _ d _ _ effect cells floats rest =>
    have htakes : i.takes = e.takes := by cases i <;> simp_all [Instruction.takes, Instruction.effect?]
    rw [htakes]
    omega
  | chooseElse cells floats => simp [Instruction.takes, cells]

/-- Balanced code that has not come to its end can go on. -/
theorem exists_step [Inhabited α] [Inhabited β] {i : Instruction} {k : Code}
    (h : Balanced (i :: k) d d') (hxs : xs.length = d.cells) (hys : ys.length = d.floats) :
    ∃ s, Step ⟨i :: k, xs ++ ds, ys ++ fs⟩ s := by
  cases h with
  | @plain _ e _ d _ _ effect cells floats rest =>
    have hxs' : (xs.take e.takes.cells).length = e.takes.cells := by
      rw [List.length_take]
      omega
    have hys' : (ys.take e.takes.floats).length = e.takes.floats := by
      rw [List.length_take]
      omega
    rw [← List.take_append_drop e.takes.cells xs, ← List.take_append_drop e.takes.floats ys,
      List.append_assoc, List.append_assoc]
    exact ⟨_, .plain effect hxs' hys' (List.length_replicate (a := default))
      (List.length_replicate (a := default))⟩
  | chooseElse cells floats =>
    rcases xs with _ | ⟨x, us⟩
    · simp only [List.length_nil] at hxs
      omega
    · exact ⟨_, .onTrue⟩

/-- What a step of balanced code keeps, a run keeps, and the run is not longer than the code. -/
theorem run (h : Balanced c d d') {n : Nat} {s : Config α β}
    (hrun : Steps n ⟨c, xs ++ ds, ys ++ fs⟩ s) (hxs : xs.length = d.cells)
    (hys : ys.length = d.floats) :
    n ≤ Code.weight c ∧ ∃ d₁ us vs, s.data = us ++ ds ∧ s.floats = vs ++ fs ∧
      us.length = d₁.cells ∧ vs.length = d₁.floats ∧ Balanced s.code d₁ d' := by
  induction n generalizing c d xs ys with
  | zero =>
    cases hrun
    exact ⟨Nat.zero_le _, d, xs, ys, rfl, rfl, hxs, hys, h⟩
  | succ n ih =>
    cases hrun with
    | @succ _ _ s₁ _ first rest =>
      obtain ⟨d₁, us, vs, hdata, hfloats, hus, hvs, hbalanced, hweight⟩ := h.step hxs hys first
      obtain ⟨code, data, floats⟩ := s₁
      subst hdata hfloats
      obtain ⟨hn, hend⟩ := ih hbalanced rest hus hvs
      exact ⟨Nat.lt_of_le_of_lt hn hweight, hend⟩

end Balanced

/-! ### The code of values that are taken -/

/-- The code puts one value of the type on the stacks. -/
def Value.Pushes (v : Value) : Prop :=
  ∀ s : Storage, v.type.storage? = some s → Balanced v.code {} s.depth

/-- A value of a storable type leaves what a variable of that type holds. -/
theorem Value.Pushes.of_type {v : Value} {τ : ValueType} {s : Storage} (h : v.Pushes)
    (hv : v.type = τ) (hs : τ.storage? = some s) : Balanced v.code {} s.depth :=
  h s (hv ▸ hs)

/-- Code that puts one value on the stacks, whatever is there. -/
theorem Balanced.above {c : Code} {d : Depth} (h : Balanced c {} d) (m : Depth) :
    Balanced c m ⟨m.cells + d.cells, m.floats + d.floats⟩ := by
  have := h.frame m
  simpa [Nat.add_comm] using this

/-- Two values and a word on top of them. -/
theorem Balanced.word {a b : Code} {d d' : Depth} {w : Word} (ha : Balanced a {} d)
    (hb : Balanced b {} d')
    (htakes : w.effect.takes = ⟨d.cells + d'.cells, d.floats + d'.floats⟩) :
    Balanced (a ++ b ++ [.word w]) {} w.effect.gives := by
  have hw := Balanced.instruction (i := .word w) rfl
  rw [htakes] at hw
  exact (ha.append (hb.above d)).append hw

/-- A number as a real. -/
theorem Value.Pushes.realCode {v : Value} (h : v.Pushes) (hcode : v.code.isBlank = false)
    (hv : v.type.isNumeric = true) : Balanced v.realCode {} ⟨0, 1⟩ := by
  rcases ValueType.isNumeric_iff.mp hv with hint | hreal
  · rw [Value.realCode_of_int hint hcode]
    exact (h.of_type hint rfl).append (Balanced.instruction (i := .word .intToFloat) rfl)
  · rw [Value.realCode_of_ne_int (by simp [hreal])]
    exact h.of_type hreal rfl

/-- A binary operator takes what its operands put on the stacks and puts its own value there. -/
theorem BinaryCode.pushes {op : BinaryOperator} {l r v : Value} (h : BinaryCode op l r v)
    (hl : l.Pushes) (hr : r.Pushes) (hlcode : l.code.isBlank = false)
    (hrcode : r.code.isBlank = false) : v.Pushes := by
  intro s hs
  cases h with
  | concat left right =>
    cases hs
    exact (hl.of_type left rfl).word (hr.of_type right rfl) rfl
  | connective op left right =>
    cases hs
    exact (hl.of_type left rfl).word (hr.of_type right rfl) rfl
  | equality _ left right =>
    cases hs
    exact (hl.of_type left rfl).word (hr.of_type right rfl) rfl
  | realArithmetic op left right =>
    cases hs
    exact (hl.realCode hlcode left).word (hr.realCode hrcode right) rfl
  | realComparison op left right =>
    cases hs
    exact (hl.realCode hlcode left).word (hr.realCode hrcode right) rfl
  | intArithmetic op left right =>
    cases hs
    exact (hl.of_type left rfl).word (hr.of_type right rfl) rfl
  | intComparison op left right =>
    cases hs
    exact (hl.of_type left rfl).word (hr.of_type right rfl) rfl

/-- A unary operator takes what its operand puts on the stacks and puts its own value there. -/
theorem UnaryCode.pushes {op : UnaryOperator} {u v : Value} (h : UnaryCode op u v) (hu : u.Pushes)
    (hcode : u.code.isBlank = false) : v.Pushes := by
  intro s hs
  cases h with
  | not operand =>
    cases hs
    exact (hu.of_type operand rfl).append (Balanced.instruction (i := .word .invert) rfl)
  | negate operand =>
    cases hs
    exact (hu.of_type operand rfl).append (Balanced.instruction (i := .word .negate) rfl)
  | floatNegate operand =>
    cases hs
    exact (hu.of_type operand rfl).append (Balanced.instruction (i := .word .floatNegate) rfl)
  | trigonometric op operand =>
    cases hs
    exact (hu.realCode hcode operand).append (Balanced.instruction (i := .word (.trigonometric op)) rfl)

/-- A literal puts its value on the stacks. -/
theorem LiteralCode.pushes {tok : Token} {v : Value} (h : LiteralCode tok v) : v.Pushes := by
  intro s hs
  cases h with
  | int =>
    cases hs
    exact Balanced.instruction (i := .int _) rfl
  | real =>
    cases hs
    exact Balanced.instruction (i := .real _) rfl
  | string =>
    cases hs
    exact Balanced.instruction (i := .string _) rfl
  | bool =>
    cases hs
    exact Balanced.instruction (i := .flag _) rfl

/-- A value as it is stored into a variable that takes it: only a real variable takes a value of
another type, and what it takes is converted first. -/
theorem Value.Pushes.fitted {u : Value} {τ : ValueType} {s : Storage} (h : u.Pushes)
    (hcode : u.code.isBlank = false) (hs : τ.storage? = some s)
    (hfits : u.type = τ ∨ (u.type = .int ∧ τ = .real)) :
    Balanced (if τ = .real then u.realCode else u.code) {} s.depth := by
  split
  · rename_i hreal
    rw [hreal] at hs
    cases hs
    have hnumeric : u.type.isNumeric = true := by
      rcases hfits with h | ⟨h, -⟩
      · rw [h, hreal]
        rfl
      · rw [h]
        rfl
    exact h.realCode hcode hnumeric
  · rename_i hreal
    have htype : u.type = τ := hfits.resolve_right fun h => hreal h.2
    exact h s (htype ▸ hs)

/-- A value that is doubled before it is stored is left once. -/
theorem Balanced.assignment {c : Code} {s : Storage} (h : Balanced c {} s.depth) (x : Bytes) :
    Balanced (c ++ [.word (.dup s)] ++ [.name x, .word (.store s)]) {} s.depth := by
  have hstore : Balanced [.word (.store s)] ⟨s.cells + s.cells + 1, s.floats + s.floats⟩ s.depth :=
    .plain (d := s.depth) rfl (Nat.add_assoc _ _ _) rfl (.nil _)
  have hname : Balanced [.name x, .word (.store s)] (Word.dup s).effect.gives s.depth :=
    .plain (d := (Word.dup s).effect.gives) rfl rfl rfl hstore
  exact (h.append (Balanced.instruction (i := .word (.dup s)) rfl)).append hname

/-- The code of a tree whose value is taken puts the value on the stacks. -/
theorem Node.WellFormed.pushes {n : Node} (h : n.WellFormed) {t t' : SymbolTable} {v : Value}
    (ht : t.Sound) (hv : n.value true t = (.ok v, t')) : v.Pushes := by
  induction h generalizing t t' v with
  | @operand tok kind spelled =>
    by_cases hk : tok.kind = .identifier
    · obtain ⟨τ, s, -, hs, rfl, -⟩ := (value_identifier_iff hk (spelled.text_ne_nil hk) ht).mp hv
      intro s' hs'
      obtain rfl := Option.some.inj (hs.symm.trans hs')
      exact (Balanced.instruction (i := .name tok.text) rfl).append
        (Balanced.instruction (i := .word (.fetch s)) rfl)
    · have hliteral : tok.kind.isLiteral = true := by simpa [TokenKind.isOperand, hk] using kind
      exact (spelled.literalCode ((value_literal_iff hliteral).mp hv).1).pushes
  | assignment kind target spelled value ih =>
    obtain ⟨u, t₁, τ, a, s, hu, -, hs, hfits, rfl, -⟩ :=
      (value_assignment_iff kind (spelled.text_ne_nil target) value.emitsProper ht).mp hv
    intro s' hs'
    obtain rfl := Option.some.inj (hs.symm.trans hs')
    -- the value is doubled before one copy of it is stored
    exact ((ih ht hu).fitted (value.emitsProper ht hu).code hs hfits).assignment _
  | binary kind spelling left right ihl ihr =>
    obtain ⟨u, t₁, w, hu, hw, hcode⟩ :=
      (value_binary_iff kind spelling left.emitsProper right.emitsProper ht).mp hv
    have ht₁ := ht.value hu
    exact hcode.pushes (ihl ht hu) (ihr ht₁ hw) (left.emitsProper ht hu).code
      (right.emitsProper ht₁ hw).code
  | unary kind spelling operand ih =>
    obtain ⟨u, hu, hcode⟩ := (value_unary_iff kind spelling operand.emitsProper ht).mp hv
    exact hcode.pushes (ih ht hu) (operand.emitsProper ht hu).code
  | declaration kind text nonempty each =>
    obtain ⟨code, -, rfl⟩ := (value_declaration_iff kind text nonempty each ht).mp hv
    -- no value, so nothing that a variable could hold
    exact fun _ hs => nomatch hs
  | loop kind text nonempty condition each =>
    obtain ⟨u, t₁, vs, -, -, -, rfl⟩ :=
      (value_loop_iff kind text (fun m hm => (each m hm).emitsProper) ht).mp hv
    exact fun _ hs => nomatch hs
  | choose kind text condition branch =>
    obtain ⟨u, t₁, w, -, -, -, rfl⟩ := (value_choose_iff kind text condition.emitsProper ht).mp hv
    exact fun _ hs => nomatch hs
  | chooseElse kind text condition branch otherwise ih ih₁ ih₂ =>
    obtain ⟨u, t₁, w, t₂, x, hu, hw, hx, hbool, rfl⟩ :=
      (value_chooseElse_iff kind text condition.emitsProper ht).mp hv
    intro s hs
    simp only at hs
    split at hs
    · -- Branches of one type leave the same on the stacks; otherwise there is no value to take.
      rename_i htypes
      have htest : Balanced u.code {} Storage.cell.depth := (ih ht hu).of_type hbool rfl
      have ht₁ := ht.value hu
      have hchoose : Balanced [.chooseElse w.code x.code] ⟨1, 0⟩ s.depth :=
        .chooseElse (d := {}) rfl rfl (ih₁ ht₁ hw s hs) (ih₂ (ht₁.value hw) hx s (htypes ▸ hs)) (.nil _)
      exact htest.append hchoose
    · cases hs
  | print kind text operand =>
    obtain ⟨u, pw, -, -, rfl⟩ := (value_print_iff kind text operand.emitsProper ht).mp hv
    exact fun _ hs => nomatch hs

/-- The code of every part of a parsed program whose value is taken, in every table that may be met:
run on any two stacks, it takes nothing from below their tops, can always go on until it comes to its
end, and ends after a bounded number of steps, whichever way control takes; then exactly one value of
its type lies on the stacks as they were. -/
theorem consumed_value_is_pushed {s : Bytes} {p : Program} (hp : parse s = .ok p) {n : Node}
    (hn : n ∈ preorderAll p) {t t' : SymbolTable} (ht : t.Reachable) {v : Value}
    (hv : n.value true t = (.ok v, t')) {kept : Storage} (htype : v.type.storage? = some kept)
    {α β : Type} [Inhabited α] [Inhabited β] (data : List α) (floats : List β) {m : Nat}
    {c : Effect.Config α β} (hrun : Effect.Steps m ⟨v.code, data, floats⟩ c) :
    m ≤ Code.weight v.code ∧ ∃ xs ys, c.data = xs ++ data ∧ c.floats = ys ++ floats ∧
      (c.code = [] → xs.length = kept.cells ∧ ys.length = kept.floats) ∧
      ∀ i k, c.code = i :: k → i.takes.cells ≤ xs.length ∧ i.takes.floats ≤ ys.length ∧
        ∃ c', Effect.Step c c' := by
  have hwf := (isPart_of_parse hp hn).wellFormed hv
  have hbalanced := hwf.pushes ht.sound hv kept htype
  have hrun' : Effect.Steps m ⟨v.code, [] ++ data, [] ++ floats⟩ c := hrun
  obtain ⟨hm, d, xs, ys, hdata, hfloats, hxs, hys, hrest⟩ := hbalanced.run hrun' rfl rfl
  obtain ⟨code, cdata, cfloats⟩ := c
  subst hdata hfloats
  refine ⟨hm, xs, ys, rfl, rfl, ?_, ?_⟩
  · rintro rfl
    cases hrest
    exact ⟨hxs, hys⟩
  · rintro i k rfl
    have htakes := hrest.takes_le
    exact ⟨hxs ▸ htakes.1, hys ▸ htakes.2, hrest.exists_step hxs hys⟩

/-- A choice between two integers, by a comparison of an integer with a real. -/
theorem consumed_value_is_pushed_choice :
    ∃ p n v t', parse (utf8 "(stdout (if (< 1 2.5) (- 3) 4))") = .ok p ∧ n ∈ preorderAll p ∧
      n.value true .empty = (.ok v, t') ∧ v.type.storage? = some .cell ∧
      ∀ (data floats : List Nat) m c, Effect.Steps m ⟨v.code, data, floats⟩ c →
        m ≤ Code.weight v.code ∧ ∃ xs ys, c.data = xs ++ data ∧ c.floats = ys ++ floats ∧
          (c.code = [] → xs.length = 1 ∧ ys.length = 0) ∧
          ∀ i k, c.code = i :: k → i.takes.cells ≤ xs.length ∧ i.takes.floats ≤ ys.length ∧
            ∃ c', Effect.Step c c' := by
  have hrun : ((parse (utf8 "(stdout (if (< 1 2.5) (- 3) 4))")).toOption.any fun p =>
      (preorderAll p)[1]?.any fun n => (n.value true .empty).1.toOption.any fun v =>
        v.type.storage? == some .cell) = true := by decide +kernel
  simp only [Option.any_eq_true, toOption_eq_some_iff, beq_iff_eq] at hrun
  obtain ⟨p, hp, n, hn, v, hv, htype⟩ := hrun
  have hmem := List.mem_of_getElem? hn
  have hvalue : n.value true .empty = (.ok v, (n.value true .empty).2) := Prod.ext hv rfl
  refine ⟨p, n, v, _, hp, hmem, hvalue, htype, ?_⟩
  intro data floats m c hsteps
  exact consumed_value_is_pushed hp hmem .empty hvalue htype data floats hsteps

end PrefixForth

import Mathlib.Logic.Basic
import PrefixForth.Forth.Generator

/-!
# The code of operators

What operators do with their operands is a relation for each number of operands, `BinaryCode` and
`UnaryCode`: one rule for each choice of words. The generator makes its choice by a chain of early
exits, strings before truth values and reals before integers; it succeeds exactly where there is a
rule (`binaryValue_eq_ok_iff`, `unaryValue_eq_ok_iff`).

The rules speak of plain concatenations. Joining leaves out blank codes, and the codes of values that
come from a well-formed tree are never blank (`Value.Proper`).
-/

namespace PrefixForth

/-! ### Joining codes -/

namespace Code

variable {c d : Code}

/-- Code that is not blank stays so with more code behind it. -/
theorem isBlank_append (h : isBlank c = false) (d : Code) : isBlank (c ++ d) = false := by
  rcases c with _ | ⟨i, _ | ⟨j, c⟩⟩
  · cases h
  · rcases d with _ | ⟨k, d⟩
    · simpa using h
    · simp [isBlank]
  · simp [isBlank]

theorem ne_nil_of_isBlank (h : isBlank c = false) : c ≠ [] := by
  rintro rfl
  cases h

theorem isBlank_append_word (c : Code) (w : Word) : isBlank (c ++ [.word w]) = false := by
  rcases c with _ | ⟨i, _ | ⟨j, c⟩⟩ <;> simp [isBlank]

theorem isBlank_name {x : Bytes} (h : x ≠ []) : isBlank [.name x] = false := by
  simpa [isBlank] using h

@[simp]
theorem isBlank_word (w : Word) : isBlank [.word w] = false := rfl

@[simp]
theorem join_nil : join [] = [] := rfl

/-- Code that is not blank is joined as it is. -/
theorem join_cons_of_isBlank {cs : List Code} (h : isBlank c = false) :
    join (c :: cs) = c ++ join cs := by
  simp [join, h]

/-- Two codes and a word are joined as they are. -/
theorem join_word_of_isBlank (hc : isBlank c = false) (hd : isBlank d = false) (w : Word) :
    join [c, d, [.word w]] = c ++ d ++ [.word w] := by
  rw [join_cons_of_isBlank hc, join_cons_of_isBlank hd, join_cons_of_isBlank (isBlank_word w),
    join_nil, List.append_nil, List.append_assoc]

/-- A code and one more instruction are joined as they are, if the instruction has a text. -/
theorem join_instruction {i : Instruction} (hc : isBlank c = false) (hi : isBlank [i] = false) :
    join [c, [i]] = c ++ [i] := by
  rw [join_cons_of_isBlank hc, join_cons_of_isBlank hi, join_nil, List.append_nil]

/-- Where no code is blank, joining is concatenation. -/
theorem join_of_forall {cs : List Code} (h : ∀ c ∈ cs, isBlank c = false) : join cs = cs.flatten := by
  rw [join, List.filter_eq_self.mpr]
  intro c hc
  simp [h c hc]

end Code

/-! ### Values -/

/-- The types of variables. -/
theorem ValueType.storable_cases {τ : ValueType} (h : τ.storage?.isSome = true) :
    τ = .int ∨ τ = .real ∨ τ = .bool ∨ τ = .string := by
  cases τ <;> simp_all [storage?]

/-- What can be stored has a value. -/
theorem ValueType.hasValue_of_storable {τ : ValueType} (h : τ.storage?.isSome = true) :
    τ.hasValue = true := by
  rcases storable_cases h with rfl | rfl | rfl | rfl <;> rfl

/-- The numeric types are the integers and the reals. -/
theorem ValueType.isNumeric_iff {τ : ValueType} : τ.isNumeric = true ↔ τ = .int ∨ τ = .real := by
  cases τ <;> simp [isNumeric]

private theorem ValueType.isNumeric_of_ne {τ : ValueType} (h : τ.storage?.isSome = true)
    (hbool : τ ≠ .bool)
    (hstring : τ ≠ .string) : τ.isNumeric = true := by
  rcases storable_cases h with rfl | rfl | rfl | rfl
  · rfl
  · rfl
  · exact absurd rfl hbool
  · exact absurd rfl hstring

/-- The value is that of a well-formed tree: it has the type of a variable or none at all, and its
code has a text. -/
structure Value.Proper (v : Value) : Prop where
  type : v.type = .void ∨ v.type.storage?.isSome = true
  code : v.code.isBlank = false

namespace Value

variable {v : Value}

/-- An integer is converted after its code. -/
theorem realCode_of_int (hv : v.type = .int) (hcode : v.code.isBlank = false) :
    v.realCode = v.code ++ [.word .intToFloat] := by
  have hne : v.code.isEmpty = false := by
    simpa using Code.ne_nil_of_isBlank hcode
  simp [realCode, hv, hne]

/-- A value of another type is left as it is. -/
theorem realCode_of_ne_int (hv : v.type ≠ .int) : v.realCode = v.code := by
  simp [realCode, hv]

/-- The conversion does not make code blank. -/
theorem isBlank_realCode (hcode : v.code.isBlank = false) : v.realCode.isBlank = false := by
  by_cases hv : v.type = .int
  · rw [realCode_of_int hv hcode]
    exact Code.isBlank_append_word _ _
  · rwa [realCode_of_ne_int hv]

end Value

/-! ### Operators -/

/-- The code of an operator with two operands. -/
inductive BinaryCode : BinaryOperator → Value → Value → Value → Prop
  | concat {l r : Value} (left : l.type = .string) (right : r.type = .string) :
      BinaryCode (.arithmetic .add) l r ⟨.string, l.code ++ r.code ++ [.word .concat]⟩
  | connective {l r : Value} (op : Connective) (left : l.type = .bool) (right : r.type = .bool) :
      BinaryCode (.connective op) l r ⟨.bool, l.code ++ r.code ++ [.word (.logic op)]⟩
  | equality {l r : Value} {op : Comparison} (equality : op = .eq ∨ op = .ne)
      (left : l.type = .bool) (right : r.type = .bool) :
      BinaryCode (.comparison op) l r ⟨.bool, l.code ++ r.code ++ [.word (.intCompare op)]⟩
  | realArithmetic {l r : Value} (op : Arithmetic) (left : l.type.isNumeric = true)
      (right : r.type.isNumeric = true) (real : l.type = .real ∨ r.type = .real) :
      BinaryCode (.arithmetic op) l r ⟨.real, l.realCode ++ r.realCode ++ [.word (.float op)]⟩
  | realComparison {l r : Value} (op : Comparison) (left : l.type.isNumeric = true)
      (right : r.type.isNumeric = true) (real : l.type = .real ∨ r.type = .real) :
      BinaryCode (.comparison op) l r ⟨.bool, l.realCode ++ r.realCode ++ [.word (.floatCompare op)]⟩
  | intArithmetic {l r : Value} (op : Arithmetic) (left : l.type = .int) (right : r.type = .int) :
      BinaryCode (.arithmetic op) l r ⟨.int, l.code ++ r.code ++ [.word (.int op)]⟩
  | intComparison {l r : Value} (op : Comparison) (left : l.type = .int) (right : r.type = .int) :
      BinaryCode (.comparison op) l r ⟨.bool, l.code ++ r.code ++ [.word (.intCompare op)]⟩

/-- The code of an operator with one operand. -/
inductive UnaryCode : UnaryOperator → Value → Value → Prop
  | not {v : Value} (operand : v.type = .bool) :
      UnaryCode .not v ⟨.bool, v.code ++ [.word .invert]⟩
  | negate {v : Value} (operand : v.type = .int) :
      UnaryCode .negate v ⟨.int, v.code ++ [.word .negate]⟩
  | floatNegate {v : Value} (operand : v.type = .real) :
      UnaryCode .negate v ⟨.real, v.code ++ [.word .floatNegate]⟩
  | trigonometric {v : Value} (op : Trigonometric) (operand : v.type.isNumeric = true) :
      UnaryCode (.trigonometric op) v ⟨.real, v.realCode ++ [.word (.trigonometric op)]⟩

/-- A binary operator yields a proper value. -/
theorem BinaryCode.proper {op : BinaryOperator} {l r v : Value} (h : BinaryCode op l r v) :
    v.Proper := by
  cases h <;> exact ⟨.inr rfl, Code.isBlank_append_word _ _⟩

/-- A unary operator yields a proper value. -/
theorem UnaryCode.proper {op : UnaryOperator} {u v : Value} (h : UnaryCode op u v) : v.Proper := by
  cases h <;> exact ⟨.inr rfl, Code.isBlank_append_word _ _⟩

/-- The operands have values. -/
theorem BinaryCode.ne_void {op : BinaryOperator} {l r v : Value} (h : BinaryCode op l r v) :
    l.type ≠ .void ∧ r.type ≠ .void := by
  cases h <;> constructor <;> intro hvoid <;> simp_all [ValueType.isNumeric]

/-- No unary operator applies to a node without a value. -/
theorem UnaryCode.ne_void {op : UnaryOperator} {u v : Value} (h : UnaryCode op u v) :
    u.type ≠ .void := by
  cases h <;> intro hvoid <;> simp_all [ValueType.isNumeric]

private theorem ofSpelling?_eq_add_iff {s : Bytes} {op : BinaryOperator}
    (h : BinaryOperator.ofSpelling? s = some op) : s = utf8 "+" ↔ op = .arithmetic .add := by
  constructor
  · rintro rfl
    exact (Option.some.inj h).symm
  · rintro rfl
    obtain ⟨front, back, heq, -⟩ := List.lookup_eq_some_iff.mp h
    have hmem : (s, BinaryOperator.arithmetic .add) ∈ binarySpellings := by
      rw [heq]
      simp
    simpa [binarySpellings] using hmem

section Binary

variable {s : Bytes} {op : BinaryOperator} {l r v : Value}

/-- The word for two truth values. -/
theorem boolOperator?_eq_some {w : Word} (hop : BinaryOperator.ofSpelling? s = some op)
    (h : boolOperator? s = some w) :
    (∃ k, op = .connective k ∧ w = .logic k) ∨
      ∃ c, (c = .eq ∨ c = .ne) ∧ op = .comparison c ∧ w = .intCompare c := by
  simp only [boolOperator?, hop] at h
  split at h
  · rename_i k hk
    cases hk
    cases h
    exact .inl ⟨k, rfl, rfl⟩
  · rename_i hk
    cases hk
    cases h
    exact .inr ⟨.eq, .inl rfl, rfl, rfl⟩
  · rename_i hk
    cases hk
    cases h
    exact .inr ⟨.ne, .inr rfl, rfl, rfl⟩
  · cases h

/-- An operator on two numbers, one of them real. -/
theorem binaryCode_real (hop : BinaryOperator.ofSpelling? s = some op)
    (hconnective : ¬ isConnective s = true) (hl : l.code.isBlank = false) (hr : r.code.isBlank = false)
    (hlnum : l.type.isNumeric = true) (hrnum : r.type.isNumeric = true)
    (hreal : l.type = .real ∨ r.type = .real) :
    BinaryCode op l r
      ⟨resultType s .real, .join [l.realCode, r.realCode, realOperatorCode s]⟩ := by
  have hl' := Value.isBlank_realCode hl
  have hr' := Value.isBlank_realCode hr
  cases op with
  | arithmetic op =>
    have hcode : realOperatorCode s = [.word (.float op)] := by simp [realOperatorCode, hop]
    rw [hcode, Code.join_word_of_isBlank hl' hr', resultType, isPredicate, hop]
    exact .realArithmetic op hlnum hrnum hreal
  | comparison op =>
    have hcode : realOperatorCode s = [.word (.floatCompare op)] := by simp [realOperatorCode, hop]
    rw [hcode, Code.join_word_of_isBlank hl' hr', resultType, isPredicate, hop]
    exact .realComparison op hlnum hrnum hreal
  | connective op => simp [isConnective, hop] at hconnective

/-- An operator on two integers. -/
theorem binaryCode_int (hop : BinaryOperator.ofSpelling? s = some op)
    (hconnective : ¬ isConnective s = true) (hl : l.code.isBlank = false) (hr : r.code.isBlank = false)
    (hlint : l.type = .int) (hrint : r.type = .int) :
    BinaryCode op l r ⟨resultType s .int, .join [l.code, r.code, intOperatorCode s]⟩ := by
  cases op with
  | arithmetic op =>
    have hcode : intOperatorCode s = [.word (.int op)] := by simp [intOperatorCode, hop]
    rw [hcode, Code.join_word_of_isBlank hl hr, resultType, isPredicate, hop]
    exact .intArithmetic op hlint hrint
  | comparison op =>
    have hcode : intOperatorCode s = [.word (.intCompare op)] := by simp [intOperatorCode, hop]
    rw [hcode, Code.join_word_of_isBlank hl hr, resultType, isPredicate, hop]
    exact .intComparison op hlint hrint
  | connective op => simp [isConnective, hop] at hconnective

/-- What an operator makes of two values is one of its codes. -/
theorem binaryCode_of_binaryValue (hop : BinaryOperator.ofSpelling? s = some op) (hl : l.Proper)
    (hr : r.Proper) (h : binaryValue s l r = .ok v) : BinaryCode op l r v := by
  rw [binaryValue] at h
  split at h
  · cases h
  rename_i hvalue
  have hltype : l.type.storage?.isSome = true := by
    refine hl.type.resolve_left fun hvoid => hvalue ?_
    simp [hvoid, ValueType.hasValue]
  have hrtype : r.type.storage?.isSome = true := by
    refine hr.type.resolve_left fun hvoid => hvalue ?_
    simp [hvoid, ValueType.hasValue]
  split at h
  · -- A string on one side asks for a string on the other.
    rename_i hstring
    split at h
    · cases h
    rename_i hadd
    obtain rfl := (ofSpelling?_eq_add_iff hop).mp (not_not.mp hadd)
    split at h
    · cases h
    rename_i heq
    rw [not_not] at heq
    have hleft : l.type = .string := by
      rcases hstring with h | h
      · exact h
      · rwa [heq]
    cases h
    rw [Code.join_word_of_isBlank hl.code hr.code]
    exact .concat hleft (heq ▸ hleft)
  rename_i hstring
  rw [not_or] at hstring
  split at h
  · split at h
    · rename_i w hw
      split at h
      · rename_i hbool
        cases h
        rw [Code.join_word_of_isBlank hl.code hr.code]
        rcases boolOperator?_eq_some hop hw with ⟨k, rfl, rfl⟩ | ⟨c, hc, rfl, rfl⟩
        · exact .connective k hbool.1 hbool.2
        · exact .equality hc hbool.1 hbool.2
      · cases h
    · cases h
  -- What is left are numbers.
  rename_i hbool
  simp only [not_or] at hbool
  obtain ⟨hconnective, hlbool, hrbool⟩ := hbool
  have hlnum := ValueType.isNumeric_of_ne hltype hlbool hstring.1
  have hrnum := ValueType.isNumeric_of_ne hrtype hrbool hstring.2
  split at h
  · rename_i hreal
    cases h
    exact binaryCode_real hop hconnective hl.code hr.code hlnum hrnum hreal
  · rename_i hreal
    rw [not_or] at hreal
    cases h
    exact binaryCode_int hop hconnective hl.code hr.code
      ((ValueType.isNumeric_iff.mp hlnum).resolve_right hreal.1)
      ((ValueType.isNumeric_iff.mp hrnum).resolve_right hreal.2)

private theorem binaryValue_of_real (hconnective : isConnective s = false)
    (hl : l.type.isNumeric = true)
    (hr : r.type.isNumeric = true) (hreal : l.type = .real ∨ r.type = .real) :
    binaryValue s l r =
      .ok ⟨resultType s .real, .join [l.realCode, r.realCode, realOperatorCode s]⟩ := by
  rcases ValueType.isNumeric_iff.mp hl with hl | hl <;>
    rcases ValueType.isNumeric_iff.mp hr with hr | hr <;>
    simp_all [binaryValue, ValueType.hasValue]

/-- An operator on two values succeeds exactly if there is a code for it. -/
theorem binaryValue_eq_ok_iff (hop : BinaryOperator.ofSpelling? s = some op) (hl : l.Proper)
    (hr : r.Proper) : binaryValue s l r = .ok v ↔ BinaryCode op l r v := by
  refine ⟨binaryCode_of_binaryValue hop hl hr, fun h => ?_⟩
  have hl' := Value.isBlank_realCode hl.code
  have hr' := Value.isBlank_realCode hr.code
  cases h with
  | concat left right =>
    have hs := (ofSpelling?_eq_add_iff hop).mpr rfl
    simp [binaryValue, left, right, hs, ValueType.hasValue,
      Code.join_word_of_isBlank hl.code hr.code]
  | connective op left right =>
    simp [binaryValue, left, right, ValueType.hasValue, boolOperator?, hop,
      Code.join_word_of_isBlank hl.code hr.code]
  | equality equality left right =>
    rcases equality with rfl | rfl <;>
      simp [binaryValue, left, right, ValueType.hasValue, boolOperator?, hop,
        Code.join_word_of_isBlank hl.code hr.code]
  | realArithmetic op left right real =>
    rw [binaryValue_of_real (by simp [isConnective, hop]) left right real]
    simp [resultType, isPredicate, realOperatorCode, hop, Code.join_word_of_isBlank hl' hr']
  | realComparison op left right real =>
    rw [binaryValue_of_real (by simp [isConnective, hop]) left right real]
    simp [resultType, isPredicate, realOperatorCode, hop, Code.join_word_of_isBlank hl' hr']
  | intArithmetic op left right =>
    simp [binaryValue, left, right, ValueType.hasValue, isConnective, resultType, isPredicate,
      intOperatorCode, hop, Code.join_word_of_isBlank hl.code hr.code]
  | intComparison op left right =>
    simp [binaryValue, left, right, ValueType.hasValue, isConnective, resultType, isPredicate,
      intOperatorCode, hop, Code.join_word_of_isBlank hl.code hr.code]

end Binary

section Unary

variable {s : Bytes} {op : UnaryOperator} {v w : Value}

/-- An operator on one value succeeds exactly if there is a code for it. -/
theorem unaryValue_eq_ok_iff (hop : UnaryOperator.ofSpelling? s = some op) (hv : v.Proper) :
    unaryValue s v = .ok w ↔ UnaryCode op v w := by
  -- no part of the code is blank, so joining is appending
  have hjoin := fun u : Word => Code.join_instruction hv.code (Code.isBlank_word u)
  have hjoin' := fun u : Word =>
    Code.join_instruction (Value.isBlank_realCode hv.code) (Code.isBlank_word u)
  constructor
  · intro h
    rw [unaryValue] at h
    split at h
    · cases h
    simp only [hop] at h
    cases op with
    | not =>
      simp only at h
      split at h
      · rename_i hbool
        cases h
        rw [hjoin]
        exact .not hbool
      · cases h
    | negate =>
      simp only at h
      split at h
      · rename_i hint
        cases h
        rw [hjoin]
        exact .negate hint
      · rename_i hreal
        cases h
        rw [hjoin]
        exact .floatNegate hreal
      · cases h
    | trigonometric op =>
      simp only at h
      split at h
      · rename_i hnum
        cases h
        rw [hjoin']
        exact .trigonometric op hnum
      · cases h
  · intro h
    cases h with
    | not operand => simp [unaryValue, operand, ValueType.hasValue, hop, hjoin]
    | negate operand => simp [unaryValue, operand, ValueType.hasValue, hop, hjoin]
    | floatNegate operand => simp [unaryValue, operand, ValueType.hasValue, hop, hjoin]
    | trigonometric op operand =>
      have hvalue : v.type.hasValue = true := by
        rcases ValueType.isNumeric_iff.mp operand with h | h <;> rw [h] <;> rfl
      simp [unaryValue, operand, hvalue, hop, hjoin']

end Unary

end PrefixForth

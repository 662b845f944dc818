import PrefixForth.Fault.Report
import PrefixForth.Token
import PrefixForth.ValueType

/-!
# Semantic faults

Why well-formed forms have no meaning: names used against their declarations, operands of the wrong
type, statements where a value is needed.
-/

namespace PrefixForth

/-- Why a form has no meaning. -/
inductive SemanticFault where
  | assignedUnbound (name : Bytes)
  | readUnbound (name : Bytes)
  | readUnassigned (name : Bytes)
  | redeclared (name : Bytes) (type : ValueType)
  | undeclarable (name : Bytes) (type : ValueType)
  | statementOperand (operator : Bytes)
  | stringOperator (operator : Bytes)
  | stringWith (type : ValueType)
  | binaryTypes (operator : Bytes) (left right : ValueType)
  | negatedType (type : ValueType)
  | unaryType (operator : Bytes) (type : ValueType)
  | assignedStatement (name : Bytes)
  | assignedType (value : ValueType) (name : Bytes) (declared : ValueType)
  /-- The condition of a choice or loop is no truth value; `code` is what computes it. -/
  | condition (statement : Statement) (code : Bytes)
  | printedStatement
  | notType (word : Bytes)
  | notValue (token : Token)
  | unknownStatement (word : Bytes)
  /-- A tree of a shape that no text yields. -/
  | noMeaning (token : Token)
  deriving DecidableEq, Repr

namespace SemanticFault

/-- The class of a semantic fault. -/
def reason : SemanticFault → Reason
  | assignedUnbound _ | readUnbound _ => .unboundName
  | readUnassigned _ => .readBeforeAssignment
  | redeclared _ _ => .alreadyDeclared
  | condition _ _ => .notBoolean
  | statementOperand _ | assignedStatement _ | printedStatement => .noValue
  | _ => .operandType

/-- A semantic fault in words. -/
def text : SemanticFault → Bytes
  | assignedUnbound name => utf8 "assignment to unbound identifier " ++ quoted name
  | readUnbound name => utf8 "unrecognized identifier " ++ quoted name
  | readUnassigned name => quoted name ++ utf8 " read before it has been assigned a value"
  | redeclared name type => quoted name ++ utf8 " already declared as " ++ type.name
  | undeclarable name type => utf8 "cannot declare " ++ quoted name ++ utf8 " as " ++ type.name
  | statementOperand operator =>
    utf8 "operand of " ++ quoted operator ++ utf8 " is a statement"
  | stringOperator operator =>
    utf8 "strings can only be concatenated, " ++ quoted operator ++
      utf8 " is not a valid operator for strings"
  | stringWith type => utf8 "strings cannot be concatenated with " ++ type.name
  | binaryTypes operator left right =>
    quoted operator ++ utf8 " not applicable to " ++ left.name ++ utf8 " and " ++ right.name
  | negatedType type => utf8 "'not' needs a bool operand, have " ++ type.name
  | unaryType operator type => quoted operator ++ utf8 " not applicable to " ++ type.name
  | assignedStatement name => utf8 "cannot assign a statement to " ++ quoted name
  | assignedType value name declared =>
    utf8 "cannot assign " ++ value.name ++ utf8 " value to " ++ quoted name ++ utf8 " of type " ++
      declared.name
  | condition statement code =>
    statement.keyword ++ utf8 " condition " ++ quoted code ++
      utf8 " does not evaluate to true or false"
  | printedStatement => utf8 "stdout of a statement"
  | notType word => quoted word ++ utf8 " is not a type"
  | notValue token => token.shown ++ utf8 " is not a value"
  | unknownStatement word => utf8 "unknown statement " ++ quoted word
  | noMeaning token => utf8 "cannot translate " ++ token.shown

end SemanticFault

end PrefixForth

import PrefixForth.Fault.Semantic

/-!
# The symbol table

The table holds an entry for every name that has been met, in the bytewise order of the names. An
entry is created unbound and unassigned when its name is first observed; it is declared once, may
then be assigned, and may be read once it has been assigned.

Declaring, assigning and reading observe the name first, so a failed operation may leave a new
unbound entry behind. Looking a name up leaves the table as it is.
-/

namespace PrefixForth

/-- What is known of a name. -/
structure Entry where
  name : Bytes
  type : ValueType := .unbound
  assigned : Bool := false
  deriving DecidableEq, Repr

namespace Entry

/-- The name has been declared. -/
def isDeclared (e : Entry) : Bool :=
  e.type ≠ .unbound

/-- Name, type and mark of an entry. -/
def text (e : Entry) : Bytes :=
  e.name ++ utf8 ":" ++ e.type.name ++ utf8 "[" ++
    utf8 (if e.assigned then "assigned" else "unassigned") ++ utf8 "]"

/-- The entry after its name is declared with a type. -/
def declare (e : Entry) (type : ValueType) : Except SemanticFault Entry :=
  if e.isDeclared then
    .error (.redeclared e.name e.type)
  else if type.hasValue then
    .ok { e with type := type }
  else
    .error (.undeclarable e.name type)

/-- The entry after its name is assigned a value. -/
def assign (e : Entry) : Except SemanticFault Entry :=
  if e.isDeclared then .ok { e with assigned := true } else .error (.assignedUnbound e.name)

/-- The entry when its name is read. -/
def read (e : Entry) : Except SemanticFault Entry :=
  if !e.isDeclared then
    .error (.readUnbound e.name)
  else if !e.assigned then
    .error (.readUnassigned e.name)
  else
    .ok e

end Entry

/-- The entries of the names met so far, in the order of the names. -/
structure SymbolTable where
  entries : List Entry := []
  deriving DecidableEq, Repr

namespace SymbolTable

/-- The table without names. -/
def empty : SymbolTable := ⟨[]⟩

/-- The number of names. -/
def size (t : SymbolTable) : Nat :=
  t.entries.length

/-- The entry of a name, if it has been met. -/
def lookup (t : SymbolTable) (name : Bytes) : Option Entry :=
  t.entries.find? (·.name = name)

/-- The entry of a name, an unbound one if it has not been met. -/
def entry (t : SymbolTable) (name : Bytes) : Entry :=
  (t.lookup name).getD { name := name }

/-- Puts an entry into its place in a list ordered by name, instead of the one with its name. -/
def insert (e : Entry) : List Entry → List Entry
  | [] => [e]
  | f :: fs =>
    if e.name < f.name then
      e :: f :: fs
    else if e.name = f.name then
      e :: fs
    else
      f :: insert e fs

/-- The table with the given entry for its name. -/
def put (t : SymbolTable) (e : Entry) : SymbolTable :=
  ⟨insert e t.entries⟩

/-- The table in which the name has been met. -/
def observe (t : SymbolTable) (name : Bytes) : SymbolTable :=
  t.put (t.entry name)

/-- Changes the entry of a name. If that fails, the name has still been met. -/
def update (t : SymbolTable) (name : Bytes) (f : Entry → Except SemanticFault Entry) :
    Except SemanticFault Entry × SymbolTable :=
  match f (t.entry name) with
  | .ok e => (.ok e, t.put e)
  | .error fault => (.error fault, t.observe name)

/-- Declares a name. -/
def declare (t : SymbolTable) (name : Bytes) (type : ValueType) :
    Except SemanticFault Entry × SymbolTable :=
  t.update name (·.declare type)

/-- Marks a name as assigned. -/
def assign (t : SymbolTable) (name : Bytes) : Except SemanticFault Entry × SymbolTable :=
  t.update name Entry.assign

/-- Reads a name. -/
def read (t : SymbolTable) (name : Bytes) : Except SemanticFault Entry × SymbolTable :=
  t.update name Entry.read

end SymbolTable

/-- What can be done with a symbol table. -/
inductive SymbolOperation where
  | declare (name : Bytes) (type : ValueType)
  | assign (name : Bytes)
  | read (name : Bytes)
  | observe (name : Bytes)
  | lookup (name : Bytes)
  | list
  deriving DecidableEq, Repr

namespace SymbolOperation

/-- The outcome of an operation and the table after it. An operation on a name answers with the entry
that it found or changed, if there is one, and to list answers with all entries. -/
def apply (t : SymbolTable) : SymbolOperation → Except SemanticFault (List Entry) × SymbolTable
  | declare name type =>
    let (result, t') := t.declare name type
    (result.map fun e => [e], t')
  | assign name =>
    let (result, t') := t.assign name
    (result.map fun e => [e], t')
  | read name =>
    let (result, t') := t.read name
    (result.map fun e => [e], t')
  | observe name => (.ok [t.entry name], t.observe name)
  | lookup name => (.ok (t.lookup name).toList, t)
  | list => (.ok t.entries, t)

/-- The name that an operation is about. -/
def name? : SymbolOperation → Option Bytes
  | declare name _ | assign name | read name | observe name | lookup name => some name
  | list => none

/-- The table after a sequence of operations, whether they succeed or not. -/
def applyAll (t : SymbolTable) (ops : List SymbolOperation) : SymbolTable :=
  ops.foldl (fun t op => (op.apply t).2) t

end SymbolOperation

end PrefixForth

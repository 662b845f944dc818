import Mathlib.Logic.Function.Basic
import PrefixForth.Forth.Word
import PrefixForth.SymbolTable

/-!
# Symbol tables as scopes

A table is an ordered list of entries, among them such as were met but never declared. What matters
to a program is the *scope*: which names are declared, with which type, and which of them have been
assigned. `SymbolTable.scope` reads it off a table, and the operations on the table become updates of
a function from names.

A table is `Sound` if only types that variables can be kept in are declared and nothing is assigned
without being declared. Tables made by hand may fail this, tables made by the operations that a
program causes do not.
-/

namespace PrefixForth

/-- A declared name: its type, and whether it has been assigned. -/
structure Variable where
  type : ValueType
  assigned : Bool
  deriving DecidableEq, Repr

/-- What is known of each name: nothing if it is not declared. -/
abbrev Scope := Bytes → Option Variable

namespace SymbolTable

variable {t t' : SymbolTable} {e : Entry} {x y : Bytes} {τ : ValueType} {a : Bool}

/-! ### Entries -/

/-- The entry that is inserted is found under its name. -/
theorem find?_insert_self (e : Entry) (fs : List Entry) :
    (insert e fs).find? (·.name = e.name) = some e := by
  induction fs with
  | nil => simp [insert]
  | cons f fs ih =>
    rw [insert]
    split
    · simp
    · split
      · simp
      · rename_i hne
        rw [List.find?_cons_of_neg (by simpa using fun h => hne h.symm), ih]

/-- Under other names, what was found before is found. -/
theorem find?_insert_of_ne {fs : List Entry} (h : x ≠ e.name) :
    (insert e fs).find? (·.name = x) = fs.find? (·.name = x) := by
  have hskip : ∀ gs : List Entry, (e :: gs).find? (·.name = x) = gs.find? (·.name = x) := fun gs =>
    List.find?_cons_of_neg (by simpa using fun h' => h h'.symm)
  induction fs with
  | nil => exact hskip []
  | cons f fs ih =>
    rw [insert]
    split
    · exact hskip _
    · split
      · rename_i hname
        rw [hskip, List.find?_cons_of_neg (by simpa [← hname] using fun h' => h h'.symm)]
      · rw [List.find?_cons, List.find?_cons, ih]

/-- An entry bears the name under which it is found. -/
@[simp]
theorem entry_name (t : SymbolTable) (x : Bytes) : (t.entry x).name = x := by
  rw [entry]
  rcases h : t.lookup x with _ | e
  · rfl
  · have hfound := List.find?_some h
    exact of_decide_eq_true hfound

/-- Putting an entry changes the entry of its name and no other. -/
theorem entry_put (t : SymbolTable) (e : Entry) (x : Bytes) :
    (t.put e).entry x = if x = e.name then e else t.entry x := by
  split
  · rename_i h
    rw [entry, lookup, put, h, find?_insert_self, Option.getD_some]
  · rename_i h
    rw [entry, lookup, put, find?_insert_of_ne h, entry, lookup]

/-- Observing a name changes no entry. -/
@[simp]
theorem entry_observe (t : SymbolTable) (x y : Bytes) : (t.observe x).entry y = t.entry y := by
  rw [observe, entry_put, entry_name]
  split
  · rename_i h
    rw [h]
  · rfl

/-! ### Scopes -/

/-- The declared names of a table. -/
def scope (t : SymbolTable) : Scope := fun x =>
  if (t.entry x).isDeclared then some ⟨(t.entry x).type, (t.entry x).assigned⟩ else none

/-- Every declared type is one that variables can have, and only declared names are assigned. -/
structure Sound (t : SymbolTable) : Prop where
  storable : ∀ x, (t.entry x).type = .unbound ∨ (t.entry x).type.storage?.isSome = true
  unassigned : ∀ x, (t.entry x).type = .unbound → (t.entry x).assigned = false

/-- A name is out of scope if its entry has no type. -/
theorem scope_eq_none_iff : t.scope x = none ↔ (t.entry x).type = .unbound := by
  simp [scope, Entry.isDeclared]

/-- A name is in scope with the type and the flag of its entry. -/
theorem scope_eq_some_iff :
    t.scope x = some ⟨τ, a⟩ ↔ τ ≠ .unbound ∧ t.entry x = ⟨x, τ, a⟩ := by
  have hname := entry_name t x
  rcases h : t.entry x with ⟨name, type, assigned⟩
  rw [h] at hname
  simp only [scope, h, Entry.isDeclared]
  by_cases hu : type = .unbound
  · simp only [hu, ne_eq, not_true_eq_false, decide_false, Bool.false_eq_true, if_false,
      reduceCtorEq, Entry.mk.injEq, false_iff, not_and]
    rintro hτ - rfl
    exact absurd rfl hτ
  · simp only [hu, ne_eq, not_false_eq_true, decide_true, if_true, Option.some.injEq,
      Variable.mk.injEq, Entry.mk.injEq]
    constructor
    · rintro ⟨rfl, rfl⟩
      exact ⟨hu, hname, rfl, rfl⟩
    · rintro ⟨-, -, hτ, ha⟩
      exact ⟨hτ, ha⟩

/-- Putting an entry with a type updates the scope at its name. -/
theorem scope_put (hτ : τ ≠ .unbound) :
    (t.put ⟨x, τ, a⟩).scope = Function.update t.scope x (some ⟨τ, a⟩) := by
  funext y
  by_cases hy : y = x
  · subst hy
    rw [Function.update_self, scope_eq_some_iff, entry_put, if_pos rfl]
    exact ⟨hτ, rfl⟩
  · rw [Function.update_of_ne hy, scope, scope, entry_put, if_neg hy]

/-- A type of variables is a type, so putting an entry with it updates the scope. -/
theorem scope_put_of_storage? {s : Storage} (hs : τ.storage? = some s) :
    (t.put ⟨x, τ, a⟩).scope = Function.update t.scope x (some ⟨τ, a⟩) := by
  refine scope_put ?_
  rintro rfl
  cases hs

/-- The name of the entry that was put is in scope. -/
theorem scope_put_self {s : Storage} (hs : τ.storage? = some s) :
    (t.put ⟨x, τ, a⟩).scope x = some ⟨τ, a⟩ := by
  rw [scope_put_of_storage? hs, Function.update_self]

/-- At the start nothing is in scope. -/
@[simp]
theorem scope_empty : empty.scope = fun _ => none := by
  funext x
  exact scope_eq_none_iff.mpr rfl

theorem sound_empty : Sound empty :=
  ⟨fun _ => .inl rfl, fun _ _ => rfl⟩

/-- A name that is observed does not make a table unsound. -/
theorem Sound.observe (h : t.Sound) (x : Bytes) : (t.observe x).Sound :=
  ⟨fun y => by simpa using h.storable y, fun y => by simpa using h.unassigned y⟩

/-- A declared name keeps the table sound, whatever its mark. -/
theorem Sound.put (h : t.Sound) (hτ : τ.storage?.isSome = true) : (t.put ⟨x, τ, a⟩).Sound := by
  constructor
  · intro y
    rw [entry_put]
    split
    · exact .inr hτ
    · exact h.storable y
  · intro y hy
    rw [entry_put] at hy ⊢
    split at hy
    · simp only at hy
      rw [hy] at hτ
      cases hτ
    · rename_i hne
      rw [if_neg hne]
      exact h.unassigned y hy

/-- In a sound table a declared name has a type that variables can have. -/
theorem Sound.storage?_isSome (h : t.Sound) (hx : t.scope x = some ⟨τ, a⟩) :
    τ.storage?.isSome = true := by
  obtain ⟨hτ, he⟩ := scope_eq_some_iff.mp hx
  have := h.storable x
  rw [he] at this
  exact this.resolve_left hτ

/-! ### Operations -/

/-- A name that is in scope and assigned can be read, which does not change the scope. -/
theorem read_of_scope (h : t.scope x = some ⟨τ, true⟩) :
    t.read x = (.ok ⟨x, τ, true⟩, t.put ⟨x, τ, true⟩) := by
  obtain ⟨hτ, he⟩ := scope_eq_some_iff.mp h
  simp [read, update, he, Entry.read, Entry.isDeclared, hτ]

/-- A name that was read is in scope and assigned. -/
theorem scope_of_read (h : t.read x = (.ok e, t')) : ∃ τ, t.scope x = some ⟨τ, true⟩ := by
  rcases hs : t.scope x with _ | ⟨τ, a⟩
  · have hu := scope_eq_none_iff.mp hs
    simp [read, update, Entry.read, Entry.isDeclared, hu] at h
  · obtain ⟨hτ, he⟩ := scope_eq_some_iff.mp hs
    cases a with
    | true => exact ⟨τ, rfl⟩
    | false => simp [read, update, he, Entry.read, Entry.isDeclared, hτ] at h

/-- A name that is in scope can be assigned, and is assigned after it. -/
theorem assign_of_scope (h : t.scope x = some ⟨τ, a⟩) :
    t.assign x = (.ok ⟨x, τ, true⟩, t.put ⟨x, τ, true⟩) := by
  obtain ⟨hτ, he⟩ := scope_eq_some_iff.mp h
  simp [assign, update, he, Entry.assign, Entry.isDeclared, hτ]

/-- A name that was assigned is in scope. -/
theorem scope_of_assign (h : t.assign x = (.ok e, t')) : ∃ τ a, t.scope x = some ⟨τ, a⟩ := by
  rcases hs : t.scope x with _ | ⟨τ, a⟩
  · have hu := scope_eq_none_iff.mp hs
    simp [assign, update, Entry.assign, Entry.isDeclared, hu] at h
  · exact ⟨τ, a, rfl⟩

/-- A name that is out of scope can be declared, and is not assigned after it. -/
theorem declare_of_scope (ht : t.Sound) (h : t.scope x = none) (hτ : τ.hasValue = true) :
    t.declare x τ = (.ok ⟨x, τ, false⟩, t.put ⟨x, τ, false⟩) := by
  have hu := scope_eq_none_iff.mp h
  have ha := ht.unassigned x hu
  have hname := entry_name t x
  rcases he : t.entry x with ⟨name, type, assigned⟩
  rw [he] at hu ha hname
  subst hname hu ha
  simp [declare, update, he, Entry.declare, Entry.isDeclared, hτ]

/-- A name that was declared was out of scope. -/
theorem scope_of_declare (h : t.declare x τ = (.ok e, t')) : t.scope x = none := by
  rcases hs : t.scope x with _ | ⟨τ', a⟩
  · rfl
  · obtain ⟨hτ, he⟩ := scope_eq_some_iff.mp hs
    simp [declare, update, he, Entry.declare, Entry.isDeclared, hτ] at h

end SymbolTable

end PrefixForth

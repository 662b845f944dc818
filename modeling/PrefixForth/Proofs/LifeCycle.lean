import Mathlib.Data.List.Induction
import PrefixForth.Proofs.Scope

/-!
# The life cycle of a name

A history is a sequence of operations on the empty symbol table, whether they succeed or not. What
the table then holds of a name is decided by the history alone: `DeclaredIn history x τ` says that
somewhere in it `x` was declared as `τ` with success, and `AssignedIn history x` that this was
followed by an assignment to `x`.

What one operation does to the entry of its name is `SymbolOperation.mark` (`entry_apply`), and it
does nothing to the other entries. Everything about histories comes from that by induction on the
history, the last operation being taken off.

The main statement is `table_records_history`: which operations succeed after a history, how a
reading fails, what later operations leave as it is, and what a listing answers.
-/

namespace PrefixForth

namespace SymbolTable

variable {t : SymbolTable} {e f : Entry} {fs : List Entry} {x : Bytes}

/-! ### Tables in the order of the names -/

/-- The entries stand in the strict bytewise order of their names. -/
def Ordered (t : SymbolTable) : Prop :=
  (t.entries.map Entry.name).Pairwise (· < ·)

private theorem mem_insert (h : f ∈ insert e fs) : f = e ∨ f ∈ fs := by
  induction fs with
  | nil => exact .inl (by simpa [insert] using h)
  | cons g gs ih =>
    rw [insert] at h
    split at h
    · simpa using h
    · split at h
      · rcases List.mem_cons.mp h with rfl | h
        · exact .inl rfl
        · exact .inr (List.mem_cons_of_mem _ h)
      · rcases List.mem_cons.mp h with rfl | h
        · exact .inr List.mem_cons_self
        · exact (ih h).imp_right (List.mem_cons_of_mem _)

/-- A new entry is put where its name belongs. -/
theorem Ordered.put (h : t.Ordered) (e : Entry) : (t.put e).Ordered := by
  obtain ⟨fs⟩ := t
  simp only [Ordered, SymbolTable.put, List.pairwise_map] at h ⊢
  induction fs with
  | nil => simp [insert]
  | cons f fs ih =>
    obtain ⟨hf, hfs⟩ := List.pairwise_cons.mp h
    rw [insert]
    split
    · rename_i hlt
      refine List.pairwise_cons.mpr ⟨?_, h⟩
      rintro g hg
      rcases List.mem_cons.mp hg with rfl | hg
      · exact hlt
      · exact List.lt_trans hlt (hf g hg)
    · rename_i hlt
      split
      · rename_i heq
        exact List.pairwise_cons.mpr ⟨fun g hg => heq ▸ hf g hg, hfs⟩
      · rename_i hne
        refine List.pairwise_cons.mpr ⟨fun g hg => ?_, ih hfs⟩
        rcases mem_insert hg with rfl | hg
        · exact Std.lt_of_le_of_ne (List.not_lt.mp hlt) (Ne.symm hne)
        · exact hf g hg

/-- An entry that an ordered table holds already is put where it stands. -/
theorem Ordered.put_of_lookup (h : t.Ordered) (he : t.lookup x = some e) : t.put e = t := by
  obtain ⟨fs⟩ := t
  simp only [Ordered, SymbolTable.put, lookup, SymbolTable.mk.injEq, List.pairwise_map] at h he ⊢
  induction fs with
  | nil => simp at he
  | cons f fs ih =>
    obtain ⟨hf, hfs⟩ := List.pairwise_cons.mp h
    by_cases hx : f.name = x
    · have hfe : f = e := by simpa [hx] using he
      subst hfe
      rw [insert, if_neg (List.lt_irrefl _), if_pos rfl]
    · have he : fs.find? (·.name = x) = some e := by simpa [hx] using he
      -- The entry stands behind `f`, so its name comes later.
      have hlt : f.name < e.name := hf e (List.mem_of_find?_eq_some he)
      have hnot : ¬e.name < f.name := List.not_lt.mpr (Std.le_of_lt hlt)
      have hne : e.name ≠ f.name := fun heq => List.lt_irrefl f.name (heq ▸ hlt)
      rw [insert, if_neg hnot, if_neg hne, ih he hfs]

/-- Every entry is found under its name, as no other one has it. -/
theorem Ordered.lookup_of_mem (h : t.Ordered) (he : e ∈ t.entries) : t.lookup e.name = some e := by
  obtain ⟨fs⟩ := t
  simp only [Ordered, lookup, List.pairwise_map] at h he ⊢
  induction fs with
  | nil => simp at he
  | cons f fs ih =>
    obtain ⟨hf, hfs⟩ := List.pairwise_cons.mp h
    rcases List.mem_cons.mp he with rfl | he
    · simp
    · have hne : f.name ≠ e.name := fun heq => List.lt_irrefl f.name (heq ▸ hf e he)
      rw [List.find?_cons_of_neg (by simpa using hne), ih he hfs]

/-- Looking up after an entry is put finds it under its name, and all else as before. -/
theorem lookup_put (t : SymbolTable) (e : Entry) (x : Bytes) :
    (t.put e).lookup x = if x = e.name then some e else t.lookup x := by
  split
  · rename_i h
    rw [lookup, put, h, find?_insert_self]
  · rename_i h
    rw [lookup, put, find?_insert_of_ne h, lookup]

/-- The names of the entries are those that are found. -/
private theorem mem_names_iff : x ∈ t.entries.map Entry.name ↔ t.lookup x ≠ none := by
  simp [lookup]

/-- What is looked up is the entry of the name. -/
theorem entry_of_lookup (h : t.lookup x = some e) : t.entry x = e := by
  rw [entry, h, Option.getD_some]

/-- To meet a name that an ordered table holds changes nothing, to meet another adds an entry without
type and mark. -/
theorem Ordered.observe (h : t.Ordered) (x : Bytes) :
    t.observe x = t ∨ t.lookup x = none ∧ t.observe x = t.put { name := x } := by
  rw [SymbolTable.observe]
  rcases hx : t.lookup x with _ | e
  · exact .inr ⟨rfl, by rw [entry, hx, Option.getD_none]⟩
  · exact .inl (by rw [entry_of_lookup hx, h.put_of_lookup hx])

end SymbolTable

namespace SymbolOperation

open SymbolTable

variable {t : SymbolTable} {op : SymbolOperation} {history later : List SymbolOperation}
  {x y : Bytes} {τ σ : ValueType} {fault : SemanticFault}

/-! ### One operation -/

/-- The operation succeeds on the table. -/
def Succeeds (op : SymbolOperation) (t : SymbolTable) : Prop :=
  ∃ result, (op.apply t).1 = .ok result

/-- What an operation makes of the entry of its name. -/
def mark : SymbolOperation → Entry → Entry
  | declare _ τ, e => if e.isDeclared || !τ.hasValue then e else { e with type := τ }
  | assign _, e => if e.isDeclared then { e with assigned := true } else e
  | read _, e | observe _, e | lookup _, e | list, e => e

private theorem mark_name (op : SymbolOperation) (e : Entry) : (op.mark e).name = e.name := by
  cases op <;> simp only [mark] <;> split <;> rfl

/-- An operation other than looking up puts the entry of its name anew. -/
theorem apply_snd (hx : op.name? = some x) (hop : op ≠ .lookup x) :
    (op.apply t).2 = t.put (op.mark (t.entry x)) := by
  cases op with
  | declare name τ =>
    obtain rfl : name = x := by simpa [name?] using hx
    simp only [apply, SymbolTable.declare, update, Entry.declare, mark]
    by_cases hd : (t.entry name).isDeclared
    · simp [hd, SymbolTable.observe]
    · by_cases hv : τ.hasValue
      · simp [hd, hv]
      · simp [hd, hv, SymbolTable.observe]
  | assign name =>
    obtain rfl : name = x := by simpa [name?] using hx
    simp only [apply, SymbolTable.assign, update, Entry.assign, mark]
    by_cases hd : (t.entry name).isDeclared
    · simp [hd]
    · simp [hd, SymbolTable.observe]
  | read name =>
    obtain rfl : name = x := by simpa [name?] using hx
    simp only [apply, SymbolTable.read, update, Entry.read, mark]
    by_cases hd : (t.entry name).isDeclared
    · by_cases ha : (t.entry name).assigned
      · simp [hd, ha]
      · simp [hd, ha, SymbolTable.observe]
    · simp [hd, SymbolTable.observe]
  | observe name =>
    obtain rfl : name = x := by simpa [name?] using hx
    rfl
  | lookup name => exact absurd (by simpa [name?] using hx) hop
  | list => simp [name?] at hx

private theorem apply_lookup_snd (t : SymbolTable) (x : Bytes) :
    ((SymbolOperation.lookup x).apply t).2 = t :=
  rfl

/-- Names that an operation is not about keep their entries, or their absence. -/
theorem lookup_apply_of_ne (hx : op.name? ≠ some x) : (op.apply t).2.lookup x = t.lookup x := by
  rcases hname : op.name? with _ | y
  · cases op <;> simp_all [name?, apply]
  · by_cases hop : op = .lookup y
    · rw [hop, apply_lookup_snd]
    · have hxy : x ≠ y := fun h => hx (h ▸ hname)
      rw [apply_snd hname hop, lookup_put, mark_name, entry_name, if_neg hxy]

/-- The step lemma: an operation marks the entry of its name and no other. -/
theorem entry_apply (t : SymbolTable) (op : SymbolOperation) (x : Bytes) :
    (op.apply t).2.entry x = if op.name? = some x then op.mark (t.entry x) else t.entry x := by
  split
  · rename_i hx
    by_cases hop : op = .lookup x
    · rw [hop, apply_lookup_snd, mark]
    · rw [apply_snd hx hop, entry_put, mark_name, entry_name, if_pos rfl]
  · rename_i hx
    rw [entry, lookup_apply_of_ne hx, entry]

/-- After an operation the table holds the names it held and the name of the operation, unless that
looks a name up. -/
theorem lookup_apply_ne_none_iff : (op.apply t).2.lookup x ≠ none ↔
    t.lookup x ≠ none ∨ op.name? = some x ∧ op ≠ .lookup x := by
  by_cases hx : op.name? = some x
  · by_cases hop : op = .lookup x
    · simp [hop, apply_lookup_snd]
    · simp [apply_snd hx hop, lookup_put, mark_name, hx, hop]
  · simp [lookup_apply_of_ne hx, hx]

/-- The types that a variable can have are all but two. -/
theorem hasValue_iff : τ.hasValue = true ↔ τ ≠ .unbound ∧ τ ≠ .void := by
  cases τ <;> simp [ValueType.hasValue]

/-- A declaration succeeds if the type has values and the name is not declared. -/
theorem succeeds_declare_iff :
    (declare x τ).Succeeds t ↔ τ.hasValue = true ∧ (t.entry x).type = .unbound := by
  simp only [Succeeds, apply, SymbolTable.declare, update, Entry.declare, Entry.isDeclared]
  by_cases hu : (t.entry x).type = .unbound <;> by_cases hv : τ.hasValue <;>
    simp [hu, hv, Except.map]

/-- An assignment succeeds if the name is declared. -/
theorem succeeds_assign_iff : (assign x).Succeeds t ↔ (t.entry x).type ≠ .unbound := by
  simp only [Succeeds, apply, SymbolTable.assign, update, Entry.assign, Entry.isDeclared]
  by_cases hu : (t.entry x).type = .unbound <;> simp [hu, Except.map]

/-- Reading succeeds if the name is declared and assigned. -/
theorem succeeds_read_iff :
    (read x).Succeeds t ↔ (t.entry x).type ≠ .unbound ∧ (t.entry x).assigned = true := by
  simp only [Succeeds, apply, SymbolTable.read, update, Entry.read, Entry.isDeclared]
  by_cases hu : (t.entry x).type = .unbound <;> by_cases ha : (t.entry x).assigned <;>
    simp [hu, ha, Except.map]

/-- A type is declared where it was before, and where declaring it succeeds. -/
theorem type_entry_apply_iff (hτ : τ ≠ .unbound) :
    ((op.apply t).2.entry x).type = τ ↔
      (t.entry x).type = τ ∨ op = declare x τ ∧ op.Succeeds t := by
  rw [entry_apply]
  cases op with
  | declare y σ =>
    by_cases hy : y = x
    · subst hy
      rw [name?, if_pos rfl, mark, succeeds_declare_iff, Entry.isDeclared]
      by_cases hu : (t.entry y).type = .unbound <;> by_cases hv : σ.hasValue <;>
        simp [hu, hv, hτ.symm]
    · simp [name?, hy]
  | assign y =>
    have hmark : ((assign y).mark (t.entry x)).type = (t.entry x).type := by
      rw [mark]
      split <;> rfl
    split <;> simp [hmark]
  | read y | observe y | lookup y | list => simp [mark]

/-- A name is marked where it was before, and where a declared name is assigned. -/
theorem assigned_entry_apply_iff :
    ((op.apply t).2.entry x).assigned = true ↔
      (t.entry x).assigned = true ∨ op = assign x ∧ (t.entry x).type ≠ .unbound := by
  rw [entry_apply]
  cases op with
  | declare y σ =>
    have hmark : ((declare y σ).mark (t.entry x)).assigned = (t.entry x).assigned := by
      rw [mark]
      split <;> rfl
    split <;> simp [hmark]
  | assign y =>
    by_cases hy : y = x
    · subst hy
      rw [name?, if_pos rfl, mark, Entry.isDeclared]
      by_cases hu : (t.entry y).type = .unbound <;> simp [hu]
    · simp [name?, hy]
  | read y | observe y | lookup y | list => simp [mark]

/-- Reading a name that is not declared says so, -/
private theorem read_fst_of_unbound (h : (t.entry x).type = .unbound) :
    ((read x).apply t).1 = .error (.readUnbound x) := by
  simp [apply, SymbolTable.read, update, Entry.read, Entry.isDeclared, h, Except.map]

/-- and reading one that is declared but not assigned says that. -/
private theorem read_fst_of_unassigned (h : (t.entry x).type ≠ .unbound)
    (ha : (t.entry x).assigned = false) :
    ((read x).apply t).1 = .error (.readUnassigned x) := by
  simp [apply, SymbolTable.read, update, Entry.read, Entry.isDeclared, h, ha, Except.map]

/-- An update that fails does no more than observe the name. -/
private theorem update_snd_of_error {g : Entry → Except SemanticFault Entry}
    (h : ((t.update x g).1.map fun e => [e]) = .error fault) : (t.update x g).2 = t.observe x := by
  rw [update] at h ⊢
  split
  · rename_i hg
    simp [hg, Except.map] at h
  · rfl

/-- After an operation that fails the name has been met, and nothing else has happened. -/
theorem apply_snd_of_error (h : (op.apply t).1 = .error fault) :
    ∃ x, op.name? = some x ∧ (op.apply t).2 = t.observe x := by
  cases op with
  | declare x τ => exact ⟨x, rfl, update_snd_of_error (g := (·.declare τ)) h⟩
  | assign x => exact ⟨x, rfl, update_snd_of_error (g := Entry.assign) h⟩
  | read x => exact ⟨x, rfl, update_snd_of_error (g := Entry.read) h⟩
  | observe x | lookup x | list => cases h

/-! ### Histories -/

/-- The table after a history. -/
def tableAfter (history : List SymbolOperation) : SymbolTable :=
  applyAll .empty history

/-- The operation occurs in the history, it succeeds there, and `later` is what follows it. -/
def SucceedsIn (op : SymbolOperation) (history later : List SymbolOperation) : Prop :=
  ∃ earlier, history = earlier ++ op :: later ∧ op.Succeeds (tableAfter earlier)

/-- Declaring the name with the type succeeded. -/
def DeclaredIn (history : List SymbolOperation) (x : Bytes) (τ : ValueType) : Prop :=
  ∃ later, (declare x τ).SucceedsIn history later

/-- Declaring the name succeeded, and an assignment to it followed. -/
def AssignedIn (history : List SymbolOperation) (x : Bytes) : Prop :=
  ∃ τ later, (declare x τ).SucceedsIn history later ∧ assign x ∈ later

/-- The table after one more operation. -/
private theorem tableAfter_concat (history : List SymbolOperation) (op : SymbolOperation) :
    tableAfter (history ++ [op]) = (op.apply (tableAfter history)).2 := by
  rw [tableAfter, applyAll, List.foldl_append, List.foldl_cons, List.foldl_nil, tableAfter, applyAll]

private theorem not_succeedsIn_nil : ¬op.SucceedsIn [] later := by
  rintro ⟨earlier, h, -⟩
  simp at h

/-- What succeeded in a longer history succeeded before its last operation, or is that operation. -/
theorem succeedsIn_concat_iff {last : SymbolOperation} :
    op.SucceedsIn (history ++ [last]) later ↔
      (∃ between, later = between ++ [last] ∧ op.SucceedsIn history between) ∨
        later = [] ∧ op = last ∧ last.Succeeds (tableAfter history) := by
  constructor
  · rintro ⟨earlier, h, hop⟩
    rcases List.eq_nil_or_concat later with rfl | ⟨between, z, rfl⟩
    · obtain ⟨rfl, h⟩ := List.append_inj' h rfl
      obtain rfl : last = op := by simpa using h
      exact .inr ⟨rfl, rfl, hop⟩
    · rw [List.concat_eq_append, ← List.cons_append, ← List.append_assoc] at h
      obtain ⟨rfl, h⟩ := List.append_inj' h rfl
      obtain rfl : last = z := by simpa using h
      exact .inl ⟨between, List.concat_eq_append, earlier, rfl, hop⟩
  · rintro (⟨between, rfl, earlier, rfl, hop⟩ | ⟨rfl, rfl, hop⟩)
    · exact ⟨earlier, by simp, hop⟩
    · exact ⟨history, rfl, hop⟩

/-- A declaration is in the history or is the last operation. -/
private theorem declaredIn_concat_iff : DeclaredIn (history ++ [op]) x τ ↔
    DeclaredIn history x τ ∨ op = declare x τ ∧ op.Succeeds (tableAfter history) := by
  simp only [DeclaredIn, succeedsIn_concat_iff]
  constructor
  · rintro ⟨later, ⟨between, -, h⟩ | ⟨-, rfl, h⟩⟩
    · exact .inl ⟨between, h⟩
    · exact .inr ⟨rfl, h⟩
  · rintro (⟨between, h⟩ | ⟨rfl, h⟩)
    · exact ⟨between ++ [op], .inl ⟨between, rfl, h⟩⟩
    · exact ⟨[], .inr ⟨rfl, rfl, h⟩⟩

/-- An assignment is in the history or is the last operation, after a declaration. -/
private theorem assignedIn_concat_iff : AssignedIn (history ++ [op]) x ↔
    AssignedIn history x ∨ op = assign x ∧ ∃ τ, DeclaredIn history x τ := by
  simp only [AssignedIn, DeclaredIn, succeedsIn_concat_iff]
  constructor
  · rintro ⟨τ, later, ⟨between, rfl, h⟩ | ⟨rfl, -, -⟩, ha⟩
    · rcases List.mem_append.mp ha with ha | ha
      · exact .inl ⟨τ, between, h, ha⟩
      · exact .inr ⟨(List.mem_singleton.mp ha).symm, τ, between, h⟩
    · simp at ha
  · rintro (⟨τ, between, h, ha⟩ | ⟨rfl, τ, between, h⟩)
    · exact ⟨τ, between ++ [op], .inl ⟨between, rfl, h⟩, List.mem_append_left _ ha⟩
    · exact ⟨τ, between ++ [assign x], .inl ⟨between, rfl, h⟩, by simp⟩

/-- What is assigned has been declared before. -/
private theorem exists_declaredIn_of_assignedIn (h : AssignedIn history x) :
    ∃ τ, DeclaredIn history x τ :=
  let ⟨τ, later, h, _⟩ := h
  ⟨τ, later, h⟩

/-- Whatever has been done to a table, its entries stand in order. -/
theorem ordered_tableAfter (history : List SymbolOperation) : (tableAfter history).Ordered := by
  induction history using List.reverseRecOn with
  | nil => exact List.Pairwise.nil
  | append_singleton history op ih =>
    rw [tableAfter_concat]
    rcases hname : op.name? with _ | x
    · cases op <;> simp_all [name?, apply]
    · by_cases hop : op = .lookup x
      · rw [hop, apply_lookup_snd]
        exact ih
      · rw [apply_snd hname hop]
        exact ih.put _

/-- The declared type of a name is the one with which declaring it succeeded. -/
theorem type_eq_iff_declaredIn (hτ : τ ≠ .unbound) :
    ((tableAfter history).entry x).type = τ ↔ DeclaredIn history x τ := by
  induction history using List.reverseRecOn with
  | nil =>
    have hnil : ¬DeclaredIn [] x τ := fun ⟨_, h⟩ => not_succeedsIn_nil h
    exact iff_of_false hτ.symm hnil
  | append_singleton history op ih =>
    rw [tableAfter_concat, type_entry_apply_iff hτ, declaredIn_concat_iff, ih]

/-- A name keeps the type that it was declared with. -/
private theorem type_of_declaredIn (h : DeclaredIn history x τ) :
    τ ≠ .unbound ∧ ((tableAfter history).entry x).type = τ := by
  obtain ⟨later, earlier, -, hop⟩ := id h
  obtain ⟨hvalue, -⟩ := succeeds_declare_iff.mp hop
  have hτ : τ ≠ .unbound := (hasValue_iff.mp hvalue).1
  exact ⟨hτ, (type_eq_iff_declaredIn hτ).mpr h⟩

/-- A name has a type exactly if it was declared. -/
private theorem type_ne_unbound_iff :
    ((tableAfter history).entry x).type ≠ .unbound ↔ ∃ τ, DeclaredIn history x τ := by
  constructor
  · intro h
    exact ⟨_, (type_eq_iff_declaredIn h).mp rfl⟩
  · rintro ⟨τ, h⟩
    obtain ⟨hτ, htype⟩ := type_of_declaredIn h
    rwa [htype]

/-- A name is marked as assigned exactly if it was assigned. -/
private theorem assigned_iff_assignedIn :
    ((tableAfter history).entry x).assigned = true ↔ AssignedIn history x := by
  induction history using List.reverseRecOn with
  | nil =>
    have hnil : ¬AssignedIn [] x := fun ⟨_, _, h, _⟩ => not_succeedsIn_nil h
    exact iff_of_false Bool.false_ne_true hnil
  | append_singleton history op ih =>
    rw [tableAfter_concat, assigned_entry_apply_iff, assignedIn_concat_iff, ih, type_ne_unbound_iff]

private theorem tableAfter_append (history later : List SymbolOperation) :
    tableAfter (history ++ later) = applyAll (tableAfter history) later := by
  rw [tableAfter, applyAll, List.foldl_append, tableAfter, applyAll, applyAll]

/-- Once declared, a name keeps its type. -/
theorem type_applyAll (h : (t.entry x).type ≠ .unbound) (later : List SymbolOperation) :
    ((applyAll t later).entry x).type = (t.entry x).type := by
  induction later generalizing t with
  | nil => rfl
  | cons op later ih =>
    have hstep : ((op.apply t).2.entry x).type = (t.entry x).type :=
      (type_entry_apply_iff h).mpr (.inl rfl)
    exact (ih (hstep ▸ h)).trans hstep

/-- Once marked, a name stays marked. -/
theorem assigned_applyAll (h : (t.entry x).assigned = true) (later : List SymbolOperation) :
    ((applyAll t later).entry x).assigned = true := by
  induction later generalizing t with
  | nil => exact h
  | cons op later ih => exact ih (assigned_entry_apply_iff.mpr (.inl h))

/-- The table holds the names that the history was about, looking up apart. -/
theorem lookup_ne_none_iff : (tableAfter history).lookup x ≠ none ↔
    ∃ op ∈ history, op.name? = some x ∧ op ≠ .lookup x := by
  induction history using List.reverseRecOn with
  | nil => simp [tableAfter, applyAll, SymbolTable.empty, SymbolTable.lookup]
  | append_singleton history op ih =>
    simp only [tableAfter_concat, lookup_apply_ne_none_iff, ih, List.mem_append, List.mem_singleton,
      or_and_right, exists_or, exists_eq_left]

/-- After every history on the empty table:

* a name can be declared with a type that has values if declaring it has not succeeded before;
* it can be assigned if declaring it has succeeded, and read if an assignment followed that;
* to read it fails for what is missing, the declaration or the assignment;
* whatever comes later, a declared type stays and a mark stays;
* what is marked is declared;
* an operation leaves the entries of other names alone, and if it fails it adds at most an entry
  without type and mark for its own name;
* to list answers with all entries, in the strict bytewise order of their names, and these are the
  names that operations were about, looking up apart. -/
theorem table_records_history (history : List SymbolOperation) :
    let t := tableAfter history
    (∀ x τ, (declare x τ).Succeeds t ↔
      (τ ≠ .unbound ∧ τ ≠ .void) ∧ ¬∃ σ, DeclaredIn history x σ) ∧
    (∀ x, (assign x).Succeeds t ↔ ∃ τ, DeclaredIn history x τ) ∧
    (∀ x, (read x).Succeeds t ↔ AssignedIn history x) ∧
    (∀ x, (¬∃ τ, DeclaredIn history x τ) →
      ((read x).apply t).1 = .error (.readUnbound x)) ∧
    (∀ x, (∃ τ, DeclaredIn history x τ) → ¬AssignedIn history x →
      ((read x).apply t).1 = .error (.readUnassigned x)) ∧
    (∀ x τ later, DeclaredIn history x τ →
      ((tableAfter (history ++ later)).entry x).type = τ) ∧
    (∀ x later, (t.entry x).assigned = true →
      ((tableAfter (history ++ later)).entry x).assigned = true) ∧
    (∀ e ∈ t.entries, e.assigned = true → e.isDeclared = true) ∧
    (∀ (op : SymbolOperation) x, op.name? ≠ some x → (op.apply t).2.lookup x = t.lookup x) ∧
    (∀ (op : SymbolOperation) fault, (op.apply t).1 = .error fault → (op.apply t).2 = t ∨
      ∃ x, op.name? = some x ∧ t.lookup x = none ∧ (op.apply t).2 = t.put { name := x }) ∧
    (list.apply t).1 = .ok t.entries ∧
    (t.entries.map Entry.name).Pairwise (· < ·) ∧
    ∀ x, x ∈ t.entries.map Entry.name ↔
      ∃ op ∈ history, op.name? = some x ∧ op ≠ .lookup x := by
  intro t
  -- entries have different names, so an entry is what is looked up under its name
  have hordered : t.Ordered := ordered_tableAfter history
  refine ⟨fun x τ => ?_, fun x => ?_, fun x => ?_, fun x hx => ?_, fun x hx ha => ?_,
    fun x τ later hx => ?_, fun x later ha => ?_, fun e he ha => ?_, fun op x => lookup_apply_of_ne,
    fun op fault h => ?_, rfl, hordered, fun x => ?_⟩
  · rw [succeeds_declare_iff, hasValue_iff, ← type_ne_unbound_iff, not_not]
  · rw [succeeds_assign_iff, type_ne_unbound_iff]
  · rw [succeeds_read_iff, type_ne_unbound_iff, assigned_iff_assignedIn]
    exact and_iff_right_of_imp exists_declaredIn_of_assignedIn
  · rw [← type_ne_unbound_iff, not_not] at hx
    exact read_fst_of_unbound hx
  · rw [← type_ne_unbound_iff] at hx
    rw [← assigned_iff_assignedIn, Bool.not_eq_true] at ha
    exact read_fst_of_unassigned hx ha
  · obtain ⟨hτ, htype⟩ := type_of_declaredIn hx
    rw [tableAfter_append, type_applyAll (htype ▸ hτ), htype]
  · rw [tableAfter_append]
    exact assigned_applyAll ha later
  · have hentry : t.entry e.name = e := entry_of_lookup (hordered.lookup_of_mem he)
    have hx : AssignedIn history e.name := assigned_iff_assignedIn.mp (hentry.symm ▸ ha)
    have hτ := type_ne_unbound_iff.mpr (exists_declaredIn_of_assignedIn hx)
    rw [Entry.isDeclared, ← hentry]
    exact decide_eq_true hτ
  · obtain ⟨x, hname, hsnd⟩ := apply_snd_of_error h
    rw [hsnd]
    rcases hordered.observe x with hsame | ⟨hnone, hput⟩
    · exact .inl hsame
    · exact .inr ⟨x, hname, hnone, hput⟩
  · rw [mem_names_iff]
    exact lookup_ne_none_iff

end SymbolOperation

end PrefixForth

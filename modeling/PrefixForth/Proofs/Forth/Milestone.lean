import PrefixForth.Proofs.Forth.Fragment

/-!
# Milestones in emitted code

Before a variable can be stored to it must be defined, and before it can be fetched it must be
assigned. Code is generated only where the symbol table has a variable at these milestones, and the
table follows the text of the program. So in the text of emitted code the definition of a variable
comes before the first use of its address, and this first use is a store.

`Leads x a d c` says that the code `c` brings the variable `x` to the milestone `a` before it uses the
address of `x` for anything else, inside `d` branches and bodies of loops. Main statement: emitted
code leads to every milestone that it brings the table to (`Fragment.prepares`).
-/

namespace PrefixForth

/-! ### Parts of code -/

/-- The codes inside an instruction. -/
def Instruction.parts : Instruction → List Code
  | .choose a | .count a => [a]
  | .chooseElse a b | .loop a b => [a, b]
  | _ => []

/-- An instruction without inner code has no parts. -/
theorem Instruction.parts_of_isPlain {i : Instruction} (h : i.isPlain = true) : i.parts = [] := by
  cases i <;> simp_all [isPlain, parts]

/-- Somewhere in the code, inside its structures or not, it goes on as `P` says. -/
inductive Code.Holds (P : Code → Prop) : Code → Prop
  | here {k : Code} (h : P k) : Holds P k
  | later {i : Instruction} {k : Code} (h : Holds P k) : Holds P (i :: k)
  | inside {i : Instruction} {k part : Code} (mem : part ∈ i.parts) (h : Holds P part) :
      Holds P (i :: k)

/-- A property of code that the structures which are built while it runs have if their parts do. -/
structure Code.Composable (P : Code → Prop) : Prop where
  nil : P []
  append {c d : Code} (hc : P c) (hd : P d) : P (c ++ d)
  choose {c : Code} (hc : P c) : P [.choose c]
  loop {c d : Code} (hc : P c) (hd : P d) : P [.loop c d]

/-- What composes holds of all lines together if it holds of each. -/
theorem Code.Composable.flatten {P : Code → Prop} (hP : Composable P) {cs : List Code}
    (h : ∀ c ∈ cs, P c) : P cs.flatten := by
  induction cs with
  | nil => exact hP.nil
  | cons c cs ih =>
    exact hP.append (h c List.mem_cons_self) (ih fun d hd => h d (List.mem_cons_of_mem _ hd))

/-- The address of the variable is not in the code. -/
inductive Code.Clear (x : Bytes) : Code → Prop
  | nil : Clear x []
  | cons {i : Instruction} {k : Code} (here : i ≠ .name x) (inside : ∀ part ∈ i.parts, Clear x part)
      (rest : Clear x k) : Clear x (i :: k)

namespace Code.Clear

variable {x : Bytes} {c d : Code} {i : Instruction}

theorem append (hc : Clear x c) (hd : Clear x d) : Clear x (c ++ d) := by
  induction hc with
  | nil => exact hd
  | cons here inside _ _ ih => exact .cons here inside ih

/-- One instruction that is not the name, and does not hold it, is clear of it. -/
theorem single (here : i ≠ .name x) (inside : ∀ part ∈ i.parts, Clear x part) : Clear x [i] :=
  .cons here inside .nil

/-- An instruction without inner code that is put in front of clear code. -/
theorem plain (h : i.isPlain = true) (hc : Clear x c) : Clear x (i :: c) := by
  refine .cons ?_ (by simp [Instruction.parts_of_isPlain h]) hc
  rintro rfl
  cases h

/-- To be clear of a name is a property of the instructions, taken one by one. -/
theorem composable (x : Bytes) : Composable (Clear x) where
  nil := .nil
  append := .append
  choose hc := .single (by simp) (by simpa [Instruction.parts] using hc)
  loop hc hd := .single (by simp) (by simpa [Instruction.parts] using ⟨hc, hd⟩)

end Code.Clear

/-! ### Milestones of a variable -/

/-- What is done to a variable before it can be used: to store to it, it must be defined, and to
fetch it, it must be assigned. -/
inductive Milestone where
  | defined
  | assigned

namespace Milestone

/-- The code goes on with what brings the variable to the milestone. -/
def At (x : Bytes) : Milestone → Code → Prop
  | defined, k => ∃ s r, k = .define s x :: r
  | assigned, k => ∃ s r, k = .name x :: .word (.store s) :: r

/-- The milestone as the symbol table has it. -/
def Reached : Milestone → Option Variable → Prop
  | defined, v => v ≠ none
  | assigned, v => ∃ τ, v = some ⟨τ, true⟩

variable {x : Bytes} {a : Milestone} {k : Code} {τ : ValueType}

/-- A milestone at the front of code stays there when more code follows. -/
theorem At.append (h : a.At x k) (r : Code) : a.At x (k ++ r) := by
  cases a with
  | defined =>
    obtain ⟨s, r', rfl⟩ := h
    exact ⟨s, r' ++ r, rfl⟩
  | assigned =>
    obtain ⟨s, r', rfl⟩ := h
    exact ⟨s, r' ++ r, rfl⟩

end Milestone

/-- The code brings the variable to the milestone before it uses its address for anything else. It
does so inside as many branches and bodies of loops as the number says. -/
inductive Leads (x : Bytes) (a : Milestone) : Nat → Code → Prop
  | here {k : Code} (h : a.At x k) : Leads x a 0 k
  | later {i : Instruction} {k : Code} {d : Nat} (here : i ≠ .name x)
      (inside : ∀ part ∈ i.parts, Code.Clear x part) (rest : Leads x a d k) : Leads x a d (i :: k)
  | choose {c k : Code} {d : Nat} (h : Leads x a d c) : Leads x a (d + 1) (.choose c :: k)
  | onTrue {c e k : Code} {d : Nat} (h : Leads x a d c) : Leads x a (d + 1) (.chooseElse c e :: k)
  | onFalse {c e k : Code} {d : Nat} (clear : Code.Clear x c) (h : Leads x a d e) :
      Leads x a (d + 1) (.chooseElse c e :: k)
  | test {c e k : Code} {d : Nat} (h : Leads x a d c) : Leads x a d (.loop c e :: k)
  | body {c e k : Code} {d : Nat} (clear : Code.Clear x c) (h : Leads x a d e) :
      Leads x a (d + 1) (.loop c e :: k)

namespace Leads

variable {x : Bytes} {a : Milestone} {d : Nat} {c k : Code}

/-- Code that leads to a milestone leads to it whatever follows. -/
theorem append (h : Leads x a d c) (r : Code) : Leads x a d (c ++ r) := by
  induction h with
  | here h => exact .here (h.append r)
  | later here inside _ ih => exact .later here inside ih
  | choose h => exact .choose h
  | onTrue h => exact .onTrue h
  | onFalse clear h => exact .onFalse clear h
  | test h => exact .test h
  | body clear h => exact .body clear h

/-- Code that is clear of the name leads to what comes after it. -/
theorem prepend (hc : Code.Clear x c) (h : Leads x a d k) : Leads x a d (c ++ k) := by
  induction hc with
  | nil => exact h
  | cons here inside _ _ ih => exact .later here inside ih

/-- Code that leads to a milestone holds it. -/
theorem holds (h : Leads x a d c) : c.Holds (a.At x) := by
  induction h with
  | here h => exact .here h
  | later _ _ _ ih => exact .later ih
  | choose _ ih | onTrue _ ih | test _ ih => exact .inside List.mem_cons_self ih
  | onFalse _ _ ih | body _ _ ih => exact .inside (by simp [Instruction.parts]) ih

end Leads

/-! ### The text of emitted code -/

/-- What code does for a milestone of a variable: if the table has the variable there only after the
code, the code leads to it, and if not even then, the code has no use for the variable. -/
structure Prepares (x : Bytes) (a : Milestone) (t : SymbolTable) (c : Code) (t' : SymbolTable) :
    Prop where
  keeps : a.Reached (t.scope x) → a.Reached (t'.scope x)
  leads : ¬a.Reached (t.scope x) → a.Reached (t'.scope x) → ∃ d, Leads x a d c
  clear : ¬a.Reached (t'.scope x) → Code.Clear x c

namespace Prepares

variable {x : Bytes} {a : Milestone} {t t₁ t' : SymbolTable} {c d : Code}

/-- What two pieces of code do for a milestone, one after the other. -/
theorem append (hc : Prepares x a t c t₁) (hd : Prepares x a t₁ d t') :
    Prepares x a t (c ++ d) t' where
  keeps ht := hd.keeps (hc.keeps ht)
  leads ht ht' := by
    by_cases ht₁ : a.Reached (t₁.scope x)
    · obtain ⟨n, hn⟩ := hc.leads ht ht₁
      exact ⟨n, hn.append d⟩
    · obtain ⟨n, hn⟩ := hd.leads ht₁ ht'
      exact ⟨n, hn.prepend (hc.clear ht₁)⟩
  clear ht' := (hc.clear fun ht₁ => ht' (hd.keeps ht₁)).append (hd.clear ht')

/-- A branch does for a milestone what its code does, one level deeper. -/
theorem choose (hc : Prepares x a t c t') : Prepares x a t [.choose c] t' where
  keeps := hc.keeps
  leads ht ht' := by
    obtain ⟨n, hn⟩ := hc.leads ht ht'
    exact ⟨n + 1, .choose hn⟩
  clear ht' := (Code.Clear.composable x).choose (hc.clear ht')

/-- Of two branches, the second one starts with the table that the first one leaves. -/
theorem chooseElse (hc : Prepares x a t c t₁) (hd : Prepares x a t₁ d t') :
    Prepares x a t [.chooseElse c d] t' where
  keeps ht := hd.keeps (hc.keeps ht)
  leads ht ht' := by
    by_cases ht₁ : a.Reached (t₁.scope x)
    · obtain ⟨n, hn⟩ := hc.leads ht ht₁
      exact ⟨n + 1, .onTrue hn⟩
    · obtain ⟨n, hn⟩ := hd.leads ht₁ ht'
      exact ⟨n + 1, .onFalse (hc.clear ht₁) hn⟩
  clear ht' := by
    have hfirst := hc.clear fun ht₁ => ht' (hd.keeps ht₁)
    exact .single (by simp) (by simpa [Instruction.parts] using ⟨hfirst, hd.clear ht'⟩)

/-- The test of a loop comes first, and the body starts with the table that it leaves. -/
theorem loop (hc : Prepares x a t c t₁) (hd : Prepares x a t₁ d t') :
    Prepares x a t [.loop c d] t' where
  keeps ht := hd.keeps (hc.keeps ht)
  leads ht ht' := by
    by_cases ht₁ : a.Reached (t₁.scope x)
    · obtain ⟨n, hn⟩ := hc.leads ht ht₁
      exact ⟨n, .test hn⟩
    · obtain ⟨n, hn⟩ := hd.leads ht₁ ht'
      exact ⟨n + 1, .body (hc.clear ht₁) hn⟩
  clear ht' := by
    have hfirst := hc.clear fun ht₁ => ht' (hd.keeps ht₁)
    exact (Code.Clear.composable x).loop hfirst (hd.clear ht')

end Prepares

end PrefixForth

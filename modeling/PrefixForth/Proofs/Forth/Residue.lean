import PrefixForth.Proofs.Forth.Effect

/-!
# What is left on the stacks

No code drops a value. Where nobody takes the value of an operand or an operator, as in the body of
a loop or in a choice that stands by itself, the value stays on the stacks; only an assignment looks
at whether its value is taken. `Node.leavesNothing` reads off a tree whether any such value is left.

Runs are those of `Effect.Step`, now with loops among the instructions. A run of two codes, one
after the other, is a run of the first and then one of the second (`Effect.Steps.split`), so
`Residue`, which says of code whether its complete runs leave the stacks as they were, is put
together from the parts of the code.

Main statement: all complete runs of the code of a tree leave both stacks as they were exactly if
nothing is left in the sense of `Node.leavesNothing` (`stacks_kept_iff_leavesNothing`). That the
tree is a statement, with no value of its own, is not enough (`loop_of_no_value_leaves_cell`).
-/

namespace PrefixForth

open Grammar

/-! ### Runs of joined code -/

namespace Effect

variable {α β : Type} {a b k : Code} {ds ds' : List α} {fs fs' : List β} {s s' s'' : Config α β}

theorem Steps.trans {m n : Nat} (h : Steps m s s') (h' : Steps n s' s'') : Steps (m + n) s s'' := by
  induction h with
  | zero => rwa [Nat.zero_add]
  | succ first _ ih =>
    rw [Nat.add_right_comm]
    exact .succ first (ih h')

/-- What comes later does not matter for a step. -/
theorem Step.append (h : Step s s') (k : Code) :
    Step ⟨s.code ++ k, s.data, s.floats⟩ ⟨s'.code ++ k, s'.data, s'.floats⟩ := by
  cases h with
  | plain effect takesCells takesFloats givesCells givesFloats =>
    exact .plain effect takesCells takesFloats givesCells givesFloats
  | choose =>
    simp only [List.cons_append, List.append_assoc]
    exact .choose
  | skip => exact .skip
  | onTrue =>
    simp only [List.cons_append, List.append_assoc]
    exact .onTrue
  | onFalse =>
    simp only [List.cons_append, List.append_assoc]
    exact .onFalse
  | loop =>
    simp only [List.cons_append, List.append_assoc]
    exact .loop
  | count n =>
    simp only [List.cons_append, List.append_assoc]
    exact .count n

/-- Code that follows is not touched by a run. -/
theorem Steps.append {m : Nat} (h : Steps m s s') (k : Code) :
    Steps m ⟨s.code ++ k, s.data, s.floats⟩ ⟨s'.code ++ k, s'.data, s'.floats⟩ := by
  induction h with
  | zero => exact .zero _
  | succ first _ ih => exact .succ (first.append k) ih

/-- A step is a step of the first instruction. -/
theorem Step.of_append {i : Instruction} (h : Step ⟨i :: a ++ b, ds, fs⟩ s) :
    ∃ c, s.code = c ++ b ∧ Step ⟨i :: a, ds, fs⟩ ⟨c, s.data, s.floats⟩ := by
  generalize hs : (⟨i :: a ++ b, ds, fs⟩ : Config α β) = s₀ at h
  cases h with
  | plain effect takesCells takesFloats givesCells givesFloats =>
    cases hs
    exact ⟨a, rfl, .plain effect takesCells takesFloats givesCells givesFloats⟩
  | @choose c =>
    cases hs
    exact ⟨c ++ a, (List.append_assoc _ _ _).symm, .choose⟩
  | skip =>
    cases hs
    exact ⟨a, rfl, .skip⟩
  | @onTrue c =>
    cases hs
    exact ⟨c ++ a, (List.append_assoc _ _ _).symm, .onTrue⟩
  | @onFalse _ c =>
    cases hs
    exact ⟨c ++ a, (List.append_assoc _ _ _).symm, .onFalse⟩
  | loop =>
    cases hs
    exact ⟨_, (List.append_assoc _ (_ :: a) b).symm, .loop⟩
  | count n =>
    cases hs
    exact ⟨_, (List.append_assoc _ _ _).symm, .count n⟩

/-- A complete run of joined code comes to the end of the first part and goes on from there. -/
theorem Steps.split {m : Nat} (h : Steps m ⟨a ++ b, ds, fs⟩ ⟨[], ds', fs'⟩) :
    ∃ m₁ m₂ ds₁ fs₁, m₁ + m₂ = m ∧ Steps m₁ ⟨a, ds, fs⟩ ⟨[], ds₁, fs₁⟩ ∧
      Steps m₂ ⟨b, ds₁, fs₁⟩ ⟨[], ds', fs'⟩ := by
  induction m generalizing a ds fs with
  | zero =>
    generalize hs : (⟨a ++ b, ds, fs⟩ : Config α β) = s at h
    cases h
    obtain ⟨hcode, rfl, rfl⟩ := Config.mk.injEq .. ▸ hs
    obtain ⟨rfl, rfl⟩ := List.append_eq_nil_iff.mp hcode
    exact ⟨0, 0, ds, fs, rfl, .zero _, .zero _⟩
  | succ m ih =>
    rcases a with _ | ⟨i, a⟩
    · exact ⟨0, m + 1, ds, fs, Nat.zero_add _, .zero _, h⟩
    · cases h with
      | @succ _ _ s _ first rest =>
        obtain ⟨c, hcode, hstep⟩ := first.of_append
        obtain ⟨code, data, floats⟩ := s
        subst hcode
        obtain ⟨m₁, m₂, ds₁, fs₁, rfl, h₁, h₂⟩ := ih rest
        exact ⟨m₁ + 1, m₂, ds₁, fs₁, Nat.add_right_comm _ _ _, .succ hstep h₁, h₂⟩

/-! ### Steps of control structures -/

/-- A choice takes one value and goes either way, whatever the value is. -/
private theorem step_choose_iff : Step ⟨.choose a :: k, ds, fs⟩ s ↔
    ∃ x es, ds = x :: es ∧ (s = ⟨a ++ k, es, fs⟩ ∨ s = ⟨k, es, fs⟩) := by
  constructor
  · intro h
    cases h with
    | plain effect => cases effect
    | choose => exact ⟨_, _, rfl, .inl rfl⟩
    | skip => exact ⟨_, _, rfl, .inr rfl⟩
  · rintro ⟨x, es, rfl, rfl | rfl⟩
    · exact .choose
    · exact .skip

private theorem step_chooseElse_iff : Step ⟨.chooseElse a b :: k, ds, fs⟩ s ↔
    ∃ x es, ds = x :: es ∧ (s = ⟨a ++ k, es, fs⟩ ∨ s = ⟨b ++ k, es, fs⟩) := by
  constructor
  · intro h
    cases h with
    | plain effect => cases effect
    | onTrue => exact ⟨_, _, rfl, .inl rfl⟩
    | onFalse => exact ⟨_, _, rfl, .inr rfl⟩
  · rintro ⟨x, es, rfl, rfl | rfl⟩
    · exact .onTrue
    · exact .onFalse

/-- A loop is its test and a choice of its body and the loop again. -/
private theorem step_loop_iff : Step ⟨.loop a b :: k, ds, fs⟩ s ↔
    s = ⟨a ++ .choose (b ++ [.loop a b]) :: k, ds, fs⟩ := by
  constructor
  · intro h
    cases h with
    | plain effect => cases effect
    | loop => rfl
  · rintro rfl
    exact .loop

/-- A complete run of an instruction begins with a step of it. -/
theorem Steps.first {m : Nat} {i : Instruction} (h : Steps m ⟨i :: k, ds, fs⟩ ⟨[], ds', fs'⟩) :
    ∃ n s, m = n + 1 ∧ Step ⟨i :: k, ds, fs⟩ s ∧ Steps n s ⟨[], ds', fs'⟩ := by
  cases h with
  | succ first rest => exact ⟨_, _, rfl, first, rest⟩

private theorem steps_nil {m : Nat} (h : Steps m ⟨[], ds, fs⟩ ⟨[], ds', fs'⟩) :
    ds' = ds ∧ fs' = fs := by
  cases h with
  | zero => exact ⟨rfl, rfl⟩
  | succ first => cases first

end Effect

/-! ### Complete runs of balanced code -/

namespace Balanced

open Effect

variable {α β : Type} {c : Code} {d d' : Depth} {ds : List α} {fs : List β}

/-- Balanced code comes to its end. -/
theorem exists_run [Inhabited α] [Inhabited β] (h : Balanced c d d') (ds : List α) (fs : List β)
    {xs : List α} {ys : List β} (hxs : xs.length = d.cells) (hys : ys.length = d.floats) :
    ∃ m us vs, Steps m ⟨c, xs ++ ds, ys ++ fs⟩ ⟨[], us ++ ds, vs ++ fs⟩ ∧
      us.length = d'.cells ∧ vs.length = d'.floats := by
  induction hw : Code.weight c using Nat.strongRecOn generalizing c d xs ys with
  | _ w ih =>
    rcases c with _ | ⟨i, c⟩
    · cases h
      exact ⟨0, xs, ys, .zero _, hxs, hys⟩
    · obtain ⟨⟨code, data, floats⟩, hstep⟩ : ∃ s, Step ⟨i :: c, xs ++ ds, ys ++ fs⟩ s :=
        h.exists_step hxs hys
      obtain ⟨d₁, us, vs, hdata, hfloats, hus, hvs, hrest, hlt⟩ := h.step hxs hys hstep
      simp only at hdata hfloats
      subst hdata hfloats
      obtain ⟨m, us', vs', hrun, hus', hvs'⟩ := ih _ (hw ▸ hlt) hrest hus hvs rfl
      exact ⟨m + 1, us', vs', .succ hstep hrun, hus', hvs'⟩

/-- What balanced code leaves at its end. -/
theorem completed (h : Balanced c {} d) {m : Nat} {ds' : List α} {fs' : List β}
    (hrun : Steps m ⟨c, ds, fs⟩ ⟨[], ds', fs'⟩) :
    ∃ xs ys, ds' = xs ++ ds ∧ fs' = ys ++ fs ∧ xs.length = d.cells ∧ ys.length = d.floats := by
  have hrun' : Steps m ⟨c, [] ++ ds, [] ++ fs⟩ ⟨[], ds', fs'⟩ := hrun
  obtain ⟨-, d₁, us, vs, hdata, hfloats, hus, hvs, hrest⟩ := h.run hrun' rfl rfl
  cases hrest
  exact ⟨us, vs, hdata, hfloats, hus, hvs⟩

end Balanced

/-! ### Code that leaves nothing, and code that may leave something -/

open Effect

/-- If nothing is to be left, all complete runs of the code leave the stacks as they were; otherwise
one of them, from whatever stacks, leaves something on top. -/
structure Residue (α β : Type) (c : Code) (nothing : Bool) : Prop where
  keeps : nothing = true → ∀ {m : Nat} {ds ds' : List α} {fs fs' : List β},
    Steps m ⟨c, ds, fs⟩ ⟨[], ds', fs'⟩ → ds' = ds ∧ fs' = fs
  completes : ∀ (ds : List α) (fs : List β), ∃ m xs ys,
    Steps m ⟨c, ds, fs⟩ ⟨[], xs ++ ds, ys ++ fs⟩ ∧ (nothing = false → xs ≠ [] ∨ ys ≠ [])

namespace Residue

variable {α β : Type} {a b test : Code} {p q : Bool}

/-- From any given stacks, complete runs show whether something is left. -/
theorem keeps_iff (h : Residue α β a p) (ds : List α) (fs : List β) :
    (∀ m ds' fs', Steps m ⟨a, ds, fs⟩ ⟨[], ds', fs'⟩ → ds' = ds ∧ fs' = fs) ↔ p = true := by
  refine ⟨fun hkeeps => ?_, fun hp _ _ _ hrun => h.keeps hp hrun⟩
  obtain ⟨m, xs, ys, hrun, hne⟩ := h.completes ds fs
  obtain ⟨hdata, hfloats⟩ := hkeeps _ _ _ hrun
  cases p with
  | true => rfl
  | false =>
    rcases hne rfl with hxs | hys
    · exact absurd (by simpa using hdata) hxs
    · exact absurd (by simpa using hfloats) hys

protected theorem nil : Residue α β [] true where
  keeps _ _ _ _ _ _ h := steps_nil h
  completes _ _ := ⟨0, [], [], .zero _, fun h => nomatch h⟩

protected theorem append (ha : Residue α β a p) (hb : Residue α β b q) :
    Residue α β (a ++ b) (p && q) where
  keeps h m ds ds' fs fs' hrun := by
    rw [Bool.and_eq_true] at h
    obtain ⟨m₁, m₂, ds₁, fs₁, -, h₁, h₂⟩ := hrun.split
    obtain ⟨rfl, rfl⟩ := ha.keeps h.1 h₁
    exact hb.keeps h.2 h₂
  completes ds fs := by
    obtain ⟨m, xs, ys, hxs, hp⟩ := ha.completes ds fs
    obtain ⟨n, us, vs, hus, hq⟩ := hb.completes (xs ++ ds) (ys ++ fs)
    refine ⟨m + n, us ++ xs, vs ++ ys, ?_, ?_⟩
    · rw [List.append_assoc, List.append_assoc]
      exact (hxs.append b).trans hus
    · intro h
      rcases Bool.and_eq_false_iff.mp h with h | h
      · exact (hp h).imp (fun hne => by simp [hne]) fun hne => by simp [hne]
      · exact (hq h).imp (fun hne => by simp [hne]) fun hne => by simp [hne]

/-- A test leaves one cell for the control structure after it. -/
theorem exists_flag (h : Balanced test {} ⟨1, 0⟩) {m : Nat} {ds ds' : List α} {fs fs' : List β}
    (hrun : Steps m ⟨test, ds, fs⟩ ⟨[], ds', fs'⟩) : ∃ x, ds' = x :: ds ∧ fs' = fs := by
  obtain ⟨xs, ys, rfl, rfl, hxs, hys⟩ := h.completed hrun
  obtain ⟨x, rfl⟩ := List.length_eq_one_iff.mp hxs
  rw [List.length_eq_zero_iff.mp hys]
  exact ⟨x, rfl, rfl⟩

/-- By induction on the length of a complete run: after a round that leaves nothing, the loop begins
again on the same stacks. -/
theorem loop_keeps (htest : Balanced test {} ⟨1, 0⟩) (hb : Residue α β b true) {m : Nat}
    {ds ds' : List α} {fs fs' : List β} (hrun : Steps m ⟨[.loop test b], ds, fs⟩ ⟨[], ds', fs'⟩) :
    ds' = ds ∧ fs' = fs := by
  induction m using Nat.strongRecOn with
  | _ m ih =>
    obtain ⟨n, s, rfl, hstep, hrest⟩ := hrun.first
    obtain rfl := step_loop_iff.mp hstep
    obtain ⟨n₁, n₂, ds₁, fs₁, rfl, h₁, h₂⟩ := hrest.split
    obtain ⟨x, rfl, rfl⟩ := exists_flag htest h₁
    obtain ⟨n₃, s, rfl, hstep, hrest⟩ := h₂.first
    obtain ⟨_, _, ⟨⟩, rfl | rfl⟩ := step_choose_iff.mp hstep
    · rw [List.append_nil] at hrest
      obtain ⟨n₄, n₅, ds₂, fs₂, rfl, h₃, h₄⟩ := hrest.split
      obtain ⟨rfl, rfl⟩ := hb.keeps rfl h₃
      exact ih n₅ (by omega) h₄
    · exact steps_nil hrest

variable [Inhabited α] [Inhabited β]

/-- Code that is balanced from nothing to nothing leaves nothing. -/
private theorem of_balanced_zero (h : Balanced a {} {}) : Residue α β a true where
  keeps _ m ds ds' fs fs' hrun := by
    obtain ⟨xs, ys, rfl, rfl, hxs, hys⟩ := h.completed hrun
    rw [List.length_eq_zero_iff.mp hxs, List.length_eq_zero_iff.mp hys]
    exact ⟨rfl, rfl⟩
  completes ds fs := by
    obtain ⟨m, us, vs, hrun, -⟩ := h.exists_run ds fs List.length_nil List.length_nil
    exact ⟨m, us, vs, hrun, fun h => nomatch h⟩

/-- A value of its own is something. -/
theorem of_balanced_storage {s : Storage} (h : Balanced a {} s.depth) : Residue α β a false where
  keeps h := nomatch h
  completes ds fs := by
    obtain ⟨m, us, vs, hrun, hus, hvs⟩ :=
      h.exists_run ds fs List.length_nil List.length_nil
    refine ⟨m, us, vs, hrun, fun _ => ?_⟩
    cases s with
    | cell => exact .inl (List.ne_nil_of_length_pos (hus ▸ Nat.one_pos))
    | float => exact .inr (List.ne_nil_of_length_pos (hvs ▸ Nat.one_pos))
    | pair => exact .inl (List.ne_nil_of_length_pos (hus ▸ Nat.two_pos))

/-- A test can be run, and leaves one value. -/
private theorem exists_test_run (h : Balanced test {} ⟨1, 0⟩) (k : Code) (ds : List α)
    (fs : List β) :
    ∃ m x, Steps m ⟨test ++ k, ds, fs⟩ ⟨k, x :: ds, fs⟩ := by
  obtain ⟨m, us, vs, hrun, -⟩ := h.exists_run ds fs List.length_nil List.length_nil
  obtain ⟨x, hdata, hfloats⟩ := exists_flag h hrun
  rw [hdata, hfloats] at hrun
  exact ⟨m, x, hrun.append k⟩

/-- A choice of one branch leaves what its branch leaves. -/
theorem choose (htest : Balanced test {} ⟨1, 0⟩) (ha : Residue α β a p) :
    Residue α β (test ++ [.choose a]) p where
  keeps hp m ds ds' fs fs' hrun := by
    obtain ⟨m₁, m₂, ds₁, fs₁, -, h₁, h₂⟩ := hrun.split
    obtain ⟨x, rfl, rfl⟩ := exists_flag htest h₁
    obtain ⟨n, s, -, hstep, hrest⟩ := h₂.first
    obtain ⟨_, _, ⟨⟩, rfl | rfl⟩ := step_choose_iff.mp hstep
    · rw [List.append_nil] at hrest
      exact ha.keeps hp hrest
    · exact steps_nil hrest
  completes ds fs := by
    obtain ⟨m, x, htests⟩ := exists_test_run htest [.choose a] ds fs
    obtain ⟨n, xs, ys, hrun, hne⟩ := ha.completes ds fs
    rw [← List.append_nil a] at hrun
    exact ⟨_, xs, ys, htests.trans (.succ .choose hrun), hne⟩

/-- A choice leaves nothing if neither of its branches does. -/
theorem chooseElse (htest : Balanced test {} ⟨1, 0⟩) (ha : Residue α β a p)
    (hb : Residue α β b q) : Residue α β (test ++ [.chooseElse a b]) (p && q) where
  keeps h m ds ds' fs fs' hrun := by
    rw [Bool.and_eq_true] at h
    obtain ⟨m₁, m₂, ds₁, fs₁, -, h₁, h₂⟩ := hrun.split
    obtain ⟨x, rfl, rfl⟩ := exists_flag htest h₁
    obtain ⟨n, s, -, hstep, hrest⟩ := h₂.first
    obtain ⟨_, _, ⟨⟩, rfl | rfl⟩ := step_chooseElse_iff.mp hstep
    · rw [List.append_nil] at hrest
      exact ha.keeps h.1 hrest
    · rw [List.append_nil] at hrest
      exact hb.keeps h.2 hrest
  completes ds fs := by
    obtain ⟨m, x, htests⟩ := exists_test_run htest [.chooseElse a b] ds fs
    -- The first branch shows what is left, unless it leaves nothing.
    cases p with
    | false =>
      obtain ⟨n, xs, ys, hrun, hne⟩ := ha.completes ds fs
      rw [← List.append_nil a] at hrun
      exact ⟨_, xs, ys, htests.trans (.succ .onTrue hrun), fun _ => hne rfl⟩
    | true =>
      obtain ⟨n, xs, ys, hrun, hne⟩ := hb.completes ds fs
      rw [← List.append_nil b] at hrun
      exact ⟨_, xs, ys, htests.trans (.succ .onFalse hrun), hne⟩

/-- One round of a loop shows what is left of its body. -/
theorem loop (htest : Balanced test {} ⟨1, 0⟩) (hb : Residue α β b p) :
    Residue α β [.loop test b] p where
  keeps hp _ _ _ _ _ hrun := loop_keeps htest (hp ▸ hb) hrun
  completes ds fs := by
    obtain ⟨n, xs, ys, hbody, hne⟩ := hb.completes ds fs
    have hround := hbody.append [.loop test b]
    obtain ⟨m, x, htests⟩ := exists_test_run htest [.choose (b ++ [.loop test b])] ds fs
    obtain ⟨m', x', htests'⟩ :=
      exists_test_run htest [.choose (b ++ [.loop test b])] (xs ++ ds) (ys ++ fs)
    have hlast : Steps _ ⟨[.loop test b], xs ++ ds, ys ++ fs⟩ ⟨[], xs ++ ds, ys ++ fs⟩ :=
      .succ .loop (htests'.trans (.succ .skip (.zero _)))
    have henter : Steps _ ⟨[.choose (b ++ [.loop test b])], x :: ds, fs⟩
        ⟨b ++ [.loop test b], ds, fs⟩ :=
      .succ (step_choose_iff.mpr ⟨x, ds, rfl, .inl (by rw [List.append_nil])⟩) (.zero _)
    exact ⟨_, xs, ys, .succ .loop (htests.trans (henter.trans (hround.trans hlast))), hne⟩

end Residue

/-! ### The trees that leave nothing -/

mutual

/-- No value is left on the stacks: the tree is an assignment whose value is not taken, a `let` or a
`stdout`, a choice between such trees or a loop over such trees. -/
def Node.leavesNothing (consumed : Bool) : Node → Bool
  | .mk t cs =>
    if t.kind = .statement then
      match Statement.ofKeyword? t.text, cs with
      | some .choose, _ :: branches => Node.leaveNothing consumed branches
      | some .loop, _ :: body => Node.leaveNothing false body
      | _, _ => true
    else
      t.kind = .assignment && !consumed

/-- No value of any of the trees is left on the stacks. -/
def Node.leaveNothing (consumed : Bool) : List Node → Bool
  | [] => true
  | n :: ns => n.leavesNothing consumed && Node.leaveNothing consumed ns

end

namespace Node

variable {head : Token} {consumed : Bool}

/-- An assignment leaves nothing exactly where its value is not consumed. -/
private theorem leavesNothing_assignment {cs : List Node} (hk : head.kind = .assignment) :
    (mk head cs).leavesNothing consumed = !consumed := by
  unfold leavesNothing
  rw [if_neg (by simp [hk]), decide_eq_true hk, Bool.true_and]

/-- Operators, literals and identifiers leave a value. -/
private theorem leavesNothing_of_kind {cs : List Node} (hassign : head.kind ≠ .assignment)
    (hstatement : head.kind ≠ .statement) : (mk head cs).leavesNothing consumed = false := by
  unfold leavesNothing
  rw [if_neg hstatement, decide_eq_false hassign, Bool.false_and]

/-- A choice leaves nothing if its branches do. -/
private theorem leavesNothing_choose {test : Node} {branches : List Node}
    (hk : head.kind = .statement)
    (htext : head.text = Statement.choose.keyword) :
    (mk head (test :: branches)).leavesNothing consumed = leaveNothing consumed branches := by
  unfold leavesNothing
  simp only [if_pos hk, htext, Statement.ofKeyword?_keyword]

/-- A loop leaves nothing if no tree of its body does. -/
private theorem leavesNothing_loop {test : Node} {body : List Node} (hk : head.kind = .statement)
    (htext : head.text = Statement.loop.keyword) :
    (mk head (test :: body)).leavesNothing consumed = leaveNothing false body := by
  unfold leavesNothing
  simp only [if_pos hk, htext, Statement.ofKeyword?_keyword]

/-- A `let` and a `stdout` leave nothing. -/
theorem leavesNothing_of_text {cs : List Node} (hk : head.kind = .statement)
    (htext : head.text = Statement.declare.keyword ∨ head.text = Statement.print.keyword) :
    (mk head cs).leavesNothing consumed = true := by
  rcases htext with htext | htext
  · unfold leavesNothing
    simp only [if_pos hk, htext, Statement.ofKeyword?_keyword]
  · unfold leavesNothing
    simp only [if_pos hk, htext, Statement.ofKeyword?_keyword]

/-- The value of a form that is neither an assignment nor a statement does not depend on whether it
is taken. -/
theorem value_eq_of_kind {cs : List Node} (hassign : head.kind ≠ .assignment)
    (hstatement : head.kind ≠ .statement) (c : Bool) :
    (Node.mk head cs).value c = (Node.mk head cs).value true := by
  have hpart : ∀ i c, consumesPart head i c = true := fun i c => by simp [consumesPart, hstatement]
  have hvalues : ∀ i, Node.values head c i cs = Node.values head true i cs := by
    induction cs with
    | nil => exact fun _ => rfl
    | cons n ns ih =>
      intro i
      rw [Node.values, Node.values, hpart, hpart, ih]
  rcases cs with _ | ⟨n, ns⟩
  · rw [Node.value, Node.value]
  · unfold Node.value
    rw [if_neg hassign, if_neg (fun h => hstatement h.1), if_neg hassign,
      if_neg (fun h => hstatement h.1), hvalues]

end Node

/-- The value of a binary operator can be stored. -/
theorem BinaryCode.storage?_isSome {op : BinaryOperator} {l r v : Value} (h : BinaryCode op l r v) :
    v.type.storage?.isSome = true := by
  cases h <;> rfl

/-- The value of a unary operator can be stored. -/
theorem UnaryCode.storage?_isSome {op : UnaryOperator} {u v : Value} (h : UnaryCode op u v) :
    v.type.storage?.isSome = true := by
  cases h <;> rfl

/-- The value of a literal can be stored. -/
theorem LiteralCode.storage?_isSome {tok : Token} {v : Value} (h : LiteralCode tok v) :
    v.type.storage?.isSome = true := by
  cases h <;> rfl

/-! ### Trees among the parts of trees -/

private theorem Grammar.mem_preorder_self (n : Node) : n ∈ preorder n := by
  cases n
  exact List.mem_cons_self

private theorem Grammar.mem_preorderAll_of_mem {n : Node} {ns : List Node} (h : n ∈ ns) :
    n ∈ preorderAll ns :=
  mem_preorderAll.mpr ⟨n, h, mem_preorder_self n⟩

private theorem Grammar.mem_preorder_of_mem_children {n m : Node} (h : m ∈ n.children) :
    m ∈ preorder n := by
  cases n
  exact List.mem_cons_of_mem _ (mem_preorderAll_of_mem h)

/-! ### What is left of each tree -/

/-- Declarations do not touch the stacks. -/
private theorem Declares.balanced {t t' : SymbolTable} {bs : List Node} {code : Code}
    (h : Declares t bs code t') : Balanced code {} {} := by
  induction h with
  | nil => exact .nil _
  | cons _ _ _ _ ih => exact .plain (d := {}) rfl rfl rfl ih

/-- The word that prints a value takes it. -/
theorem Balanced.print {c : Code} {τ : ValueType} {s : Storage} {w : Word}
    (h : Balanced c {} s.depth) (hs : τ.storage? = some s) (hw : τ.printWord? = some w) :
    Balanced (c ++ [.word w]) {} {} := by
  have hword : Balanced [.word w] s.depth {} := by
    cases τ <;> cases hs <;> cases hw <;> exact Balanced.instruction (i := .word _) rfl
  exact h.append hword

/-- A value that is stored is gone. -/
theorem Balanced.stored {c : Code} {s : Storage} (h : Balanced c {} s.depth) (x : Bytes) :
    Balanced (c ++ [.name x, .word (.store s)]) {} {} := by
  have hstore : Balanced [.word (.store s)] ⟨s.cells + 1, s.floats⟩ {} :=
    Balanced.instruction (i := .word (.store s)) rfl
  exact h.append (.plain (d := s.depth) rfl rfl rfl hstore)

/-- The bodies of a loop, one after the other. -/
theorem EmitsAll.residue {α β : Type} {t t' : SymbolTable} {ns : List Node} {vs : List Value}
    (h : EmitsAll t ns vs t') (ht : t.Sound)
    (hns : ∀ n ∈ ns, ∀ {t t' : SymbolTable} {v : Value}, t.Sound → n.value false t = (.ok v, t') →
      Residue α β v.code (n.leavesNothing false)) :
    Residue α β (vs.map Value.code).flatten (Node.leaveNothing false ns) := by
  induction h with
  | nil => exact .nil
  | cons first _ ih =>
    rw [List.map_cons, List.flatten_cons, Node.leaveNothing]
    exact (hns _ List.mem_cons_self ht first).append
      (ih (ht.value first) fun n hn => hns n (List.mem_cons_of_mem _ hn))

section Trees

variable {α β : Type} [Inhabited α] [Inhabited β]

/-- A value that nobody takes is left. -/
theorem Value.Pushes.residue {v : Value} (h : v.Pushes) (hs : v.type.storage?.isSome = true) :
    Residue α β v.code false := by
  obtain ⟨s, hs⟩ := Option.isSome_iff_exists.mp hs
  exact .of_balanced_storage (h s hs)

/-- What the code of a tree leaves is what its shape says. -/
theorem Node.WellFormed.residue {n : Node} (h : n.WellFormed) {consumed : Bool}
    {t t' : SymbolTable} {v : Value} (ht : t.Sound) (hv : n.value consumed t = (.ok v, t')) :
    Residue α β v.code (n.leavesNothing consumed) := by
  induction h generalizing consumed t t' v with
  | @operand tok kind spelled =>
    have hassign : tok.kind ≠ .assignment := fun h => by rw [h] at kind; cases kind
    have hstatement : tok.kind ≠ .statement := fun h => by rw [h] at kind; cases kind
    -- an operand has the same code whether its value is consumed or not
    rw [Node.value_eq_of_kind hassign hstatement] at hv
    rw [leavesNothing_of_kind hassign hstatement]
    refine ((WellFormed.operand kind spelled).pushes ht hv).residue ?_
    by_cases hk : tok.kind = .identifier
    · obtain ⟨τ, s, -, hs, rfl, -⟩ := (value_identifier_iff hk (spelled.text_ne_nil hk) ht).mp hv
      exact Option.isSome_of_eq_some hs
    · have hliteral : tok.kind.isLiteral = true := by simpa [TokenKind.isOperand, hk] using kind
      exact (spelled.literalCode ((value_literal_iff hliteral).mp hv).1).storage?_isSome
  | assignment kind target spelled value =>
    rw [leavesNothing_assignment kind]
    obtain ⟨u, t₁, τ, a, s, hu, -, hs, hfits, rfl, -⟩ :=
      (value_assignment_iff kind (spelled.text_ne_nil target) value.emitsProper ht).mp hv
    -- a value that is consumed is copied before it is stored, and the copy is left
    cases consumed with
    | true =>
      have hpushes := (WellFormed.assignment kind target spelled value).pushes ht hv
      exact hpushes.residue (Option.isSome_of_eq_some hs)
    | false =>
      have hfitted := (value.pushes ht hu).fitted (value.emitsProper ht hu).code hs hfits
      simp only [Bool.false_eq_true, if_false, List.append_nil]
      exact .of_balanced_zero (hfitted.stored _)
  | binary kind spelling left right =>
    rw [Node.value_eq_of_kind (by simp [kind]) (by simp [kind])] at hv
    rw [leavesNothing_of_kind (by simp [kind]) (by simp [kind])]
    obtain ⟨u, t₁, w, -, -, hcode⟩ :=
      (value_binary_iff kind spelling left.emitsProper right.emitsProper ht).mp hv
    exact ((WellFormed.binary kind spelling left right).pushes ht hv).residue hcode.storage?_isSome
  | unary kind spelling operand =>
    rw [Node.value_eq_of_kind (by simp [kind]) (by simp [kind])] at hv
    rw [leavesNothing_of_kind (by simp [kind]) (by simp [kind])]
    obtain ⟨u, -, hcode⟩ := (value_unary_iff kind spelling operand.emitsProper ht).mp hv
    exact ((WellFormed.unary kind spelling operand).pushes ht hv).residue hcode.storage?_isSome
  | declaration kind text nonempty each =>
    obtain ⟨code, hcode, rfl⟩ := (value_declaration_iff kind text nonempty each ht).mp hv
    rw [leavesNothing_of_text kind (.inl text)]
    exact .of_balanced_zero hcode.balanced
  | loop kind text nonempty condition each _ ih =>
    obtain ⟨u, t₁, vs, hu, hvs, hbool, rfl⟩ :=
      (value_loop_iff kind text (fun m hm => (each m hm).emitsProper) ht).mp hv
    have htest : Balanced u.code {} ⟨1, 0⟩ := (condition.pushes ht hu).of_type hbool rfl
    rw [leavesNothing_loop kind text]
    exact .loop htest (hvs.residue (ht.value hu) fun n hn => ih n hn)
  | choose kind text condition branch _ ih =>
    obtain ⟨u, t₁, w, hu, hw, hbool, rfl⟩ :=
      (value_choose_iff kind text condition.emitsProper ht).mp hv
    have htest : Balanced u.code {} ⟨1, 0⟩ := (condition.pushes ht hu).of_type hbool rfl
    rw [leavesNothing_choose kind text, leaveNothing, leaveNothing, Bool.and_true]
    exact .choose htest (ih (ht.value hu) hw)
  | chooseElse kind text condition branch otherwise _ ih₁ ih₂ =>
    obtain ⟨u, t₁, w, t₂, x, hu, hw, hx, hbool, rfl⟩ :=
      (value_chooseElse_iff kind text condition.emitsProper ht).mp hv
    have htest : Balanced u.code {} ⟨1, 0⟩ := (condition.pushes ht hu).of_type hbool rfl
    have ht₁ := ht.value hu
    rw [leavesNothing_choose kind text, leaveNothing, leaveNothing, leaveNothing, Bool.and_true]
    exact .chooseElse htest (ih₁ ht₁ hw) (ih₂ (ht₁.value hw) hx)
  | print kind text operand =>
    obtain ⟨u, pw, hu, hpw, rfl⟩ := (value_print_iff kind text operand.emitsProper ht).mp hv
    -- what can be printed can be stored, so it is known what lies on the stacks
    have hstorage : ∃ s, u.type.storage? = some s := by
      cases htype : u.type <;> rw [htype] at hpw <;> cases hpw <;> exact ⟨_, rfl⟩
    obtain ⟨s, hs⟩ := hstorage
    rw [leavesNothing_of_text kind (.inr text)]
    exact .of_balanced_zero ((operand.pushes ht hu s hs).print hs hpw)

end Trees

/-- The code of every part of a parsed program, in every table that may be met, comes to its end on
some way through it; and all ways through it leave both stacks as they were exactly if no value is
left that nobody takes. This holds for statements, which have no value of their own, for the bodies
of loops, which are never taken, and for every other part. -/
theorem stacks_kept_iff_leavesNothing {s : Bytes} {p : Program} (hp : parse s = .ok p) {n : Node}
    (hn : n ∈ preorderAll p) {t t' : SymbolTable} (ht : t.Reachable) {consumed : Bool} {v : Value}
    (hv : n.value consumed t = (.ok v, t')) {α β : Type} [Inhabited α] [Inhabited β] (data : List α)
    (floats : List β) :
    (∃ m data' floats', Effect.Steps m ⟨v.code, data, floats⟩ ⟨[], data', floats'⟩) ∧
    ((∀ m data' floats', Effect.Steps m ⟨v.code, data, floats⟩ ⟨[], data', floats'⟩ →
        data' = data ∧ floats' = floats) ↔ n.leavesNothing consumed = true) := by
  have hwf := (isPart_of_parse hp hn).wellFormed hv
  have hresidue : Residue α β v.code (n.leavesNothing consumed) := hwf.residue ht.sound hv
  obtain ⟨m, xs, ys, hrun, -⟩ := hresidue.completes data floats
  exact ⟨⟨m, _, _, hrun⟩, hresidue.keeps_iff data floats⟩

/-- A loop over an assignment and a choice between a statement and an assignment. -/
theorem stacks_kept_iff_leavesNothing_choice :
    ∃ p n t v t', parse (utf8
        "(let (x real)) (:= x 1) (while (< x 9.5) (:= x (* x 2)) (if (> x 3) (stdout x) (:= x 4)))") =
        .ok p ∧
      n ∈ preorderAll p ∧ t.Reachable ∧ n.value false t = (.ok v, t') ∧ v.type = .void ∧
      n.leavesNothing false = true ∧
      ∀ (data floats : List Nat) m data' floats',
        Effect.Steps m ⟨v.code, data, floats⟩ ⟨[], data', floats'⟩ →
          data' = data ∧ floats' = floats := by
  have hrun : ((parse (utf8
      "(let (x real)) (:= x 1) (while (< x 9.5) (:= x (* x 2)) (if (> x 3) (stdout x) (:= x 4)))")
      ).toOption.any fun p => p[2]?.any fun n =>
        (n.value false (generate (p.take 2) .empty).2).1.toOption.any fun v =>
          v.type == .void && n.leavesNothing false) = true := by decide +kernel
  simp only [Option.any_eq_true, toOption_eq_some_iff, Bool.and_eq_true, beq_iff_eq] at hrun
  obtain ⟨p, hp, n, hn, v, hv, htype, hnothing⟩ := hrun
  have hmem : n ∈ preorderAll p := mem_preorderAll_of_mem (List.mem_of_getElem? hn)
  have hreachable := SymbolTable.Reachable.program (p.take 2) .empty
  have hvalue : n.value false (generate (p.take 2) .empty).2 = (.ok v, _) := Prod.ext hv rfl
  refine ⟨p, n, _, v, _, hp, hmem, hreachable, hvalue, htype, hnothing, fun data floats => ?_⟩
  exact (stacks_kept_iff_leavesNothing hp hmem hreachable hvalue data floats).2.mpr hnothing

/-- A loop that counts down and names the number after each round: the loop is a statement, and yet
a way through it leaves cells, as does its last body by itself. -/
theorem loop_of_no_value_leaves_cell :
    ∃ p loop body t v w,
      parse (utf8 "(let (n int)) (:= n 2) (while (> n 0) (:= n (- n 1)) n)") = .ok p ∧
      loop ∈ preorderAll p ∧ loop.token.text = Statement.loop.keyword ∧ body ∈ loop.children.tail ∧
      t.Reachable ∧ (loop.value false t).1 = .ok v ∧ v.type = .void ∧
      (body.value false t).1 = .ok w ∧
      ∀ code ∈ [v.code, w.code], ¬∀ m (data' floats' : List Nat),
        Effect.Steps m ⟨code, [], []⟩ ⟨[], data', floats'⟩ → data' = [] ∧ floats' = [] := by
  have hrun : ((parse (utf8 "(let (n int)) (:= n 2) (while (> n 0) (:= n (- n 1)) n)")).toOption.any
      fun p => p[2]?.any fun loop => loop.children.tail[1]?.any fun body =>
        (loop.value false (generate (p.take 2) .empty).2).1.toOption.any fun v =>
        (body.value false (generate (p.take 2) .empty).2).1.toOption.any fun w =>
          v.type == .void && loop.token.text == Statement.loop.keyword &&
            !loop.leavesNothing false && !body.leavesNothing false) = true := by decide +kernel
  simp only [Option.any_eq_true, toOption_eq_some_iff, Bool.and_eq_true, beq_iff_eq] at hrun
  obtain ⟨p, hp, loop, hloop, body, hbody, v, hv, w, hw, ⟨⟨htype, htext⟩, hlast⟩, hlast'⟩ := hrun
  have hmem := List.mem_of_getElem? hloop
  have hmem' := List.mem_of_getElem? hbody
  have hpart : loop ∈ preorderAll p := mem_preorderAll_of_mem hmem
  have hpart' : body ∈ preorderAll p :=
    mem_preorderAll.mpr ⟨loop, hmem, mem_preorder_of_mem_children (List.mem_of_mem_tail hmem')⟩
  have hreachable := SymbolTable.Reachable.program (p.take 2) .empty
  refine ⟨p, loop, body, _, v, w, hp, hpart, htext, hmem', hreachable, hv, htype, hw, ?_⟩
  have hresidue : ∀ {n : Node} {u : Value}, n ∈ preorderAll p →
      (n.value false (generate (p.take 2) .empty).2).1 = .ok u →
      Residue Nat Nat u.code (n.leavesNothing false) := fun hn hu =>
    ((isPart_of_parse hp hn).wellFormed (Prod.ext hu rfl)).residue hreachable.sound
      (Prod.ext hu rfl)
  simp only [List.mem_cons, List.not_mem_nil, or_false, forall_eq_or_imp, forall_eq]
  constructor
  · rw [(hresidue hpart hv).keeps_iff]
    simpa using hlast
  · rw [(hresidue hpart' hw).keeps_iff]
    simpa using hlast'

end PrefixForth

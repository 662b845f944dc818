import Mathlib.Data.List.Basic
import PrefixForth.Group

/-!
# Units in any order

The units of a group take their steps in any order, and the first report cancels those that have not
started. So which units are given up, and which of several faults is reported, depends on the
schedule. What the group yields otherwise does not: it has target texts exactly if every text
compiles, and a report names a text that does not compile, with the fault of that text.

What one step can do is `Group.Moves`. The invariant `Group.Keeps` says what the phases of the units
and the report are known to mean; every step keeps it (`Keeps.step`), so it holds after every
schedule (`keeps_run`). A unit has three steps to take at most, and its turns take them one by one
(`remaining_run_le`).

Main statement: `schedules_agree_with_compile`.
-/

namespace PrefixForth

/-- How many steps a unit in this phase has still to take, at most. -/
def UnitPhase.remaining : UnitPhase → Nat
  | waiting => 3
  | started => 2
  | compiled _ => 1
  | ended _ => 0

namespace Group

variable {g g' : Group} {i j : Nat} {u : CompileUnit} {canceled : Bool} {sources : List Bytes}
  {schedule : List Nat}

/-- All units have ended. -/
def Finished (g : Group) : Prop :=
  ∀ u ∈ g.units, ∃ target, u.phase = .ended target

/-! ### One step -/

/-- What the step of unit number `i` can make of the group. -/
inductive Moves (g : Group) (i : Nat) (u : CompileUnit) : Group → Prop
  | start (phase : u.phase = .waiting) (admitted : g.canceled = false) :
      Moves g i u (g.setPhase i .started)
  | giveUp (phase : u.phase = .waiting) (refused : g.canceled = true) :
      Moves g i u (g.fail i .canceled)
  | translate (phase : u.phase = .started) :
      Moves g i u (g.setPhase i (.compiled (compile u.source)))
  | deliver {target : Bytes} (phase : u.phase = .compiled (.ok target)) :
      Moves g i u (g.setPhase i (.ended (some target)))
  | report {fault : Fault} (phase : u.phase = .compiled (.error fault)) :
      Moves g i u (g.fail i (.unit ⟨i, fault⟩))
  | rest {target : Option Bytes} (phase : u.phase = .ended target) : Moves g i u g

private theorem step_of_none (h : g.units[i]? = none) : g.step i = g := by
  rw [step, h]

/-- A step moves one unit from its phase to the next. -/
private theorem moves_step (h : g.units[i]? = some u) : Moves g i u (g.step i) := by
  simp only [step, h]
  rcases hphase : u.phase with _ | _ | (fault | target) | target
  · by_cases hcanceled : g.canceled = true
    · simpa [hcanceled] using Moves.giveUp hphase hcanceled
    · simpa [hcanceled] using Moves.start hphase (by simpa using hcanceled)
  · exact .translate hphase
  · exact .report hphase
  · exact .deliver hphase
  · exact .rest hphase

/-- Only the one unit changes its phase. -/
private theorem getElem?_setPhase (g : Group) (i : Nat) (phase : UnitPhase) (j : Nat) :
    (g.setPhase i phase).units[j]? =
      if i = j then g.units[j]?.map fun u => { u with phase := phase } else g.units[j]? := by
  rw [setPhase, List.getElem?_modify]
  split <;> simp

private theorem sources_setPhase (g : Group) (i : Nat) (phase : UnitPhase) :
    (g.setPhase i phase).units.map CompileUnit.source = g.units.map CompileUnit.source := by
  refine List.ext_getElem? fun j => ?_
  rw [List.getElem?_map, List.getElem?_map, getElem?_setPhase]
  split
  · rw [Option.map_map]
    rfl
  · rfl

/-- A unit of the group after a step is one from before or the one that took the step. -/
theorem mem_setPhase {phase : UnitPhase} {v : CompileUnit} (hi : g.units[i]? = some u)
    (hv : v ∈ (g.setPhase i phase).units) : v = { u with phase := phase } ∨ v ∈ g.units := by
  obtain ⟨j, hj⟩ := List.mem_iff_getElem?.mp hv
  rw [getElem?_setPhase] at hj
  split at hj
  · rename_i hij
    subst hij
    rw [hi, Option.map_some, Option.some.injEq] at hj
    exact .inl hj.symm
  · exact .inr (List.mem_of_getElem? hj)

/-! ### What every step keeps -/

/-- What the phase of a unit means, in a group that was or was not canceled beforehand and that has
or has not a report. A unit starts only if the group was not canceled beforehand, and it ends without
target text only if there is a report. -/
def Allows (canceled reported : Bool) (source : Bytes) : UnitPhase → Prop
  | .waiting => True
  | .started => canceled = false
  | .compiled result => canceled = false ∧ result = compile source
  | .ended (some target) => canceled = false ∧ compile source = .ok target
  | .ended none => reported = true

/-- The report is due: the group was canceled beforehand and has units, or it was not and the text
with the reported number has the reported fault. -/
def IsDue (canceled : Bool) (sources : List Bytes) : GroupFault → Prop
  | .canceled => canceled = true ∧ sources ≠ []
  | .unit fault => canceled = false ∧
      ∃ s, sources[fault.index]? = some s ∧ compile s = .error fault.fault

/-- The group is one of the sources on its way: its phases mean what they say, it is canceled if it
was so beforehand or has a report, and its report is due. -/
structure Keeps (canceled : Bool) (sources : List Bytes) (g : Group) : Prop where
  texts : g.units.map CompileUnit.source = sources
  phases : ∀ u ∈ g.units, Allows canceled g.report.isSome u.source u.phase
  closed : g.canceled = (canceled || g.report.isSome)
  due : ∀ fault, g.report = some fault → IsDue canceled sources fault

/-- What a phase means stays true when a report comes. -/
theorem Allows.mono {reported reported' : Bool} {source : Bytes} {phase : UnitPhase}
    (h : Allows canceled reported source phase) (hle : reported = true → reported' = true) :
    Allows canceled reported' source phase := by
  rcases phase with _ | _ | result | (_ | target)
  · trivial
  · exact h
  · exact h
  · exact hle h
  · exact h

namespace Keeps

/-- The units have their numbers in the list of texts. -/
private theorem source_of_getElem? (h : Keeps canceled sources g) (hi : g.units[i]? = some u) :
    sources[i]? = some u.source := by
  rw [← h.texts, List.getElem?_map, hi, Option.map_some]

/-- One unit may go on to a phase that means what it says. -/
theorem setPhase (h : Keeps canceled sources g) (hi : g.units[i]? = some u) {phase : UnitPhase}
    (hphase : Allows canceled g.report.isSome u.source phase) :
    Keeps canceled sources (g.setPhase i phase) where
  texts := (sources_setPhase g i phase).trans h.texts
  phases v hv := by
    rcases mem_setPhase hi hv with rfl | hv
    · exact hphase
    · exact h.phases v hv
  closed := h.closed
  due := h.due

/-- A further report changes nothing, and the first one has to be due. -/
theorem fail (h : Keeps canceled sources g) (hi : g.units[i]? = some u) {fault : GroupFault}
    (hfault : g.report = none → IsDue canceled sources fault) :
    Keeps canceled sources (g.fail i fault) where
  texts := (sources_setPhase g i _).trans h.texts
  phases v hv := by
    have hreported : (g.fail i fault).report.isSome = true := by simp [Group.fail]
    rcases mem_setPhase hi hv with rfl | hv
    · exact hreported
    · exact (h.phases v hv).mono fun _ => hreported
  closed := by simp [Group.fail]
  due fault' hfault' := by
    rcases hreport : g.report with _ | first
    · have heq : fault = fault' := by simpa [Group.fail, hreport] using hfault'
      exact heq ▸ hfault hreport
    · have heq : first = fault' := by simpa [Group.fail, hreport] using hfault'
      exact h.due fault' (heq ▸ hreport)

/-- The step lemma. -/
theorem step (h : Keeps canceled sources g) (i : Nat) : Keeps canceled sources (g.step i) := by
  rcases hi : g.units[i]? with _ | u
  · rwa [step_of_none hi]
  have hallowed := h.phases u (List.mem_of_getElem? hi)
  have hmoves := moves_step hi
  generalize g.step i = g' at hmoves ⊢
  cases hmoves with
  | start phase admitted =>
    have hboth : (canceled || g.report.isSome) = false := h.closed.symm.trans admitted
    exact h.setPhase hi (Bool.or_eq_false_iff.mp hboth).1
  | giveUp phase refused =>
    -- without a report the group can only have been canceled beforehand
    refine h.fail hi fun hnone => ?_
    have hboth : (canceled || g.report.isSome) = true := h.closed.symm.trans refused
    have hne : sources ≠ [] := fun hnil => by simpa [hnil] using h.source_of_getElem? hi
    exact ⟨by simpa [hnone] using hboth, hne⟩
  | translate phase =>
    rw [phase] at hallowed
    exact h.setPhase hi ⟨hallowed, rfl⟩
  | deliver phase =>
    rw [phase] at hallowed
    exact h.setPhase hi ⟨hallowed.1, hallowed.2.symm⟩
  | report phase =>
    rw [phase] at hallowed
    exact h.fail hi fun _ => ⟨hallowed.1, u.source, h.source_of_getElem? hi, hallowed.2.symm⟩
  | rest phase => exact h

end Keeps

/-- At the start all units are waiting, which means nothing yet. -/
private theorem keeps_ofSources (canceled : Bool) (sources : List Bytes) :
    Keeps canceled sources (ofSources canceled sources) where
  texts := by simp [ofSources, Function.comp_def]
  phases u hu := by
    obtain ⟨s, -, rfl⟩ := List.mem_map.mp hu
    trivial
  closed := by simp [ofSources]
  due fault hfault := by cases hfault

/-- The run lemma. -/
theorem keeps_run (canceled : Bool) (sources : List Bytes) (schedule : List Nat) :
    Keeps canceled sources ((ofSources canceled sources).run schedule) := by
  suffices h : ∀ g, Keeps canceled sources g → Keeps canceled sources (g.run schedule) from
    h _ (keeps_ofSources canceled sources)
  induction schedule with
  | nil => exact fun g h => h
  | cons i schedule ih => exact fun g h => ih (g.step i) (h.step i)

/-! ### How long a unit can go on -/

/-- How many steps unit number `i` has still to take, at most. -/
def remaining (g : Group) (i : Nat) : Nat :=
  (g.units[i]?.map fun u => u.phase.remaining).getD 0

private theorem remaining_of_getElem? (h : g.units[i]? = some u) :
    g.remaining i = u.phase.remaining := by
  rw [remaining, h, Option.map_some, Option.getD_some]

private theorem remaining_setPhase_self (h : g.units[i]? = some u) (phase : UnitPhase) :
    (g.setPhase i phase).remaining i = phase.remaining := by
  rw [remaining, getElem?_setPhase, if_pos rfl, h]
  rfl

private theorem remaining_setPhase_of_ne (h : i ≠ j) (phase : UnitPhase) :
    (g.setPhase i phase).remaining j = g.remaining j := by
  rw [remaining, getElem?_setPhase, if_neg h, remaining]

/-- A turn of a unit takes one of its steps, if it has any, and none of another unit's. -/
theorem remaining_step_le (g : Group) (i j : Nat) :
    (g.step i).remaining j ≤ g.remaining j - if i = j then 1 else 0 := by
  rcases hi : g.units[i]? with _ | u
  · rw [step_of_none hi]
    split
    · rename_i hij
      simp [remaining, ← hij, hi]
    · exact Nat.le_refl _
  -- the unit moves on by one phase, or ends at once
  have hmoves := moves_step hi
  generalize g.step i = g' at hmoves ⊢
  split
  · rename_i hij
    subst hij
    have hbefore := remaining_of_getElem? hi
    have hafter : ∀ phase, (g.setPhase i phase).remaining i = phase.remaining :=
      remaining_setPhase_self hi
    cases hmoves with
    | start phase | translate phase | deliver phase | rest phase =>
      simp [hafter, hbefore, phase, UnitPhase.remaining]
    | giveUp phase | report phase =>
      have hfail : ∀ fault, (g.fail i fault).remaining i = 0 := fun _ => hafter (.ended none)
      simp [hfail]
  · rename_i hij
    have hother : ∀ phase, (g.setPhase i phase).remaining j = g.remaining j :=
      remaining_setPhase_of_ne hij
    cases hmoves with
    | start | translate | deliver => exact Nat.le_of_eq (hother _)
    | giveUp | report => exact Nat.le_of_eq (hother (.ended none))
    | rest => exact Nat.le_refl _

/-- Every turn takes a unit one phase on, until it has ended. -/
theorem remaining_run_le (g : Group) (schedule : List Nat) (i : Nat) :
    (g.run schedule).remaining i ≤ g.remaining i - schedule.count i := by
  induction schedule generalizing g with
  | nil => exact Nat.le_refl _
  | cons j schedule ih =>
    have hstep := remaining_step_le g j i
    have hrest : (g.run (j :: schedule)).remaining i ≤ (g.step j).remaining i - schedule.count i :=
      ih (g.step j)
    rw [List.count_cons]
    by_cases hji : j = i
    · simp only [hji, if_true, beq_self_eq_true] at hstep hrest ⊢
      omega
    · have hbeq : (j == i) = false := by simpa using hji
      simp only [hji, hbeq, if_false, Bool.false_eq_true] at hstep hrest ⊢
      omega

/-- A group is finished when no unit has a phase left. -/
private theorem finished_of_remaining (h : ∀ i < g.units.length, g.remaining i = 0) :
    g.Finished := by
  intro u hu
  obtain ⟨i, hlt, rfl⟩ := List.mem_iff_getElem.mp hu
  have hzero := h i hlt
  rw [remaining_of_getElem? (List.getElem?_eq_getElem hlt)] at hzero
  rcases hphase : (g.units[i]).phase with _ | _ | result | target
  · simp [hphase, UnitPhase.remaining] at hzero
  · simp [hphase, UnitPhase.remaining] at hzero
  · simp [hphase, UnitPhase.remaining] at hzero
  · exact ⟨target, rfl⟩

/-- Three turns are enough for every unit. -/
theorem finished_run (h : ∀ i < sources.length, 3 ≤ schedule.count i) :
    ((ofSources canceled sources).run schedule).Finished := by
  refine finished_of_remaining fun i hi => ?_
  have hlength : ((ofSources canceled sources).run schedule).units.length = sources.length := by
    have hsources := (keeps_run canceled sources schedule).texts
    rw [← hsources, List.length_map, hsources]
  have hturns := h i (hlength ▸ hi)
  have hbefore : (ofSources canceled sources).remaining i ≤ 3 := by
    rw [remaining, ofSources, List.getElem?_map]
    rcases sources[i]? with _ | s
    · exact Nat.zero_le 3
    · exact Nat.le_refl 3
  have hafter := remaining_run_le (ofSources canceled sources) schedule i
  omega

/-- Where units go one by one, each of them is given three turns. -/
theorem count_oneByOne {n : Nat} (h : i < n) : 3 ≤ (oneByOne n).count i := by
  induction n with
  | zero => exact absurd h (Nat.not_lt_zero i)
  | succ n ih =>
    have hlast : oneByOne (n + 1) = oneByOne n ++ List.replicate 3 n := by
      simp [oneByOne, List.range_succ]
    rw [hlast, List.count_append]
    rcases Nat.lt_succ_iff_lt_or_eq.mp h with hlt | rfl
    · exact Nat.le_add_right_of_le (ih hlt)
    · have hturns : (List.replicate 3 i).count i = 3 := List.count_replicate_self
      omega

/-! ### What the group yields -/

/-- Where all texts compile, each of them does. -/
theorem exists_ok_of_map_eq {targets : List Bytes} {s : Bytes}
    (h : sources.map compile = targets.map .ok) (hs : s ∈ sources) :
    ∃ target, compile s = .ok target := by
  have hmem : compile s ∈ sources.map compile := List.mem_map_of_mem hs
  rw [h] at hmem
  obtain ⟨target, -, htarget⟩ := List.mem_map.mp hmem
  exact ⟨target, htarget.symm⟩

namespace Keeps

/-- Without a report the target texts are those of the sources. -/
theorem map_ok_targets (h : Keeps canceled sources g) (hfinished : g.Finished)
    (hreport : g.report = none) :
    (g.units.filterMap target?).map .ok = sources.map compile := by
  have hended : ∀ u ∈ g.units, ∃ target, target? u = some target ∧ compile u.source = .ok target := by
    intro u hu
    obtain ⟨target, hphase⟩ := hfinished u hu
    have hallowed := h.phases u hu
    rw [hphase, hreport] at hallowed
    rcases target with _ | target
    · cases hallowed
    · exact ⟨target, by rw [target?, hphase], hallowed.2⟩
  rw [← h.texts, List.map_map]
  generalize g.units = units at hended ⊢
  induction units with
  | nil => rfl
  | cons u units ih =>
    obtain ⟨target, htarget, hcompile⟩ := hended u List.mem_cons_self
    have hrest := ih fun v hv => hended v (List.mem_cons_of_mem _ hv)
    rw [List.filterMap_cons_some htarget, List.map_cons, List.map_cons, hrest,
      Function.comp_apply, hcompile]

/-- A fault that the group reports is due. -/
theorem result_eq_error (h : Keeps canceled sources g) {fault : GroupFault}
    (hresult : g.result = .error fault) : IsDue canceled sources fault := by
  rw [result] at hresult
  split at hresult
  · rename_i first hreport
    obtain rfl : first = fault := Except.error.inj hresult
    exact h.due first hreport
  · cases hresult

/-- A group that is not canceled beforehand yields target texts exactly if every text compiles. -/
theorem result_eq_ok_iff (h : Keeps false sources g) (hfinished : g.Finished)
    {targets : List Bytes} : g.result = .ok targets ↔ sources.map compile = targets.map .ok := by
  have hinj : Function.Injective (Except.ok : Bytes → Except Fault Bytes) := fun _ _ => Except.ok.inj
  rcases hreport : g.report with _ | fault
  · have htargets := h.map_ok_targets hfinished hreport
    rw [result, hreport, ← htargets]
    exact ⟨fun heq => by rw [Except.ok.inj heq], fun heq => by rw [hinj.list_map heq]⟩
  · have hdue := h.due fault hreport
    rw [result, hreport]
    refine iff_of_false (fun heq => by cases heq) fun hall => ?_
    rcases fault with _ | fault
    · exact absurd hdue.1 Bool.false_ne_true
    · obtain ⟨-, s, hs, herror⟩ := hdue
      obtain ⟨target, htarget⟩ := exists_ok_of_map_eq hall (List.mem_of_getElem? hs)
      rw [herror] at htarget
      cases htarget

/-- A group that is canceled beforehand yields nothing, unless it is empty. -/
theorem result_of_canceled (h : Keeps true sources g) (hfinished : g.Finished) :
    g.result = if sources = [] then .ok [] else .error .canceled := by
  rcases hreport : g.report with _ | fault
  · -- a unit would have ended with a report
    have hunits : g.units = [] := by
      rcases hunits : g.units with _ | ⟨u, units⟩
      · rfl
      · have hu : u ∈ g.units := by simp [hunits]
        obtain ⟨target, hphase⟩ := hfinished u hu
        have hallowed := h.phases u hu
        rw [hphase, hreport] at hallowed
        rcases target with _ | target
        · cases hallowed
        · cases hallowed.1
    have hsources : sources = [] := by rw [← h.texts, hunits, List.map_nil]
    rw [if_pos hsources, result, hreport, hunits, List.filterMap_nil]
  · have hdue := h.due fault hreport
    rcases fault with _ | fault
    · rw [if_neg hdue.2, result, hreport]
    · cases hdue.1

end Keeps

end Group

/-- **Every schedule agrees with compiling one text at a time.** A schedule that gives each unit
three turns ends them all. After every schedule that ends them all, and if the group is not canceled
beforehand, it yields target texts exactly if every text compiles, namely the target text of each one
in its place; otherwise its report names a text that does not compile and has the fault of this very
text. If it is canceled beforehand, it reports that, unless it has no units. To run one unit after
the other is one of the schedules. -/
theorem schedules_agree_with_compile (sources : List Bytes) :
    (∀ canceled schedule, (∀ i < sources.length, 3 ≤ schedule.count i) →
      ((Group.ofSources canceled sources).run schedule).Finished) ∧
    (∀ schedule, ((Group.ofSources false sources).run schedule).Finished →
      (∀ targets, compileAllUnder schedule false sources = .ok targets ↔
        sources.map compile = targets.map .ok) ∧
      ∀ fault, compileAllUnder schedule false sources = .error fault →
        ∃ i s e, fault = .unit ⟨i, e⟩ ∧ sources[i]? = some s ∧ compile s = .error e) ∧
    (∀ schedule, ((Group.ofSources true sources).run schedule).Finished →
      compileAllUnder schedule true sources = if sources = [] then .ok [] else .error .canceled) ∧
    ∀ canceled, ∃ schedule, ((Group.ofSources canceled sources).run schedule).Finished ∧
      compileAll canceled sources = compileAllUnder schedule canceled sources := by
  refine ⟨fun canceled schedule h => Group.finished_run h, fun schedule hfinished => ?_,
    fun schedule hfinished => ?_, fun canceled => ?_⟩
  · have hkeeps := Group.keeps_run false sources schedule
    refine ⟨fun targets => hkeeps.result_eq_ok_iff hfinished, fun fault hfault => ?_⟩
    have hdue := hkeeps.result_eq_error hfault
    rcases fault with _ | ⟨i, e⟩
    · cases hdue.1
    · obtain ⟨-, s, hs, he⟩ := hdue
      exact ⟨i, s, e, rfl, hs, he⟩
  · exact (Group.keeps_run true sources schedule).result_of_canceled hfinished
  · exact ⟨_, Group.finished_run fun i hi => Group.count_oneByOne hi, rfl⟩

/-- The second of three texts does not compile, and its report comes before the third one starts. -/
theorem schedules_agree_with_compile_given_up :
    ((Group.ofSources false [utf8 "(+ 1 2)", utf8 "(stdout y)", utf8 "(+ 3 4)"]).run
      [1, 0, 1, 1, 2, 0, 0]).Finished ∧
    ∃ i s e, compileAllUnder [1, 0, 1, 1, 2, 0, 0] false
        [utf8 "(+ 1 2)", utf8 "(stdout y)", utf8 "(+ 3 4)"] = .error (.unit ⟨i, e⟩) ∧
      [utf8 "(+ 1 2)", utf8 "(stdout y)", utf8 "(+ 3 4)"][i]? = some s ∧ compile s = .error e := by
  have hfinished : ((Group.ofSources false [utf8 "(+ 1 2)", utf8 "(stdout y)", utf8 "(+ 3 4)"]).run
      [1, 0, 1, 1, 2, 0, 0]).Finished := Group.finished_of_remaining (by decide +kernel)
  have hfails : (compileAllUnder [1, 0, 1, 1, 2, 0, 0] false
      [utf8 "(+ 1 2)", utf8 "(stdout y)", utf8 "(+ 3 4)"]).isOk = false := by decide +kernel
  have hreport := ((schedules_agree_with_compile _).2.1 _ hfinished).2
  refine ⟨hfinished, ?_⟩
  rcases hresult : compileAllUnder [1, 0, 1, 1, 2, 0, 0] false
      [utf8 "(+ 1 2)", utf8 "(stdout y)", utf8 "(+ 3 4)"] with fault | targets
  · obtain ⟨i, s, e, rfl, hs, he⟩ := hreport fault hresult
    exact ⟨i, s, e, rfl, hs, he⟩
  · rw [hresult] at hfails
    cases hfails

end PrefixForth

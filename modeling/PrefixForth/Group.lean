import PrefixForth.Compile

/-!
# Compiling several texts

Independent texts are compiled as a group of *units*, whose steps may interleave in any way. A unit
first checks whether the group has been canceled, then compiles its text, then delivers its target
text or reports its fault. The first report is the one that counts, and it cancels the group, so that
units that have not started yet are given up.

`Group.run` lets the units take their steps in the order of a given schedule, and `compileAllUnder`
gives what the group yields then; `compileAll` runs one unit after the other.
-/

namespace PrefixForth

/-- The fault of one of several texts. -/
structure UnitFault where
  /-- The number of the text, from 0. -/
  index : Nat
  fault : Fault
  deriving DecidableEq, Repr

/-- Why a group yields no target texts. -/
inductive GroupFault where
  | canceled
  | unit (fault : UnitFault)
  deriving DecidableEq, Repr

/-- The message for a group without target texts. -/
def GroupFault.message : GroupFault → Bytes
  | canceled => utf8 "context canceled"
  | unit fault => fault.fault.message

/-- How far a unit has come. -/
inductive UnitPhase where
  | waiting
  | started
  | compiled (result : Except Fault Bytes)
  /-- The unit has ended, with its target text if it has one. -/
  | ended (target : Option Bytes)
  deriving Repr

/-- A source text and how far it has come. -/
structure CompileUnit where
  source : Bytes
  phase : UnitPhase := .waiting
  deriving Repr

/-- Several texts that are being compiled. -/
structure Group where
  units : List CompileUnit
  canceled : Bool
  /-- The first report. -/
  report : Option GroupFault := none
  deriving Repr

namespace Group

/-- The group before its first step. -/
def ofSources (canceled : Bool) (sources : List Bytes) : Group :=
  ⟨sources.map fun s => ⟨s, .waiting⟩, canceled, none⟩

/-- The group with unit number `i` in another phase. -/
def setPhase (g : Group) (i : Nat) (phase : UnitPhase) : Group :=
  { g with units := g.units.modify i fun u => { u with phase := phase } }

/-- Unit number `i` ends with a report. -/
def fail (g : Group) (i : Nat) (fault : GroupFault) : Group :=
  { g.setPhase i (.ended none) with canceled := true, report := g.report.or (some fault) }

/-- Unit number `i` takes its next step, if it has one. -/
def step (g : Group) (i : Nat) : Group :=
  match g.units[i]? with
  | none => g
  | some u =>
    match u.phase with
    | .waiting => if g.canceled then g.fail i .canceled else g.setPhase i .started
    | .started => g.setPhase i (.compiled (compile u.source))
    | .compiled (.ok target) => g.setPhase i (.ended (some target))
    | .compiled (.error fault) => g.fail i (.unit ⟨i, fault⟩)
    | .ended _ => g

/-- The units take steps in the order of the schedule. -/
def run (g : Group) (schedule : List Nat) : Group :=
  schedule.foldl step g

/-- The target text of a unit that has delivered it. -/
def target? (u : CompileUnit) : Option Bytes :=
  match u.phase with
  | .ended target => target
  | _ => none

/-- What the group yields: the first report, or else the target texts in the order of the units. -/
def result (g : Group) : Except GroupFault (List Bytes) :=
  match g.report with
  | some fault => .error fault
  | none => .ok (g.units.filterMap target?)

/-- The schedule in which each of `n` units takes all its steps before the next one starts. -/
def oneByOne (n : Nat) : List Nat :=
  (List.range n).flatMap fun i => List.replicate 3 i

end Group

/-- What a group of source texts yields if its units take their steps in the order of the schedule. -/
def compileAllUnder (schedule : List Nat) (canceled : Bool) (sources : List Bytes) :
    Except GroupFault (List Bytes) :=
  ((Group.ofSources canceled sources).run schedule).result

/-- The target texts of several source texts, or the fault of one of them. A group that is canceled
beforehand yields nothing, unless it is empty. -/
def compileAll (canceled : Bool) (sources : List Bytes) : Except GroupFault (List Bytes) :=
  compileAllUnder (Group.oneByOne sources.length) canceled sources

end PrefixForth

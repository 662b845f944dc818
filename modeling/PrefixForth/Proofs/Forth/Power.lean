import Mathlib.Algebra.Ring.Int.Defs
import PrefixForth.Proofs.Forth.Simulation
import PrefixForth.Proofs.Forth.Target

/-!
# Counted loops, and powers

The machine replaces a counted loop by as many copies of its body as the loop has rounds. Here a loop is
run round by round, as its words say: `u+do` takes a start and a limit off the stack and passes over the
body unless the start is below the limit, both taken without sign; `loop` adds 1 to the index and
goes back to the body while the index is below the limit. The loops around the code that is run are kept
on a stack of their own (`Configuration`), and one step is `advance`.

Both machines do the same: a step of this one is a step of the other or none at all, once every open
loop is replaced by the rounds that it has left (`unrolled_of_advance`, `Passes.runs`).

A loop is dealt with by what its body does in each round (`Passes.count`). In the loop of the preamble
the cell below the top is the base, and after `i` rounds the top is the base to the power of `i`, modulo
the range of a cell (`passes_multiply`). Main statement: `power_is_exponentiation`.
-/

namespace PrefixForth

namespace Forth

variable {w : Nat} {R : Type} {M : Operations w R} {definitions : List Definition}

/-! ### A machine with open loops -/

/-- A counted loop that is being run. -/
structure OpenLoop (w : Nat) where
  index : BitVec w
  limit : BitVec w
  body : Code
  /-- The code behind the loop. -/
  after : Code

/-- The code that is run, the loops around it, the innermost first, and the state. -/
structure Configuration (w : Nat) (R : Type) where
  code : Code
  loops : List (OpenLoop w)
  state : State w R

/-- One step. At the end of its body a loop takes its next round or is left; a counted loop is entered or
passed over; all else is as it is without open loops. -/
def advance (M : Operations w R) (definitions : List Definition) :
    Configuration w R → Option (Configuration w R)
  | ⟨[], [], _⟩ => none
  | ⟨[], l :: loops, st⟩ =>
    if (l.index + 1).ult l.limit then
      some ⟨l.body, { l with index := l.index + 1 } :: loops, st⟩
    else
      some ⟨l.after, loops, st⟩
  | ⟨.count body :: k, loops, st⟩ =>
    match st.data with
    | .number start :: .number limit :: ds =>
      if start.ult limit then
        some ⟨body, ⟨start, limit, body, k⟩ :: loops, { st with data := ds }⟩
      else
        some ⟨k, loops, { st with data := ds }⟩
    | _ => none
  | ⟨i :: k, loops, st⟩ =>
    (step M definitions (i :: k, st)).map fun next => ⟨next.1, loops, next.2⟩

/-- Steps from one configuration to another. -/
def Advances (M : Operations w R) (definitions : List Definition) :
    Configuration w R → Configuration w R → Prop :=
  Relation.ReflTransGen fun c c' => advance M definitions c = some c'

/-- The code leads from one state to another, whatever code comes after it and whatever loops are around
it. -/
def Passes (M : Operations w R) (definitions : List Definition) (c : Code) (st st' : State w R) : Prop :=
  ∀ k loops, Advances M definitions ⟨c ++ k, loops, st⟩ ⟨k, loops, st'⟩

private theorem advance_of_ne_count {i : Instruction} (hi : ∀ body, i ≠ .count body) (k : Code)
    (loops : List (OpenLoop w)) (st : State w R) :
    advance M definitions ⟨i :: k, loops, st⟩ =
      (step M definitions (i :: k, st)).map fun next => ⟨next.1, loops, next.2⟩ := by
  cases i with
  | count body => exact absurd rfl (hi body)
  | _ => rfl

/-! ### Codes one after another -/

namespace Passes

variable {a b c : Code} {i : Instruction} {st st' st'' : State w R}

/-- What two pieces of code lead through, one after the other. -/
theorem append (ha : Passes M definitions a st st') (hb : Passes M definitions b st' st'') :
    Passes M definitions (a ++ b) st st'' := by
  intro k loops
  rw [List.append_assoc]
  exact (ha (b ++ k) loops).trans (hb k loops)

/-- An instruction, other than a counted loop, that is replaced by code. -/
theorem replaced (hi : ∀ body, i ≠ .count body)
    (h : ∀ k, step M definitions (i :: k, st) = some (c ++ k, st'))
    (hc : Passes M definitions c st' st'') : Passes M definitions [i] st st'' := by
  intro k loops
  refine .head ?_ (hc k loops)
  rw [List.singleton_append, advance_of_ne_count hi, h]
  rfl

/-- An instruction that opens no counted loop steps as it does outside of loops. -/
theorem instruction (hi : ∀ body, i ≠ .count body)
    (h : ∀ k, step M definitions (i :: k, st) = some (k, st')) : Passes M definitions [i] st st' :=
  replaced hi (c := []) h fun _ _ => .refl

/-- A word that the machine knows. -/
theorem word {v : Word} (hv : definitions.find? (·.name = v.text) = none)
    (h : perform M st v = some st') : Passes M definitions [.word v] st st' := by
  refine instruction (by simp) fun k => ?_
  rw [step, hv, h]
  rfl

end Passes

/-! ### Rounds -/

section Rounds

variable {S : Nat → State w R} {start index limit : BitVec w} {body after : Code}

private theorem toNat_succ_of_lt (h : index.toNat < limit.toNat) :
    (index + 1).toNat = index.toNat + 1 := by
  have hlimit := limit.isLt
  have hrange : 1 < 2 ^ w := by omega
  have hone : (1 : BitVec w).toNat = 1 := Nat.mod_eq_of_lt hrange
  rw [BitVec.toNat_add, hone, Nat.mod_eq_of_lt (by omega)]

/-- The rounds that are left of a loop, where `S i` is the state with the index at `i`. -/
theorem advances_rounds (hbody : ∀ i < limit.toNat, Passes M definitions body (S i) (S (i + 1)))
    (hindex : index.toNat < limit.toNat) (loops : List (OpenLoop w)) :
    Advances M definitions ⟨body, ⟨index, limit, body, after⟩ :: loops, S index.toNat⟩
      ⟨after, loops, S limit.toNat⟩ := by
  -- by induction on the number of rounds that are left
  induction hleft : limit.toNat - index.toNat generalizing index with
  | zero => omega
  | succ n ih =>
    have hnext := toNat_succ_of_lt hindex
    have hround := hbody index.toNat hindex [] (⟨index, limit, body, after⟩ :: loops)
    rw [List.append_nil, ← hnext] at hround
    by_cases hmore : (index + 1).toNat < limit.toNat
    · have hult : (index + 1).ult limit = true := decide_eq_true hmore
      have hback : advance M definitions
          ⟨[], ⟨index, limit, body, after⟩ :: loops, S (index + 1).toNat⟩ =
            some ⟨body, ⟨index + 1, limit, body, after⟩ :: loops, S (index + 1).toNat⟩ := by
        simp only [advance, hult, if_true]
      exact (hround.tail hback).trans (ih hmore (by omega))
    · have hult : (index + 1).ult limit = false := decide_eq_false hmore
      have hlast : (index + 1).toNat = limit.toNat := by omega
      have hleave : advance M definitions
          ⟨[], ⟨index, limit, body, after⟩ :: loops, S (index + 1).toNat⟩ =
            some ⟨after, loops, S limit.toNat⟩ := by
        simp only [advance, hult, Bool.false_eq_true, if_false, hlast]
      exact hround.tail hleave

/-- A counted loop, where `S i` is the state before the round with index `i`. -/
theorem Passes.count (hle : start.toNat ≤ limit.toNat)
    (hbody : ∀ i < limit.toNat, Passes M definitions body (S i) (S (i + 1))) :
    Passes M definitions [.count body]
      { S start.toNat with data := .number start :: .number limit :: (S start.toNat).data }
      (S limit.toNat) := by
  intro k loops
  by_cases hlt : start.toNat < limit.toNat
  · have hult : start.ult limit = true := decide_eq_true hlt
    refine .head ?_ (advances_rounds hbody hlt loops)
    simp only [List.singleton_append, advance, hult, if_true]
  · have hult : start.ult limit = false := decide_eq_false hlt
    have hsame : start.toNat = limit.toNat := by omega
    refine .single ?_
    simp only [List.singleton_append, advance, hult, Bool.false_eq_true, if_false, hsame]

end Rounds

/-! ### Loops that are unrolled -/

/-- The code that a loop has left behind the round at hand. -/
def OpenLoop.rest (l : OpenLoop w) : Code :=
  (List.replicate (l.limit.toNat - (l.index.toNat + 1)) l.body).flatten ++ l.after

/-- The index of a loop that is being run is below its limit. -/
def OpenLoop.IsRunning (l : OpenLoop w) : Prop :=
  l.index.toNat < l.limit.toNat

/-- The code of a configuration, with the loops replaced by what they have left. -/
def Configuration.unrolled (c : Configuration w R) : Code × State w R :=
  (c.code ++ c.loops.flatMap OpenLoop.rest, c.state)

/-- What comes behind an instruction does not matter to its step. -/
theorem step_append {i : Instruction} {k k' : Code} {st st' : State w R}
    (h : step M definitions (i :: k, st) = some (k', st')) (rest : Code) :
    step M definitions (i :: (k ++ rest), st) = some (k' ++ rest, st') := by
  -- a step puts code, if any, in the place of the first instruction
  cases i with
  | word v =>
    rw [step] at h ⊢
    split at h
    · cases h
      rw [List.append_assoc]
    · obtain ⟨st₁, hst₁, heq⟩ := Option.map_eq_some_iff.mp h
      cases heq
      rw [hst₁]
      rfl
  | choose a =>
    rw [step] at h ⊢
    obtain ⟨⟨b, st₁⟩, htest, heq⟩ := Option.map_eq_some_iff.mp h
    cases heq
    rw [htest]
    cases b <;> simp
  | chooseElse a b =>
    rw [step] at h ⊢
    obtain ⟨⟨c, st₁⟩, htest, heq⟩ := Option.map_eq_some_iff.mp h
    cases heq
    rw [htest]
    simp
  | flag s =>
    rw [step] at h ⊢
    split at h
    · cases h
      rename_i hs
      rw [if_pos hs]
    · cases h
  | count body =>
    rw [step] at h ⊢
    split at h
    · cases h
      simp
    · cases h
  | loop a b =>
    cases h
    simp [step]
  | _ =>
    cases h
    rfl

/-- The step lemma: once loops are unrolled, a step is one of the machine without open loops, or it
changes nothing. -/
theorem unrolled_of_advance {c c' : Configuration w R} (h : advance M definitions c = some c')
    (hc : ∀ l ∈ c.loops, l.IsRunning) :
    (∀ l ∈ c'.loops, l.IsRunning) ∧
      (c'.unrolled = c.unrolled ∨ step M definitions c.unrolled = some c'.unrolled) := by
  obtain ⟨code, loops, st⟩ := c
  cases code with
  | nil =>
    cases loops with
    | nil => cases h
    | cons l loops =>
      obtain ⟨hl, hloops⟩ := List.forall_mem_cons.mp hc
      have hnext := toNat_succ_of_lt hl
      by_cases hult : (l.index + 1).ult l.limit = true
      · have hmore : (l.index + 1).toNat < l.limit.toNat := of_decide_eq_true hult
        rw [advance, if_pos hult] at h
        cases h
        refine ⟨List.forall_mem_cons.mpr ⟨hmore, hloops⟩, .inl ?_⟩
        -- one of the rounds that were left is the one at hand
        have hrounds : l.limit.toNat - (l.index.toNat + 1) =
            l.limit.toNat - (l.index.toNat + 1 + 1) + 1 := by omega
        simp only [Configuration.unrolled, OpenLoop.rest, List.flatMap_cons, hnext, hrounds,
          List.replicate_succ, List.flatten_cons, List.append_assoc, List.nil_append]
      · have hlast : l.limit.toNat - (l.index.toNat + 1) = 0 := by
          have hnot : ¬(l.index + 1).toNat < l.limit.toNat := fun hlt => hult (decide_eq_true hlt)
          omega
        rw [advance, if_neg hult] at h
        cases h
        exact ⟨hloops, .inl (by simp [Configuration.unrolled, OpenLoop.rest, hlast])⟩
  | cons i k =>
    by_cases hi : ∃ body, i = .count body
    · obtain ⟨body, rfl⟩ := hi
      rw [advance] at h
      split at h
      · rename_i start limit ds hdata
        split at h
        · rename_i hult
          cases h
          have hlt : start.toNat < limit.toNat := of_decide_eq_true hult
          refine ⟨List.forall_mem_cons.mpr ⟨hlt, hc⟩, .inr ?_⟩
          have hrounds : limit.toNat - start.toNat = limit.toNat - (start.toNat + 1) + 1 := by omega
          simp [Configuration.unrolled, OpenLoop.rest, step, hdata, hrounds, List.replicate_succ]
        · rename_i hult
          cases h
          have hnone : limit.toNat - start.toNat = 0 := by
            have hnot : ¬start.toNat < limit.toNat := fun hlt => hult (decide_eq_true hlt)
            omega
          exact ⟨hc, .inr (by simp [Configuration.unrolled, step, hdata, hnone])⟩
      · cases h
    · rw [advance_of_ne_count (not_exists.mp hi)] at h
      obtain ⟨⟨k', st'⟩, hstep, rfl⟩ := Option.map_eq_some_iff.mp h
      exact ⟨hc, .inr (step_append hstep _)⟩

/-- The run lemma: what is reached round by round is reached with unrolled loops. -/
theorem Advances.reaches {c c' : Configuration w R} (h : Advances M definitions c c')
    (hc : ∀ l ∈ c.loops, l.IsRunning) :
    (∀ l ∈ c'.loops, l.IsRunning) ∧ Reaches M definitions c.unrolled c'.unrolled := by
  induction h with
  | refl => exact ⟨hc, .refl⟩
  | tail _ hstep ih =>
    obtain ⟨hrunning, hreaches⟩ := ih
    obtain ⟨hrunning', hsame | hnext⟩ := unrolled_of_advance hstep hrunning
    · exact ⟨hrunning', hsame ▸ hreaches⟩
    · exact ⟨hrunning', hreaches.tail hnext⟩

/-- Code does the same with its loops unrolled. -/
theorem Passes.runs {c : Code} {st st' : State w R} (h : Passes M definitions c st st') :
    Runs M definitions c st st' := by
  intro k
  have hreaches := (h k []).reaches (by simp)
  simpa [Configuration.unrolled] using hreaches.2

end Forth

open Forth

variable {w : Nat} {R : Type} {M : Operations w R}

/-! ### The preamble -/

/-- The preamble by itself is read as the definition of powers. -/
theorem read_preamble : Forth.read preamble = some ([powerDefinition], []) := by
  obtain ⟨pieces, hscans, names, hreads, -⟩ := reads_preamble
  have hpieces : scan .between preamble = some pieces := by
    have htext : Scans (preamble ++ []) (pieces ++ []) := hscans [] [] scans_nil
    simpa [scan] using htext [] ends_nil
  rw [Forth.read, hpieces, Option.bind_eq_bind, Option.bind_some, hreads]
  rfl

/-- The stack in the loop, after `i` rounds: a power of the base, and the base below it. -/
def powerState (b : BitVec w) (ds : List (Cell w)) (fs : List R) (m : Memory w R) (i : Nat) :
    State w R :=
  ⟨.number (.ofInt w (b.toInt ^ i)) :: .number b :: ds, fs, m⟩

/-- A round of the loop multiplies by the base. -/
theorem passes_multiply (hmul : ∀ a b, M.int .mul a b = some (a * b)) (b : BitVec w)
    (ds : List (Cell w)) (fs : List R) (m : Memory w R) (i : Nat) :
    Passes M [powerDefinition] [.word .dupSecond, .word (.int .mul)]
      (powerState b ds fs m i) (powerState b ds fs m (i + 1)) := by
  have hproduct : BitVec.ofInt w (b.toInt ^ i) * b = BitVec.ofInt w (b.toInt ^ (i + 1)) := by
    rw [pow_succ, BitVec.ofInt_mul, BitVec.ofInt_toInt]
  have hover : Passes M [powerDefinition] [.word .dupSecond] (powerState b ds fs m i)
      ⟨.number b :: .number (.ofInt w (b.toInt ^ i)) :: .number b :: ds, fs, m⟩ :=
    .word (find?_powerDefinition (by decide)) rfl
  have htimes : Passes M [powerDefinition] [.word (.int .mul)]
      ⟨.number b :: .number (.ofInt w (b.toInt ^ i)) :: .number b :: ds, fs, m⟩
      (powerState b ds fs m (i + 1)) := by
    refine .word (find?_powerDefinition (by decide)) ?_
    simp only [perform, onNumbers, hmul, Option.map_some, hproduct, powerState]
  exact hover.append htimes

/-- The word for powers, on an exponent that is taken without sign. -/
theorem passes_power (hmul : ∀ a b, M.int .mul a b = some (a * b)) (b n : BitVec w)
    (ds : List (Cell w)) (fs : List R) (m : Memory w R) :
    Passes M [powerDefinition] [.word (.int .pow)] ⟨.number n :: .number b :: ds, fs, m⟩
      ⟨.number (.ofInt w (b.toInt ^ n.toNat)) :: ds, fs, m⟩ := by
  refine Passes.replaced (c := powerDefinition.body) (by simp) (fun k => rfl) ?_
  -- the body: one, and as many multiplications by the base as the exponent says
  have hone : Passes M [powerDefinition] [.int (utf8 "1")] ⟨.number n :: .number b :: ds, fs, m⟩
      ⟨.number 1 :: .number n :: .number b :: ds, fs, m⟩ := .instruction (by simp) fun k => rfl
  have hswap : Passes M [powerDefinition] [.word .swap]
      ⟨.number 1 :: .number n :: .number b :: ds, fs, m⟩
      ⟨.number n :: .number 1 :: .number b :: ds, fs, m⟩ :=
    .word (find?_powerDefinition (by decide)) rfl
  have hzero : Passes M [powerDefinition] [.int (utf8 "0")]
      ⟨.number n :: .number 1 :: .number b :: ds, fs, m⟩
      ⟨.number 0 :: .number n :: .number 1 :: .number b :: ds, fs, m⟩ :=
    .instruction (by simp) fun k => rfl
  -- the invariant of the counted loop is the power of the base that is on top
  have hcount : Passes M [powerDefinition] [.count [.word .dupSecond, .word (.int .mul)]]
      ⟨.number 0 :: .number n :: .number 1 :: .number b :: ds, fs, m⟩
      (powerState b ds fs m n.toNat) := by
    have hle : (0 : BitVec w).toNat ≤ n.toNat := by simp
    have hloop := Passes.count (S := powerState b ds fs m) hle
      fun i _ => passes_multiply hmul b ds fs m i
    have hstart : BitVec.ofInt w (b.toInt ^ 0) = 1 := by
      rw [pow_zero, BitVec.ofInt_ofNat]
      rfl
    simpa [powerState, hstart] using hloop
  have hnip : Passes M [powerDefinition] [.word .nip] (powerState b ds fs m n.toNat)
      ⟨.number (.ofInt w (b.toInt ^ n.toNat)) :: ds, fs, m⟩ :=
    .word (find?_powerDefinition (by decide)) rfl
  exact hone.append (hswap.append (hzero.append (hcount.append hnip)))

private theorem toNat_toInt_of_nonneg {n : BitVec w} (h : 0 ≤ n.toInt) :
    n.toInt.toNat = n.toNat := by
  have hrange := n.isLt
  rw [BitVec.toInt_eq_toNat_cond] at h ⊢
  split at h
  · rename_i hsmall
    rw [if_pos hsmall, Int.toNat_natCast]
  · omega

private theorem cast_toNat_ofInt (x : Int) : ((BitVec.ofInt w x).toNat : Int) = x % 2 ^ w := by
  have hpos : (0 : Int) < 2 ^ w := Int.pow_pos (by decide)
  have hnonneg : 0 ≤ x % 2 ^ w := Int.emod_nonneg x (Int.ne_of_gt hpos)
  rw [BitVec.toNat_ofInt, Int.natCast_pow]
  exact Int.toNat_of_nonneg hnonneg

/-- **The word that the preamble defines is exponentiation.** The preamble is read as definitions alone,
and with them the word `^` takes an exponent that is not negative and a base below it off the stack and
leaves their power modulo the range of a cell. Whatever else is on the stacks, in the variables, in the
code and in open loops stays as it is. This holds with loops run round by round, and with loops
unrolled. -/
theorem power_is_exponentiation (M : Operations w R)
    (hmul : ∀ a b, M.int .mul a b = some (a * b)) :
    ∃ definitions, Forth.read preamble = some (definitions, []) ∧
      ∀ b n : BitVec w, 0 ≤ n.toInt →
        ∃ r : BitVec w, (r.toNat : Int) = b.toInt ^ n.toInt.toNat % 2 ^ w ∧
          ∀ (ds : List (Cell w)) (fs : List R) (m : Memory w R),
            Passes M definitions [.word (.int .pow)] ⟨.number n :: .number b :: ds, fs, m⟩
              ⟨.number r :: ds, fs, m⟩ ∧
            Runs M definitions [.word (.int .pow)] ⟨.number n :: .number b :: ds, fs, m⟩
              ⟨.number r :: ds, fs, m⟩ := by
  refine ⟨[powerDefinition], read_preamble, fun b n hn => ?_⟩
  refine ⟨.ofInt w (b.toInt ^ n.toInt.toNat), cast_toNat_ofInt _, fun ds fs m => ?_⟩
  rw [toNat_toInt_of_nonneg hn]
  exact ⟨passes_power hmul b n ds fs m, (passes_power hmul b n ds fs m).runs⟩

/-- A negative base, and a power that a cell of 64 bits does not hold. -/
theorem power_is_exponentiation_wraps :
    ∃ definitions, Forth.read preamble = some (definitions, []) ∧
      ∀ (fs : List Rat) (m : Memory 64 Rat), Advances exactOperations definitions
        ⟨[.word (.int .pow)], [], ⟨[.number 41, .number (-3), .number 7], fs, m⟩⟩
        ⟨[], [], ⟨[.number 420491770248316829, .number 7], fs, m⟩⟩ := by
  obtain ⟨definitions, hread, hpower⟩ := power_is_exponentiation exactOperations fun _ _ => rfl
  obtain ⟨r, hr, hpasses⟩ := hpower (-3) 41 (by decide)
  have hvalue : r = 420491770248316829 := by
    have hpow : (-3 : BitVec 64).toInt ^ (41 : BitVec 64).toInt.toNat % 2 ^ 64 = 420491770248316829 := by
      decide +kernel
    refine BitVec.eq_of_toNat_eq ?_
    rw [hpow] at hr
    exact Int.ofNat.inj hr
  subst hvalue
  exact ⟨definitions, hread, fun fs m => (hpasses [.number 7] fs m).1 [] []⟩

end PrefixForth

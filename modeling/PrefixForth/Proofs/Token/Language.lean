import PrefixForth.Token.Rule

/-!
# The language of a pattern

`Pattern.Matches p s` says that the text `s` belongs to the regular language that `p` denotes, rule
by rule of the definition of patterns. The matcher never looks at it: it goes by derivatives. The two
agree:

* a derivative denotes the texts that complete its byte (`matches_derivative_iff`);
* `Pattern.longest` gives the longest prefix in the language, and nothing only if no prefix is in it
  (`longest_eq_some_iff`, `longest_eq_none_iff`).

So the rule that counts for the start of a text matches the lexeme that it cuts off
(`matches_of_bestMatch`).
-/

namespace PrefixForth

namespace Pattern

/-- The text belongs to the language of the pattern. -/
inductive Matches : Pattern → Bytes → Prop where
  | empty : Matches empty []
  | oneOf {cls : UInt8 → Bool} {b : UInt8} (h : cls b = true) : Matches (oneOf cls) [b]
  | seq {p q : Pattern} {s t : Bytes} (hp : Matches p s) (hq : Matches q t) :
      Matches (seq p q) (s ++ t)
  | left {p q : Pattern} {s : Bytes} (h : Matches p s) : Matches (alt p q) s
  | right {p q : Pattern} {s : Bytes} (h : Matches q s) : Matches (alt p q) s
  | done {p : Pattern} : Matches (many p) []
  | more {p : Pattern} {s t : Bytes} (hp : Matches p s) (ht : Matches (many p) t) :
      Matches (many p) (s ++ t)

/-! ### Texts of each constructor -/

variable {p q : Pattern} {s : Bytes} {b : UInt8} {n : Nat}

@[simp]
theorem not_matches_never : ¬Matches never s := fun h => by cases h

@[simp]
theorem matches_empty_iff : Matches empty s ↔ s = [] :=
  ⟨fun h => by cases h; rfl, fun h => h ▸ .empty⟩

/-- A class of bytes matches one byte of it. -/
theorem matches_oneOf_iff {cls : UInt8 → Bool} :
    Matches (oneOf cls) s ↔ ∃ b, cls b = true ∧ s = [b] := by
  refine ⟨fun h => ?_, ?_⟩
  · cases h with
    | oneOf hb => exact ⟨_, hb, rfl⟩
  · rintro ⟨b, hb, rfl⟩
    exact .oneOf hb

/-- A sequence matches what can be cut into matches of its two parts. -/
theorem matches_seq_iff : Matches (seq p q) s ↔ ∃ u v, s = u ++ v ∧ Matches p u ∧ Matches q v := by
  refine ⟨fun h => ?_, ?_⟩
  · cases h with
    | seq hp hq => exact ⟨_, _, rfl, hp, hq⟩
  · rintro ⟨u, v, rfl, hp, hq⟩
    exact .seq hp hq

/-- An alternative matches what one of its sides matches. -/
@[simp]
theorem matches_alt_iff : Matches (alt p q) s ↔ Matches p s ∨ Matches q s := by
  refine ⟨fun h => ?_, ?_⟩
  · cases h with
    | left h => exact .inl h
    | right h => exact .inr h
  · rintro (h | h)
    · exact .left h
    · exact .right h

/-- A non-empty text of a repetition starts with a non-empty text of what is repeated. -/
theorem matches_many_cons_iff :
    Matches (many p) (b :: s) ↔ ∃ u v, s = u ++ v ∧ Matches p (b :: u) ∧ Matches (many p) v := by
  refine ⟨fun h => ?_, ?_⟩
  · generalize hr : many p = r at h
    generalize hw : b :: s = w at h
    induction h with
    | empty | oneOf _ | seq _ _ | left _ | right _ => cases hr
    | done => cases hw
    | @more r u v hp ht _ ih =>
      cases hr
      -- an empty first part is passed over
      cases u with
      | nil => exact ih rfl hw
      | cons c u =>
        cases hw
        exact ⟨u, v, rfl, hp, ht⟩
  · rintro ⟨u, v, rfl, hp, ht⟩
    exact .more hp ht

/-! ### Derivatives -/

/-- A pattern is nullable if it matches the empty text. -/
private theorem nullable_iff : p.nullable = true ↔ Matches p [] := by
  induction p with
  | never => simp [nullable]
  | empty => simp [nullable]
  | oneOf cls => simp [nullable, matches_oneOf_iff]
  | seq p q ihp ihq =>
    rw [nullable, Bool.and_eq_true, ihp, ihq, matches_seq_iff]
    refine ⟨fun ⟨hp, hq⟩ => ⟨[], [], rfl, hp, hq⟩, ?_⟩
    rintro ⟨u, v, huv, hp, hq⟩
    obtain ⟨rfl, rfl⟩ := List.append_eq_nil_iff.mp huv.symm
    exact ⟨hp, hq⟩
  | alt p q ihp ihq => rw [nullable, Bool.or_eq_true, ihp, ihq, matches_alt_iff]
  | many p _ => exact ⟨fun _ => .done, fun _ => rfl⟩

/-- The alternative that leaves out a side without matches has the same matches. -/
@[simp]
theorem matches_either_iff : Matches (either p q) s ↔ Matches p s ∨ Matches q s := by
  unfold either
  split <;> simp

/-- The sequence that is simplified has the same matches. -/
@[simp]
theorem matches_followedBy_iff : Matches (followedBy p q) s ↔ Matches (seq p q) s := by
  unfold followedBy
  split
  · simp [matches_seq_iff]
  · rw [matches_seq_iff]
    refine ⟨fun h => ⟨[], s, rfl, .empty, h⟩, ?_⟩
    rintro ⟨u, v, rfl, hu, hv⟩
    obtain rfl := matches_empty_iff.mp hu
    exact hv
  · rfl

/-- The derivative by a byte denotes the texts that complete the byte to a text of the pattern. -/
theorem matches_derivative_iff : Matches (p.derivative b) s ↔ Matches p (b :: s) := by
  induction p generalizing s with
  | never => simp [derivative]
  | empty => simp [derivative]
  | oneOf cls =>
    rw [derivative, matches_oneOf_iff]
    split
    · rename_i hb
      rw [matches_empty_iff]
      refine ⟨fun h => ⟨b, hb, by rw [h]⟩, ?_⟩
      rintro ⟨c, -, h⟩
      exact (List.cons.inj h).2
    · rename_i hb
      refine ⟨fun h => absurd h not_matches_never, ?_⟩
      rintro ⟨c, hc, h⟩
      exact absurd ((List.cons.inj h).1 ▸ hc) hb
  | seq p q ihp ihq =>
    -- either `p` takes the byte, or it matches nothing and `q` does
    have hfirst : Matches (followedBy (p.derivative b) q) s ↔
        ∃ u v, s = u ++ v ∧ Matches p (b :: u) ∧ Matches q v := by
      rw [matches_followedBy_iff, matches_seq_iff]
      simp only [ihp]
    have hsplit : Matches (seq p q) (b :: s) ↔
        (∃ u v, s = u ++ v ∧ Matches p (b :: u) ∧ Matches q v) ∨
          (Matches p [] ∧ Matches q (b :: s)) := by
      rw [matches_seq_iff]
      constructor
      · rintro ⟨u, v, huv, hp, hq⟩
        cases u with
        | nil => exact .inr ⟨hp, by rw [huv]; exact hq⟩
        | cons c u =>
          obtain ⟨rfl, rfl⟩ := List.cons.inj huv
          exact .inl ⟨u, v, rfl, hp, hq⟩
      · rintro (⟨u, v, rfl, hp, hq⟩ | ⟨hp, hq⟩)
        · exact ⟨b :: u, v, rfl, hp, hq⟩
        · exact ⟨[], b :: s, rfl, hp, hq⟩
    rw [derivative, hsplit, ← nullable_iff]
    split
    · rename_i hnull
      rw [matches_either_iff, hfirst, ihq]
      simp [hnull]
    · rename_i hnull
      rw [hfirst]
      simp [hnull]
  | alt p q ihp ihq => rw [derivative, matches_either_iff, ihp, ihq, matches_alt_iff]
  | many p ih =>
    rw [derivative, matches_followedBy_iff, matches_seq_iff, matches_many_cons_iff]
    simp only [ih]

/-! ### The longest match -/

/-- A visibly empty pattern matches no text. -/
theorem not_matches_of_isNever (h : p.isNever = true) : ¬Matches p s := by
  cases p with
  | never => exact not_matches_never
  | _ => cases h

/-- No prefix belongs to the language if the matcher finds none. -/
theorem longest_eq_none_iff :
    p.longest s = none ↔ ∀ n ≤ s.length, ¬Matches p (s.take n) := by
  induction s generalizing p with
  | nil =>
    rw [longest]
    constructor
    · intro h n _
      rw [List.take_nil, ← nullable_iff]
      intro hnull
      rw [if_pos hnull] at h
      cases h
    · intro h
      rw [if_neg fun hnull => h 0 (Nat.le_refl 0) (nullable_iff.mp hnull)]
  | cons b s ih =>
    rw [longest]
    split
    · rename_i hnever
      exact iff_of_true rfl fun _ _ => not_matches_of_isNever hnever
    · split
      · rename_i n hn
        refine ⟨fun h => (by cases h), fun h => ?_⟩
        -- a match of the derivative is a match with the byte in front
        have hsome : ¬∀ n ≤ s.length, ¬Matches (p.derivative b) (s.take n) := by
          rw [← ih, hn]
          simp
        refine absurd (fun n hle hm => h (n + 1) (by simpa using hle) ?_) hsome
        rw [List.take_succ_cons]
        exact matches_derivative_iff.mp hm
      · rename_i hnone
        rw [ih] at hnone
        constructor
        · intro h n hle hm
          cases n with
          | zero =>
            rw [if_pos (nullable_iff.mpr hm)] at h
            cases h
          | succ n =>
            rw [List.take_succ_cons] at hm
            exact hnone n (by simpa using hle) (matches_derivative_iff.mpr hm)
        · intro h
          rw [if_neg fun hnull => h 0 (Nat.zero_le _) (nullable_iff.mp hnull)]

/-- The matcher finds the longest prefix of the language. -/
theorem longest_eq_some_iff :
    p.longest s = Option.some n ↔
      n ≤ s.length ∧ Matches p (s.take n) ∧ ∀ m ≤ s.length, Matches p (s.take m) → m ≤ n := by
  induction s generalizing p n with
  | nil =>
    rw [longest]
    constructor
    · intro h
      split at h
      · rename_i hnull
        cases h
        exact ⟨Nat.le_refl _, nullable_iff.mp hnull, fun m hm _ => hm⟩
      · cases h
    · rintro ⟨hle, hm, -⟩
      rw [List.take_nil, ← nullable_iff] at hm
      rw [if_pos hm, Nat.le_zero.mp hle]
  | cons b s ih =>
    rw [longest]
    split
    · rename_i hnever
      exact iff_of_false (fun h => by cases h) fun h => not_matches_of_isNever hnever h.2.1
    · split
      · rename_i k hk
        obtain ⟨hkle, hkm, hkmax⟩ := ih.mp hk
        have hmatch : Matches p ((b :: s).take (k + 1)) := by
          rw [List.take_succ_cons]
          exact matches_derivative_iff.mp hkm
        have hmax : ∀ m ≤ (b :: s).length, Matches p ((b :: s).take m) → m ≤ k + 1 := by
          intro m hle hm
          cases m with
          | zero => exact Nat.zero_le _
          | succ m =>
            rw [List.take_succ_cons] at hm
            exact Nat.succ_le_succ (hkmax m (by simpa using hle) (matches_derivative_iff.mpr hm))
        constructor
        · intro h
          cases h
          exact ⟨by simpa using hkle, hmatch, hmax⟩
        · rintro ⟨hle, hm, hlast⟩
          have h₁ := hmax n hle hm
          have h₂ := hlast (k + 1) (by simpa using hkle) hmatch
          rw [Nat.le_antisymm h₁ h₂]
      · rename_i hnone
        rw [longest_eq_none_iff] at hnone
        -- nothing that takes the byte is left, so only the empty prefix may match
        have hzero : ∀ m ≤ (b :: s).length, Matches p ((b :: s).take m) → m = 0 := by
          intro m hle hm
          cases m with
          | zero => rfl
          | succ m =>
            rw [List.take_succ_cons] at hm
            exact absurd (matches_derivative_iff.mpr hm) (hnone m (by simpa using hle))
        constructor
        · intro h
          split at h
          · rename_i hnull
            cases h
            exact ⟨Nat.zero_le _, nullable_iff.mp hnull, fun m hle hm => Nat.le_of_eq (hzero m hle hm)⟩
          · cases h
        · rintro ⟨hle, hm, -⟩
          obtain rfl := hzero n hle hm
          rw [if_pos (nullable_iff.mpr hm)]

end Pattern

/-! ### The rule that counts -/

variable {rs : List LexicalRule} {r : LexicalRule} {s : Bytes} {n : Nat}

/-- The rule of the best match is one of the rules. -/
theorem mem_of_bestMatch (h : bestMatch rs s = some (r, n)) : r ∈ rs := by
  induction rs generalizing r n with
  | nil => cases h
  | cons r' rs ih =>
    rw [bestMatch] at h
    split at h
    · rename_i hbest
      split at h
      · cases h
        exact List.mem_cons_self
      · cases h
        exact List.mem_cons_of_mem _ (ih hbest)
    · cases h
      exact List.mem_cons_self
    · exact List.mem_cons_of_mem _ (ih h)

private theorem longest_of_bestMatch (h : bestMatch rs s = some (r, n)) :
    r.pattern.longest s = some n := by
  induction rs generalizing r n with
  | nil => cases h
  | cons r' rs ih =>
    rw [bestMatch] at h
    split at h
    · rename_i hlong hbest
      split at h
      · cases h
        exact hlong
      · cases h
        exact ih hbest
    · rename_i hlong _
      cases h
      exact hlong
    · exact ih h

/-- The rule that counts matches the lexeme that it cuts off. -/
theorem matches_of_bestMatch (h : bestMatch rs s = some (r, n)) :
    r.pattern.Matches (s.take n) :=
  (Pattern.longest_eq_some_iff.mp (longest_of_bestMatch h)).2.1

end PrefixForth

import Mathlib.Data.List.Basic
import PrefixForth.Proofs.Token.Juxtaposition

/-!
# Where tokens stand

The scanner loses no byte. A text is cut into gaps of blanks and the texts of its tokens, each gap
before its token, then a last gap and a rest, which is empty unless an error ends the tokens; the error
is located at the first byte of the rest. Positions are those of a reader who counts: lines by the line
feeds before a byte, columns by the bytes since the last of them (`Position.behind`).

`Covers` says how a text is cut from a place on. Every step of the scanner adds to the front of the cut
(`Covers.blanks`, `Covers.token`), so each run of the scanner gives one (`Lexes.exists_covers`). That
positions increase is seen along the run itself (`Lexes.places_ordered`).
-/

namespace PrefixForth

/-! ### Counting lines and columns -/

namespace Position

/-- The position behind a text, counted from its start: one more than the line feeds in it, and one
more than the bytes after the last of them. -/
def behind (s : Bytes) : Position :=
  ⟨1 + s.count lineFeed, 1 + (s.reverse.takeWhile (· ≠ lineFeed)).length⟩

/-- The first position comes before the second one in a text. -/
def Before (p q : Position) : Prop :=
  p.line < q.line ∨ p.line = q.line ∧ p.column < q.column

variable {p q r : Position}

/-- The position behind one more byte. -/
theorem behind_concat (s : Bytes) (b : UInt8) : behind (s ++ [b]) = (behind s).after b := by
  by_cases hb : b = lineFeed
  · simp only [behind, after, hb, if_pos, List.count_append, List.count_singleton_self,
      List.reverse_append, List.reverse_singleton, List.singleton_append, mk.injEq]
    constructor
    · push_cast
      omega
    · simp
  · have hcount : [b].count lineFeed = 0 := List.count_eq_zero.mpr (by simpa using Ne.symm hb)
    simp only [behind, after, if_neg hb, List.count_append, hcount, List.reverse_append,
      List.reverse_singleton, List.singleton_append, mk.injEq]
    constructor
    · simp
    · simp [hb]
      omega

/-- The position that is kept up byte by byte is the one that is counted. -/
theorem afterAll_start (s : Bytes) : start.afterAll s = behind s := by
  induction s using List.reverseRecOn with
  | nil => rfl
  | append_singleton s b ih => rw [afterAll_append, ih, behind_concat, afterAll_cons, afterAll_nil]

theorem Before.trans (hpq : p.Before q) (hqr : q.Before r) : p.Before r := by
  rw [Before] at *
  omega

private theorem before_after (p : Position) (b : UInt8) : p.Before (p.after b) := by
  rw [Before, after]
  split
  · exact .inl (Int.lt_succ p.line)
  · exact .inr ⟨rfl, Int.lt_succ p.column⟩

private theorem before_afterAll (p : Position) {s : Bytes} (h : s ≠ []) :
    p.Before (p.afterAll s) := by
  induction s generalizing p with
  | nil => exact absurd rfl h
  | cons b s ih =>
    rw [afterAll_cons]
    by_cases hs : s = []
    · rw [hs]
      exact before_after p b
    · exact (before_after p b).trans (ih (p.after b) hs)

/-- The start and all behind it are known positions. -/
theorem isKnown_of_start (h : p = start ∨ start.Before p) : p.isKnown = true := by
  rw [isKnown, decide_eq_true_eq]
  rcases h with rfl | h | ⟨h, -⟩
  · exact Int.one_pos
  · exact Int.lt_trans Int.one_pos h
  · exact h ▸ Int.one_pos

end Position

/-- The positions of tokens and of an error after them. -/
def places (ts : List Token) (error : Option LexicalError) : List Position :=
  ts.map Token.position ++ (error.map LexicalError.position).toList

/-- Spaces, tabs, line feeds and carriage returns only. -/
def IsGap (w : Bytes) : Prop :=
  ∀ b ∈ w, b = 32 ∨ b = 9 ∨ b = 10 ∨ b = 13

/-- The text of tokens with a gap before each. -/
def pieceText (pieces : List (Bytes × Token)) : Bytes :=
  pieces.flatMap fun piece => piece.1 ++ piece.2.text

@[simp]
theorem pieceText_nil : pieceText [] = [] := rfl

@[simp]
theorem pieceText_cons (piece : Bytes × Token) (pieces : List (Bytes × Token)) :
    pieceText (piece :: pieces) = piece.1 ++ piece.2.text ++ pieceText pieces := rfl

theorem IsGap.append {w w' : Bytes} (h : IsGap w) (h' : IsGap w') : IsGap (w ++ w') :=
  fun b hb => (List.mem_append.mp hb).elim (h b) (h' b)

/-! ### Cutting a text -/

/-- From a place on, the text is made of the pieces, a last gap and a rest; the tokens are those of
the pieces and stand where they are said to, and so does the error. -/
structure Covers (c : Cursor) (ts : List Token) (error : Option LexicalError)
    (pieces : List (Bytes × Token)) (gap rest : Bytes) : Prop where
  tokens : pieces.map Prod.snd = ts
  text : c.rest = pieceText pieces ++ gap ++ rest
  gaps : ∀ piece ∈ pieces, IsGap piece.1
  last : IsGap gap
  placed : ∀ front piece back, pieces = front ++ piece :: back →
    piece.2.position = c.position.afterAll (pieceText front ++ piece.1)
  ended : error = none → rest = []
  stopped : ∀ e, error = some e →
    rest ≠ [] ∧ e.position = c.position.afterAll (pieceText pieces ++ gap)

section Cover

variable {c : Cursor} {r : LexicalRule} {w : Bytes} {ts : List Token} {error : Option LexicalError}

private theorem isGap_of_skip (hwins : Wins lexicalRules c.rest r w) (haction : r.action = .skip) :
    IsGap w := by
  have hmatched := Pattern.mem_language_iff.mp hwins.matched
  rw [pattern_of_skip r hwins.mem haction, Pattern.matches_some_oneOf_iff] at hmatched
  intro b hb
  simpa [isBlankByte, or_assoc] using hmatched.2 b hb

/-- A cursor gets stuck before the end of the text, and the error is located there. -/
theorem Cursor.Stuck.more {e : LexicalError} (h : c.Stuck e) :
    c.rest ≠ [] ∧ e.position = c.position := by
  have hmore : ∀ {r w}, Wins lexicalRules c.rest r w → c.rest ≠ [] := fun hwins hnil =>
    hwins.nonempty (List.prefix_nil.mp (hnil ▸ hwins.starts))
  cases h with
  | unrecognized more unmatched => exact ⟨more, rfl⟩
  | malformed wins action => exact ⟨hmore wins, rfl⟩
  | unterminated wins action => exact ⟨hmore wins, rfl⟩

variable {pieces : List (Bytes × Token)} {gap rest s : Bytes} {p : Position}

/-- Where a token of a text stands, counted from before the bytes `w` in front of the text. -/
theorem Covers.placed_past (h : Covers ⟨s, p.afterAll w⟩ ts error pieces gap rest)
    {front back : List (Bytes × Token)} {piece : Bytes × Token} {u : Bytes}
    (hcut : pieces = front ++ piece :: back) (hu : u = w ++ (pieceText front ++ piece.1)) :
    piece.2.position = p.afterAll u := by
  rw [hu, Position.afterAll_append p w]
  exact h.placed front piece back hcut

/-- Where the error of a text stands, counted in the same way. -/
theorem Covers.stopped_past (h : Covers ⟨s, p.afterAll w⟩ ts error pieces gap rest) {u : Bytes}
    (hu : u = w ++ (pieceText pieces ++ gap)) (e : LexicalError) (he : error = some e) :
    rest ≠ [] ∧ e.position = p.afterAll u := by
  rw [hu, Position.afterAll_append p w]
  exact h.stopped e he

/-- Blanks before a text go into the gap before its first token, or into the last gap. -/
theorem Covers.blanks (h : Covers ⟨s, p.afterAll w⟩ ts error pieces gap rest) (hw : IsGap w) :
    ∃ pieces' gap', Covers ⟨w ++ s, p⟩ ts error pieces' gap' rest := by
  have htext : s = pieceText pieces ++ gap ++ rest := h.text
  rcases pieces with _ | ⟨⟨g, t⟩, pieces⟩
  · -- without a token all blanks are in the last gap
    refine ⟨[], w ++ gap, h.tokens, ?_, nofun, hw.append h.last, ?_, h.ended,
      h.stopped_past (by simp)⟩
    · simp [htext]
    · intro front piece back hcut
      simp at hcut
  · refine ⟨(w ++ g, t) :: pieces, gap, h.tokens, ?_, ?_, h.last, ?_, h.ended,
      h.stopped_past (by simp)⟩
    · simp [htext]
    · intro piece hpiece
      rcases List.mem_cons.mp hpiece with rfl | hpiece
      · exact hw.append (h.gaps (g, t) List.mem_cons_self)
      · exact h.gaps piece (List.mem_cons_of_mem _ hpiece)
    · intro front piece back hcut
      rcases front with _ | ⟨first, front⟩
      · obtain ⟨rfl, -⟩ := List.cons.inj hcut
        have hfirst : (g, t) :: pieces = [] ++ (g, t) :: pieces := rfl
        exact (h.placed_past hfirst rfl :)
      · -- what stands before a later token has only grown by the blanks
        obtain ⟨rfl, rfl⟩ := List.cons.inj hcut
        have hlater : (g, t) :: (front ++ piece :: back) = ((g, t) :: front) ++ piece :: back := rfl
        exact h.placed_past hlater (by simp)

/-- A token before a text is a piece without a gap. -/
theorem Covers.token (h : Covers ⟨s, p.afterAll w⟩ ts error pieces gap rest) (kind : TokenKind) :
    Covers ⟨w ++ s, p⟩ (⟨kind, w, p⟩ :: ts) error (([], ⟨kind, w, p⟩) :: pieces) gap rest where
  tokens := by rw [List.map_cons, h.tokens]
  text := by
    have htext : s = pieceText pieces ++ gap ++ rest := h.text
    simp [htext]
  gaps := by
    intro piece hpiece
    rcases List.mem_cons.mp hpiece with rfl | hpiece
    · exact nofun
    · exact h.gaps piece hpiece
  last := h.last
  placed := by
    intro front piece back hcut
    rcases front with _ | ⟨first, front⟩
    · obtain ⟨rfl, -⟩ := List.cons.inj hcut
      rfl
    · obtain ⟨rfl, rfl⟩ := List.cons.inj hcut
      exact h.placed_past rfl (by simp)
  ended := h.ended
  stopped := h.stopped_past (by simp)

/-- Every run of the scanner cuts its text. -/
theorem Lexes.exists_covers (h : Lexes c ts error) :
    ∃ pieces gap rest, Covers c ts error pieces gap rest := by
  induction h with
  | ended p =>
    exact ⟨[], [], [], rfl, rfl, nofun, nofun, by simp, fun _ => rfl, nofun⟩
  | @stuck c e here =>
    obtain ⟨hmore, hposition⟩ := here.more
    refine ⟨[], [], c.rest, rfl, rfl, nofun, nofun, by simp, nofun, fun e' he' => ?_⟩
    obtain rfl : e = e' := Option.some.inj he'
    exact ⟨hmore, hposition⟩
  | @skip c r w ts error wins action _ ih =>
    obtain ⟨pieces, gap, rest, hcovers⟩ := ih
    have hgap := isGap_of_skip wins action
    obtain ⟨s, p⟩ := c
    obtain ⟨s, rfl⟩ := wins.starts
    rw [Cursor.past_append] at hcovers
    obtain ⟨pieces', gap', hcovers'⟩ := hcovers.blanks hgap
    exact ⟨pieces', gap', rest, hcovers'⟩
  | @token c r w kind ts error wins action _ ih =>
    obtain ⟨pieces, gap, rest, hcovers⟩ := ih
    obtain ⟨s, p⟩ := c
    obtain ⟨s, rfl⟩ := wins.starts
    rw [Cursor.past_append] at hcovers
    exact ⟨_, gap, rest, hcovers.token kind⟩

/-- In a whole text, a token has the position that is counted from the start. -/
theorem Covers.placed_behind (h : Covers (.ofText s) ts error pieces gap rest)
    {front back : List (Bytes × Token)} {piece : Bytes × Token}
    (hcut : pieces = front ++ piece :: back) :
    piece.2.position = .behind (pieceText front ++ piece.1) := by
  rw [h.placed front piece back hcut, ← Position.afterAll_start]
  rfl

/-- In a whole text, so does the error. -/
theorem Covers.stopped_behind (h : Covers (.ofText s) ts error pieces gap rest) {e : LexicalError}
    (he : error = some e) : e.position = .behind (pieceText pieces ++ gap) := by
  rw [(h.stopped e he).2, ← Position.afterAll_start]
  rfl

/-! ### The order of positions -/

/-- What stands behind a lexeme stands behind its first byte. -/
theorem Wins.before_of_past (h : Wins lexicalRules c.rest r w) {q : Position}
    (hq : q = (c.past w).position ∨ (c.past w).position.Before q) : c.position.Before q := by
  obtain ⟨s, p⟩ := c
  obtain ⟨s, rfl⟩ := h.starts
  rw [Cursor.past_append] at hq
  have hpast : p.Before (p.afterAll w) := p.before_afterAll h.nonempty
  rcases hq with rfl | hq
  · exact hpast
  · exact hpast.trans hq

/-- What a run meets stands where the run starts or behind it, one after the other. -/
theorem Lexes.places_ordered (h : Lexes c ts error) :
    (∀ q ∈ places ts error, q = c.position ∨ c.position.Before q) ∧
      (places ts error).Pairwise Position.Before := by
  induction h with
  | ended p => simp [places]
  | stuck here => simp [places, here.more.2]
  | skip wins action _ ih => exact ⟨fun q hq => .inr (wins.before_of_past (ih.1 q hq)), ih.2⟩
  | @token c r w kind ts error wins action _ ih =>
    have hplaces : places (⟨kind, w, c.position⟩ :: ts) error = c.position :: places ts error := rfl
    have hbefore : ∀ q ∈ places ts error, c.position.Before q := fun q hq =>
      wins.before_of_past (ih.1 q hq)
    rw [hplaces]
    exact ⟨fun q hq => (List.mem_cons.mp hq).imp_right (hbefore q),
      List.pairwise_cons.mpr ⟨hbefore, ih.2⟩⟩

end Cover

end PrefixForth

import Mathlib.Algebra.Ring.Nat
import PrefixForth.Proofs.Concatenation
import PrefixForth.Proofs.Forth.Target

/-!
# Lines of target texts

The generator writes one line for each form: its code, the word `CR` and, between the forms, a line
feed. But what stands between the quotes of a string literal is written as it is, and it may hold line
feeds. Nothing else in the code of a form does: the code has as many line feeds as the string literals
of the form (`Node.WellFormed.breaks_code`). So a target text has one line for each form and one more
for each line feed in a string literal.

Main statement: `one_line_per_form_iff`.
-/

namespace PrefixForth

open Forth Grammar

/-! ### Line feeds in texts put together -/

/-- The separator is counted once between any two texts. -/
theorem count_intercalate (a b : UInt8) (ls : List Bytes) :
    ([b].intercalate ls).count a =
      (ls.map (List.count a)).sum + if a = b then ls.length - 1 else 0 := by
  induction ls with
  | nil => simp
  | cons l ls ih =>
    rcases ls with _ | ⟨l', ls⟩
    · simp
    · have hcons : ([b].intercalate (l :: l' :: ls)).count a =
          l.count a + [b].count a + ([b].intercalate (l' :: ls)).count a := by
        rw [List.intercalate_cons_cons, List.count_append, List.count_append]
      have hsum : ((l :: l' :: ls).map (List.count a)).sum =
          l.count a + ((l' :: ls).map (List.count a)).sum := List.sum_cons
      have hlength : (l :: l' :: ls).length - 1 = (l' :: ls).length - 1 + 1 := rfl
      by_cases hab : a = b
      · have hone : [b].count a = 1 := hab ▸ List.count_singleton_self
        rw [if_pos hab] at ih ⊢
        omega
      · have hnone : [b].count a = 0 := List.count_eq_zero.mpr (by simpa using hab)
        rw [if_neg hab] at ih ⊢
        omega

/-- Blanks between texts add no line feed. -/
private theorem count_spaced (ls : List Bytes) :
    (spaced ls).count lineFeed = (ls.map (List.count lineFeed)).sum := by
  rw [spaced, count_intercalate, if_neg (by decide), Nat.add_zero]

private theorem count_joinWords (ls : List Bytes) :
    (joinWords ls).count lineFeed = (ls.map (List.count lineFeed)).sum := by
  rw [joinWords, count_spaced]
  induction ls with
  | nil => rfl
  | cons l ls ih =>
    by_cases hl : l = []
    · simpa [hl] using ih
    · simpa [hl] using ih

/-- There is one piece more than there are separators. -/
theorem length_splitOn (b : UInt8) (s : Bytes) : (s.splitOn b).length = s.count b + 1 := by
  rw [List.splitOn_eq_splitOnP]
  induction s with
  | nil => rfl
  | cons c s ih =>
    rw [List.splitOnP_cons_eq_if_modifyHead, List.count_cons]
    split
    · simp [ih]
    · simp [ih]

/-- The texts between the separators are those that were put together, exactly if these hold no
separators. -/
theorem splitOn_intercalate_iff {b : UInt8} {ls : List Bytes} (hne : ls ≠ []) :
    ([b].intercalate ls).splitOn b = ls ↔ (ls.map (List.count b)).sum = 0 := by
  constructor
  · intro h
    -- the lines are as many as the texts, so all separators stand between texts
    have hlength := length_splitOn b ([b].intercalate ls)
    rw [h, count_intercalate, if_pos rfl] at hlength
    have hpos := List.length_pos_iff.mpr hne
    omega
  · intro h
    refine List.splitOn_intercalate b (fun l hl => ?_) hne
    rw [List.sum_eq_zero_iff_forall_eq_nat] at h
    exact List.count_eq_zero.mp (h _ (List.mem_map_of_mem hl))

/-! ### Line feeds in code -/

/-- How many line feeds the instruction is written with. -/
def Instruction.breaks (i : Instruction) : Nat :=
  i.text.count lineFeed

/-- How many line feeds the code is written with. -/
def Code.breaks (c : Code) : Nat :=
  c.text.count lineFeed

namespace Code

@[simp]
theorem breaks_nil : breaks [] = 0 := rfl

@[simp]
theorem breaks_cons (i : Instruction) (c : Code) : breaks (i :: c) = i.breaks + breaks c := by
  rw [breaks, breaks, text, text, count_spaced, count_spaced, texts, List.map_cons, List.sum_cons]
  rfl

/-- Line breaks add up along code. -/
@[simp]
theorem breaks_append (c d : Code) : breaks (c ++ d) = breaks c + breaks d := by
  induction c with
  | nil => simp
  | cons i c ih => rw [List.cons_append, breaks_cons, ih, breaks_cons, Nat.add_assoc]

/-- The line breaks of all pieces are those of the code. -/
private theorem breaks_flatten (cs : List Code) : breaks cs.flatten = (cs.map breaks).sum := by
  induction cs with
  | nil => rfl
  | cons c cs ih => rw [List.flatten_cons, breaks_append, ih, List.map_cons, List.sum_cons]

end Code

/-- A word that can be told apart has no line feed, which would separate. -/
private theorem count_of_separate {x : Bytes} (h : Separate x) : x.count lineFeed = 0 :=
  List.count_eq_zero.mpr fun hmem => absurd (h.bytes _ hmem) (by decide)

private theorem count_of_mem_vocabulary {x : Bytes} (h : x ∈ vocabulary) :
    x.count lineFeed = 0 := by
  obtain ⟨hne, hbytes, hopening⟩ := separate_of_mem_vocabulary x h
  exact count_of_separate ⟨hne, hbytes, hopening⟩

namespace Instruction

/-- No word has a line break in it. -/
@[simp]
theorem breaks_word (w : Word) : (word w).breaks = 0 :=
  count_of_mem_vocabulary (text_mem_vocabulary_word w)

private theorem count_marker (k : Marker) : k.text.count lineFeed = 0 :=
  count_of_mem_vocabulary (text_mem_vocabulary_marker k)

/-- A string has the line breaks of its text. -/
@[simp]
theorem breaks_string (body : Bytes) : (string body).breaks = body.count lineFeed := by
  have hopening : (utf8 (if backslash ∈ body then "s\\\" " else "s\" ")).count lineFeed = 0 := by
    split <;> decide +kernel
  have hquote : [quoteMark].count lineFeed = 0 := by decide
  rw [breaks, text, stringText, List.count_append, List.count_append, hopening, hquote,
    Nat.zero_add, Nat.add_zero]

private theorem breaks_name {x : Bytes} (h : IsWord x) : (name x).breaks = 0 :=
  count_of_separate (separate_of_isWord h)

private theorem breaks_define {s : Storage} {x : Bytes} (h : IsWord x) :
    (define s x).breaks = 0 := by
  rw [breaks, text, count_joinWords]
  simp [count_of_separate (separate_of_isWord h), show s.definer.count lineFeed = 0 from
    count_marker (.declaration s)]

@[simp]
theorem breaks_choose (c : Code) : (choose c).breaks = c.breaks := by
  have htext : (choose c).text =
      joinWords [Marker.choose.text, c.text, Marker.endChoose.text] := rfl
  rw [breaks, htext, count_joinWords]
  simp [count_marker, Code.breaks]

@[simp]
theorem breaks_chooseElse (c d : Code) : (chooseElse c d).breaks = c.breaks + d.breaks := by
  have htext : (chooseElse c d).text = joinWords [Marker.choose.text, c.text,
      Marker.otherwise.text, d.text, Marker.endChoose.text] := rfl
  rw [breaks, htext, count_joinWords]
  simp [count_marker, Code.breaks]

@[simp]
theorem breaks_loop (c d : Code) : (loop c d).breaks = c.breaks + d.breaks := by
  have htext : (loop c d).text = joinWords [Marker.begin.text, c.text, Marker.test.text, d.text,
      Marker.again.text] := rfl
  rw [breaks, htext, count_joinWords]
  simp [count_marker, Code.breaks]

end Instruction

/-! ### Line feeds in trees -/

/-- How many line feeds the token holds, if it is a string literal. -/
def Token.breaks (t : Token) : Nat :=
  if t.kind = .stringLiteral then t.text.count lineFeed else 0

/-- Only string literals have line breaks. -/
private theorem Token.breaks_of_kind {t : Token} {k : TokenKind} (h : t.kind = k)
    (hk : k ≠ .stringLiteral) : t.breaks = 0 :=
  if_neg (h ▸ hk)

/-- How many line feeds the string literals of the tree hold. -/
def Node.breaks (n : Node) : Nat :=
  ((preorder n).map fun m => m.token.breaks).sum

/-- The line breaks of nodes are those of all tokens below them. -/
private theorem sum_breaks_preorderAll (ns : List Node) :
    ((preorderAll ns).map fun m => m.token.breaks).sum = (ns.map Node.breaks).sum := by
  induction ns with
  | nil => rfl
  | cons n ns ih =>
    rw [preorderAll, List.map_append, List.sum_append, ih, List.map_cons, List.sum_cons]
    rfl

private theorem Node.breaks_mk (t : Token) (cs : List Node) :
    (Node.mk t cs).breaks = t.breaks + (cs.map Node.breaks).sum := by
  rw [Node.breaks, preorder, List.map_cons, List.sum_cons, sum_breaks_preorderAll]
  rfl

private theorem Node.breaks_leaf {t : Token} {k : TokenKind} (h : t.kind = k)
    (hk : k ≠ .stringLiteral) :
    (Node.leaf t).breaks = 0 := by
  rw [Node.leaf, Node.breaks_mk, Token.breaks_of_kind h hk]
  rfl

/-- A declaration of a name has no line break. -/
private theorem Node.IsBinding.breaks {n : Node} (h : n.IsBinding) : n.breaks = 0 := by
  obtain ⟨paren, x, type, rfl, hparen, hx, -, htype, -⟩ := h
  rw [Node.breaks_mk, Token.breaks_of_kind hparen (by decide)]
  simp [Node.breaks_leaf hx, Node.breaks_leaf htype]

/-- A token and the node that it stands for have the same line breaks. -/
private theorem Grammar.StandsFor.breaks {t : Token} {n : Node} (h : StandsFor t n) :
    n.token.breaks = t.breaks := by
  obtain ⟨htext, -, ⟨-, hkind⟩ | ⟨hminus, hkind, -⟩ | ⟨hminus, hkind, -⟩⟩ := h
  · rw [Token.breaks, Token.breaks, htext, hkind]
  · rw [Token.breaks_of_kind hkind (by decide), Token.breaks_of_kind hminus (by decide)]
  · rw [Token.breaks_of_kind hkind (by decide), Token.breaks_of_kind hminus (by decide)]

/-- Parentheses are no string literals. -/
theorem sum_breaks_filter {α : Type} (token : α → Token) (xs : List α) :
    ((xs.filter fun x => notParen (token x)).map fun x => (token x).breaks).sum =
      (xs.map fun x => (token x).breaks).sum := by
  induction xs with
  | nil => rfl
  | cons x xs ih =>
    rw [List.filter_cons, List.map_cons, List.sum_cons, ← ih]
    split
    · rw [List.map_cons, List.sum_cons]
    · rename_i hparen
      have hkind : (token x).kind ≠ .stringLiteral := fun hkind => hparen (by simp [notParen, hkind])
      rw [Token.breaks_of_kind rfl hkind, Nat.zero_add]

/-- The nodes of trees hold the line feeds of the tokens that they stand for. -/
theorem Grammar.Reflects.sum_breaks {ts : List Token} {ns : List Node} (h : Reflects ts ns) :
    (ns.map fun n => n.token.breaks).sum = (ts.map Token.breaks).sum := by
  have htokens : ((ts.filter notParen).map Token.breaks).sum = (ts.map Token.breaks).sum :=
    sum_breaks_filter (fun t => t) ts
  have hsame : (ts.filter notParen).map Token.breaks =
      (ns.filter fun n => notParen n.token).map fun n => n.token.breaks := by
    rw [← List.forall₂_eq_eq_eq, List.forall₂_map_left_iff, List.forall₂_map_right_iff]
    exact List.Forall₂.imp (fun _ _ hstands => hstands.breaks.symm) h
  rw [← sum_breaks_filter Node.token, ← hsame, htokens]

/-! ### The code of trees -/

section Trees

variable {t t' : SymbolTable}

/-- The conversion to a real adds no line break. -/
private theorem Value.breaks_realCode {u : Value} (hcode : u.code.isBlank = false) :
    u.realCode.breaks = u.code.breaks := by
  by_cases hint : u.type = .int
  · rw [realCode_of_int hint hcode]
    simp
  · rw [realCode_of_ne_int hint]

/-- The code of a binary operator has the line breaks of its operands, -/
private theorem BinaryCode.breaks {op : BinaryOperator} {l r v : Value} (h : BinaryCode op l r v)
    (hl : l.code.isBlank = false) (hr : r.code.isBlank = false) :
    v.code.breaks = l.code.breaks + r.code.breaks := by
  cases h with
  | realArithmetic | realComparison => simp [Value.breaks_realCode hl, Value.breaks_realCode hr]
  | _ => simp

/-- and that of a unary operator those of its operand. -/
private theorem UnaryCode.breaks {op : UnaryOperator} {u v : Value} (h : UnaryCode op u v)
    (hu : u.code.isBlank = false) : v.code.breaks = u.code.breaks := by
  cases h with
  | trigonometric => simp [Value.breaks_realCode hu]
  | _ => simp

/-- Numerals and truth values have no line feeds, and a string has those between its quotes. -/
theorem LiteralCode.breaks {tok : Token} {u : Value} (h : LiteralCode tok u) :
    u.code.breaks = tok.breaks := by
  cases h with
  | int kind numeral =>
    have hnone : (Instruction.int tok.text).breaks = 0 :=
      count_of_separate (separate_of_isNumeralLike (isNumeralLike_int numeral))
    simp [Token.breaks_of_kind kind, hnone]
  | real kind numeral =>
    have hnone : (Instruction.real (realNumeral tok.text)).breaks = 0 :=
      count_of_separate (separate_of_isNumeralLike (isNumeralLike_real numeral))
    simp [Token.breaks_of_kind kind, hnone]
  | @string body kind text inside =>
    have hquote : quoteMark ≠ lineFeed := by decide
    simp [Token.breaks, kind, text, hquote]
  | bool kind name =>
    have hnone : (Instruction.flag tok.text).breaks = 0 := by
      rcases name with h | h <;> rw [h] <;> decide +kernel
    simp [Token.breaks_of_kind kind, hnone]

/-- The code of declarations is on one line. -/
private theorem Declares.breaks {bs : List Node} {c : Code} (h : Declares t bs c t')
    (hbs : ∀ b ∈ bs, b.IsBinding) : c.breaks = 0 := by
  induction h with
  | nil => rfl
  | @cons t t' paren x type bs code τ s keyword fresh storage rest ih =>
    obtain ⟨_, y, _, heq, -, hkind, hspelled, -⟩ := hbs _ List.mem_cons_self
    simp only [Node.mk.injEq, List.cons.injEq, Node.leaf] at heq
    obtain ⟨-, ⟨rfl, -⟩, -⟩ := heq
    rw [Token.WellSpelled, hkind] at hspelled
    rw [Code.breaks_cons, Instruction.breaks_define hspelled.1,
      ih fun b hb => hbs b (List.mem_cons_of_mem _ hb)]

/-- The code of a sequence has the line breaks of its trees, one by one. -/
private theorem EmitsAll.breaks {ns : List Node} {vs : List Value} (h : EmitsAll t ns vs t')
    (ht : t.Sound)
    (hns : ∀ n ∈ ns, ∀ {t t' : SymbolTable} {v : Value}, t.Sound →
      n.value false t = (.ok v, t') → v.code.breaks = n.breaks) :
    vs.map (fun v => v.code.breaks) = ns.map Node.breaks := by
  induction h with
  | nil => rfl
  | cons first rest ih =>
    rw [List.map_cons, List.map_cons, hns _ List.mem_cons_self ht first,
      ih (ht.value first) fun n hn => hns n (List.mem_cons_of_mem _ hn)]

/-- The code of a tree has the line feeds of its string literals. -/
theorem Node.WellFormed.breaks_code {n : Node} (hn : n.WellFormed) {consumed : Bool}
    {t t' : SymbolTable} {v : Value} (ht : t.Sound) (hv : n.value consumed t = (.ok v, t')) :
    v.code.breaks = n.breaks := by
  induction hn generalizing consumed t t' v with
  | @operand tok kind spelled =>
    rw [Node.breaks_mk, List.map_nil, List.sum_nil, Nat.add_zero]
    -- names are copied as well, but an identifier holds no line feed
    by_cases hk : tok.kind = .identifier
    · obtain ⟨τ, s, -, -, rfl, -⟩ := (value_identifier_iff hk (spelled.text_ne_nil hk) ht).mp hv
      rw [Token.WellSpelled, hk] at spelled
      simp [Token.breaks_of_kind hk, Instruction.breaks_name spelled.1]
    · have hliteral : tok.kind.isLiteral = true := by simpa [TokenKind.isOperand, hk] using kind
      exact (spelled.literalCode ((value_literal_iff hliteral).mp hv).1).breaks
  | @assignment head x e kind target spelled value ih =>
    obtain ⟨u, t₁, τ, a, s, hu, -, -, -, rfl, -⟩ :=
      (value_assignment_iff kind (spelled.text_ne_nil target) value.emitsProper ht).mp hv
    have hcode : (if τ = .real then u.realCode else u.code).breaks = e.breaks := by
      rw [← ih ht hu]
      split
      · exact Value.breaks_realCode (value.emitsProper ht hu).code
      · rfl
    have hdouble : (if consumed then [.word (.dup s)] else [] : Code).breaks = 0 := by
      split <;> simp
    rw [Token.WellSpelled, target] at spelled
    rw [Node.breaks_mk, Token.breaks_of_kind kind (by decide)]
    simp [hcode, hdouble, Instruction.breaks_name spelled.1, Node.breaks_leaf target]
  | @binary head op l r kind spelling left right ihl ihr =>
    obtain ⟨u₁, t₁, u₂, hu₁, hu₂, hcode⟩ :=
      (value_binary_iff kind spelling left.emitsProper right.emitsProper ht).mp hv
    rw [hcode.breaks (left.emitsProper ht hu₁).code (right.emitsProper (ht.value hu₁) hu₂).code,
      ihl ht hu₁, ihr (ht.value hu₁) hu₂, Node.breaks_mk, Token.breaks_of_kind kind (by decide)]
    simp
  | @unary head op e kind spelling operand ih =>
    obtain ⟨u, hu, hcode⟩ := (value_unary_iff kind spelling operand.emitsProper ht).mp hv
    rw [hcode.breaks (operand.emitsProper ht hu).code, ih ht hu, Node.breaks_mk,
      Token.breaks_of_kind kind (by decide)]
    simp
  | @declaration head bs kind text nonempty each =>
    obtain ⟨code, hcode, rfl⟩ := (value_declaration_iff kind text nonempty each ht).mp hv
    have hbindings : (bs.map Node.breaks).sum = 0 := by
      rw [List.sum_eq_zero_iff_forall_eq_nat, List.forall_mem_map]
      exact fun b hb => (each b hb).breaks
    rw [hcode.breaks each, Node.breaks_mk, Token.breaks_of_kind kind (by decide), hbindings]
  | @loop head test body kind text nonempty condition each ih ihs =>
    obtain ⟨u, t₁, vs, hu, hvs, -, rfl⟩ :=
      (value_loop_iff kind text (fun m hm => (each m hm).emitsProper) ht).mp hv
    have hbody := hvs.breaks (ht.value hu) fun n hn _ _ _ ht hv => ihs n hn ht hv
    rw [Node.breaks_mk, Token.breaks_of_kind kind (by decide), List.map_cons, List.sum_cons, ← hbody]
    simp [ih ht hu, Code.breaks_flatten, Function.comp_def]
  | @choose head test onTrue kind text condition branch ih ih₁ =>
    obtain ⟨u, t₁, v₁, hu, hv₁, -, rfl⟩ := (value_choose_iff kind text condition.emitsProper ht).mp hv
    rw [Node.breaks_mk, Token.breaks_of_kind kind (by decide)]
    simp [ih ht hu, ih₁ (ht.value hu) hv₁]
  | @chooseElse head test onTrue onFalse kind text condition branch otherwise ih ih₁ ih₂ =>
    obtain ⟨u, t₁, v₁, t₂, v₂, hu, hv₁, hv₂, -, rfl⟩ :=
      (value_chooseElse_iff kind text condition.emitsProper ht).mp hv
    rw [Node.breaks_mk, Token.breaks_of_kind kind (by decide)]
    simp [ih ht hu, ih₁ (ht.value hu) hv₁, ih₂ ((ht.value hu).value hv₁) hv₂]
  | @print head e kind text operand ih =>
    obtain ⟨u, pw, hu, -, rfl⟩ := (value_print_iff kind text operand.emitsProper ht).mp hv
    rw [Node.breaks_mk, Token.breaks_of_kind kind (by decide)]
    simp [ih ht hu]

end Trees

/-! ### Target texts -/

/-- The line of a form: its code, a blank and the word that ends a line of output. -/
theorem text_append_newLine {c : Code} (h : c ≠ []) :
    Code.text (c ++ [.word .newLine]) = c.text ++ utf8 " CR" := by
  have htexts : Code.texts c ≠ [] := by
    rcases c with _ | ⟨i, c⟩
    · exact absurd rfl h
    · exact List.cons_ne_nil _ _
  have hword : Code.texts [.word .newLine] = [utf8 "CR"] := rfl
  rw [Code.text, texts_append, hword, spaced, intercalate_append htexts (List.cons_ne_nil _ _)]
  rfl

/-- The string literals of a program hold the line feeds of those of its text. -/
theorem sum_breaks_of_parse {s : Bytes} {p : Program} (h : parse s = .ok p) :
    (p.map Node.breaks).sum = ((tokenize s).1.map Token.breaks).sum := by
  obtain ⟨ts, hts, d, hd, rfl, rfl⟩ := parse_eq_ok_iff_derivation.mp h
  rw [hts, ← sum_breaks_preorderAll]
  exact (Derivation.reflects_tokens hd).sum_breaks

/-- Tokens have no line breaks exactly if no string literal has one. -/
private theorem sum_breaks_eq_zero_iff {ts : List Token} : (ts.map Token.breaks).sum = 0 ↔
    ∀ t ∈ ts, t.kind = .stringLiteral → lineFeed ∉ t.text := by
  rw [List.sum_eq_zero_iff_forall_eq_nat, List.forall_mem_map]
  refine forall_congr' fun t => imp_congr_right fun _ => ?_
  rw [Token.breaks, ite_eq_right_iff, List.count_eq_zero]

/-- Every target text comes from a full compilation. -/
private theorem exists_compileFully_of_compile {s target : Bytes} (h : compile s = .ok target) :
    ∃ c, compileFully s = .ok c ∧ c.target = target := by
  rw [compile] at h
  rcases hfull : compileFully s with fault | c
  · rw [hfull] at h
    cases h
  · rw [hfull] at h
    exact ⟨c, rfl, Except.ok.inj h⟩

/-- The program of a compilation is the one that the text is parsed to. -/
theorem parse_of_compileFully {s : Bytes} {c : Compilation} (h : compileFully s = .ok c) :
    parse s = .ok c.program := by
  rw [compileFully] at h
  split at h
  · cases h
  · rename_i p hparse
    split at h
    · obtain rfl := Except.ok.inj h
      exact hparse
    · cases h

/-- The codes of the forms, in the order of the forms. -/
theorem exists_codes_of_compileFully {s : Bytes} {c : Compilation} (h : compileFully s = .ok c)
    (hne : c.target ≠ []) :
    ∃ vs, vs ≠ [] ∧ EmitsAll .empty c.program vs c.symbols ∧
      c.target = preamble ++ [lineFeed].intercalate (vs.map fun v => v.code.text ++ utf8 " CR") ∧
      vs.map (fun v => v.code.text.count lineFeed) = c.program.map Node.breaks := by
  obtain ⟨vs, hp, hvs, htarget⟩ := exists_of_compileFully h
  have hlines : vs ≠ [] := by
    rintro rfl
    exact hne htarget
  have hcodes : ∀ v ∈ vs, v.code ≠ [] := fun v hv => Code.ne_nil_of_isBlank
    (hvs.isBlank (fun n hn => (hp n hn).emitsProper) SymbolTable.sound_empty _
      (List.mem_map_of_mem hv))
  refine ⟨vs, hlines, hvs, ?_, ?_⟩
  · rw [htarget, targetText_of_ne_nil (by simpa using hlines), List.map_map]
    congr 2
    exact List.map_congr_left fun v hv => text_append_newLine (hcodes v hv)
  · exact hvs.breaks SymbolTable.sound_empty fun n hn _ _ _ ht hv => (hp n hn).breaks_code ht hv

/-- **A line for each form, unless a string literal breaks it.** A target text that is not empty is
the preamble and then, with line feeds between them, the codes of the forms, each followed by the word
`CR`. The code of a form has as many line feeds as the string literals of the form. So there are as many
lines as forms, and one more for each line feed in a string literal; the lines are those of the forms
exactly if no string literal holds a line feed. -/
theorem one_line_per_form_iff {s target : Bytes} (h : compile s = .ok target) (hne : target ≠ []) :
    ∃ p vs symbols, parse s = .ok p ∧ EmitsAll .empty p vs symbols ∧
      target = preamble ++ [lineFeed].intercalate (vs.map fun v => v.code.text ++ utf8 " CR") ∧
      vs.map (fun v => v.code.text.count lineFeed) = p.map Node.breaks ∧
      ((target.drop preamble.length).splitOn lineFeed).length =
        p.length + ((tokenize s).1.map Token.breaks).sum ∧
      ((target.drop preamble.length).splitOn lineFeed =
          vs.map (fun v => v.code.text ++ utf8 " CR") ↔
        ∀ t ∈ (tokenize s).1, t.kind = .stringLiteral → lineFeed ∉ t.text) := by
  obtain ⟨c, hc, rfl⟩ := exists_compileFully_of_compile h
  obtain ⟨vs, hforms, hvs, htarget, hbreaks⟩ := exists_codes_of_compileFully hc hne
  have hparse := parse_of_compileFully hc
  have hlength : vs.length = c.program.length := by simpa using congrArg List.length hbreaks
  have hpos : 0 < vs.length := List.length_pos_iff.mpr hforms
  have hword : (utf8 " CR").count lineFeed = 0 := by decide +kernel
  have hsum : ((vs.map fun v => v.code.text ++ utf8 " CR").map (List.count lineFeed)).sum =
      ((tokenize s).1.map Token.breaks).sum := by
    rw [← sum_breaks_of_parse hparse, ← hbreaks]
    simp [Function.comp_def, hword]
  have hbody : c.target.drop preamble.length =
      [lineFeed].intercalate (vs.map fun v => v.code.text ++ utf8 " CR") := by
    rw [htarget, List.drop_left]
  refine ⟨c.program, vs, c.symbols, hparse, hvs, htarget, hbreaks, ?_, ?_⟩
  · rw [hbody, length_splitOn, count_intercalate, if_pos rfl, hsum, List.length_map, ← hlength]
    omega
  · have hlines : (vs.map fun v => v.code.text ++ utf8 " CR") ≠ [] := by simpa using hforms
    rw [hbody, splitOn_intercalate_iff hlines, hsum, sum_breaks_eq_zero_iff]

/-- Three forms, and a string literal with two line feeds. -/
theorem one_line_per_form_iff_broken :
    ∃ (target : Bytes) (p : Program) (vs : List Value),
      compile (utf8 "(let (s string)) (:= s \"a\n\nb\") (stdout (+ s \"c\"))") = .ok target ∧
      parse (utf8 "(let (s string)) (:= s \"a\n\nb\") (stdout (+ s \"c\"))") = .ok p ∧
      target = preamble ++ [lineFeed].intercalate (vs.map fun v => v.code.text ++ utf8 " CR") ∧
      ((target.drop preamble.length).splitOn lineFeed).length = p.length + 2 ∧
      (target.drop preamble.length).splitOn lineFeed ≠
        vs.map fun v => v.code.text ++ utf8 " CR" := by
  have hrun : ((compile (utf8 "(let (s string)) (:= s \"a\n\nb\") (stdout (+ s \"c\"))")).toOption.any
      fun target => target ≠ []) = true := by decide +kernel
  have hbreaks : (((tokenize (utf8
      "(let (s string)) (:= s \"a\n\nb\") (stdout (+ s \"c\"))")).1.map Token.breaks).sum) = 2 := by
    decide +kernel
  rw [Option.any_eq_true] at hrun
  obtain ⟨target, htarget, hne⟩ := hrun
  obtain ⟨p, vs, symbols, hparse, -, htext, -, hlength, hlines⟩ :=
    one_line_per_form_iff (toOption_eq_some_iff.mp htarget) (by simpa using hne)
  rw [hbreaks] at hlength
  refine ⟨target, p, vs, toOption_eq_some_iff.mp htarget, hparse, htext, hlength, fun heq => ?_⟩
  have hzero := sum_breaks_eq_zero_iff.mpr (hlines.mp heq)
  rw [hbreaks] at hzero
  cases hzero

/-- A string literal with a line feed makes two lines of one form. -/
theorem string_literal_breaks_line :
    (parse (utf8 "(stdout \"a\nb\")")).toOption.map List.length = some 1 ∧
    (compile (utf8 "(stdout \"a\nb\")")).toOption.map
        (fun target => (target.drop preamble.length).splitOn lineFeed) =
      some [utf8 "s\" a", utf8 "b\" type CR"] := by
  decide +kernel

end PrefixForth

import PrefixForth.Proofs.Layout

/-!
# Trees written as text

`Node.text` writes a tree on one line, and the trees of a parsed program can be told from what is
written. Three things work together:

* what stands at a leaf is a lexeme, with a blank, a closing parenthesis or the end behind it. Read by
  the rules of the lexer it is the longest match there, so it ends in one place only, and what it is
  spelled like says of which kind it is (`IsLexeme.append_inj`);
* the heads of forms are finitely many, and as they are written no two of them are the same, since a
  minus sign is marked (`headText_inj`);
* only a declaration of one name starts with an identifier, which is no head
  (`headText_ne_of_identifier`).

`Node.OfLexemes` says what is needed of a tree, and parsed trees have it (`ofLexemes_of_parse`). The
main statement is `dump_is_unambiguous`.
-/

namespace PrefixForth

open Grammar

/-! ### Lexemes at the start of a text -/

/-- What a rule yields for a text is of one kind. -/
theorem LexicalAction.Yields.unique {a : LexicalAction} {w : Bytes} {k k' : TokenKind}
    (h : a.Yields w k) (h' : a.Yields w k') : k = k' := by
  cases a with
  | token | word => exact h.trans h'.symm
  | skip | malformed | unterminated => exact h.elim

/-- A text starts with one lexeme only, of one kind, if what follows the lexeme ends it. -/
theorem IsLexeme.append_inj {k k' : TokenKind} {w w' u u' : Bytes} (h : IsLexeme k w)
    (h' : IsLexeme k' w') (hu : EndsLexeme u) (hu' : EndsLexeme u') (heq : w ++ u = w' ++ u') :
    k = k' ∧ w = w' ∧ u = u' := by
  obtain ⟨r, hwins, haction⟩ := h.exists_wins hu
  obtain ⟨r', hwins', haction'⟩ := h'.exists_wins hu'
  rw [← heq] at hwins'
  obtain ⟨rfl, rfl⟩ := hwins.unique hwins'
  exact ⟨haction.unique haction', rfl, List.append_cancel_left heq⟩

private theorem IsLexeme.ne_nil {k : TokenKind} {w : Bytes} (h : IsLexeme k w) : w ≠ [] := by
  obtain ⟨s, r, hwins, -⟩ := h
  exact hwins.nonempty

/-- A lexeme is spelled as its kind asks. -/
theorem IsLexeme.spells {k : TokenKind} {w : Bytes} (h : IsLexeme k w) : k.Spells w := by
  obtain ⟨s, r, hwins, haction⟩ := h
  exact spells_of_mem_lexicalRules hwins.mem (Pattern.mem_language_iff.mp hwins.matched) haction

/-- Only a parenthesis starts like one. -/
theorem IsLexeme.kind_of_openingByte {k : TokenKind} {w : Bytes}
    (h : IsLexeme k (openingByte :: w)) : k = .openParen := by
  have hnever : ∀ r ∈ lexicalRules, r.action ≠ .token .openParen →
      (r.pattern.derivative openingByte).isNever = true := by decide +kernel
  obtain ⟨s, r, hwins, haction⟩ := h
  have hmatches := Pattern.mem_language_iff.mp hwins.matched
  have hparen : r.action = .token .openParen := by
    by_contra hne
    exact Pattern.not_matches_cons (hnever r hwins.mem hne) hmatches
  rw [hparen] at haction
  exact haction

/-! ### Heads of forms -/

/-- What can stand at the head of a form: kinds and texts. -/
def heads : List (TokenKind × Bytes) :=
  (.assignment, utf8 ":=") ::
    (binarySpellings.map (fun entry => (.binaryOperator, entry.1)) ++
      unarySpellings.map (fun entry => (.unaryOperator, entry.1)) ++
      [Statement.declare, .loop, .choose, .print].map fun a => (.statement, a.keyword))

/-- A head as it is written, by its kind and its text. -/
def writtenHead (l : TokenKind × Bytes) : Bytes :=
  Node.headText ⟨l.1, l.2, .unknown⟩

section Heads

variable {t t' : Token}

/-- Heads that are written in the same way are the same. -/
theorem headText_inj (ht : t.look ∈ heads) (ht' : t'.look ∈ heads)
    (h : Node.headText t = Node.headText t') : t.look = t'.look := by
  have hall : ∀ l ∈ heads, ∀ l' ∈ heads, writtenHead l = writtenHead l' → l = l' := by
    decide +kernel
  exact hall t.look ht t'.look ht' h

private theorem kind_ne_openParen (ht : t.look ∈ heads) : t.kind ≠ .openParen := by
  have hall : ∀ l ∈ heads, l.1 ≠ .openParen := by decide +kernel
  exact hall t.look ht

private theorem blank_notMem_headText (ht : t.look ∈ heads) : blank ∉ Node.headText t := by
  have hall : ∀ l ∈ heads, blank ∉ writtenHead l := by decide +kernel
  exact hall t.look ht

/-- No head is written like an identifier: it is a reserved word, or has a byte that words have not. -/
theorem headText_ne_of_identifier (ht : t.look ∈ heads) {x : Bytes}
    (hx : TokenKind.identifier.Spells x) : Node.headText t ≠ x := by
  have hall : ∀ l ∈ heads,
      (writtenHead l).all (fun b => isLetterByte b || isDigitByte b) = true →
      reservedWords.lookup (writtenHead l) ≠ none := by decide +kernel
  obtain ⟨⟨b, rest, hword, hletter, hrest⟩, hnone⟩ := hx
  intro heq
  have hbytes : (Node.headText t).all (fun b => isLetterByte b || isDigitByte b) = true := by
    rw [heq, hword, List.all_cons, hletter]
    simpa using hrest
  have hreserved : reservedWords.lookup (Node.headText t) ≠ none := hall t.look ht hbytes
  exact hreserved (heq ▸ hnone)

/-- A head of a form is one of the heads. -/
theorem look_mem_heads (ht : t.WellSpelled)
    (hk : t.kind ∈ [TokenKind.assignment, .binaryOperator, .unaryOperator, .statement]) :
    t.look ∈ heads := by
  obtain ⟨k, s, p⟩ := t
  simp only [Token.WellSpelled] at ht
  simp only [List.mem_cons, List.not_mem_nil, or_false] at hk
  simp only [Token.look, heads, List.mem_cons, List.mem_append, List.mem_map]
  rcases hk with rfl | rfl | rfl | rfl
  · exact .inl (by rw [show s = utf8 ":=" from ht])
  · obtain ⟨op, hop⟩ := ht
    exact .inr (.inl (.inl ⟨(s, op), mem_of_lookup hop, rfl⟩))
  · obtain ⟨op, hop⟩ := ht
    exact .inr (.inl (.inr ⟨(s, op), mem_of_lookup hop, rfl⟩))
  · obtain ⟨a, ha⟩ := ht
    have hmem : a ∈ [Statement.declare, .loop, .choose, .print] := by cases a <;> simp
    exact .inr (.inr ⟨a, by simpa using hmem, by rw [Statement.ofKeyword?_eq_some_iff.mp ha]⟩)

end Heads

/-- An identifier has no blanks. -/
theorem blank_notMem_of_identifier {x : Bytes} (hx : TokenKind.identifier.Spells x) : blank ∉ x := by
  obtain ⟨⟨b, rest, rfl, hletter, hrest⟩, -⟩ := hx
  intro hmem
  rcases List.mem_cons.mp hmem with rfl | hmem
  · exact absurd hletter (by decide)
  · exact absurd (hrest blank hmem) (by decide)

/-- Texts without blanks can be told from what stands behind the next blank. -/
theorem append_blank_inj {a a' x x' : Bytes} (ha : blank ∉ a) (ha' : blank ∉ a')
    (h : a ++ blank :: x = a' ++ blank :: x') : a = a' ∧ x = x' := by
  have hcut : ∀ {a x : Bytes}, blank ∉ a → (a ++ blank :: x).takeWhile (· ≠ blank) = a := by
    intro a x ha
    have hbytes : ∀ b ∈ a, decide (b ≠ blank) = true := fun b hb =>
      decide_eq_true fun heq => ha (heq ▸ hb)
    rw [List.takeWhile_append_of_pos hbytes]
    simp
  have heq : a = a' := by rw [← hcut ha, h, hcut ha']
  subst heq
  exact ⟨rfl, (List.cons.inj (List.append_cancel_left h)).2⟩

namespace Node

/-! ### Trees of lexemes -/

/-- The tree is made of lexemes: they stand at its leaves, its forms have heads, and besides them it
has only declarations of one name. -/
inductive OfLexemes : Node → Prop where
  | leaf {t : Token} (kind : t.kind ≠ .openParen) (lexeme : IsLexeme t.kind t.text) :
      OfLexemes (.mk t [])
  | form {t : Token} {cs : List Node} (head : t.look ∈ heads) (nonempty : cs ≠ [])
      (parts : ∀ c ∈ cs, OfLexemes c) : OfLexemes (.mk t cs)
  | binding {paren x type : Token} (opened : paren.look = (.openParen, utf8 "("))
      (name : x.kind = .identifier) (spelled : TokenKind.identifier.Spells x.text)
      (typed : OfLexemes (.leaf type)) : OfLexemes (.mk paren [.leaf x, .leaf type])

private theorem text_leaf (t : Token) : (leaf t).text = t.text := by
  rw [leaf, text]

/-- A form is written with its head in front of its operands. -/
private theorem text_of_head {t : Token} {cs : List Node} (ht : t.kind ≠ .openParen)
    (hcs : cs ≠ []) :
    (mk t cs).text = openingByte :: (headText t ++ (textAll cs ++ [closingByte])) := by
  obtain ⟨c, cs, rfl⟩ := List.exists_cons_of_ne_nil hcs
  simp [text, textAll, ht, utf8_parens]

private theorem text_of_openParen {t : Token} (ht : t.kind = .openParen) (c : Node)
    (cs : List Node) :
    (mk t (c :: cs)).text = openingByte :: (c.text ++ (textAll cs ++ [closingByte])) := by
  simp [text, ht, utf8_parens]

private theorem textAll_cons (c : Node) (cs : List Node) :
    textAll (c :: cs) = blank :: (c.text ++ textAll cs) := by
  have hblank : utf8 " " = [blank] := by decide
  simp [textAll, hblank]

/-- A tree has a text. -/
theorem OfLexemes.text_ne_nil {n : Node} (h : n.OfLexemes) : n.text ≠ [] := by
  cases h with
  | leaf kind lexeme => exact lexeme.ne_nil
  | form head nonempty parts => simp [text_of_head (kind_ne_openParen head) nonempty]
  | @binding paren x type opened name spelled typed =>
    have hparen : paren.kind = .openParen := congrArg Prod.fst opened
    simp [text_of_openParen hparen]

/-! ### Telling trees from their texts -/

/-- Behind the text comes nothing, or the parenthesis that closes the form around it. -/
def Closes (r : Bytes) : Prop :=
  ∀ b ∈ r.head?, b = closingByte

/-- A lexeme ends where operands, or what closes them, follow. -/
private theorem endsLexeme_textAll {r : Bytes} (hr : Closes r) (cs : List Node) :
    EndsLexeme (textAll cs ++ r) := by
  cases cs with
  | nil => exact fun b hb => .inr (hr b hb)
  | cons c cs =>
    rw [textAll_cons]
    intro b hb
    obtain rfl : blank = b := by simpa using hb
    exact .inl (by decide)

/-- The tree can be told from its text, and so can what stands behind it. -/
def Separable (n : Node) : Prop :=
  ∀ ⦃n' : Node⦄, n'.OfLexemes → ∀ ⦃r r' : Bytes⦄, EndsLexeme r → EndsLexeme r' →
    n.text ++ r = n'.text ++ r' → n.relocate .forget = n'.relocate .forget ∧ r = r'

/-- A blank tells that a part follows and a parenthesis that none does, so the parts are taken off one
after the other. -/
theorem textAll_inj {cs cs' : List Node} (hcs : ∀ c ∈ cs, c.Separable)
    (hcs' : ∀ c ∈ cs', c.OfLexemes) {r r' : Bytes} (hr : Closes r) (hr' : Closes r')
    (h : textAll cs ++ r = textAll cs' ++ r') :
    cs.map (relocate .forget) = cs'.map (relocate .forget) ∧ r = r' := by
  have hne : ∀ {u x : Bytes}, Closes u → u ≠ blank :: x := by
    rintro u x hu rfl
    exact absurd (hu blank rfl) (by decide)
  induction cs generalizing cs' with
  | nil =>
    cases cs' with
    | nil => exact ⟨rfl, by simpa [textAll] using h⟩
    | cons c' cs' =>
      rw [textAll_cons] at h
      exact absurd h (hne hr)
  | cons c cs ih =>
    cases cs' with
    | nil =>
      rw [textAll_cons] at h
      exact absurd h.symm (hne hr')
    | cons c' cs' =>
      rw [textAll_cons, textAll_cons, List.cons_append, List.cons_append, List.append_assoc,
        List.append_assoc] at h
      obtain ⟨hc, hrest⟩ := hcs c List.mem_cons_self (hcs' c' List.mem_cons_self)
        (endsLexeme_textAll hr cs) (endsLexeme_textAll hr' cs') (List.cons.inj h).2
      obtain ⟨hmap, hrr⟩ := ih (fun c hc => hcs c (List.mem_cons_of_mem _ hc))
        (fun c hc => hcs' c (List.mem_cons_of_mem _ hc)) hrest
      exact ⟨by rw [List.map_cons, List.map_cons, hc, hmap], hrr⟩

/-- Two forms: a label without blanks, and the parts. -/
theorem form_text_inj {a a' : Bytes} (ha : blank ∉ a) (ha' : blank ∉ a') {cs cs' : List Node}
    (hne : cs ≠ []) (hne' : cs' ≠ []) (hcs : ∀ c ∈ cs, c.Separable) (hcs' : ∀ c ∈ cs', c.OfLexemes)
    {r r' : Bytes} (h : openingByte :: (a ++ (textAll cs ++ [closingByte])) ++ r =
      openingByte :: (a' ++ (textAll cs' ++ [closingByte])) ++ r') :
    a = a' ∧ cs.map (relocate .forget) = cs'.map (relocate .forget) ∧ r = r' := by
  obtain ⟨c, cs, rfl⟩ := List.exists_cons_of_ne_nil hne
  obtain ⟨c', cs', rfl⟩ := List.exists_cons_of_ne_nil hne'
  simp only [textAll_cons, List.cons_append, List.append_assoc, List.cons.injEq, true_and,
    List.nil_append] at h
  obtain ⟨hlabel, hparts⟩ := append_blank_inj ha ha' h
  have hcloses : ∀ r, Closes (closingByte :: r) := fun r b hb => by simpa using hb.symm
  have htexts : textAll (c :: cs) ++ closingByte :: r = textAll (c' :: cs') ++ closingByte :: r' := by
    rw [textAll_cons, textAll_cons, List.cons_append, List.cons_append, List.append_assoc,
      List.append_assoc, hparts]
  obtain ⟨hmap, hrest⟩ := textAll_inj hcs hcs' (hcloses r) (hcloses r') htexts
  exact ⟨hlabel, hmap, (List.cons.inj hrest).2⟩

private theorem relocate_forget_eq {t t' : Token} {cs cs' : List Node} (ht : t.look = t'.look)
    (hcs : cs.map (relocate .forget) = cs'.map (relocate .forget)) :
    (mk t cs).relocate .forget = (mk t' cs').relocate .forget := by
  have htokens : [t].map (Token.relocate .forget) = [t'].map (Token.relocate .forget) :=
    map_relocate_forget (by simp [ht])
  rw [relocate_mk, relocate_mk, hcs, List.singleton_inj.mp htokens]

/-- The text of a form does not start like a leaf. -/
theorem leaf_text_ne {t : Token} (kind : t.kind ≠ .openParen) (lexeme : IsLexeme t.kind t.text)
    (r x : Bytes) : (mk t []).text ++ r ≠ openingByte :: x := by
  obtain ⟨b, w, hw⟩ := List.exists_cons_of_ne_nil lexeme.ne_nil
  rw [text, hw, List.cons_append]
  intro heq
  obtain ⟨rfl, -⟩ := List.cons.inj heq
  exact kind (IsLexeme.kind_of_openingByte (hw ▸ lexeme))

/-- Trees of lexemes can be told from their texts. The first byte tells a leaf from the others, and what
stands before the first blank tells a form from a declaration of one name. -/
theorem OfLexemes.separable {n : Node} (h : n.OfLexemes) : n.Separable := by
  induction h with
  | @leaf t kind lexeme =>
    intro n' h' r r' hr hr' heq
    cases h' with
    | @leaf t' kind' lexeme' =>
      rw [text, text] at heq
      obtain ⟨hkind, htext, hrest⟩ := lexeme.append_inj lexeme' hr hr' heq
      exact ⟨relocate_forget_eq (Prod.ext hkind htext) rfl, hrest⟩
    | form head nonempty parts =>
      rw [text_of_head (kind_ne_openParen head) nonempty] at heq
      exact absurd heq (leaf_text_ne kind lexeme _ _)
    | binding opened name spelled typed =>
      rw [text_of_openParen (congrArg Prod.fst opened)] at heq
      exact absurd heq (leaf_text_ne kind lexeme _ _)
  | @form t cs head nonempty parts ih =>
    intro n' h' r r' hr hr' heq
    rw [text_of_head (kind_ne_openParen head) nonempty] at heq
    cases h' with
    | @leaf t' kind' lexeme' => exact absurd heq.symm (leaf_text_ne kind' lexeme' _ _)
    | @form t' cs' head' nonempty' parts' =>
      rw [text_of_head (kind_ne_openParen head') nonempty'] at heq
      obtain ⟨hlabel, hparts, hrest⟩ := form_text_inj (blank_notMem_headText head)
        (blank_notMem_headText head') nonempty nonempty' ih parts' heq
      exact ⟨relocate_forget_eq (headText_inj head head' hlabel) hparts, hrest⟩
    | @binding paren x type opened name spelled typed =>
      -- a head would have to be written like the name that is declared
      rw [text_of_openParen (congrArg Prod.fst opened), text_leaf] at heq
      have hlabel := (form_text_inj (blank_notMem_headText head) (blank_notMem_of_identifier spelled)
        nonempty (List.cons_ne_nil _ _) ih (by simpa using typed) heq).1
      exact absurd hlabel (headText_ne_of_identifier head spelled)
  | @binding paren x type opened name spelled typed ih =>
    intro n' h' r r' hr hr' heq
    have hpart : ∀ c ∈ [Node.leaf type], c.Separable := by simpa using ih
    rw [text_of_openParen (congrArg Prod.fst opened), text_leaf] at heq
    cases h' with
    | @leaf t' kind' lexeme' => exact absurd heq.symm (leaf_text_ne kind' lexeme' _ _)
    | @form t' cs' head' nonempty' parts' =>
      rw [text_of_head (kind_ne_openParen head') nonempty'] at heq
      have hlabel := (form_text_inj (blank_notMem_of_identifier spelled)
        (blank_notMem_headText head') (List.cons_ne_nil _ _) nonempty' hpart parts' heq).1
      exact absurd hlabel.symm (headText_ne_of_identifier head' spelled)
    | @binding paren' x' type' opened' name' spelled' typed' =>
      rw [text_of_openParen (congrArg Prod.fst opened'), text_leaf] at heq
      obtain ⟨hlabel, hparts, hrest⟩ := form_text_inj (blank_notMem_of_identifier spelled)
        (blank_notMem_of_identifier spelled') (List.cons_ne_nil _ _) (List.cons_ne_nil _ _) hpart
        (by simpa using typed') heq
      have hname : (Node.leaf x).relocate .forget = (Node.leaf x').relocate .forget :=
        relocate_forget_eq (Prod.ext (name.trans name'.symm) hlabel) rfl
      have hboth := congrArg₂ List.cons hname hparts
      exact ⟨relocate_forget_eq (opened.trans opened'.symm) hboth, hrest⟩

end Node

/-! ### Parsed trees -/

namespace Grammar

private theorem Binding.ofLexemes_tree {b : Binding} (h : b.Valid)
    (hb : ∀ t ∈ b.tokens, IsLexeme t.kind t.text) : b.tree.OfLexemes := by
  obtain ⟨hparen, hname, htype, -⟩ := h
  have hopened := (hb b.paren (by simp [Binding.tokens])).spells
  have hspelled := (hb b.name (by simp [Binding.tokens])).spells
  have hlexeme := hb b.type (by simp [Binding.tokens])
  rw [hparen] at hopened
  rw [hname] at hspelled
  exact .binding (Prod.ext hparen hopened) hname hspelled (.leaf (by simp [htype]) hlexeme)

/-- A head that takes operands, as it is classified by their number. -/
theorem Admits.look_classified {head : Token} {n : Nat} (h : Admits head n)
    (hhead : head.WellSpelled) : (classified head n).look ∈ heads ∧ n ≠ 0 := by
  by_cases hk : head.kind = .minus
  · simp only [Token.WellSpelled, hk, TokenKind.Spells] at hhead
    simp only [Admits, hk] at h
    have hunary : (TokenKind.unaryOperator, utf8 "-") ∈ heads := by decide +kernel
    have hbinary : (TokenKind.binaryOperator, utf8 "-") ∈ heads := by decide +kernel
    rw [classified, if_pos hk]
    rcases h with rfl | rfl
    · exact ⟨by simpa [Token.look, hhead] using hunary, one_ne_zero⟩
    · exact ⟨by simpa [Token.look, hhead] using hbinary, two_ne_zero⟩
  · rw [classified, if_neg hk]
    cases hkind : head.kind <;> simp only [Admits, hkind] at h hk
    case binaryOperator => exact ⟨look_mem_heads hhead (by simp [hkind]), by omega⟩
    case unaryOperator => exact ⟨look_mem_heads hhead (by simp [hkind]), by omega⟩
    case statement => exact ⟨look_mem_heads hhead (by simp [hkind]), by omega⟩
    case minus => exact absurd trivial hk

mutual

/-- The tree of a form is made of its lexemes, -/
private theorem Form.ofLexemes_tree :
    ∀ (f : Form), f.Valid → (∀ t ∈ f.tokens, IsLexeme t.kind t.text) →
    f.tree.OfLexemes
  | .assignment paren head target value close, h, hf => by
    obtain ⟨-, hhead, htarget, hvalue, -⟩ := h
    simp only [Form.tokens, List.mem_cons, List.mem_append] at hf
    have hlook : head.look ∈ heads :=
      look_mem_heads (hf head (by simp)).spells (by simp [hhead])
    have hname : (Node.leaf target).OfLexemes := .leaf (by simp [htarget]) (hf target (by simp))
    have hright : value.tree.OfLexemes :=
      Operand.ofLexemes_tree value hvalue fun t ht => hf t (by simp [ht])
    exact .form hlook (List.cons_ne_nil _ _) (by simpa using ⟨hname, hright⟩)
  | .operation paren head operands close, h, hf => by
    obtain ⟨-, hadmits, hoperands, -⟩ := h
    simp only [Form.tokens, List.mem_cons, List.mem_append] at hf
    have hall := Operand.ofLexemes_treeAll operands hoperands fun t ht => hf t (by simp [ht])
    obtain ⟨hlook, hlength⟩ := hadmits.look_classified (hf head (by simp)).spells
    rw [← Operand.length_treeAll operands, ne_eq, List.length_eq_zero_iff] at hlength
    exact .form hlook hlength hall
  | .declaration paren head bindings close, h, hf => by
    obtain ⟨-, hhead, htext, hne, hbindings, -⟩ := h
    simp only [Form.tokens, List.mem_cons, List.mem_append, List.mem_flatMap] at hf
    have hlook : head.look ∈ heads :=
      look_mem_heads (hf head (by simp)).spells (by simp [hhead])
    refine .form hlook (by simpa using hne) fun n hn => ?_
    obtain ⟨b, hb, rfl⟩ := List.mem_map.mp hn
    exact Binding.ofLexemes_tree (hbindings b hb) fun t ht => hf t (.inr (.inr (.inl ⟨b, hb, ht⟩)))

/-- and so is that of an operand. -/
private theorem Operand.ofLexemes_tree : ∀ (o : Operand), o.Valid →
    (∀ t ∈ o.tokens, IsLexeme t.kind t.text) → o.tree.OfLexemes
  | .form f, h, ho => Form.ofLexemes_tree f h ho
  | .leaf t, h, ho => by
    have hkind : t.kind ≠ .openParen := by
      intro hk
      rw [Operand.Valid, hk] at h
      exact absurd h (by decide)
    exact .leaf hkind (ho t (by simp [Operand.tokens]))
  | .negation sign operand, h, ho => by
    obtain ⟨hsign, hoperand⟩ := h
    simp only [Operand.tokens, List.mem_cons] at ho
    have hadmits : Admits sign 1 := by simp [Admits, hsign]
    have hclassified : classified sign 1 = { sign with kind := .unaryOperator } := by
      rw [classified, if_pos hsign, if_pos rfl]
    obtain ⟨hlook, -⟩ := hadmits.look_classified (ho sign (by simp)).spells
    rw [hclassified] at hlook
    have hright := Operand.ofLexemes_tree operand hoperand fun t ht => ho t (by simp [ht])
    exact .form hlook (List.cons_ne_nil _ _) (by simpa using hright)

private theorem Operand.ofLexemes_treeAll : ∀ (os : List Operand), Operand.ValidAll os →
    (∀ t ∈ Operand.tokensAll os, IsLexeme t.kind t.text) → ∀ n ∈ Operand.treeAll os, n.OfLexemes
  | [], _, _, n, hn => by simp [Operand.treeAll] at hn
  | o :: os, h, hos, n, hn => by
    simp only [Operand.tokensAll, List.mem_append] at hos
    rcases List.mem_cons.mp hn with rfl | hn
    · exact Operand.ofLexemes_tree o h.1 fun t ht => hos t (.inl ht)
    · exact Operand.ofLexemes_treeAll os h.2 (fun t ht => hos t (.inr ht)) n hn

end

end Grammar

/-- The trees of a parsed text are made of lexemes. -/
theorem ofLexemes_of_parse {s : Bytes} {p : Program} (h : parse s = .ok p) {n : Node} (hn : n ∈ p) :
    n.OfLexemes := by
  obtain ⟨ts, hts, d, hd, rfl, rfl⟩ := parse_eq_ok_iff_derivation.mp h
  obtain ⟨f, hf, rfl⟩ := List.mem_map.mp hn
  have hlexemes : ∀ t ∈ d.tokens, IsLexeme t.kind t.text :=
    (Lexes.iff_tokens_eq.mpr hts : Lexes (.ofText s) d.tokens none).isLexeme
  exact Form.ofLexemes_tree f (hd f hf) fun t ht =>
    hlexemes t (List.mem_flatMap.mpr ⟨f, hf, ht⟩)

/-- The trees of a program as text, with a blank before it. -/
theorem Program.textAll_eq {p : Program} (h : p ≠ []) : Node.textAll p = blank :: p.text := by
  induction p with
  | nil => exact absurd rfl h
  | cons c cs ih =>
    rw [Node.textAll_cons]
    cases cs with
    | nil => simp [Program.text, spaced, Node.textAll]
    | cons c' cs =>
      rw [ih (List.cons_ne_nil c' cs)]
      simp [Program.text, spaced]

/-- Only the empty program has no text. -/
theorem Program.text_eq_nil_iff {p : Program} (hp : ∀ n ∈ p, n.OfLexemes) : p.text = [] ↔ p = [] := by
  refine ⟨fun htext => ?_, fun h => by rw [h]; rfl⟩
  by_contra hne
  obtain ⟨c, cs, rfl⟩ := List.exists_cons_of_ne_nil hne
  have hall := Program.textAll_eq hne
  rw [Node.textAll_cons, htext] at hall
  have hc : c.text = [] := (List.append_eq_nil_iff.mp (List.cons.inj hall).2).1
  exact (hp c List.mem_cons_self).text_ne_nil hc

/-- A program can be told from its text. -/
theorem Program.text_inj {p p' : Program} (hp : ∀ n ∈ p, n.OfLexemes) (hp' : ∀ n ∈ p', n.OfLexemes)
    (h : p.text = p'.text) : p.unplaced = p'.unplaced := by
  by_cases hnil : p = []
  · have hnil' : p' = [] := (text_eq_nil_iff hp').mp (h ▸ (text_eq_nil_iff hp).mpr hnil)
    rw [hnil, hnil']
  · have hnil' : p' ≠ [] := fun h' => hnil ((text_eq_nil_iff hp).mp (h ▸ (text_eq_nil_iff hp').mpr h'))
    have hcloses : Node.Closes [] := by simp [Node.Closes]
    have htexts : Node.textAll p ++ [] = Node.textAll p' ++ [] := by
      rw [textAll_eq hnil, textAll_eq hnil', h]
    exact (Node.textAll_inj (fun n hn => (hp n hn).separable) hp' hcloses hcloses htexts).1

/-- **The text of a parsed program is unambiguous.** If the trees of two texts are written in the same
way, they are equal but for their places: of the same shapes, with tokens of the same kinds and texts.
So the two texts are compiled to the same target, or have the same semantic fault. -/
theorem dump_is_unambiguous {s s' : Bytes} {p p' : Program} (hp : parse s = .ok p)
    (hp' : parse s' = .ok p') (h : p.text = p'.text) :
    p.unplaced = p'.unplaced ∧
      ((∃ target, compile s = .ok target ∧ compile s' = .ok target) ∨
        ∃ fault, compile s = .error (.semantic fault) ∧ compile s' = .error (.semantic fault)) := by
  have htrees : p.unplaced = p'.unplaced :=
    Program.text_inj (fun _ hn => ofLexemes_of_parse hp hn) (fun _ hn => ofLexemes_of_parse hp' hn) h
  refine ⟨htrees, ?_⟩
  rw [← compile_congr hp hp' htrees, compile_of_parse hp]
  rcases (generate p .empty).1 with fault | target
  · exact .inr ⟨fault, rfl, rfl⟩
  · exact .inl ⟨target, rfl, rfl⟩

/-- A minus sign before an operand is written as a form, and a string may hold what looks like one. -/
theorem dump_is_unambiguous_sign :
    ∃ p p' target, parse (utf8 "(let (x int))(:= x -5)(stdout \"a) (\")") = .ok p ∧
      parse (utf8 "(let (x int)) (:= x (- 5)) (stdout \"a) (\")") = .ok p' ∧ p.text = p'.text ∧
      p.unplaced = p'.unplaced ∧
      compile (utf8 "(let (x int))(:= x -5)(stdout \"a) (\")") = .ok target ∧
      compile (utf8 "(let (x int)) (:= x (- 5)) (stdout \"a) (\")") = .ok target := by
  have hrun : (compile (utf8 "(let (x int))(:= x -5)(stdout \"a) (\")")).toOption.isSome = true ∧
      (parse (utf8 "(let (x int))(:= x -5)(stdout \"a) (\")")).toOption.isSome = true ∧
      (parse (utf8 "(let (x int))(:= x -5)(stdout \"a) (\")")).toOption.map Program.text =
        (parse (utf8 "(let (x int)) (:= x (- 5)) (stdout \"a) (\")")).toOption.map Program.text := by
    decide +kernel
  obtain ⟨haccepted, hparsed, htexts⟩ := hrun
  obtain ⟨p, hp⟩ := Option.isSome_iff_exists.mp hparsed
  rw [hp, Option.map_some, eq_comm, Option.map_eq_some_iff] at htexts
  obtain ⟨p', hp', htext⟩ := htexts
  rw [toOption_eq_some_iff] at hp hp'
  obtain ⟨htrees, ⟨target, h, h'⟩ | ⟨fault, h, -⟩⟩ := dump_is_unambiguous hp hp' htext.symm
  · exact ⟨p, p', target, hp, hp', htext.symm, htrees, h, h'⟩
  · rw [h] at haccepted
    cases haccepted

end PrefixForth

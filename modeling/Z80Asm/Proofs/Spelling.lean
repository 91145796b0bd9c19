import Z80Asm.Proofs.Identifiers
import Z80Asm.Proofs.LineLabels
import Z80Asm.Proofs.Numerals
import Z80Asm.Proofs.Parsing

/-! How phrases of the grammar are spelt. A text that is put together from the spellings of the
parts of a phrase is read as that phrase, if no lexeme goes on into the next one. -/

namespace Z80Asm
set_option autoImplicit true

namespace Token

def Lexed.prepend (ts : List Token) (l : Lexed) : Lexed := { l with tokens := ts ++ l.tokens }

/-- The text is empty or begins with a character that ends every lexeme before it. -/
def Delimited (cs : List Char) : Prop := ∀ c ∈ cs.head?, c ∈ [' ', ',', '(', ')']

/-- No operator goes on into the text. -/
def Fresh (cs : List Char) : Prop := ∀ c ∈ cs.head?, c ∉ ['=', '&', '|', '<', '>']

theorem delimited_cons (h : c ∈ [' ', ',', '(', ')']) (cs : List Char) : Delimited (c :: cs) := by
  intro d hd
  cases hd
  exact h

theorem fresh_cons (h : c ∉ ['=', '&', '|', '<', '>']) (cs : List Char) : Fresh (c :: cs) := by
  intro d hd
  cases hd
  exact h

theorem Delimited.append (h : Delimited cs) (hrest : Delimited rest) : Delimited (cs ++ rest) := by
  cases cs with
  | nil => exact hrest
  | cons c cs => exact h

theorem Fresh.append (h : Fresh cs) (hrest : Fresh rest) : Fresh (cs ++ rest) := by
  cases cs with
  | nil => exact hrest
  | cons c cs => exact h

theorem Delimited.not_of_all {p : Char → Bool} (h : Delimited cs)
    (hp : [' ', ',', '(', ')'].all (!p ·) = true) : ∀ c ∈ cs.head?, p c = false := by
  intro c hc
  have hnot := List.all_eq_true.1 hp c (h c hc)
  rwa [Bool.not_eq_true'] at hnot

theorem Delimited.fresh (h : Delimited cs) : Fresh cs := by
  intro c hc
  have hnot := h.not_of_all (p := fun c => c ∈ ['=', '&', '|', '<', '>']) (by decide) c hc
  exact of_decide_eq_false hnot

/-- From the offset on the text is read as the tokens, if a delimiter or nothing follows. -/
def Spells (start : Nat) (cs : List Char) (ts : List Token) : Prop :=
  ∀ rest, Delimited rest →
    lexFrom start (cs ++ rest) = (lexFrom (start + cs.length) rest).prepend ts

theorem Spells.nil (start : Nat) : Spells start [] [] := fun _ _ => rfl

theorem Spells.append (h : Spells start cs ts) (h' : Spells (start + cs.length) ds us)
    (hds : Delimited ds) : Spells start (cs ++ ds) (ts ++ us) := by
  intro rest hrest
  rw [List.append_assoc, h _ (hds.append hrest), h' rest hrest, List.length_append, Nat.add_assoc]
  simp only [Lexed.prepend, List.append_assoc]

theorem Spells.space (h : Spells (start + 1) cs ts) : Spells start (' ' :: cs) ts := by
  intro rest hrest
  rw [List.cons_append, lexFrom, if_pos (by decide), h rest hrest, List.length_cons,
    Nat.add_right_comm, Nat.add_assoc]

def Kind.isSymbol (k : Kind) : Bool := k ∉ [.eof, .identifier, .number, .string]

theorem readLexeme_mark {start : Nat} (hc : c ∈ ['&', '|', '!', '<', '>'])
    (h : readOperator? c cs = some l) : readLexeme start c cs = .ok l := by
  have hall : ['&', '|', '!', '<', '>'].all (fun c => !isIdentStart c && !Text.isDigit c &&
    c ≠ '$' && c ≠ '"' && c ≠ '\'') = true := by decide
  have hclass := List.all_eq_true.1 hall c hc
  simp only [Bool.and_eq_true, Bool.not_eq_true', decide_eq_true_eq] at hclass
  simp [readLexeme, hclass, h]

theorem readLexeme_symbol (start : Nat) (hk : k.isSymbol = true) (hrest : Fresh rest) :
    ∃ c cs, k.name.toList = c :: cs ∧ Text.isSpace c = false ∧
      readLexeme start c (cs ++ rest) = .ok ⟨k, k.name, cs.length⟩ := by
  cases rest with
  | nil =>
    cases k with
    | eof | identifier | number | string => cases hk
    | _ => exact ⟨_, _, rfl, rfl, rfl⟩
  | cons d ds =>
    have hd := hrest d rfl
    simp only [List.mem_cons, not_or] at hd
    have hmark {c l} (hc : c ∈ ['&', '|', '!', '<', '>'])
        (h : readOperator? c (d :: ds) = some l) :
        readLexeme start c ([] ++ d :: ds) = .ok l := readLexeme_mark hc h
    cases k with
    | eof | identifier | number | string => cases hk
    | amp => exact ⟨'&', [], rfl, rfl, hmark (by decide) (by simp [readOperator?, hd, Kind.name])⟩
    | pipe => exact ⟨'|', [], rfl, rfl, hmark (by decide) (by simp [readOperator?, hd, Kind.name])⟩
    | bang => exact ⟨'!', [], rfl, rfl, hmark (by decide) (by simp [readOperator?, hd, Kind.name])⟩
    | less => exact ⟨'<', [], rfl, rfl, hmark (by decide) (by simp [readOperator?, hd, Kind.name])⟩
    | greater =>
      exact ⟨'>', [], rfl, rfl, hmark (by decide) (by simp [readOperator?, hd, Kind.name])⟩
    | _ => exact ⟨_, _, rfl, rfl, rfl⟩

theorem Spells.symbol (hk : k.isSymbol = true) (h : Spells (start + k.name.toList.length) cs ts)
    (hcs : Fresh cs) : Spells start (k.name.toList ++ cs) (⟨k, k.name, start⟩ :: ts) := by
  intro rest hrest
  obtain ⟨c, op, hname, hspace, hread⟩ := readLexeme_symbol start hk (hcs.append hrest.fresh)
  have hnext := h rest hrest
  rw [hname] at hnext ⊢
  rw [List.length_append, ← Nat.add_assoc, List.append_assoc, List.cons_append, lexFrom, hspace,
    if_neg Bool.false_ne_true, hread]
  simp only [List.drop_left]
  exact congrArg (Lexed.cons _) hnext

theorem Spells.between (h : Spells start cs ts) (hk : k.isSymbol = true)
    (h' : Spells (start + cs.length + 1 + k.name.toList.length + 1) ds us) :
    Spells start (cs ++ ' ' :: (k.name.toList ++ ' ' :: ds))
      (ts ++ ⟨k, k.name, start + cs.length + 1⟩ :: us) :=
  h.append (h'.space.symbol hk (fresh_cons (by decide) ds)).space (delimited_cons (by decide) _)

theorem Spells.parenthesised (h : Spells (start + 1) cs ts) (hcs : Fresh cs) :
    Spells start ('(' :: (cs ++ [')']))
      (⟨.lparen, "(", start⟩ :: (ts ++ [⟨.rparen, ")", start + 1 + cs.length⟩])) := by
  have hclosing : Spells (start + 1 + cs.length) [')'] [⟨.rparen, ")", start + 1 + cs.length⟩] :=
    Spells.symbol (k := .rparen) rfl (.nil _) nofun
  have hbody := h.append hclosing (delimited_cons (by decide) [])
  exact hbody.symbol (k := .lparen) rfl (hcs.append (fresh_cons (by decide) []))

theorem IsIdentifier.fresh (h : IsIdentifier x) : Fresh x.toList := by
  rcases h with rfl | h
  · exact fresh_cons (by decide) []
  · obtain ⟨c, cs, hcs, hc, -⟩ := Source.exists_of_isName h
    have hall : ['=', '&', '|', '<', '>'].all (!isIdentStart ·) = true := by decide
    rw [hcs]
    refine fresh_cons (fun hmem => ?_) cs
    have hnot := List.all_eq_true.1 hall c hmem
    rw [hc] at hnot
    cases hnot

theorem spells_identifier (h : IsIdentifier x) (start : Nat) :
    Spells start x.toList [⟨.identifier, x, start⟩] := by
  intro rest hrest
  rcases h with rfl | h
  · have hdigits : ([] ++ rest).takeWhile isHexDigit = [] :=
      takeWhile_append (List.forall_mem_nil _) (hrest.not_of_all (by decide))
    rw [List.nil_append] at hdigits
    have hlexeme : readLexeme start '$' rest = .ok ⟨.identifier, "$", 0⟩ := by
      rw [readLexeme, if_neg (by decide), if_neg (by decide), if_pos rfl, hdigits]
    change lexFrom start ('$' :: rest) = _
    rw [lexFrom, if_neg (by decide), hlexeme]
    rfl
  · obtain ⟨c, cs, hcs, hc, hpart⟩ := Source.exists_of_isName h
    rw [hcs] at hpart
    have hspace := (Source.part_plain (hpart c List.mem_cons_self)).1
    have htail : (cs ++ rest).takeWhile isIdentPart = cs :=
      takeWhile_append (List.forall_mem_cons.1 hpart).2 (hrest.not_of_all (by decide))
    have hx : String.ofList (c :: cs) = x := by rw [← hcs, String.ofList_toList]
    have hlexeme : readLexeme start c (cs ++ rest) = .ok ⟨.identifier, x, cs.length⟩ := by
      rw [readLexeme, if_pos hc]
      simp only [htail, hx]
    rw [hcs, List.cons_append, lexFrom, hspace, if_neg Bool.false_ne_true, hlexeme]
    simp only [List.drop_left]
    rfl

/-- A quotation shows the character as itself, or behind a backslash that the lexer knows. -/
def Readable (c : Char) : Prop := Text.isPrintable c = true ∨ c = '\n' ∨ c = '\r' ∨ c = '\t'

theorem escapeChar_readable (h : Readable c) :
    (∃ l, Text.escapeChar '"' c = ['\\', l] ∧ unescape? l = some c) ∨
      (Text.escapeChar '"' c = [c] ∧ c ≠ '\\' ∧ c ≠ '"') := by
  by_cases hquote : c = '"'
  · subst hquote
    exact .inl ⟨'"', rfl, rfl⟩
  · by_cases hslash : c = '\\'
    · subst hslash
      exact .inl ⟨'\\', rfl, rfl⟩
    · rcases h with h | rfl | rfl | rfl
      · exact .inr ⟨by simp [Text.escapeChar, hquote, hslash, h], hslash, hquote⟩
      · exact .inl ⟨'n', rfl, rfl⟩
      · exact .inl ⟨'r', rfl, rfl⟩
      · exact .inl ⟨'t', rfl, rfl⟩

theorem readBody_escaped {start : Nat} {cs : List Char} (h : ∀ c ∈ cs, Readable c)
    (pos : Nat) (rest : List Char) :
    readBody '"' start pos (cs.flatMap (Text.escapeChar '"') ++ '"' :: rest) =
      .ok (cs, (cs.flatMap (Text.escapeChar '"')).length + 1) := by
  induction cs generalizing pos with
  | nil => rfl
  | cons c cs ih =>
    obtain ⟨hc, hcs⟩ := List.forall_mem_cons.1 h
    rw [List.flatMap_cons, List.append_assoc]
    rcases escapeChar_readable hc with ⟨l, hl, hunescape⟩ | ⟨hl, hslash, hquote⟩
    · rw [hl]
      simp only [List.cons_append, List.nil_append, readBody, hunescape, ih hcs]
      rfl
    · rw [hl, List.singleton_append, readBody, if_neg hquote, ih hcs]
      · rfl
      · exact fun heq => absurd heq hslash
      · exact fun _ _ heq => absurd heq hslash

theorem spells_quote {s : String} (h : ∀ c ∈ s.toList, Readable c) (start : Nat) :
    Spells start (Text.quote s).toList [⟨.string, s, start⟩] := by
  intro rest hrest
  let body := s.toList.flatMap (Text.escapeChar '"')
  have htext : (Text.quote s).toList = '"' :: (body ++ ['"']) := by
    rw [Text.quote, Text.quoteWith, String.toList_ofList]
    rfl
  have hlexeme : readLexeme start '"' (body ++ '"' :: rest) =
      .ok ⟨.string, s, body.length + 1⟩ := by
    rw [readLexeme, if_neg (by decide), if_neg (by decide), if_neg (by decide), if_pos (by decide),
      readBody_escaped h]
    simp only [Except.map, String.ofList_toList, body]
  have hdrop : (body ++ '"' :: rest).drop (body.length + 1) = rest := by
    rw [← List.drop_drop, List.drop_left]
    rfl
  rw [htext, List.cons_append, List.append_assoc, List.singleton_append, lexFrom,
    if_neg (by decide), hlexeme]
  simp only [hdrop]
  simp [Lexed.prepend, Lexed.cons, Nat.add_assoc]

theorem spells_decimal {n : Nat} (hn : n < Number.wordLimit) (start : Nat) :
    ∃ t : Grammar.Numeral, t.value = Int64.ofNat n ∧
      Spells start (Nat.toDigits 10 n) [t.token] := by
  have hwrites := Number.writes_toDigits (by decide : 1 < 10) n
  obtain ⟨hparse, -⟩ := Number.Mark.none.reads hwrites hn
  rw [List.nil_append] at hparse
  refine ⟨⟨⟨.number, String.ofList (Nat.toDigits 10 n), start⟩, _, rfl, hparse⟩, rfl, ?_⟩
  intro rest hrest
  have hcontinues := hwrites.forall_continues (by decide)
  change lexFrom start (Nat.toDigits 10 n ++ rest) =
    Lexed.prepend [⟨.number, String.ofList (Nat.toDigits 10 n), start⟩] _
  obtain ⟨c, cs, hcs⟩ := List.exists_cons_of_ne_nil hwrites.ne_nil
  obtain ⟨d, hd, hdigit⟩ := hwrites.digits c (hcs ▸ List.mem_cons_self)
  rw [hcs] at hparse hcontinues ⊢
  exact lexFrom_number hd hdigit (List.forall_mem_cons.1 hcontinues).2
    (hrest.not_of_all (by decide)) hparse

end Token

namespace Grammar

open Token (Spells Fresh Delimited)

theorem Takes.identifier (h : Takes fn count) : Token.IsIdentifier fn ∧ Text.lower fn = fn := by
  have hlower (h : fn.toList.map Text.toLower = fn.toList) : Text.lower fn = fn := by
    rw [← String.toList_inj, Text.lower, String.toList_map, h]
  cases h <;> exact ⟨.inr (by decide), hlower (by decide)⟩

def symbol (k : Token.Kind) (pos : Nat) : Terminal k := ⟨⟨k, k.name, pos⟩, rfl⟩

/-- Wherever it stands, the text is read as a phrase with the tree. -/
structure Spelling (c : Category) (cs : List Char) (e : c.Tree) : Prop where
  fresh : Fresh cs
  phrase (start : Nat) : ∃ p : Phrase c, p.Admitted ∧ p.tree = e ∧ Spells start cs p.tokens

namespace Spelling

theorem looser (h : Spelling (.of Z) cs e) (X : Nonterminal) (hX : X.strength ≤ Z.strength) :
    Spelling (.of X) cs e := by
  refine ⟨h.fresh, fun start => ?_⟩
  obtain ⟨p, hp, rfl, hspells⟩ := h.phrase start
  obtain ⟨q, htokens, htree, hq⟩ := p.exists_of_tighter X hX
  exact ⟨q, hq hp, htree, htokens ▸ hspells⟩

theorem ternary {X : Nonterminal} (h : Spelling (.of X) cs e) : Spelling .ternary cs e := by
  have hloose := h.looser .logicalOr (by cases X <;> decide)
  refine ⟨h.fresh, fun start => ?_⟩
  obtain ⟨p, hp, rfl, hspells⟩ := hloose.phrase start
  exact ⟨.plain p, hp, rfl, hspells⟩

theorem bare (h : Spelling .primary cs e) : Spelling (.of .unary) cs e := by
  refine ⟨h.fresh, fun start => ?_⟩
  obtain ⟨p, hp, rfl, hspells⟩ := h.phrase start
  exact ⟨.bare p, hp, rfl, hspells⟩

theorem group (h : Spelling .ternary cs e) : Spelling .primary ('(' :: (cs ++ [')'])) e := by
  refine ⟨Token.fresh_cons (by decide) _, fun start => ?_⟩
  obtain ⟨p, hp, rfl, hspells⟩ := h.phrase (start + 1)
  refine ⟨.group (symbol .lparen start) p (symbol .rparen (start + 1 + cs.length)), ?_, rfl, ?_⟩
  · exact hp
  · exact hspells.parenthesised h.fresh

theorem unary (hop : op ∈ Nonterminal.unary.operators) (h : Spelling (.of .unary) cs e) :
    Spelling (.of .unary) (op.name.toList ++ cs) (Expr.unary op e) := by
  obtain ⟨hsymbol, hfresh⟩ : op.isSymbol = true ∧ Fresh (op.name.toList ++ cs) := by
    cases op <;>
      first
      | exact absurd hop (by decide)
      | exact ⟨rfl, Token.fresh_cons (by decide) cs⟩
  refine ⟨hfresh, fun start => ?_⟩
  obtain ⟨p, hp, rfl, hspells⟩ := h.phrase (start + op.name.toList.length)
  refine ⟨.unary ⟨⟨op, op.name, start⟩, hop⟩ p, ?_, rfl, ?_⟩
  · exact hp
  · exact hspells.symbol hsymbol h.fresh

theorem joined {X Y : Nonterminal} (hY : X.operand? = some Y) (hop : op ∈ X.operators)
    (h : Spelling (.of Y) cs e) (h' : Spelling (.of Y) ds e') :
    Spelling (.of X) (cs ++ ' ' :: (op.name.toList ++ ' ' :: ds)) (X.join op e e') := by
  have hall : ∀ k ∈ X.operators, k.isSymbol = true := by cases X <;> decide
  refine ⟨h.fresh.append (Token.fresh_cons (by decide) _), fun start => ?_⟩
  obtain ⟨p, hp, rfl, hspells⟩ := h.phrase start
  obtain ⟨q, hq, rfl, hspells'⟩ :=
    h'.phrase (start + cs.length + 1 + op.name.toList.length + 1)
  let t : Operator X := ⟨⟨op, op.name, start + cs.length + 1⟩, hop⟩
  refine ⟨.joined hY p (.more hY t q .done), ⟨hp, hq, trivial⟩, rfl, ?_⟩
  have htokens : (Phrase.joined hY p (.more hY t q .done)).tokens =
      p.tokens ++ t.1 :: q.tokens := by
    simp only [Phrase.tokens, List.append_nil]
  rw [htokens]
  exact hspells.between (hall op hop) hspells'

theorem choice (hc : Spelling (.of .unary) cs c) (hy : Spelling .ternary ds y)
    (hn : Spelling .ternary es n) :
    Spelling .ternary (cs ++ ' ' :: '?' :: ' ' :: (ds ++ ' ' :: ':' :: ' ' :: es))
      (Expr.ternary c y n) := by
  have hcond := hc.looser .logicalOr (by decide)
  refine ⟨hc.fresh.append (Token.fresh_cons (by decide) _), fun start => ?_⟩
  obtain ⟨p, hp, rfl, hspells⟩ := hcond.phrase start
  obtain ⟨q, hq, rfl, hspells'⟩ := hy.phrase (start + cs.length + 1 + 1 + 1)
  obtain ⟨r, hr, rfl, hspells''⟩ :=
    hn.phrase (start + cs.length + 1 + 1 + 1 + ds.length + 1 + 1 + 1)
  refine ⟨.choice p (symbol .question (start + cs.length + 1)) q
    (symbol .colon (start + cs.length + 1 + 1 + 1 + ds.length + 1)) r, ?_, rfl, ?_⟩
  · exact (⟨hp, hq, hr⟩ : p.Admitted ∧ q.Admitted ∧ r.Admitted)
  · exact hspells.between (k := .question) rfl (hspells'.between (k := .colon) rfl hspells'')

theorem number {n : Nat} (hn : n < Number.wordLimit) :
    Spelling .primary (Nat.toDigits 10 n) (Expr.num (Int64.ofNat n)) := by
  have hwrites := Number.writes_toDigits (by decide : 1 < 10) n
  have hfresh : ∀ c ∈ Nat.toDigits 10 n, c ∉ ['=', '&', '|', '<', '>'] :=
    hwrites.forall (by decide)
  refine ⟨fun c hc => hfresh c (List.mem_of_mem_head? hc), fun start => ?_⟩
  · obtain ⟨t, htree, hspells⟩ := Token.spells_decimal hn start
    exact ⟨.number t, trivial, congrArg Expr.num htree, hspells⟩

theorem string {s : String} (h : ∀ c ∈ s.toList, Token.Readable c) :
    Spelling .primary (Text.quote s).toList (Expr.str s) := by
  refine ⟨?_, fun start => ?_⟩
  · rw [Text.quote, Text.quoteWith, String.toList_ofList]
    exact Token.fresh_cons (by decide) _
  · exact ⟨.string ⟨⟨.string, s, start⟩, rfl⟩, trivial, rfl, Token.spells_quote h start⟩

theorem identifier (h : Token.IsIdentifier x) : Spelling .primary x.toList (Expr.ident x) := by
  refine ⟨h.fresh, fun start => ?_⟩
  exact ⟨.ident ⟨⟨.identifier, x, start⟩, rfl⟩, trivial, rfl, Token.spells_identifier h start⟩

theorem call (hfn : Takes fn args.length) (h : Spelling .arguments cs args) :
    Spelling .primary (fn.toList ++ '(' :: (cs ++ [')'])) (Expr.call fn args) := by
  obtain ⟨hname, hlower⟩ := hfn.identifier
  refine ⟨hname.fresh.append (Token.fresh_cons (by decide) _), fun start => ?_⟩
  obtain ⟨p, hp, rfl, hspells⟩ := h.phrase (start + fn.toList.length + 1)
  let t : Terminal .identifier := ⟨⟨.identifier, fn, start⟩, rfl⟩
  refine ⟨.call t (symbol .lparen (start + fn.toList.length)) p
    (symbol .rparen (start + fn.toList.length + 1 + cs.length)), ?_, ?_, ?_⟩
  · exact (⟨hlower.symm ▸ hfn, hp⟩ : Takes (Text.lower fn) _ ∧ p.Admitted)
  · exact congrArg (Expr.call · p.tree) hlower
  · exact (Token.spells_identifier hname start).append (hspells.parenthesised h.fresh)
      (Token.delimited_cons (by decide) _)

theorem noArguments : Spelling .arguments [] [] :=
  ⟨nofun, fun start => ⟨.noArguments, trivial, rfl, .nil start⟩⟩

theorem someArguments (h : Spelling .ternary cs e) (h' : Spelling .further ds es)
    (hds : Delimited ds) : Spelling .arguments (cs ++ ds) (e :: es) := by
  refine ⟨h.fresh.append h'.fresh, fun start => ?_⟩
  obtain ⟨p, hp, rfl, hspells⟩ := h.phrase start
  obtain ⟨q, hq, rfl, hspells'⟩ := h'.phrase (start + cs.length)
  exact ⟨.someArguments p q, ⟨hp, hq⟩, rfl, hspells.append hspells' hds⟩

theorem noFurther : Spelling .further [] [] :=
  ⟨nofun, fun start => ⟨.noFurther, trivial, rfl, .nil start⟩⟩

theorem another (h : Spelling .ternary cs e) (h' : Spelling .further ds es) (hds : Delimited ds) :
    Spelling .further (',' :: ' ' :: (cs ++ ds)) (e :: es) := by
  refine ⟨Token.fresh_cons (by decide) _, fun start => ?_⟩
  obtain ⟨p, hp, rfl, hspells⟩ := h.phrase (start + 1 + 1)
  obtain ⟨q, hq, rfl, hspells'⟩ := h'.phrase (start + 1 + 1 + cs.length)
  refine ⟨.another (symbol .comma start) p q, ⟨hp, hq⟩, rfl, ?_⟩
  exact (hspells.append hspells' hds).space.symbol (k := .comma) rfl
    (Token.fresh_cons (by decide) _)

/-- A text that is spelt as an expression is read as that expression. -/
theorem parse (h : Spelling .ternary s.toList e) : Expr.parse s = .ok e := by
  obtain ⟨p, hp, rfl, hspells⟩ := h.phrase 0
  let stop : Terminal .eof := ⟨⟨.eof, "", 0 + s.toList.length⟩, rfl⟩
  have hlex : Token.lex s = ⟨p.tokens ++ [stop.1], none⟩ := by
    have hall := hspells [] nofun
    rw [List.append_nil] at hall
    rw [Token.lex, hall, Token.lexFrom]
    rfl
  rw [Expr.parse, hlex]
  exact (⟨p, stop, hp, rfl⟩ : Derivation _).parseTokens_eq s

end Spelling

end Grammar
end Z80Asm

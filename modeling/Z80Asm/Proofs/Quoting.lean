import Z80Asm.Proofs.Parsing
import Z80Asm.Source.Line

/-! Which characters of an expression stand in its strings, as the lexer reads it and as lines are
cut. The two differ only at a question mark with an apostrophe directly behind it: there the cutting
of lines takes the apostrophe for the end of a name. -/

namespace Z80Asm
set_option autoImplicit true

namespace Grammar

/-- Names, numbers and strings do not stand directly behind a name or a number. -/
def Separate (t u : Token) : Prop :=
  u.kind ∈ [.identifier, .number, .string] → t.kind ≠ .identifier ∧ t.kind ≠ .number

theorem separate_terminal (t : Terminal k) (h : k ≠ .identifier ∧ k ≠ .number) (u : Token) :
    Separate t.1 u :=
  fun _ => t.2.symm ▸ h

theorem separate_operator (op : Operator X) (u : Token) : Separate op.1 u := by
  have hall : ∀ k ∈ X.operators, k ≠ .identifier ∧ k ≠ .number := by
    cases X <;> decide
  exact fun _ => hall op.1.kind op.2

theorem Ends.separate (h : Ends c rest) (hc : c.strength ≤ 13) (t : Token) :
    ∀ u ∈ rest.head?, Separate t u := by
  have hall : ∀ k ∈ [Token.Kind.identifier, .number, .string], strength k = 13 := by decide
  intro u hu hk
  have hlt := h u hu
  rw [hall u.kind hk] at hlt
  exact absurd (Nat.lt_of_lt_of_le hlt hc) (Nat.lt_irrefl _)

theorem Phrase.separate (p : Phrase c) (hr : Ends c rest) (h : rest.IsChain Separate) :
    (p.tokens ++ rest).IsChain Separate := by
  have hterminal {k : Token.Kind} (t : Terminal k) (hk : k ≠ .identifier ∧ k ≠ .number)
      {ts : List Token} (hts : ts.IsChain Separate) : (t.1 :: ts).IsChain Separate :=
    List.isChain_cons.2 ⟨fun u _ => separate_terminal t hk u, hts⟩
  have hoperator {X : Nonterminal} (op : Operator X) {ts : List Token}
      (hts : ts.IsChain Separate) : (op.1 :: ts).IsChain Separate :=
    List.isChain_cons.2 ⟨fun u _ => separate_operator op u, hts⟩
  induction p generalizing rest with
  | plain cond ih => exact ih (hr.mono (by decide)) h
  | choice cond question yes colon no ihc ihy ihn =>
    rw [tokens_choice_append]
    apply ihc (ends_terminal question (by decide) _)
    apply hterminal question (by decide)
    apply ihy (ends_terminal colon (by decide) _)
    exact hterminal colon (by decide) (ihn hr h)
  | joined hY first chain ihf ihc =>
    rw [tokens_joined_append]
    exact ihf (ends_chain hY chain hr) (ihc hr h)
  | done => exact h
  | more hY op right chain ihr ihc =>
    rw [tokens_more_append]
    exact hoperator op (ihr (ends_chain hY chain hr) (ihc hr h))
  | unary op operand ih => exact hoperator op (ih hr h)
  | bare e ih => exact ih hr h
  | number n => exact List.isChain_cons.2 ⟨hr.separate (Nat.le_refl _) n.token, h⟩
  | string t => exact hterminal t (by decide) h
  | ident t => exact List.isChain_cons.2 ⟨hr.separate (Nat.le_refl _) t.1, h⟩
  | call fn opening args closing ih =>
    rw [tokens_call_append]
    have hbody := ih (ends_terminal closing (by decide) rest) (hterminal closing (by decide) h)
    refine List.isChain_cons.2 ⟨fun u hu hk => ?_, hterminal opening (by decide) hbody⟩
    cases hu
    rw [opening.2] at hk
    exact absurd hk (by decide)
  | group opening e closing ih =>
    rw [tokens_group_append]
    apply hterminal opening (by decide)
    exact ih (ends_terminal closing (by decide) rest) (hterminal closing (by decide) h)
  | noArguments => exact h
  | someArguments first further ihf ihr =>
    rw [tokens_someArguments_append]
    exact ihf (ends_further further hr) (ihr hr h)
  | noFurther => exact h
  | another comma e further ihe ihr =>
    rw [tokens_another_append]
    exact hterminal comma (by decide) (ihe (ends_further further hr) (ihr hr h))

/-- The depth behind tokens of the given kinds, if all commas and closing parentheses among them
stand deeper than `low`. -/
def descend (low : Int) : Int → List Token.Kind → Option Int
  | depth, [] => some depth
  | depth, .lparen :: ks => descend low (depth + 1) ks
  | depth, .rparen :: ks => if low < depth then descend low (depth - 1) ks else none
  | depth, .comma :: ks => if low < depth then descend low depth ks else none
  | depth, _ :: ks => descend low depth ks

theorem descend_of_ne (h : k ≠ .lparen ∧ k ≠ .rparen ∧ k ≠ .comma) (low depth : Int)
    (ks : List Token.Kind) : descend low depth (k :: ks) = descend low depth ks := by
  obtain ⟨h₁, h₂, h₃⟩ := h
  cases k <;> first | rfl | contradiction

theorem descend_operator (op : Operator X) (low depth : Int) (ks : List Token.Kind) :
    descend low depth (op.1.kind :: ks) = descend low depth ks := by
  have hall : ∀ k ∈ X.operators, k ≠ .lparen ∧ k ≠ .rparen ∧ k ≠ .comma := by
    cases X <;> decide
  exact descend_of_ne (hall op.1.kind op.2) low depth ks

def Category.hasCommas : Category → Bool
  | .arguments | .further => true
  | .ternary | .of _ | .chain _ | .primary => false

theorem lt_of_hasCommas {c : Category} {low depth : Int} (h : c.hasCommas = false) :
    c.hasCommas = true → low < depth := by
  intro h'
  rw [h] at h'
  cases h'

/-- Parentheses are balanced in a phrase, and the commas of an expression stand in parentheses. -/
theorem Phrase.descend_tokens (p : Phrase c) (hlow : low ≤ depth)
    (hcommas : c.hasCommas = true → low < depth) (ks : List Token.Kind) :
    descend low depth (p.tokens.map Token.kind ++ ks) = descend low depth ks := by
  have hparens {depth : Int} (hlow : low ≤ depth) (ks : List Token.Kind) :
      descend low (depth + 1) (.rparen :: ks) = descend low depth ks := by
    rw [descend, if_pos (Int.lt_add_one_of_le hlow), Int.add_sub_cancel]
  induction p generalizing depth ks with
  | plain cond ih => exact ih hlow (lt_of_hasCommas rfl) ks
  | choice cond question yes colon no ihc ihy ihn =>
    simp only [tokens, List.map_append, List.map_cons, List.append_assoc, List.cons_append,
      question.2, colon.2]
    rw [ihc hlow (lt_of_hasCommas rfl), descend_of_ne (by decide),
      ihy hlow (lt_of_hasCommas rfl), descend_of_ne (by decide), ihn hlow (lt_of_hasCommas rfl)]
  | joined hY first chain ihf ihc =>
    rw [tokens, List.map_append, List.append_assoc, ihf hlow (lt_of_hasCommas rfl),
      ihc hlow (lt_of_hasCommas rfl)]
  | done => rfl
  | more hY op right chain ihr ihc =>
    simp only [tokens, List.map_append, List.map_cons, List.append_assoc, List.cons_append]
    rw [descend_operator op, ihr hlow (lt_of_hasCommas rfl), ihc hlow (lt_of_hasCommas rfl)]
  | unary op operand ih =>
    rw [tokens, List.map_cons, List.cons_append, descend_operator op,
      ih hlow (lt_of_hasCommas rfl)]
  | bare e ih => exact ih hlow (lt_of_hasCommas rfl) ks
  | number n => exact descend_of_ne (by rw [n.kind_eq]; decide) low depth ks
  | string t => exact descend_of_ne (by rw [t.2]; decide) low depth ks
  | ident t => exact descend_of_ne (by rw [t.2]; decide) low depth ks
  | call fn opening args closing ih =>
    simp only [tokens, List.map_append, List.map_cons, List.map_nil, List.append_assoc,
      List.cons_append, List.nil_append, fn.2, opening.2, closing.2]
    have hdeep := Int.lt_add_one_of_le hlow
    rw [descend_of_ne (by decide), descend, ih hdeep.le fun _ => hdeep, hparens hlow]
  | group opening e closing ih =>
    simp only [tokens, List.map_append, List.map_cons, List.map_nil, List.append_assoc,
      List.cons_append, List.nil_append, opening.2, closing.2]
    rw [descend, ih (Int.lt_add_one_of_le hlow).le (lt_of_hasCommas rfl), hparens hlow]
  | noArguments => rfl
  | someArguments first further ihf ihr =>
    rw [tokens, List.map_append, List.append_assoc, ihf hlow (lt_of_hasCommas rfl),
      ihr hlow hcommas]
  | noFurther => rfl
  | another comma e further ihe ihr =>
    simp only [tokens, List.map_append, List.map_cons, List.append_assoc, List.cons_append, comma.2]
    rw [descend, if_pos (hcommas rfl), ihe hlow (lt_of_hasCommas rfl), ihr hlow hcommas]

end Grammar

/-- What the order of tokens in an expression tells about its strings and parentheses. -/
theorem Expr.tokens_of_parse (h : parse src = .ok e) :
    (Token.lex src).error? = none ∧ 1 < (Token.lex src).tokens.length ∧
      (Token.lex src).tokens.IsChain Grammar.Separate ∧
      ∀ low depth, low ≤ depth →
        Grammar.descend low depth ((Token.lex src).tokens.map Token.kind) = some depth := by
  unfold parse at h
  dsimp only at h
  split at h
  · cases h
  · rename_i hlex
    obtain ⟨body, stop, hts, hstop, hbody⟩ := Token.lexFrom_ends hlex
    change (Token.lex src).tokens = body ++ [stop] at hts
    obtain ⟨d, -⟩ := Grammar.derivation_of_parseTokens hts hstop hbody h
    refine ⟨hlex, ?_, ?_, fun low depth hlow => ?_⟩
    · obtain ⟨t, ts, htokens, -⟩ := d.body.exists_head rfl
      rw [← d.tokens_eq, htokens, List.length_append, List.length_cons, List.length_singleton]
      omega
    · rw [← d.tokens_eq]
      exact d.body.separate (Grammar.ends_terminal d.stop (by decide) []) (List.isChain_singleton _)
    · rw [← d.tokens_eq, List.map_append, d.body.descend_tokens hlow nofun, List.map_singleton,
        d.stop.2]
      rfl

namespace Token

def delimiter? (m : Char × Bool) : Option Kind :=
  if m.2 then
    match m.1 with
    | '(' => some .lparen
    | ')' => some .rparen
    | ',' => some .comma
    | _ => none
  else none

def cutters : List Char := ['"', '\'', ';', '(', ')', ',']

theorem delimiter?_eq_none (h : c ∉ cutters) (outside : Bool) : delimiter? (c, outside) = none := by
  simp only [cutters, List.mem_cons, not_or] at h
  unfold delimiter?
  split
  · split
    · rename_i hc
      exact (h.2.2.2.1 hc).elim
    · rename_i hc
      exact (h.2.2.2.2.1 hc).elim
    · rename_i hc
      exact (h.2.2.2.2.2.1 hc).elim
    · rfl
  · rfl

/-- The characters of a lexeme that is no string: none begins a string or a comment, and the
delimiters among them are the lexeme. The last one may stand in a name only if the lexeme is a name,
a number or a question mark. -/
structure Plain (cs : List Char) (k : Kind) : Prop where
  unquoted : ∀ c ∈ cs, c ≠ '"' ∧ c ≠ '\'' ∧ c ≠ ';'
  delimiters : cs.filterMap (fun c => delimiter? (c, true)) =
    if k = .lparen ∨ k = .rparen ∨ k = .comma then [k] else []
  last : ∀ c ∈ cs.getLast?, isIdentPart (Source.lastByte c) = true →
    k = .identifier ∨ k = .number ∨ c = '?'

theorem plain_of_class {p : Char → Bool} (hp : cutters.all (!p ·) = true)
    (h : ∀ c ∈ cs, p c = true) (hk : k = .identifier ∨ k = .number) : Plain cs k := by
  have hnot (c : Char) (hc : c ∈ cs) : c ∉ cutters := by
    intro hcut
    have hnot := List.all_eq_true.1 hp c hcut
    rw [h c hc] at hnot
    cases hnot
  refine ⟨fun c hc => ?_, ?_, fun c _ _ => hk.imp_right .inl⟩
  · have hcut := hnot c hc
    simp only [cutters, List.mem_cons, not_or] at hcut
    exact ⟨hcut.1, hcut.2.1, hcut.2.2.1⟩
  · have hnone : cs.filterMap (fun c => delimiter? (c, true)) = [] := by
      rw [List.filterMap_eq_nil_iff]
      exact fun c hc => delimiter?_eq_none (hnot c hc) true
    rw [hnone]
    rcases hk with rfl | rfl
    · rfl
    · rfl

instance (cs : List Char) (k : Kind) : Decidable (Plain cs k) :=
  decidable_of_iff
    (cs.all (fun c => c ≠ '"' ∧ c ≠ '\'' ∧ c ≠ ';') = true ∧
      cs.filterMap (fun c => delimiter? (c, true)) =
        (if k = .lparen ∨ k = .rparen ∨ k = .comma then [k] else []) ∧
      cs.getLast?.all (fun c => isIdentPart (Source.lastByte c) = true →
        k = .identifier ∨ k = .number ∨ c = '?') = true) <| by
    simp only [List.all_eq_true, Option.all_eq_true, decide_eq_true_eq]
    exact ⟨fun h => ⟨h.1, h.2.1, h.2.2⟩, fun h => ⟨h.unquoted, h.delimiters, h.last⟩⟩

theorem plain_operators : ∀ p ∈ operators, p.2 ≠ .string ∧ Plain p.1 p.2 := by
  decide +kernel

/-- A lexeme is either a string in its quotes or made of plain characters. -/
theorem readLexeme_cases {start : Nat} (h : readLexeme start c cs = .ok l) :
    (l.kind = .string ∧ (c = '"' ∨ c = '\'') ∧
      ∃ body, readBody c start (start + 1) cs = .ok (body, l.extra)) ∨
    (l.kind ≠ .string ∧ Plain (c :: cs.take l.extra) l.kind) := by
  have htake (p : Char → Bool) (cs : List Char) :
      cs.take (cs.takeWhile p).length = cs.takeWhile p :=
    (List.prefix_iff_eq_take.1 (List.takeWhile_prefix p)).symm
  cases lexes_of_readLexeme h with
  | name hc =>
    refine .inr ⟨nofun, plain_of_class (p := isIdentPart) (by decide) ?_ (.inl rfl)⟩
    rw [htake]
    refine List.forall_mem_cons.2 ⟨?_, fun d hd => List.mem_takeWhile_imp hd⟩
    unfold isIdentPart
    rw [hc]
    rfl
  | number hc htail =>
    subst htail
    refine .inr ⟨nofun, plain_of_class (p := fun d => Text.isLetter d || Text.isDigit d)
      (by decide) ?_ (.inr rfl)⟩
    rw [htake]
    refine List.forall_mem_cons.2 ⟨?_, fun d => List.mem_takeWhile_imp⟩
    rw [hc, Bool.or_true]
  | here =>
    exact .inr ⟨nofun, plain_of_class (p := fun d => d = '$') (by decide)
      (List.forall_mem_singleton.2 (decide_eq_true rfl)) (.inl rfl)⟩
  | dollarNumber =>
    refine .inr ⟨nofun, plain_of_class (p := fun d => d = '$' || isHexDigit d)
      (by decide) ?_ (.inr rfl)⟩
    rw [htake]
    refine List.forall_mem_cons.2 ⟨rfl, fun d hd => ?_⟩
    rw [Bool.or_eq_true]
    exact .inr (List.mem_takeWhile_imp hd)
  | string hc hbody => exact .inl ⟨rfl, hc, _, hbody⟩
  | operator hop => exact .inr (plain_operators _ (mem_operators hop))

def spaceCodes : List Nat :=
  [0x20, 0x09, 0x0A, 0x0B, 0x0C, 0x0D, 0x85, 0xA0, 0x1680, 0x2000, 0x2001, 0x2002, 0x2003, 0x2004,
    0x2005, 0x2006, 0x2007, 0x2008, 0x2009, 0x200A, 0x2028, 0x2029, 0x202F, 0x205F, 0x3000]

theorem mem_spaceCodes (h : Text.isSpace c = true) : c.toNat ∈ spaceCodes := by
  unfold Text.isSpace Text.inRanges Text.wideSpaces at h
  split at h
  · simp only [Bool.or_eq_true, Bool.and_eq_true, decide_eq_true_eq] at h
    simp only [spaceCodes, List.mem_cons, List.not_mem_nil, or_false]
    omega
  · simp only [List.any_cons, List.any_nil, Bool.or_eq_true, Bool.and_eq_true, decide_eq_true_eq,
      Bool.or_false] at h
    simp only [spaceCodes, List.mem_cons, List.not_mem_nil, or_false]
    omega

theorem space_plain (h : Text.isSpace c = true) :
    c ≠ '?' ∧ c ∉ cutters ∧ isIdentPart (Source.lastByte c) = false := by
  have hall : spaceCodes.all (fun n => Char.ofNat n ≠ '?' ∧ Char.ofNat n ∉ cutters ∧
      isIdentPart (Source.lastByte (Char.ofNat n)) = false) = true := by
    decide +kernel
  have hc := of_decide_eq_true (List.all_eq_true.1 hall c.toNat (mem_spaceCodes h))
  rwa [Char.ofNat_toNat] at hc

/-- Pairs every character of a text, up to the first fault, with whether it stands outside of the
strings that are read from it. -/
def marksFrom (pos : Nat) : List Char → List (Char × Bool)
  | [] => []
  | c :: cs =>
    if Text.isSpace c then (c, true) :: marksFrom (pos + 1) cs
    else match readLexeme pos c cs with
      | .error _ => []
      | .ok l => (c :: cs.take l.extra).map (·, l.kind != .string) ++
          marksFrom (pos + l.extra + 1) (cs.drop l.extra)
termination_by cs => cs.length
decreasing_by
  · exact Nat.lt_succ_self _
  · rw [List.length_drop, List.length_cons]
    omega

def marks (cs : List Char) : List (Char × Bool) := marksFrom 0 cs

theorem marksFrom_space (h : Text.isSpace c = true) (pos : Nat) (cs : List Char) :
    marksFrom pos (c :: cs) = (c, true) :: marksFrom (pos + 1) cs := by
  rw [marksFrom, if_pos h]

theorem marksFrom_lexeme {pos : Nat} (h : ¬ Text.isSpace c = true)
    (hl : readLexeme pos c cs = .ok l) :
    marksFrom pos (c :: cs) = (c :: cs.take l.extra).map (·, l.kind != .string) ++
      marksFrom (pos + l.extra + 1) (cs.drop l.extra) := by
  rw [marksFrom, if_neg h, hl]

theorem map_fst_marksFrom {start : Nat} (h : (lexFrom start cs).error? = none) :
    (marksFrom start cs).map Prod.fst = cs := by
  fun_induction lexFrom start cs with
  | case1 pos =>
    rw [marksFrom]
    rfl
  | case2 pos c cs hspace ih =>
    rw [marksFrom_space hspace, List.map_cons, ih h]
  | case3 pos c cs hspace e he => cases h
  | case4 pos c cs hspace l hl ih =>
    rw [marksFrom_lexeme hspace hl, List.map_append, ih h, List.map_map]
    change (c :: cs.take l.extra).map id ++ cs.drop l.extra = c :: cs
    rw [List.map_id, List.cons_append, List.take_append_drop]

theorem length_lexFrom_spaces {start : Nat} (h : ∀ c ∈ cs, Text.isSpace c = true) :
    (lexFrom start cs).tokens.length = 1 := by
  induction cs generalizing start with
  | nil =>
    rw [lexFrom]
    rfl
  | cons c cs ih =>
    obtain ⟨hc, hcs⟩ := List.forall_mem_cons.1 h
    rw [lexFrom, if_pos hc]
    exact ih hcs

theorem not_comment_of_readLexeme {start : Nat} (hl : readLexeme start c cs = .ok l) :
    (';', true) ∉ (c :: cs.take l.extra).map (·, l.kind != .string) := by
  intro hmem
  obtain ⟨d, hd, he⟩ := List.mem_map.1 hmem
  rcases readLexeme_cases hl with ⟨hk, -⟩ | ⟨-, hplain⟩
  · rw [hk] at he
    cases he
  · exact (hplain.unquoted d hd).2.2 (Prod.mk.inj he).1

theorem delimiters_of_readLexeme {start : Nat} (hl : readLexeme start c cs = .ok l) :
    ((c :: cs.take l.extra).map (·, l.kind != .string)).filterMap delimiter? =
      if l.kind = .lparen ∨ l.kind = .rparen ∨ l.kind = .comma then [l.kind] else [] := by
  rw [List.filterMap_map]
  rcases readLexeme_cases hl with ⟨hk, -⟩ | ⟨hk, hplain⟩
  · rw [hk, if_neg (by decide), List.filterMap_eq_nil_iff]
    exact fun _ _ => rfl
  · rw [bne_iff_ne.2 hk]
    exact hplain.delimiters

theorem descend_delimiter {ks ks' : List Kind}
    (h : ∀ low depth, Grammar.descend low depth ks = Grammar.descend low depth ks') (k : Kind)
    (low depth : Int) :
    Grammar.descend low depth ((if k = .lparen ∨ k = .rparen ∨ k = .comma then [k] else []) ++ ks) =
      Grammar.descend low depth (k :: ks') := by
  split
  · rename_i hk
    rcases hk with rfl | rfl | rfl
    · exact h low (depth + 1)
    · simp only [List.singleton_append, Grammar.descend, h]
    · simp only [List.singleton_append, Grammar.descend, h]
  · rename_i hk
    simp only [not_or] at hk
    rw [Grammar.descend_of_ne hk]
    exact h low depth

/-- Outside of strings there is no comment, and the delimiters are tokens. -/
theorem delimiters_marksFrom {start : Nat} (h : (lexFrom start cs).error? = none) :
    (';', true) ∉ marksFrom start cs ∧
      ∀ low depth, Grammar.descend low depth ((marksFrom start cs).filterMap delimiter?) =
        Grammar.descend low depth ((lexFrom start cs).tokens.map kind) := by
  fun_induction lexFrom start cs with
  | case1 pos =>
    rw [marksFrom]
    exact ⟨List.not_mem_nil, fun _ _ => rfl⟩
  | case2 pos c cs hspace ih =>
    obtain ⟨hnone, hdepth⟩ := ih h
    obtain ⟨-, hcut, -⟩ := space_plain hspace
    rw [marksFrom_space hspace]
    refine ⟨?_, fun low depth => ?_⟩
    · rw [List.mem_cons, not_or]
      refine ⟨fun hc => hcut ?_, hnone⟩
      rw [← (Prod.mk.inj hc).1]
      decide
    · rw [List.filterMap_cons_none (delimiter?_eq_none hcut true), hdepth]
  | case3 pos c cs hspace e he => cases h
  | case4 pos c cs hspace l hl ih =>
    obtain ⟨hnone, hdepth⟩ := ih h
    rw [marksFrom_lexeme hspace hl]
    refine ⟨fun hmem => ?_, fun low depth => ?_⟩
    · exact (List.mem_append.1 hmem).elim (not_comment_of_readLexeme hl) hnone
    · rw [List.filterMap_append, delimiters_of_readLexeme hl]
      exact descend_delimiter hdepth l.kind low depth

end Token
namespace Source

theorem markFrom_plain (h : ∀ c ∈ cs, c ≠ '"' ∧ c ≠ '\'') (previous? : Option Char)
    (rest : List Char) :
    markFrom previous? none (cs ++ rest) =
      cs.map (·, true) ++ markFrom (cs.getLast?.or previous?) none rest := by
  induction cs generalizing previous? with
  | nil => rfl
  | cons c cs ih =>
    obtain ⟨⟨hdouble, hsingle⟩, hcs⟩ := List.forall_mem_cons.1 h
    have hopens : opensLiteral previous? c = false := by
      unfold opensLiteral
      rw [decide_eq_false hdouble, decide_eq_false hsingle]
      rfl
    have hlast : (c :: cs).getLast?.or previous? = cs.getLast?.or (some c) := by
      rw [List.getLast?_cons, Option.or_some]
      rfl
    rw [List.cons_append, markFrom, hopens, ih hcs, hlast]
    rfl

theorem markFrom_quoted (h : c ≠ '\\') (previous? : Option Char) (quote : Char) (cs : List Char) :
    markFrom previous? (some quote) (c :: cs) =
      (c, false) :: markFrom (some c) (if c = quote then none else some quote) cs := by
  conv_lhs => unfold markFrom
  exact if_neg h

theorem markFrom_body {quote : Char} {start pos : Nat}
    (h : Token.readBody quote start pos cs = .ok (body, n)) (previous? : Option Char)
    (rest : List Char) :
    markFrom previous? (some quote) (cs ++ rest) =
        (cs.take n).map (·, false) ++ markFrom (some quote) none (cs.drop n ++ rest) ∧
      (cs.take n).getLast? = some quote := by
  have hclear {c : Char} {cs : List Char} (hend : c = '\\' → cs = [] → False)
      (hescape : ∀ e cs', c = '\\' → cs = e :: cs' → False) : c ≠ '\\' := by
    intro hc
    cases cs with
    | nil => exact hend hc rfl
    | cons e cs => exact hescape e cs hc rfl
  fun_induction Token.readBody quote start pos cs generalizing body n previous? with
  | case1 pos => cases h
  | case2 pos => cases h
  | case3 pos e cs he => cases h
  | case4 pos e cs c he ih =>
    cases hb : Token.readBody quote start (pos + 2) cs with
    | error err =>
      rw [hb] at h
      cases h
    | ok r =>
      rw [hb] at h
      cases h
      obtain ⟨hmarks, hlast⟩ := ih hb (some e)
      refine ⟨?_, ?_⟩
      · rw [List.cons_append, List.cons_append, markFrom, if_pos rfl]
        rw [hmarks]
        rfl
      · rw [List.take_succ_cons, List.take_succ_cons, List.getLast?_cons, List.getLast?_cons,
          hlast]
        rfl
  | case5 pos cs hescape hend =>
    cases h
    refine ⟨?_, rfl⟩
    rw [List.cons_append, markFrom_quoted (hclear hescape hend), if_pos rfl]
    rfl
  | case6 pos c cs hend hescape hquote ih =>
    cases hb : Token.readBody quote start (pos + 1) cs with
    | error err =>
      rw [hb] at h
      cases h
    | ok r =>
      rw [hb] at h
      cases h
      obtain ⟨hmarks, hlast⟩ := ih hb (some c)
      refine ⟨?_, ?_⟩
      · rw [List.cons_append, markFrom_quoted (hclear hend hescape), if_neg hquote, hmarks]
        rfl
      · rw [List.take_succ_cons, List.getLast?_cons, hlast]
        rfl

def tightChoice : List (Char × Bool) := [('?', true), ('\'', false)]

theorem tightChoice_append_of_quoted (cs : List Char) (ms : List (Char × Bool)) :
    tightChoice <:+: cs.map (·, false) ++ ms ↔ tightChoice <:+: ms := by
  induction cs with
  | nil => rfl
  | cons c cs ih =>
    rw [List.map_cons, List.cons_append, List.infix_cons_iff, ih]
    refine ⟨fun h => h.resolve_left fun hprefix => ?_, .inr⟩
    cases (List.cons_prefix_cons.1 hprefix).1

theorem tightChoice_cons_of_ne (h : c ≠ '?') (ms : List (Char × Bool)) :
    tightChoice <:+: (c, true) :: ms ↔ tightChoice <:+: ms := by
  rw [List.infix_cons_iff]
  refine ⟨fun hi => hi.resolve_left fun hprefix => h ?_, .inr⟩
  exact (Prod.mk.inj (List.cons_prefix_cons.1 hprefix).1).1.symm

theorem tightChoice_append (hcs : cs ≠ []) (ms : List (Char × Bool)) :
    tightChoice <:+: cs.map (·, true) ++ ms ↔
      (cs.getLast? = some '?' ∧ ms.head? = some ('\'', false)) ∨ tightChoice <:+: ms := by
  induction cs with
  | nil => exact (hcs rfl).elim
  | cons c cs ih =>
    rw [List.map_cons, List.cons_append, List.infix_cons_iff, tightChoice, List.cons_prefix_cons]
    cases cs with
    | nil =>
      have hhead : [('\'', false)] <+: ms ↔ ms.head? = some ('\'', false) := by
        cases ms with
        | nil => simp
        | cons m ms => simp [List.cons_prefix_cons, eq_comm]
      have hlast : ('?', true) = (c, true) ↔ [c].getLast? = some '?' := by
        simp [eq_comm]
      rw [List.map_nil, List.nil_append, hhead, hlast]
    | cons d cs =>
      have hrest := ih (List.cons_ne_nil d cs)
      rw [tightChoice] at hrest
      rw [hrest, List.getLast?_cons_cons]
      refine ⟨fun h => h.resolve_left fun hprefix => ?_, .inr⟩
      cases (List.cons_prefix_cons.1 hprefix.2).1

theorem lexFrom_apostrophe {start : Nat} (h : (Token.lexFrom start ('\'' :: cs)).error? = none) :
    (∃ t ts, (Token.lexFrom start ('\'' :: cs)).tokens = t :: ts ∧ t.kind = .string) ∧
      (Token.marksFrom start ('\'' :: cs)).head? = some ('\'', false) := by
  have hspace : ¬ Text.isSpace '\'' = true := by decide
  rw [Token.lexFrom, if_neg hspace] at h ⊢
  cases hl : Token.readLexeme start '\'' cs with
  | error e =>
    rw [hl] at h
    cases h
  | ok l =>
    rw [Token.marksFrom_lexeme hspace hl]
    rcases Token.readLexeme_cases hl with ⟨hk, -⟩ | ⟨-, hplain⟩
    · refine ⟨⟨_, _, rfl, hk⟩, ?_⟩
      rw [hk]
      rfl
    · exact ((hplain.unquoted '\'' List.mem_cons_self).2.1 rfl).elim

theorem head?_marksFrom {start : Nat} (h : (Token.lexFrom start cs).error? = none) :
    (Token.marksFrom start cs).head? = some ('\'', false) ↔ cs.head? = some '\'' := by
  constructor
  · intro hm
    have hfst := congrArg List.head? (Token.map_fst_marksFrom h)
    rw [List.head?_map, hm] at hfst
    exact hfst.symm
  · intro hc
    obtain ⟨ds, rfl⟩ := List.head?_eq_some_iff.1 hc
    exact (lexFrom_apostrophe h).2

/-- A string is marked as one, unless its opening apostrophe stands behind a question mark. -/
theorem markFrom_string {start : Nat} (hquote : c = '"' ∨ c = '\'')
    (hbody : Token.readBody c start (start + 1) cs = .ok (body, extra))
    (hprevious : c = '\'' →
      (previous?.any fun p => isIdentPart (lastByte p)) = true → previous? = some '?')
    (rest : List Char) (tail : List (Char × Bool)) :
    markFrom previous? none (c :: cs ++ rest) = (c :: cs.take extra).map (·, false) ++ tail ↔
      ¬ (previous? = some '?' ∧ c = '\'') ∧
        markFrom (some c) none (cs.drop extra ++ rest) = tail := by
  cases hopens : opensLiteral previous? c with
  | true =>
    have hopened : ¬ (previous? = some '?' ∧ c = '\'') := by
      rintro ⟨rfl, rfl⟩
      exact absurd hopens (by decide)
    have hwhole : markFrom previous? none (c :: cs ++ rest) =
        (c :: cs.take extra).map (·, false) ++ markFrom (some c) none (cs.drop extra ++ rest) := by
      rw [List.cons_append, markFrom, hopens, (markFrom_body hbody (some c) rest).1]
      rfl
    rw [hwhole, List.append_cancel_left_eq, and_iff_right hopened]
  | false =>
    -- the apostrophe stands behind a question mark, and is not taken for a quote
    unfold opensLiteral at hopens
    rw [Bool.or_eq_false_iff, decide_eq_false_iff_not] at hopens
    obtain ⟨hdouble, hsingle⟩ := hopens
    obtain rfl := hquote.resolve_left hdouble
    have hany : (previous?.any fun p => isIdentPart (lastByte p)) = true := by
      rw [decide_eq_true rfl, Bool.true_and, Bool.not_eq_false'] at hsingle
      exact hsingle
    have hprev := hprevious rfl hany
    refine iff_of_false (fun heq => ?_) fun h => h.1 ⟨hprev, rfl⟩
    have hclosed : opensLiteral previous? '\'' = false := by
      rw [hprev]
      decide
    rw [List.cons_append, markFrom, hclosed] at heq
    cases (List.cons.inj heq).1

theorem getLast?_string {start : Nat}
    (hbody : Token.readBody c start (start + 1) cs = .ok (body, extra)) :
    (c :: cs.take extra).getLast? = some c := by
  rw [List.getLast?_cons, (markFrom_body hbody (some c) []).2]
  rfl

/-- A lexeme before a string does not end as a name may, unless it is a question mark. -/
theorem last_of_apostrophe {pos : Nat}
    (hlast : isIdentPart (lastByte p) = true → k = .identifier ∨ k = .number ∨ p = '?')
    (hlex : (Token.lexFrom pos cs).error? = none)
    (hbefore : ∀ t ∈ (Token.lexFrom pos cs).tokens.head?, Grammar.Separate ⟨k, text, start⟩ t)
    (hnext : cs.head? = some '\'')
    (hpart : ((some p).any fun p => isIdentPart (lastByte p)) = true) : some p = some '?' := by
  obtain ⟨ds, rfl⟩ := List.head?_eq_some_iff.1 hnext
  obtain ⟨⟨t, ts, htokens, ht⟩, -⟩ := lexFrom_apostrophe hlex
  rw [htokens] at hbefore
  obtain ⟨hname, hnumber⟩ := hbefore t rfl (by rw [ht]; decide)
  rcases hlast hpart with hk | hk | hk
  · exact (hname hk).elim
  · exact (hnumber hk).elim
  · rw [hk]

/-- Behind `previous?`, the text is cut by what the lexer reads as strings. -/
def Agrees (start : Nat) (cs rest : List Char) (previous? : Option Char) : Prop :=
  markFrom previous? none (cs ++ rest) =
    Token.marksFrom start cs ++ markFrom (cs.getLast?.or previous?) none rest

theorem getLast?_append_or (cs cs' : List Char) (previous? : Option Char) :
    (cs ++ cs').getLast?.or previous? = cs'.getLast?.or (cs.getLast?.or previous?) := by
  rw [List.getLast?_append, Option.or_assoc]

theorem agrees_space {start : Nat} (hspace : Text.isSpace c = true) (previous? : Option Char) :
    Agrees start (c :: cs) rest previous? ↔ Agrees (start + 1) cs rest (some c) := by
  obtain ⟨-, hcut, -⟩ := Token.space_plain hspace
  have hunquoted : ∀ d ∈ [c], d ≠ '"' ∧ d ≠ '\'' := by
    simp only [Token.cutters, List.mem_cons, not_or] at hcut
    exact List.forall_mem_singleton.2 ⟨hcut.1, hcut.2.1⟩
  have hmarks := markFrom_plain hunquoted previous? (cs ++ rest)
  have hend := getLast?_append_or [c] cs previous?
  rw [List.singleton_append] at hmarks hend
  rw [Agrees, List.cons_append, hmarks, hend, Token.marksFrom_space hspace]
  exact List.cons_inj_right (c, true)

section
variable {start : Nat} {l : Token.Lexeme}

theorem getLast?_lexeme (c : Char) (cs : List Char) (l : Token.Lexeme) (previous? : Option Char) :
    (c :: cs).getLast?.or previous? = (cs.drop l.extra).getLast?.or
      ((c :: cs.take l.extra).getLast?.or previous?) := by
  rw [← getLast?_append_or, List.cons_append, List.take_append_drop]

theorem agrees_string (hspace : ¬ Text.isSpace c = true)
    (hl : Token.readLexeme start c cs = .ok l) (hk : l.kind = .string)
    (hquote : c = '"' ∨ c = '\'')
    (hbody : Token.readBody c start (start + 1) cs = .ok (body, l.extra))
    (hprevious : c = '\'' →
      (previous?.any fun p => isIdentPart (lastByte p)) = true → previous? = some '?') :
    Agrees start (c :: cs) rest previous? ↔ ¬ (previous? = some '?' ∧ c = '\'') ∧
      Agrees (start + l.extra + 1) (cs.drop l.extra) rest (some c) := by
  have hinside : (l.kind != .string) = false := by
    rw [hk]
    rfl
  rw [Agrees, getLast?_lexeme c cs l, Token.marksFrom_lexeme hspace hl, List.append_assoc, hinside,
    getLast?_string hbody, Option.some_or]
  exact markFrom_string hquote hbody hprevious rest _

theorem agrees_plain (hspace : ¬ Text.isSpace c = true)
    (hl : Token.readLexeme start c cs = .ok l) (hk : l.kind ≠ .string)
    (hplain : Token.Plain (c :: cs.take l.extra) l.kind)
    (hp : (c :: cs.take l.extra).getLast? = some p) (previous? : Option Char) :
    Agrees start (c :: cs) rest previous? ↔
      Agrees (start + l.extra + 1) (cs.drop l.extra) rest (some p) := by
  have hunquoted (d : Char) (hd : d ∈ c :: cs.take l.extra) : d ≠ '"' ∧ d ≠ '\'' :=
    ⟨(hplain.unquoted d hd).1, (hplain.unquoted d hd).2.1⟩
  have hmarks := markFrom_plain hunquoted previous? (cs.drop l.extra ++ rest)
  rw [← List.append_assoc, List.cons_append, List.take_append_drop] at hmarks
  rw [Agrees, hmarks, getLast?_lexeme c cs l, Token.marksFrom_lexeme hspace hl, List.append_assoc,
    bne_iff_ne.2 hk, List.append_cancel_left_eq, hp, Option.some_or]
  rfl

end

/-- Lines are cut by what the lexer reads as strings exactly if no choice is tight. -/
theorem agrees_iff {start : Nat} (hlex : (Token.lexFrom start cs).error? = none)
    (hseparate : (Token.lexFrom start cs).tokens.IsChain Grammar.Separate) (previous? : Option Char)
    (hprevious : cs.head? = some '\'' →
      (previous?.any fun p => isIdentPart (lastByte p)) = true → previous? = some '?')
    (rest : List Char) :
    Agrees start cs rest previous? ↔ ¬ (previous? = some '?' ∧ cs.head? = some '\'') ∧
      ¬ tightChoice <:+: Token.marksFrom start cs := by
  fun_induction Token.lexFrom start cs generalizing previous? with
  | case1 pos =>
    rw [Agrees, Token.marksFrom]
    simp [tightChoice]
  | case2 pos c cs hspace ih =>
    obtain ⟨hquestion, hcut, hpart⟩ := Token.space_plain hspace
    have hhead : (c :: cs).head? ≠ some '\'' := by
      rintro hc
      rw [Option.some.inj hc] at hcut
      exact hcut (by decide)
    rw [agrees_space hspace, Token.marksFrom_space hspace, tightChoice_cons_of_ne hquestion]
    refine (ih hlex hseparate (some c) fun _ hany => ?_).trans (and_congr_left fun _ => ?_)
    · rw [Option.any_some, hpart] at hany
      cases hany
    · exact ⟨fun _ h => hhead h.2, fun _ h => hquestion (Option.some.inj h.1)⟩
  | case3 pos c cs hspace e he => cases hlex
  | case4 pos c cs hspace l hl ih =>
    obtain ⟨hbefore, hchain⟩ := List.isChain_cons.1 hseparate
    rw [Token.marksFrom_lexeme hspace hl]
    rcases Token.readLexeme_cases hl with ⟨hk, hquote, body, hbody⟩ | ⟨hk, hplain⟩
    · have hpart : isIdentPart (lastByte c) = false ∧ c ≠ '?' := by
        rcases hquote with rfl | rfl
        · decide
        · decide
      have hrest := ih hlex hchain (some c) fun _ hany => by
        rw [Option.any_some, hpart.1] at hany
        cases hany
      rw [agrees_string hspace hl hk hquote hbody (hprevious ∘ congrArg some), hrest, hk,
        bne_self_eq_false, tightChoice_append_of_quoted, List.head?_cons, Option.some_inj,
        Option.some_inj]
      exact and_congr_right fun _ => and_iff_right fun h => hpart.2 h.1
    · obtain ⟨p, hp⟩ : ∃ p, (c :: cs.take l.extra).getLast? = some p :=
        ⟨_, List.getLast?_eq_some_getLast (List.cons_ne_nil _ _)⟩
      have hhead : (c :: cs).head? ≠ some '\'' := fun hc =>
        (hplain.unquoted c List.mem_cons_self).2.1 (Option.some.inj hc)
      have hnext := last_of_apostrophe (hplain.last p hp) hlex hbefore
      rw [agrees_plain hspace hl hk hplain hp, ih hlex hchain (some p) hnext, bne_iff_ne.2 hk,
        tightChoice_append (List.cons_ne_nil _ _), head?_marksFrom hlex, hp, not_or]
      exact ⟨fun h => ⟨fun hprev => hhead hprev.2, h⟩, fun h => h.2⟩

end Source
end Z80Asm

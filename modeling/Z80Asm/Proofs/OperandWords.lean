import Z80Asm.Proofs.Numerals
import Z80Asm.Proofs.OperandSites

/-! The operands of instructions that are read without problems. Words are recognised in any
spacing: an operand is malformed exactly if white space stands inside of its word. -/

namespace Z80Asm
set_option autoImplicit true

namespace Token

/-- The text does not begin an expression: it is not read, or as tokens that none has in a row. -/
def Clashing (start : Nat) (cs : List Char) : Prop :=
  (lexFrom start cs).error? = none → ¬ (lexFrom start cs).tokens.IsChain Grammar.Separate

theorem Clashing.lexeme (hspace : Text.isSpace c = false) (hread : readLexeme start c cs = .ok l)
    (h : Clashing (start + l.extra + 1) (cs.drop l.extra)) : Clashing start (c :: cs) := by
  intro hlex hchain
  rw [lexFrom, hspace, if_neg Bool.false_ne_true, hread] at hlex hchain
  exact h hlex (List.isChain_cons.1 hchain).2

theorem lexFrom_spaces (h : ∀ c ∈ spaces, Text.isSpace c = true) (start : Nat) (cs : List Char) :
    lexFrom start (spaces ++ cs) = lexFrom (start + spaces.length) cs := by
  induction spaces generalizing start with
  | nil => rfl
  | cons c spaces ih =>
    obtain ⟨hc, hspaces⟩ := List.forall_mem_cons.1 h
    rw [List.cons_append, lexFrom, hc, if_pos rfl, ih hspaces, List.length_cons,
      Nat.add_right_comm, Nat.add_assoc]

theorem Clashing.behind_spaces (hspaces : ∀ c ∈ spaces, Text.isSpace c = true)
    (h : Clashing (start + spaces.length) cs) : Clashing start (spaces ++ cs) := by
  unfold Clashing
  rw [lexFrom_spaces hspaces]
  exact h

theorem lexFrom_start (hd : isIdentStart d = true ∨ d = '\'')
    (hlex : (lexFrom start (d :: cs)).error? = none) :
    ∃ t ts, (lexFrom start (d :: cs)).tokens = t :: ts ∧
      t.kind ∈ [.identifier, .number, .string] := by
  rcases hd with hd | rfl
  · have hspace := (Source.part_plain (Source.isIdentPart_of_start hd)).1
    rw [lexFrom, hspace, if_neg Bool.false_ne_true, readLexeme, if_pos hd]
    exact ⟨_, _, rfl, List.mem_cons_self⟩
  · obtain ⟨⟨t, ts, htokens, hkind⟩, -⟩ := Source.lexFrom_apostrophe hlex
    exact ⟨t, ts, htokens, by rw [hkind]; decide⟩

/-- No expression has a name and, behind white space, another one or a string. -/
theorem clashing_name (hc : isIdentStart c = true) (hname : ∀ d ∈ name, isIdentPart d = true)
    (hspaces : ∀ d ∈ spaces, Text.isSpace d = true) (hne : spaces ≠ [])
    (hd : isIdentStart d = true ∨ d = '\'') (start : Nat) (rest : List Char) :
    Clashing start (c :: (name ++ (spaces ++ d :: rest))) := by
  intro hlex hchain
  have hspace := (Source.part_plain (Source.isIdentPart_of_start hc)).1
  have hend : (name ++ (spaces ++ d :: rest)).takeWhile isIdentPart = name := by
    apply takeWhile_append hname
    intro e he
    obtain ⟨b, bs, rfl⟩ := List.exists_cons_of_ne_nil hne
    cases he
    rw [← Bool.not_eq_true]
    intro hpart
    have hplain := (Source.part_plain hpart).1
    rw [hspaces _ List.mem_cons_self] at hplain
    cases hplain
  have hread : readLexeme start c (name ++ (spaces ++ d :: rest)) =
      .ok ⟨.identifier, String.ofList (c :: name), name.length⟩ := by
    rw [readLexeme, if_pos hc]
    simp only [hend]
  rw [lexFrom, hspace, if_neg Bool.false_ne_true, hread] at hlex hchain
  dsimp only at hlex hchain
  rw [List.drop_left, lexFrom_spaces hspaces] at hlex hchain
  obtain ⟨t, ts, htokens, hkind⟩ := lexFrom_start hd hlex
  obtain ⟨hfirst, -⟩ := List.isChain_cons.1 hchain
  exact (hfirst t (by rw [htokens]; rfl) hkind).1 rfl

end Token

theorem Expr.not_parse_of_clashing (h : Token.Clashing 0 src.toList) : parse src ≠ .ok e := by
  intro hparse
  obtain ⟨hlex, -, hchain, -⟩ := tokens_of_parse hparse
  exact h hlex hchain

namespace Source

theorem isIdentStart_of_toLower (hascii : Text.isAscii (Text.toLower c) = true)
    (hstart : isIdentStart (Text.toLower c) = true) : isIdentStart c = true :=
  of_toLower (by decide +kernel) (fun _ => by decide +kernel) (fun _ => by decide +kernel) hascii
    hstart

theorem eq_of_toLower (hd : d ∈ ['(', ')', '\'']) (h : Text.toLower c = d) : c = d := by
  have hall : ['(', ')', '\''].all (fun d => Text.isAscii d && 'i' ≠ d && 'k' ≠ d &&
      (List.range 0x80).all fun n =>
        !decide ((Char.ofNat n).toLower = d) || decide (Char.ofNat n = d)) = true := by
    decide +kernel
  have hmark := List.all_eq_true.1 hall d hd
  simp only [Bool.and_eq_true, decide_eq_true_eq] at hmark
  obtain ⟨⟨⟨hascii, hi⟩, hk⟩, hlow⟩ := hmark
  exact of_decide_eq_true (of_toLower (p := fun c => c = d) hlow
    (fun heq => (hi (of_decide_eq_true heq)).elim) (fun heq => (hk (of_decide_eq_true heq)).elim)
    (h ▸ hascii) (decide_eq_true h))

theorem exists_first {p : Char → Bool} (hc : c ∈ cs) (hp : p c = true) :
    ∃ front b back, cs = front ++ b :: back ∧ p b = true ∧ ∀ e ∈ front, p e = false := by
  obtain ⟨b, hb⟩ := Option.isSome_iff_exists.1 (List.find?_isSome.2 ⟨c, hc, hp⟩)
  obtain ⟨hpb, front, back, hcs, hfront⟩ := List.find?_eq_some_iff_append.1 hb
  refine ⟨front, b, back, hcs, hpb, fun e he => ?_⟩
  have hnot := hfront e he
  rwa [Bool.not_eq_true'] at hnot

/-- A tidy text with white space in it has a first stretch of it, between other characters. -/
theorem exists_gap (htidy : Text.Tidy cs) (h : ¬ ∀ c ∈ cs, Text.isSpace c = false) :
    ∃ c name spaces d rest, cs = c :: (name ++ (spaces ++ d :: rest)) ∧
      (∀ e ∈ c :: name, Text.isSpace e = false) ∧ (∀ e ∈ spaces, Text.isSpace e = true) ∧
      spaces ≠ [] ∧ Text.isSpace d = false := by
  simp only [not_forall, Bool.not_eq_false] at h
  obtain ⟨c, hc, hspace⟩ := h
  obtain ⟨front, b, back, rfl, hb, hfront⟩ := exists_first hc hspace
  obtain ⟨last, hlast⟩ : ∃ last, (b :: back).getLast? = some last :=
    ⟨_, List.getLast?_eq_some_getLast (List.cons_ne_nil b back)⟩
  have hend := htidy.suffix front last hlast
  obtain ⟨spaces, d, rest, hback, hd, hspaces⟩ :=
    exists_first (p := (!Text.isSpace ·)) (List.mem_of_getLast? hlast) (by rw [hend]; rfl)
  rw [Bool.not_eq_true'] at hd
  have hne : spaces ≠ [] := by
    rintro rfl
    cases hback
    rw [hb] at hd
    cases hd
  cases front with
  | nil =>
    have hhead := htidy.head b rfl
    rw [hb] at hhead
    cases hhead
  | cons c name =>
    refine ⟨c, name, spaces, d, rest, ?_, hfront, fun e he => ?_, hne, hd⟩
    · rw [hback]
      rfl
    · rw [← Bool.not_eq_false']
      exact hspaces e he

def wordBody (word : List Char) : List Char :=
  if word.head? = some '(' then word.tail.dropLast else word

theorem operandWord_cases (h : word ∈ Instruction.operandWords) :
    ∃ body, (word.toList = body ∨ word.toList = '(' :: (body ++ [')'])) ∧ body ≠ [] ∧
      (∀ c ∈ body, c ∉ ['(', ')']) ∧
      (∀ c ∈ body, c = '\'' ∨ Text.isAscii c = true ∧ isIdentStart c = true) ∧
      ∀ c ∈ body.dropLast, c ≠ '\'' := by
  have hall : Instruction.operandWords.all (fun word =>
      let body := wordBody word.toList
      (word.toList = body || word.toList = '(' :: (body ++ [')'])) && body ≠ [] &&
      body.all (fun c => c ∉ ['(', ')']) &&
      body.all (fun c => c = '\'' || Text.isAscii c && isIdentStart c) &&
      body.dropLast.all (· ≠ '\'')) = true := by decide +kernel
  have hword := List.all_eq_true.1 hall word h
  simp only [Bool.and_eq_true, Bool.or_eq_true, decide_eq_true_eq, List.all_eq_true] at hword
  obtain ⟨⟨⟨⟨hform, hne⟩, hparens⟩, hletters⟩, hlast⟩ := hword
  exact ⟨_, hform, hne, hparens, hletters, hlast⟩

theorem filter_gap {c d : Char} (hname : ∀ e ∈ c :: name, Text.isSpace e = false)
    (hspaces : ∀ e ∈ spaces, Text.isSpace e = true) (hd : Text.isSpace d = false) :
    (c :: (name ++ (spaces ++ d :: rest))).filter (!Text.isSpace ·) =
      (c :: name) ++ d :: rest.filter (!Text.isSpace ·) := by
  rw [← List.cons_append, List.filter_append, List.filter_append, filter_solid hname,
    filter_spaces hspaces, List.nil_append, List.filter_cons_of_pos (by rw [hd]; rfl)]

/-- A text that is a word without parentheses when its white space is dropped has none, or does not
begin an expression. -/
theorem solid_or_clashing (htidy : Text.Tidy cs)
    (hword : (cs.filter (!Text.isSpace ·)).map Text.toLower = body)
    (hletters : ∀ c ∈ body, c = '\'' ∨ Text.isAscii c = true ∧ isIdentStart c = true)
    (hlast : ∀ c ∈ body.dropLast, c ≠ '\'') :
    (∀ c ∈ cs, Text.isSpace c = false) ∨ ∀ start rest, Token.Clashing start (cs ++ rest) := by
  by_cases hsolid : ∀ c ∈ cs, Text.isSpace c = false
  · exact .inl hsolid
  · obtain ⟨c, name, spaces, d, rest, rfl, hname, hspaces, hne, hd⟩ := exists_gap htidy hsolid
    have hsplit : body = (c :: name).map Text.toLower ++
        Text.toLower d :: (rest.filter (!Text.isSpace ·)).map Text.toLower := by
      rw [← hword, filter_gap hname hspaces hd, List.map_append]
      rfl
    have hstart {e : Char} (he : e ∈ c :: name) : isIdentStart e = true := by
      have hmem : Text.toLower e ∈ (c :: name).map Text.toLower := List.mem_map_of_mem he
      have hbefore : Text.toLower e ∈ body.dropLast := by
        rw [hsplit, List.dropLast_append_of_ne_nil (List.cons_ne_nil _ _)]
        exact List.mem_append_left _ hmem
      have hbody : Text.toLower e ∈ body := hsplit ▸ List.mem_append_left _ hmem
      obtain ⟨hascii, hletter⟩ := (hletters _ hbody).resolve_left (hlast _ hbefore)
      exact isIdentStart_of_toLower hascii hletter
    have hnext : isIdentStart d = true ∨ d = '\'' := by
      have hbody : Text.toLower d ∈ body :=
        hsplit ▸ List.mem_append_right _ List.mem_cons_self
      rcases hletters _ hbody with hquote | ⟨hascii, hletter⟩
      · exact .inr (eq_of_toLower (by decide) hquote)
      · exact .inl (isIdentStart_of_toLower hascii hletter)
    apply Or.inr
    intro start behind
    have hclash := Token.clashing_name (hstart List.mem_cons_self)
      (fun e he => isIdentPart_of_start (hstart (List.mem_cons_of_mem c he))) hspaces hne hnext
      start (rest ++ behind)
    simp only [List.cons_append, List.append_assoc]
    exact hclash

def squeeze (text : String) : String :=
  Text.lower (String.ofList (text.toList.filter (!Text.isSpace ·)))

/-- The text is a word in any case, with white space only just inside of parentheses. -/
def Spelled (text : String) : Prop :=
  Text.lower text ∈ Instruction.operandWords ∨
    ∃ spaces inner spaces', text.toList = '(' :: (spaces ++ (inner ++ spaces') ++ [')']) ∧
      (∀ c ∈ spaces ++ spaces', Text.isSpace c = true) ∧
      Text.lower (String.ofList ('(' :: (inner ++ [')']))) ∈ Instruction.operandWords

theorem toList_lower (cs : List Char) :
    (Text.lower (String.ofList cs)).toList = cs.map Text.toLower := by
  rw [Text.lower, String.toList_map, String.toList_ofList]

theorem toList_squeeze (text : String) :
    (squeeze text).toList = (text.toList.filter (!Text.isSpace ·)).map Text.toLower :=
  toList_lower _

theorem filter_trim (cs : List Char) :
    (Text.trim cs).filter (!Text.isSpace ·) = cs.filter (!Text.isSpace ·) := by
  obtain ⟨front, back, hcs, hfront, hback⟩ := Text.exists_trim cs
  conv_rhs => rw [hcs]
  rw [List.filter_append, List.filter_append, filter_spaces hfront, filter_spaces hback,
    List.nil_append, List.append_nil]

theorem parenthesised_of_squeeze (htidy : Text.Tidy cs)
    (hword : (cs.filter (!Text.isSpace ·)).map Text.toLower = '(' :: (body ++ [')'])) :
    ∃ mid, cs = '(' :: (mid ++ [')']) ∧
      (mid.filter (!Text.isSpace ·)).map Text.toLower = body := by
  cases cs with
  | nil => cases hword
  | cons c cs =>
    rw [List.filter_cons_of_pos (by rw [htidy.head c rfl]; rfl), List.map_cons,
      List.cons.injEq] at hword
    obtain ⟨hopening, hword⟩ := hword
    rcases List.eq_nil_or_concat cs with rfl | ⟨mid, d, rfl⟩
    · exact (List.cons_ne_nil _ _ (List.append_eq_nil_iff.1 hword.symm).2).elim
    · rw [List.concat_eq_append] at htidy hword ⊢
      have hd : Text.isSpace d = false := htidy.last d (List.getLast?_concat (l := c :: mid))
      rw [List.filter_append, List.filter_cons_of_pos (by rw [hd]; rfl), List.filter_nil,
        List.map_append, List.map_singleton] at hword
      obtain ⟨hmid, hclosing⟩ := List.append_inj' hword rfl
      rw [eq_of_toLower (by decide) hopening,
        eq_of_toLower (by decide) (List.singleton_inj.1 hclosing)]
      exact ⟨mid, rfl, hmid⟩

theorem enclosed_of_indirect {inner : List Char} (h : indirect? cs = some inner) :
    ∃ mid, Text.trim cs = '(' :: (mid ++ [')']) ∧ inner = Text.trim mid := by
  unfold indirect? at h
  dsimp only at h
  split at h
  · rename_i rest hcs
    split at h
    · rename_i hclosed
      cases h
      rw [Bool.and_eq_true, decide_eq_true_eq] at hclosed
      have hrest := List.dropLast_append_getLast? ')' hclosed.1
      exact ⟨rest.dropLast, by rw [hcs, hrest], rfl⟩
    · cases h
  · cases h

/-- A text that becomes a word when its white space is dropped is spelled as one, or it is no
expression, and neither is what it has in parentheses. -/
theorem spelled_or_clashing (htidy : Text.Tidy text.toList)
    (hword : squeeze text ∈ Instruction.operandWords) :
    Spelled text ∨ Token.Clashing 0 text.toList ∧
      ∀ inner, indirect? text.toList = some inner → Token.Clashing 0 inner := by
  obtain ⟨body, hform, hne, hparens, hletters, hlast⟩ := operandWord_cases hword
  rw [toList_squeeze] at hform
  rcases hform with hform | hform
  · rcases solid_or_clashing htidy hform hletters hlast with hsolid | hclash
    · refine .inl (.inl ?_)
      rw [squeeze, filter_solid hsolid, String.ofList_toList] at hword
      exact hword
    · refine .inr ⟨List.append_nil text.toList ▸ hclash 0 [], fun inner hinner => ?_⟩
      obtain ⟨mid, hmid, -⟩ := enclosed_of_indirect hinner
      rw [htidy.trim_eq] at hmid
      have hopening : Text.toLower '(' ∈ body := by
        rw [← hform, hmid]
        exact List.mem_map_of_mem List.mem_cons_self
      exact (hparens _ hopening (by decide)).elim
  · obtain ⟨mid, htext, hmid⟩ := parenthesised_of_squeeze htidy hform
    obtain ⟨front, back, hcut, hfront, hback⟩ := Text.exists_trim mid
    rw [← filter_trim] at hmid
    rcases solid_or_clashing (Text.tidy_trim mid) hmid hletters hlast with hsolid | hclash
    · refine .inl (.inr ⟨front, Text.trim mid, back, hcut ▸ htext,
        List.forall_mem_append.2 ⟨hfront, hback⟩, ?_⟩)
      have hlower :
          Text.lower (String.ofList ('(' :: (Text.trim mid ++ [')']))) = squeeze text := by
        rw [filter_solid hsolid] at hmid
        rw [← String.toList_inj, toList_lower, toList_squeeze, hform, List.map_cons,
          List.map_append, hmid]
        rfl
      rw [hlower]
      exact hword
    · refine .inr ⟨?_, fun inner hinner => ?_⟩
      · have hinside : Token.Clashing 1 (mid ++ [')']) := by
          rw [hcut, List.append_assoc, List.append_assoc]
          exact Token.Clashing.behind_spaces hfront (hclash _ _)
        rw [htext]
        exact Token.Clashing.lexeme (l := ⟨.lparen, "(", 0⟩) rfl rfl hinside
      · obtain ⟨mid', hmid', rfl⟩ := enclosed_of_indirect hinner
        rw [htidy.trim_eq, htext, List.cons.injEq, List.append_cancel_right_eq] at hmid'
        rw [← hmid'.2, ← List.append_nil (Text.trim mid)]
        exact hclash 0 []

/-- The text is a word as it is spelled, an expression, or one in parentheses. -/
def WellFormedOperand (text : String) : Prop :=
  Spelled text ∨ (∃ e, Expr.parse text = .ok e) ∨
    ∃ inner e, indirect? text.toList = some inner ∧ Expr.parse (String.ofList inner) = .ok e

/-- The text is a word only when the white space inside of it is dropped. -/
def Scattered (text : String) : Prop :=
  squeeze text ∈ Instruction.operandWords ∧ ¬ Spelled text

theorem Scattered.not_wellFormed (h : Scattered text) (htidy : Text.Tidy text.toList) :
    ¬ WellFormedOperand text := by
  obtain ⟨hword, hspelled⟩ := h
  obtain ⟨hclash, hinside⟩ := (spelled_or_clashing htidy hword).resolve_left hspelled
  rintro (hspelled' | ⟨e, he⟩ | ⟨inner, e, hinner, he⟩)
  · exact hspelled hspelled'
  · exact Expr.not_parse_of_clashing hclash he
  · refine Expr.not_parse_of_clashing ?_ he
    rw [String.toList_ofList]
    exact hinside inner hinner

theorem parse_of_readValue? (hq : (readValue? text).problems = []) :
    ∃ e, Expr.parse text = .ok e := by
  unfold readValue? at hq
  split at hq
  · cases hq
  · exact ⟨_, ‹_›⟩

theorem parse_of_encode (hq : (encode entry text).problems = [])
    (hargument : entry.argument ≠ .none) : ∃ e, Expr.parse text = .ok e := by
  have hvalue {α : Type} {f : Value → Checked α} (hq : (readValue text >>= f).problems = []) :
      ∃ e, Expr.parse text = .ok e :=
    parse_of_readValue? (List.append_eq_nil_iff.1
      (List.append_eq_nil_iff.1 hq).1).1
  have hconstant {what : String} {α : Type} {f : Option Int64 → Checked α}
      (hq : (readConstant? text what >>= f).problems = []) : ∃ e, Expr.parse text = .ok e :=
    parse_of_readValue? (List.append_eq_nil_iff.1
      (List.append_eq_nil_iff.1 hq).1).1
  unfold encode at hq
  cases ha : entry.argument with
  | none => exact (hargument ha).elim
  | byte | word | relative =>
    rw [ha] at hq
    exact hvalue hq
  | bit | restart | mode =>
    rw [ha] at hq
    exact hconstant hq

theorem argument_ne_none (he : entry ∈ Instruction.table)
    (ho : operand ∈ entry.operands) (hword : ∀ w, operand ≠ .word w) :
    entry.argument ≠ .none := by
  have htable : ∀ e ∈ Instruction.table, e.argument = .none →
      .value ∉ e.operands ∧ .address ∉ e.operands := by decide +kernel
  intro hnone
  obtain ⟨hvalue, haddress⟩ := htable entry he hnone
  cases operand with
  | word w => exact hword w rfl
  | value => exact hvalue ho
  | address => exact haddress ho

theorem tidy_of_splitOperands (h : operand ∈ (splitOperands text).map String.ofList) :
    Text.Tidy operand.toList := by
  obtain ⟨piece, hpiece, rfl⟩ := List.mem_map.1 h
  rw [String.toList_ofList]
  unfold splitOperands at hpiece
  dsimp only at hpiece
  split at hpiece
  · cases hpiece
  · obtain ⟨cut, -, rfl⟩ := List.mem_map.1 hpiece
    exact Text.tidy_trim cut

/-- The operands of an instruction that is read without problems are well-formed, except for words
with white space inside of them, which are read as if they had none. -/
theorem wellFormed_iff_not_scattered (h : mnemonicOn? raw = some (mnemonic, text))
    (hm : Instruction.isMnemonic (Text.lower mnemonic) = true)
    (hq : (readLineText (readLine raw)).problems = []) :
    ∀ operand ∈ (splitOperands text).map String.ofList,
      WellFormedOperand operand ↔ ¬ Scattered operand := by
  intro operand hoperand
  rw [(readLineText_of_mnemonic h).2, readStatement_of_isMnemonic hm] at hq
  unfold readInstruction at hq
  split at hq
  · cases hq
  · rename_i entry src hshape
    rw [Checked.problems_bind, Checked.problems_pure, List.append_nil] at hq
    obtain ⟨hentry, hoperands, hsrc⟩ := of_readShape? hshape
    have hform : (readOperand operand).1 ∈ entry.operands :=
      hoperands ▸ List.mem_map_of_mem hoperand
    have htidy := tidy_of_splitOperands hoperand
    refine ⟨fun hwell hscattered => hscattered.not_wellFormed htidy hwell, fun hnot => ?_⟩
    by_cases hword : squeeze operand ∈ Instruction.operandWords
    · exact .inl (not_not.1 fun hspelled => hnot ⟨hword, hspelled⟩)
    · have hread := readOperand_word hword
      cases hinner : indirect? operand.toList with
      | none =>
        rw [hinner] at hread
        rw [hread] at hform
        have hparse := parse_of_encode hq (argument_ne_none hentry hform nofun)
        rw [← hsrc operand hoperand operand (by rw [hread])] at hparse
        exact .inr (.inl hparse)
      | some inner =>
        rw [hinner] at hread
        rw [hread] at hform
        obtain ⟨e, he⟩ := parse_of_encode hq (argument_ne_none hentry hform nofun)
        rw [← hsrc operand hoperand (String.ofList inner) (by rw [hread])] at he
        exact .inr (.inr ⟨inner, e, hinner, he⟩)

set_option maxRecDepth 10000 in
theorem wellFormed_iff_not_scattered_roomy :
    mnemonicOn? " ld A,( hl )" = some ("ld", "A,( hl )".toList) ∧
      Instruction.isMnemonic (Text.lower "ld") = true ∧
      (readLineText (readLine " ld A,( hl )")).problems = [] ∧
      ∀ operand ∈ ["A", "( hl )"], WellFormedOperand operand ↔ ¬ Scattered operand := by
  have hm : mnemonicOn? " ld A,( hl )" = some ("ld", "A,( hl )".toList) := by decide +kernel
  have hkey : Instruction.isMnemonic (Text.lower "ld") = true := by decide +kernel
  have hq : (readLineText (readLine " ld A,( hl )")).problems = [] := by
    have hentry : instructionOn? " ld A,( hl )" =
        some (⟨"ld", [.word "a", .word "(hl)"], [0x7E], .none⟩, "") := by decide +kernel
    rw [(readLineText_of_encode hentry (List.cons_ne_nil _ _)).2]
    rfl
  have hoperands : (splitOperands "A,( hl )".toList).map String.ofList = ["A", "( hl )"] := by
    decide +kernel
  refine ⟨hm, hkey, hq, ?_⟩
  rw [← hoperands]
  exact wellFormed_iff_not_scattered hm hkey hq

set_option maxRecDepth 10000 in
/-- A register pair with a space in it is taken for the register pair. -/
theorem scattered_accepted :
    elementsOfLines "f" [" ld h l,5"] =
        ([⟨⟨"f", 1⟩, .bytes { slots := [.byte 0x21, .byte 5, .byte 0] }⟩], []) ∧
      mnemonicOn? " ld h l,5" = some ("ld", "h l,5".toList) ∧
      (splitOperands "h l,5".toList).map String.ofList = ["h l", "5"] ∧
      ¬ WellFormedOperand "h l" := by
  have hentry : instructionOn? " ld h l,5" =
      some (⟨"ld", [.word "hl", .value], [0x21], .word⟩, "5") := by decide +kernel
  have hencode : encode ⟨"ld", [.word "hl", .value], [0x21], .word⟩ "5" =
      pure [.byte 0x21, .byte 5, .byte 0] := by cbv
  have hline := elementsOfLine_of_encode hentry (by decide +kernel) hencode (List.cons_ne_nil _ _)
    ⟨"f", 1⟩
  have hlines := elementsOfLines_of_forall₂ "f" [" ld h l,5"] (.cons hline .nil)
  refine ⟨hlines, by decide +kernel, by decide +kernel, ?_⟩
  rintro ((hword | ⟨spaces, inner, spaces', htext, -⟩) | ⟨e, he⟩ | ⟨inner, e, hinner, -⟩)
  · exact absurd hword (by decide +kernel)
  · cases htext
  · have hparse : (Expr.parse "h l").toOption = none := by cbv
    rw [he] at hparse
    cases hparse
  · have hnone : indirect? "h l".toList = none := by decide +kernel
    rw [hnone] at hinner
    cases hinner

end Source
end Z80Asm

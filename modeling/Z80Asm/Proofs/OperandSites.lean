import Z80Asm.Proofs.LineFronts
import Z80Asm.Proofs.OperandCuts

/-! Places for expressions in the operands of a line. A name in such a place is read where the
expression was, and everything else on the line as before. -/

namespace Z80Asm
set_option autoImplicit true
namespace Source

/-- A place for an expression on a line: what stands before the operands and behind them, the other
operands, and what is around the expression in its own. -/
structure Site where
  front : List Char
  before : List (List Char)
  left : List Char
  right : List Char
  after : List (List Char)
  back : List Char

namespace Site

variable (s : Site)

def operand (text : List Char) : List Char := s.left ++ (text ++ s.right)

def operands (text : List Char) : List Char :=
  [','].intercalate (s.before ++ s.operand text :: s.after)

def operandText (text : String) : String := String.ofList (Text.trim (s.operand text.toList))

def line (text : String) : String :=
  String.ofList (s.front ++ (s.operands text.toList ++ s.back))

/-- The text is the whole operand, or all that stands in the parentheses around it. -/
inductive Around : Bool → Prop where
  | direct : (∀ c ∈ s.left, Text.isSpace c = true) → (∀ c ∈ s.right, Text.isSpace c = true) →
      Around false
  | enclosed {left inner inner' right : List Char} : s.left = left ++ '(' :: inner →
      s.right = inner' ++ ')' :: right → (∀ c ∈ left ++ inner, Text.isSpace c = true) →
      (∀ c ∈ inner' ++ right, Text.isSpace c = true) → Around true

/-- The text stands in the place on its line, as the parser cuts the line. -/
structure Holds (mnemonic src : String) : Prop where
  tidy : Text.Tidy src.toList
  mnemonic : mnemonicOn? (s.line src) = some (mnemonic, s.operands src.toList)
  body : Text.trimRight (stripComment (s.line src).toList) = s.front ++ s.operands src.toList
  cut : splitMarked 0 [] (mark (s.operands src.toList)) =
    s.before ++ s.operand src.toList :: s.after

end Site

/-- Every text in an operand stands in a place on its line. -/
theorem exists_site (h : mnemonicOn? raw = some (mnemonic, text)) (hword : TakesOperands mnemonic)
    {before after : List (List Char)} {left right : List Char} {src : String}
    (hcut : splitMarked 0 [] (mark text) = before ++ (left ++ (src.toList ++ right)) :: after)
    (htidy : Text.Tidy src.toList) (hsrc : src.toList ≠ []) :
    ∃ s : Site, s.before = before ∧ s.left = left ∧ s.right = right ∧ s.after = after ∧
      s.line src = raw ∧ s.Holds mnemonic src := by
  have htext : text = [','].intercalate (before ++ (left ++ (src.toList ++ right)) :: after) := by
    rw [← hcut, intercalate_splitMarked, mark, map_fst_markFrom]
    rfl
  have hne : text ≠ [] := by
    rintro rfl
    rw [intercalate_pieces] at htext
    have hnil := (List.append_eq_nil_iff.1 htext.symm).2
    exact hsrc (List.append_eq_nil_iff.1 (List.append_eq_nil_iff.1
      (List.append_eq_nil_iff.1 hnil).1).2).1
  obtain ⟨front, hfront⟩ := exists_front h hne hword
  obtain ⟨comment, hcomment, -⟩ := exists_comment raw.toList
  obtain ⟨spaces, hspaces, -⟩ := Text.exists_trimRight (stripComment raw.toList)
  rw [hspaces, hfront, List.append_assoc, List.append_assoc] at hcomment
  let s : Site := ⟨front, before, left, right, after, spaces ++ comment⟩
  have hline : s.line src = raw := by
    rw [← String.toList_inj, Site.line, String.toList_ofList, hcomment, htext]
    rfl
  refine ⟨s, rfl, rfl, rfl, rfl, hline, htidy, ?_, ?_, ?_⟩
  · rw [hline, h, htext]
    rfl
  · rw [hline, hfront, htext]
    rfl
  · rw [htext] at hcut
    exact hcut

/-- A name that does not mean anything to the parser already. -/
structure NewName (x : String) : Prop where
  name : isName x.toList = true
  equ : isEqu x.toList = false
  word : Text.lower x ∉ Instruction.operandWords

namespace Site

variable {s : Site}

theorem Around.uncut {parens : Bool} (h : s.Around parens) (hx : isName x = true) :
    Uncut (s.operand x) := by
  unfold operand
  cases h with
  | direct hleft hright =>
    exact ((inert_spaces hleft).append ((inert_name hx).append (inert_spaces hright))).uncut
  | enclosed hleft hright hl hr =>
    rw [hleft, hright]
    simp only [List.forall_mem_append] at hl hr
    have hmid := (inert_spaces hl.2).append ((inert_name hx).append (inert_spaces hr.1))
    have hwhole := (inert_spaces hl.1).uncut_enclosed hmid (inert_spaces hr.2)
    simp only [List.append_assoc, List.cons_append] at hwhole ⊢
    exact hwhole

end Site

theorem tidy_replaced {before mid mid' after : List Char}
    (h : Text.Tidy (before ++ (mid ++ after))) (hmid : Text.Tidy mid') (hne : mid' ≠ []) :
    Text.Tidy (before ++ (mid' ++ after)) := by
  obtain ⟨c, cs, rfl⟩ := List.exists_cons_of_ne_nil hne
  refine ⟨fun d hd => ?_, fun d hd => ?_⟩
  · cases before with
    | nil => exact hmid.head d hd
    | cons b before => exact h.head d hd
  · cases hafter : after.getLast? with
    | none =>
      rw [List.getLast?_eq_none_iff.1 hafter, List.append_nil, List.getLast?_append,
        List.getLast?_cons, Option.some_or] at hd
      apply hmid.last
      rw [List.getLast?_cons]
      exact hd
    | some e =>
      rw [List.getLast?_append, List.getLast?_append, hafter] at hd
      apply h.last
      rw [List.getLast?_append, List.getLast?_append, hafter]
      exact hd

theorem not_equ_space (h : Text.isSpace c = true) : c.toLower ∉ ['e', 'q', 'u'] := by
  have hspaces : (Token.spaceCodes.all fun n =>
      (Char.ofNat n).toLower ∉ ['e', 'q', 'u']) = true := by
    decide +kernel
  have hc := of_decide_eq_true (List.all_eq_true.1 hspaces c.toNat (Token.mem_spaceCodes h))
  rwa [Char.ofNat_toNat] at hc

theorem isEqu_name (hx : isName x = true) (hequ : isEqu x = false)
    (hspaces : ∀ c ∈ spaces, Text.isSpace c = true) :
    isEqu (splitWord (x ++ spaces)).1 = false := by
  obtain ⟨-, -, -, -, hall⟩ := exists_of_isName hx
  have hword : ∀ c ∈ x, (!isBlank c) = true := by
    intro c hc
    rw [(part_plain (hall c hc)).2.1]
    rfl
  unfold splitWord
  rw [List.takeWhile_append_of_pos hword]
  cases hrest : spaces.takeWhile (!isBlank ·) with
  | nil =>
    rw [List.append_nil]
    exact hequ
  | cons c rest =>
    have hc : c ∈ spaces.takeWhile (!isBlank ·) := hrest ▸ List.mem_cons_self
    exact isEqu_of_mem (List.mem_append_right x List.mem_cons_self)
      (not_equ_space (hspaces c ((List.takeWhile_prefix _).subset hc)))

namespace Site

variable {s : Site} {parens : Bool}

theorem operands_eq (s : Site) (text : List Char) :
    s.operands text = s.before.flatMap (· ++ [',']) ++ s.left ++
      (text ++ (s.right ++ s.after.flatMap (',' :: ·))) := by
  rw [operands, intercalate_pieces, operand]
  simp only [List.append_assoc]

theorem tidy_operands (htidy : Text.Tidy (s.operands src)) (hx : isName x = true) :
    Text.Tidy (s.operands x) := by
  rw [operands_eq] at htidy ⊢
  exact tidy_replaced htidy (tidy_name hx) (ne_nil_of_isName hx)

theorem Around.isEqu_operands (h : s.Around parens) (hx : isName x = true)
    (hequ : isEqu x = false) (htidy : Text.Tidy (s.operands src))
    (hnot : isEqu (splitWord (s.operands src)).1 = false) :
    isEqu (splitWord (s.operands x)).1 = false := by
  unfold operands at htidy hnot ⊢
  rw [intercalate_pieces] at htidy hnot ⊢
  cases hbefore : s.before with
  | cons p before =>
    rw [hbefore, List.flatMap_cons, List.append_assoc, List.append_assoc, List.singleton_append,
      isEqu_comma] at hnot
    rw [List.flatMap_cons, List.append_assoc, List.append_assoc, List.singleton_append,
      isEqu_comma]
    exact hnot
  | nil =>
    rw [hbefore, List.flatMap_nil, List.nil_append] at htidy
    rw [List.flatMap_nil, List.nil_append]
    have hoperand : isEqu (splitWord (s.operand x)).1 = false := by
      unfold operand at htidy ⊢
      cases h with
      | direct hleft hright =>
        cases hl : s.left with
        | nil =>
          rw [List.nil_append]
          exact isEqu_name hx hequ hright
        | cons c left =>
          have hspace := hleft c (hl ▸ List.mem_cons_self)
          rw [hl] at htidy
          rw [htidy.head c rfl] at hspace
          cases hspace
      | @enclosed left inner inner' right hleft hright hl hr =>
        rw [hleft]
        rw [hleft] at htidy
        cases left with
        | nil =>
          have hfirst : '(' ∈ (splitWord ('(' :: (inner ++ (x ++ s.right)))).1 := by
            rw [splitWord, List.takeWhile_cons_of_pos (by decide)]
            exact List.mem_cons_self
          exact isEqu_of_mem hfirst (by decide)
        | cons c left =>
          have hspace := hl c List.mem_cons_self
          rw [htidy.head c rfl] at hspace
          cases hspace
    cases hafter : s.after with
    | nil =>
      rw [List.flatMap_nil, List.append_nil]
      exact hoperand
    | cons p after =>
      rw [List.flatMap_cons, List.cons_append, isEqu_comma, hoperand, Bool.and_false]

theorem operands_ne_nil (hsrc : src ≠ []) : s.operands src ≠ [] := by
  rw [operands_eq]
  intro hnil
  exact hsrc (List.append_eq_nil_iff.1 (List.append_eq_nil_iff.1 hnil).2).1

theorem Holds.exists_back (h : s.Holds m src) :
    ∃ spaces comment, s.back = spaces ++ comment ∧ (∀ c ∈ spaces, Text.isSpace c = true) ∧
      (∀ c, comment.head? = some c → c = ';') ∧
      stripComment (s.front ++ (s.operands src.toList ++ (spaces ++ comment))) =
        s.front ++ (s.operands src.toList ++ spaces) := by
  obtain ⟨comment, hcomment, hhead⟩ := exists_comment (s.line src).toList
  obtain ⟨spaces, hspaces, hall⟩ := Text.exists_trimRight (stripComment (s.line src).toList)
  rw [h.body] at hspaces
  have hback : s.back = spaces ++ comment := by
    rw [hspaces, line, String.toList_ofList] at hcomment
    simp only [List.append_assoc] at hcomment
    exact List.append_cancel_left (List.append_cancel_left hcomment)
  refine ⟨spaces, comment, hback, hall, hhead, ?_⟩
  rw [line, String.toList_ofList, hback] at hspaces
  rw [hspaces, List.append_assoc]

/-- With a name in the place, the line is cut in the same way. -/
theorem Holds.cuts_name (h : s.Holds m src) (hplace : s.Around parens) (hsrc : src.toList ≠ [])
    (hword : TakesOperands m) (hname : isName x.toList = true) (hequ : isEqu x.toList = false) :
    (readLine (s.line x)).labels = (readLine (s.line src)).labels ∧
      mnemonicOn? (s.line x) = some (m, s.operands x.toList) ∧
      splitMarked 0 [] (mark (s.operands x.toList)) =
        s.before ++ s.operand x.toList :: s.after := by
  obtain ⟨hfronts, htidy, hnot⟩ :=
    fronts_of_mnemonic h.mnemonic h.body (operands_ne_nil hsrc) hword
  obtain ⟨ms, behind?, hcut⟩ := exists_cut h.cut
  obtain ⟨spaces, comment, hback, hspaces, hcomment, hstrip⟩ := h.exists_back
  have huncut := hplace.uncut hname
  have htidy' := tidy_operands htidy hname
  have hne' : s.operands x.toList ≠ [] := operands_ne_nil (ne_nil_of_isName hname)
  have hstrip' := hcut.stripComment_replaced huncut hfronts.unquoted hfronts.free hspaces hcomment
    hstrip
  have hbody : Text.trimRight (stripComment (s.line x).toList) =
      s.front ++ s.operands x.toList := by
    rw [line, String.toList_ofList, hback]
    unfold operands at htidy' hne' ⊢
    rw [hstrip', ← List.append_assoc, Text.trimRight_append_spaces hspaces,
      Text.trimRight_eq_self]
    intro c hc
    obtain ⟨init, d, hd⟩ := (List.eq_nil_or_concat _).resolve_left hne'
    rw [List.concat_eq_append] at hd
    rw [hd, ← List.append_assoc, List.getLast?_concat] at hc
    apply htidy'.last
    rw [hd, List.getLast?_concat, hc]
  obtain ⟨hlabels, hmnemonic⟩ := hfronts.reads _ _ hbody htidy' hne'
    (hplace.isEqu_operands hname hequ htidy hnot)
  exact ⟨hlabels, hmnemonic, hcut.replaced huncut⟩

theorem Around.left_plain (h : s.Around parens) (hfree : Free previous?) :
    Unquoted s.left ∧ Free (s.left.getLast?.or previous?) := by
  cases h with
  | direct hleft _ =>
    refine ⟨unquoted_spaces hleft, ?_⟩
    cases hlast : s.left.getLast? with
    | none => exact hfree
    | some c => exact (Token.space_plain (hleft c (List.mem_of_getLast? hlast))).2.2
  | @enclosed left inner _ _ hleft _ hl _ =>
    simp only [List.forall_mem_append] at hl
    rw [hleft]
    refine ⟨(unquoted_spaces hl.1).append (List.forall_mem_cons.2
      ⟨by decide, unquoted_spaces hl.2⟩), ?_⟩
    rw [List.getLast?_append, List.getLast?_cons, Option.some_or, Option.some_or]
    cases hlast : inner.getLast? with
    | none =>
      unfold Free
      decide
    | some c => exact (Token.space_plain (hl.2 c (List.mem_of_getLast? hlast))).2.2

/-- The expression holds no comment, and is one operand by itself if it is the whole operand. -/
theorem Holds.alone (h : s.Holds m src) (hplace : s.Around parens) (hsrc : src.toList ≠ [])
    (hword : TakesOperands m) :
    NoComment (mark src.toList) ∧
      (parens = false → splitOperands src.toList = [src.toList]) := by
  obtain ⟨hfronts, -, -⟩ := fronts_of_mnemonic h.mnemonic h.body (operands_ne_nil hsrc) hword
  obtain ⟨ms, behind?, hcut⟩ := exists_cut h.cut
  obtain ⟨spaces, comment, -, -, -, hstrip⟩ := h.exists_back
  constructor
  · obtain ⟨hleft, hfree⟩ := hplace.left_plain hcut.leads.free
    rw [operands, intercalate_pieces, stripComment_eq, operand] at hstrip
    simp only [List.append_assoc] at hstrip
    rw [hcut.leads.mark_append hfronts.unquoted hfronts.free, ← hcut.leads.chars] at hstrip
    obtain ⟨-, hbehind⟩ := of_uncommented (map_fst_plainMarks s.front) hstrip
    obtain ⟨-, hmid⟩ := of_uncommented rfl hbehind
    exact noComment_of_left hleft hfree hmid
  · rintro rfl
    cases hplace with
    | direct hleft hright =>
      have hnot : ¬ ∀ c ∈ src.toList, Text.isSpace c = true := by
        obtain ⟨c, cs, hcs⟩ := List.exists_cons_of_ne_nil hsrc
        intro hspaces
        have hc := h.tidy.head c (by rw [hcs]; rfl)
        rw [hspaces c (by rw [hcs]; exact List.mem_cons_self)] at hc
        cases hc
      have htrim : Text.trim (s.operand src.toList) = src.toList := by
        rw [operand, Text.trim_spaces_append hleft, Text.trim_append_spaces hright, h.tidy.trim_eq]
      have hpieces := splitMarked_trim (s.operand src.toList)
      rw [hcut.alone, htrim, List.map_singleton, htrim] at hpieces
      rw [splitOperands_eq hnot, hpieces]

end Site

theorem length_indirect? {cs inner : List Char} (h : indirect? cs = some inner) :
    inner.length < cs.length := by
  unfold indirect? at h
  dsimp only at h
  split at h
  · rename_i rest hcs
    split at h
    · cases h
      have htrim := length_trim_le rest.dropLast
      have hwhole := length_trim_le cs
      rw [hcs, List.length_cons] at hwhole
      rw [List.length_dropLast] at htrim
      omega
    · cases h
  · cases h

theorem readOperand_word (h : Text.lower (String.ofList (text.toList.filter (!Text.isSpace ·))) ∉
      Instruction.operandWords) :
    readOperand text = match indirect? text.toList with
      | some inner => (.address, some (String.ofList inner))
      | none => (.value, some text) := by
  unfold readOperand
  dsimp only
  exact if_neg fun hmem => h (List.contains_iff_mem.1 hmem)

theorem of_readOperand (h : (readOperand text).2 = some src) :
    readOperand text = (.value, some src) ∧ src = text ∨
      readOperand text = (.address, some src) ∧ src.length < text.length := by
  unfold readOperand at h ⊢
  dsimp only at h ⊢
  split at h
  · cases h
  · rename_i hword
    rw [if_neg hword]
    split at h
    · rename_i inner hinner
      cases h
      refine .inr ⟨rfl, ?_⟩
      rw [String.length_ofList, ← String.length_toList]
      exact length_indirect? hinner
    · rename_i hnone
      cases h
      exact .inl ⟨rfl, rfl⟩

theorem filter_solid {cs : List Char} (h : ∀ c ∈ cs, Text.isSpace c = false) :
    cs.filter (!Text.isSpace ·) = cs := by
  rw [List.filter_eq_self]
  intro c hc
  rw [h c hc]
  rfl

theorem filter_name {cs : List Char} (h : isName cs = true) : cs.filter (!Text.isSpace ·) = cs := by
  obtain ⟨-, -, -, -, hall⟩ := exists_of_isName h
  exact filter_solid fun c hc => (part_plain (hall c hc)).1

theorem filter_spaces {cs : List Char} (h : ∀ c ∈ cs, Text.isSpace c = true) :
    cs.filter (!Text.isSpace ·) = [] := by
  rw [List.filter_eq_nil_iff]
  intro c hc
  rw [h c hc]
  decide

theorem word_of_enclosed (h : Text.lower (String.ofList ('(' :: (cs ++ [')']))) ∈
      Instruction.operandWords) :
    Text.lower (String.ofList cs) ∈ Instruction.operandWords := by
  have hwords : ∀ w ∈ Instruction.operandWords, w.toList.head? = some '(' →
      String.ofList w.toList.tail.dropLast ∈ Instruction.operandWords := by
    decide +kernel
  have hlower : (Text.lower (String.ofList ('(' :: (cs ++ [')'])))).toList =
      '(' :: ((Text.lower (String.ofList cs)).toList ++ [')']) := by
    rw [Text.lower, Text.lower, String.toList_map, String.toList_map, String.toList_ofList,
      String.toList_ofList, List.map_cons, List.map_append]
    rfl
  have hinner := hwords _ h (by rw [hlower]; rfl)
  rwa [hlower, List.tail_cons, List.dropLast_concat, String.ofList_toList] at hinner

theorem readOperand_name (hx : NewName x) : readOperand x = (.value, some x) := by
  have hnone : indirect? x.toList = none := by
    obtain ⟨c, cs, hcs, hc, -⟩ := exists_of_isName hx.name
    have hplain := (part_plain (isIdentPart_of_start hc)).2.2.2
    unfold indirect?
    rw [(tidy_name hx.name).trim_eq, hcs]
    dsimp only
    split
    · rename_i heq
      cases heq
      exact (hplain (by decide)).elim
    · rfl
  rw [readOperand_word, hnone]
  rw [filter_name hx.name, String.ofList_toList]
  exact hx.word

theorem readOperand_enclosed {inner inner' : List Char} (hx : NewName x)
    (hinner : ∀ c ∈ inner, Text.isSpace c = true) (hinner' : ∀ c ∈ inner', Text.isSpace c = true) :
    readOperand (String.ofList ('(' :: ((inner ++ (x.toList ++ inner')) ++ [')']))) =
      (.address, some x) := by
  have hwhole := ((inert_spaces hinner).append ((inert_name hx.name).append
    (inert_spaces hinner'))).whole.indirect
  rw [Text.trim_spaces_append hinner, Text.trim_append_spaces hinner',
    (tidy_name hx.name).trim_eq] at hwhole
  rw [readOperand_word, String.toList_ofList, hwhole]
  · dsimp only
    rw [String.ofList_toList]
  · rw [String.toList_ofList]
    intro hword
    refine hx.word ?_
    have hparens : ('(' :: ((inner ++ (x.toList ++ inner')) ++ [')'])).filter (!Text.isSpace ·) =
        '(' :: (x.toList ++ [')']) := by
      rw [List.filter_cons_of_pos (by decide), List.filter_append, List.filter_append,
        List.filter_append, filter_spaces hinner, filter_spaces hinner', filter_name hx.name,
        List.nil_append, List.append_nil, List.filter_cons_of_pos (by decide)]
      rfl
    rw [hparens] at hword
    have hname := word_of_enclosed hword
    rwa [String.ofList_toList] at hname

namespace Site

variable {s : Site} {parens : Bool}

theorem operandText_direct {text : String} (h : s.Around false) (htidy : Text.Tidy text.toList) :
    s.operandText text = text := by
  cases h with
  | direct hleft hright =>
    rw [operandText, operand, Text.trim_spaces_append hleft, Text.trim_append_spaces hright,
      htidy.trim_eq, String.ofList_toList]

theorem operandText_enclosed (h : s.Around true) :
    ∃ inner inner', (∀ c ∈ inner, Text.isSpace c = true) ∧ (∀ c ∈ inner', Text.isSpace c = true) ∧
      ∀ text, s.operandText text =
        String.ofList ('(' :: ((inner ++ (text.toList ++ inner')) ++ [')'])) := by
  cases h with
  | @enclosed left inner inner' right hleft hright hl hr =>
    simp only [List.forall_mem_append] at hl hr
    refine ⟨inner, inner', hl.2, hr.1, fun text => ?_⟩
    have hoperand : s.operand text.toList =
        left ++ (('(' :: ((inner ++ (text.toList ++ inner')) ++ [')'])) ++ right) := by
      rw [operand, hleft, hright]
      simp only [List.append_assoc, List.cons_append, List.nil_append]
    rw [operandText, hoperand, Text.trim_spaces_append hl.1, Text.trim_append_spaces hr.2,
      Text.trim_of_ends (by decide) (by decide)]

theorem Around.readOperand_eq (h : s.Around parens) (htidy : Text.Tidy src.toList)
    (hread : (readOperand (s.operandText src)).2 = some src) (hx : NewName x) :
    ∃ form, readOperand (s.operandText src) = (form, some src) ∧
      readOperand (s.operandText x) = (form, some x) := by
  cases parens with
  | false =>
    rw [operandText_direct h htidy] at hread ⊢
    rw [operandText_direct h (tidy_name hx.name), readOperand_name hx]
    rcases of_readOperand hread with ⟨hvalue, -⟩ | ⟨-, hlength⟩
    · exact ⟨.value, hvalue, rfl⟩
    · exact (Nat.lt_irrefl _ hlength).elim
  | true =>
    obtain ⟨inner, inner', hinner, hinner', htext⟩ := operandText_enclosed h
    rw [htext x, readOperand_enclosed hx hinner hinner']
    rcases of_readOperand hread with ⟨-, hsame⟩ | ⟨haddress, -⟩
    · have hlength := congrArg String.length hsame
      rw [htext src, String.length_ofList] at hlength
      simp only [List.length_cons, List.length_append, String.length_toList] at hlength
      omega
    · exact ⟨.address, haddress, rfl⟩

end Site

/-- The entry of an instruction has the operands that were read, and its expression is the only one
among them. -/
theorem of_readShape? (h : readShape? key operands = some (entry, src)) :
    entry ∈ Instruction.table ∧ entry.operands = operands.map (fun text => (readOperand text).1) ∧
      ∀ text ∈ operands, ∀ expr, (readOperand text).2 = some expr → expr = src := by
  have hfound {found : Option Instruction.Entry} {text : String}
      (hfind : found = Instruction.find? key ((operands.map readOperand).map Prod.fst))
      (h : found.map (·, text) = some (entry, src)) :
      entry ∈ Instruction.table ∧ entry.operands = operands.map (fun text => (readOperand text).1) ∧
        text = src := by
    obtain ⟨e, he, heq⟩ := Option.map_eq_some_iff.1 h
    cases heq
    rw [hfind] at he
    have hboth := List.find?_some he
    rw [Bool.and_eq_true, decide_eq_true_eq, decide_eq_true_eq, List.map_map] at hboth
    exact ⟨List.mem_of_find?_eq_some he, hboth.2, rfl⟩
  have hmem {text expr : String} (htext : text ∈ operands)
      (hexpr : (readOperand text).2 = some expr) :
      expr ∈ (operands.map readOperand).filterMap Prod.snd :=
    List.mem_filterMap.2 ⟨_, List.mem_map_of_mem htext, hexpr⟩
  unfold readShape? at h
  dsimp only at h
  split at h
  · rename_i hnone
    obtain ⟨hentry, hoperands, -⟩ := hfound rfl h
    refine ⟨hentry, hoperands, fun text htext expr hexpr => ?_⟩
    have hin := hmem htext hexpr
    rw [hnone] at hin
    cases hin
  · rename_i one hone
    obtain ⟨hentry, hoperands, rfl⟩ := hfound rfl h
    refine ⟨hentry, hoperands, fun text htext expr hexpr => ?_⟩
    have hin := hmem htext hexpr
    rw [hone] at hin
    exact List.mem_singleton.1 hin
  · cases h

end Source
end Z80Asm
